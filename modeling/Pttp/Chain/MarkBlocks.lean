import Pttp.Chain.BlockHeader
import Pttp.Lib.Forest

/-!
# Heights of blocks

`mark_blocks` walks from every block to its parents and gives the blocks of the walk
their heights when it ends: at a first block, at a parent that is not stored, or at a
block that has its height. The loop over the blocks stops at the first one that an
earlier walk marked with -1, where it should go on to the next. Heights do not wrap: a chain
of 2^31 blocks is out of reach.
-/

namespace Pttp.Chain

open Forest

abbrev Blocks := Finmap fun _ : Bytes => BlockHeader

abbrev Heights := Finmap fun _ : Bytes => Int

def zeroBlock : Bytes := List.replicate 32 0

def Heights.get (heights : Heights) (hash : Bytes) : Int := (heights.lookup hash).getD 0

/-- `for (auto e : list) heights[e] = v`. -/
def setAll (v : Int) : Heights → List Bytes → Heights
  | heights, [] => heights
  | heights, e :: rest => setAll v (heights.insert e v) rest

/-- The heights of a walk, from its end: `list` has its last block first. -/
def setHeights : Heights → Int → List Bytes → Heights
  | heights, _, [] => heights
  | heights, h, x :: rest => setHeights (heights.insert x (h + 1)) (h + 1) rest

/-- The walk from a block, which is the last of `list`; no heights when it does not end. -/
def walk (blocks : Blocks) (heights : Heights) :
    Nat → List Bytes → BlockHeader → Option Heights
  | 0, _, _ => none
  | fuel + 1, list, cur =>
      if cur.prevHash = zeroBlock then some (setHeights heights 0 list)
      else
        match blocks.lookup cur.prevHash with
        | none => some (setAll (-1) heights list)
        | some next =>
            if heights.get cur.prevHash = -1 then some (setAll (-1) heights list)
            else if 0 < heights.get cur.prevHash then
              some (setHeights heights (heights.get cur.prevHash) list)
            else walk blocks heights fuel (cur.prevHash :: list) next

def markLoop (blocks : Blocks) (fuel : Nat) : Heights → List Bytes → Option Heights
  | heights, [] => some heights
  | heights, b :: rest =>
      -- `break`
      if heights.get b = -1 then some heights
      else do
        let header ← blocks.lookup b
        let heights ← walk blocks heights fuel [b] header
        markLoop blocks fuel heights rest

/-- `BlockChain::mark_blocks`, with the turns that a walk may take. Its heights are integers and
do not wrap. -/
def markBlocks (blocks : Blocks) (fuel : Nat) (heights : Heights) : Option Heights :=
  markLoop blocks fuel (setAll 0 heights (blocks.keys.sort (· ≤ ·))) (blocks.keys.sort (· ≤ ·))

/-- Where a block leads by its `prev_hash`. -/
def link (blocks : Blocks) (x : Bytes) : Link Bytes :=
  match blocks.lookup x with
  | none => .missing
  | some header =>
      if header.prevHash = zeroBlock then .root
      else if header.prevHash ∈ blocks then .parent header.prevHash
      else .missing

/-! ## Writing heights -/

theorem get_insert_self (heights : Heights) (x : Bytes) (v : Int) :
    Heights.get (heights.insert x v) x = v := by
  unfold Heights.get
  rw [Finmap.lookup_insert]
  rfl

theorem get_insert_of_ne (heights : Heights) {x y : Bytes} (v : Int) (other : y ≠ x) :
    Heights.get (heights.insert x v) y = heights.get y := by
  unfold Heights.get
  rw [Finmap.lookup_insert_of_ne _ other]

theorem get_setAll (v : Int) (heights : Heights) (list : List Bytes) (x : Bytes) :
    Heights.get (setAll v heights list) x = if x ∈ list then v else heights.get x := by
  induction list generalizing heights with
  | nil => rfl
  | cons e list ih =>
    rw [setAll, ih]
    by_cases later : x ∈ list
    · rw [if_pos later, if_pos (List.mem_cons_of_mem e later)]
    · rw [if_neg later]
      by_cases here : x = e
      · rw [here, get_insert_self, if_pos List.mem_cons_self]
      · rw [get_insert_of_ne _ _ here, if_neg (by simp [here, later])]

theorem get_setHeights_of_not_mem (heights : Heights) (h : Int) {list : List Bytes} {x : Bytes}
    (outside : x ∉ list) : Heights.get (setHeights heights h list) x = heights.get x := by
  induction list generalizing heights h with
  | nil => rfl
  | cons e list ih =>
    rw [List.mem_cons, not_or] at outside
    rw [setHeights, ih _ _ outside.2, get_insert_of_ne _ _ outside.1]

theorem mark_setHeights {blocks : Blocks} (heights : Heights) (k : Nat) {x : Bytes}
    {list : List Bytes} (path : Path (link blocks) (x :: list))
    (depth : Depth (link blocks) x (k + 1)) :
    ∀ y ∈ x :: list,
      Mark (link blocks) y (Heights.get (setHeights heights k (x :: list)) y) := by
  induction list generalizing heights k x with
  | nil =>
    intro y member
    rw [List.mem_singleton.mp member, setHeights, setHeights, get_insert_self]
    exact .inl ⟨k + 1, depth, rfl⟩
  | cons z list ih =>
    obtain ⟨parent, rest⟩ := List.isChain_cons_cons.mp path
    have below := ih (heights.insert x ((k : Int) + 1)) (k + 1) rest (.parent parent depth)
    intro y member
    rw [setHeights]
    by_cases later : y ∈ z :: list
    · exact below y later
    · have here : y = x := (List.mem_cons.mp member).resolve_right later
      rw [get_setHeights_of_not_mem _ _ later, here, get_insert_self]
      exact .inl ⟨k + 1, depth, rfl⟩

/-! ## The walk -/

section Walk

variable {blocks : Blocks}

theorem link_of_lookup {x : Bytes} {header : BlockHeader} (stored : blocks.lookup x = some header) :
    link blocks x =
      if header.prevHash = zeroBlock then .root
      else if header.prevHash ∈ blocks then .parent header.prevHash
      else .missing := by
  unfold link
  rw [stored]

theorem mem_of_link {x y : Bytes} (linked : link blocks x = .parent y) :
    x ∈ blocks ∧ y ∈ blocks := by
  unfold link at linked
  split at linked
  · cases linked
  · rename_i header stored
    split at linked
    · cases linked
    · split at linked
      · obtain rfl := Link.parent.inj linked
        exact ⟨Finmap.mem_of_lookup_eq_some stored, ‹_›⟩
      · cases linked

/-- What a walk leaves: the heights of a path that ends with its list, and above the path
there is a height or nothing. -/
def Marked (blocks : Blocks) (heights heights' : Heights) (list : List Bytes) : Prop :=
  ∃ top rest, list <:+ top :: rest ∧ Path (link blocks) (top :: rest) ∧
    (∀ x ∈ top :: rest, Mark (link blocks) x (heights'.get x)) ∧
    (∀ x, x ∉ top :: rest → heights'.get x = heights.get x) ∧
    ∀ y, link blocks top = .parent y → heights.get y ≠ 0

/-- The heights of stored blocks are right where they are set, and set above where they are
set. -/
structure HeightsSound (blocks : Blocks) (heights : Heights) : Prop where
  mark : ∀ x ∈ blocks, heights.get x ≠ 0 → Mark (link blocks) x (heights.get x)
  upward : ∀ x y, link blocks x = .parent y → heights.get x ≠ 0 → heights.get y ≠ 0

theorem marked_setHeights {heights : Heights} (k : Nat) {x : Bytes} {list : List Bytes}
    (path : Path (link blocks) (x :: list)) (depth : Depth (link blocks) x (k + 1))
    (above : ∀ y, link blocks x = .parent y → heights.get y ≠ 0) :
    Marked blocks heights (setHeights heights k (x :: list)) (x :: list) :=
  ⟨x, list, List.suffix_rfl, path, mark_setHeights heights k path depth,
    fun _ outside => get_setHeights_of_not_mem heights k outside, above⟩

theorem marked_setAll {heights : Heights} {x : Bytes} {list : List Bytes}
    (path : Path (link blocks) (x :: list)) (orphaned : Orphaned (link blocks) x)
    (above : ∀ y, link blocks x = .parent y → heights.get y ≠ 0) :
    Marked blocks heights (setAll (-1) heights (x :: list)) (x :: list) := by
  refine ⟨x, list, List.suffix_rfl, path, ?_, ?_, above⟩
  · intro y member
    rw [get_setAll, if_pos member]
    exact .inr ⟨orphaned.of_above (path.above y member), rfl⟩
  · intro y outside
    rw [get_setAll, if_neg outside]

theorem walk_marked {heights heights' : Heights} (sound : HeightsSound blocks heights) (fuel : Nat)
    {x : Bytes} {list : List Bytes} {cur : BlockHeader} (stored : blocks.lookup x = some cur)
    (path : Path (link blocks) (x :: list))
    (ended : walk blocks heights fuel (x :: list) cur = some heights') :
    Marked blocks heights heights' (x :: list) := by
  have linked := link_of_lookup stored
  induction fuel generalizing x list cur with
  | zero => cases ended
  | succ fuel ih =>
    rw [walk] at ended
    split at ended
    case isTrue first =>
      rw [if_pos first] at linked
      obtain rfl := Option.some.inj ended
      refine marked_setHeights 0 path (.root linked) ?_
      intro y parent
      rw [linked] at parent
      cases parent
    case isFalse later =>
      rw [if_neg later] at linked
      split at ended
      case h_1 unknown =>
        rw [if_neg (Finmap.lookup_eq_none.mp unknown)] at linked
        obtain rfl := Option.some.inj ended
        refine marked_setAll path (.missing linked) ?_
        intro y parent
        rw [linked] at parent
        cases parent
      case h_2 next known =>
        have member := Finmap.mem_of_lookup_eq_some known
        rw [if_pos member] at linked
        have only : ∀ y, link blocks x = .parent y → cur.prevHash = y := by
          intro y parent
          rw [linked] at parent
          exact Link.parent.inj parent
        split at ended
        case isTrue negative =>
          have nonzero : heights.get cur.prevHash ≠ 0 := by omega
          obtain rfl := Option.some.inj ended
          refine marked_setAll path ?_ fun y parent => only y parent ▸ nonzero
          exact .parent linked ((sound.mark _ member nonzero).orphaned negative)
        case isFalse =>
          split at ended
          case isTrue positive =>
            obtain ⟨k, value⟩ := Int.eq_ofNat_of_zero_le positive.le
            have nonzero : heights.get cur.prevHash ≠ 0 := by omega
            have depth := (sound.mark _ member nonzero).depth value
            rw [value] at ended
            obtain rfl := Option.some.inj ended
            exact marked_setHeights k path (.parent linked depth)
              fun y parent => only y parent ▸ nonzero
          case isFalse =>
            obtain ⟨top, rest, suffix, whole⟩ := ih known
              (List.isChain_cons_cons.mpr ⟨linked, path⟩) ended (link_of_lookup known)
            exact ⟨top, rest, (List.suffix_cons _ _).trans suffix, whole⟩

theorem Marked.sound {heights heights' : Heights} {s : Bytes} (sound : HeightsSound blocks heights)
    (marked : Marked blocks heights heights' [s]) :
    HeightsSound blocks heights' ∧ ∀ x ∈ blocks,
      (heights'.get x ≠ 0 ↔ heights.get x ≠ 0 ∨ Above (link blocks) x s) := by
  obtain ⟨top, rest, suffix, path, marks, same, above⟩ := marked
  have set : ∀ x ∈ top :: rest, heights'.get x ≠ 0 := fun x member => (marks x member).ne_zero
  have kept : ∀ x, heights.get x ≠ 0 → heights'.get x ≠ 0 := by
    intro x before
    by_cases member : x ∈ top :: rest
    · exact set x member
    · rwa [same x member]
  have upward : ∀ x y, link blocks x = .parent y → heights'.get x ≠ 0 → heights'.get y ≠ 0 := by
    intro x y parent here
    by_cases member : x ∈ top :: rest
    · rcases path.eq_or_parent x member with rfl | ⟨z, within, parent'⟩
      · exact kept y (above y parent)
      · rw [parent] at parent'
        obtain rfl := Link.parent.inj parent'
        exact set y within
    · rw [same x member] at here
      exact kept y (sound.upward x y parent here)
  refine ⟨⟨?_, upward⟩, ?_⟩
  · intro x stored here
    by_cases member : x ∈ top :: rest
    · exact marks x member
    · rw [same x member] at here ⊢
      exact sound.mark x stored here
  · intro x _
    obtain ⟨front, whole⟩ := suffix
    rw [← whole] at path set same
    constructor
    · intro here
      by_cases member : x ∈ front ++ [s]
      · exact .inr (path.above_last x member)
      · rw [same x member] at here
        exact .inl here
    · rintro (before | above)
      · exact kept x before
      · exact above.induct upward (set s (by simp))

theorem walk_ends (founded : WellFounded (Parent (link blocks))) {x : Bytes} {cur : BlockHeader}
    (stored : blocks.lookup x = some cur) :
    ∃ n, ∀ m ≥ n, ∀ heights list, ∃ heights', walk blocks heights m list cur = some heights' := by
  induction x using founded.induction generalizing cur with
  | _ x ih =>
    have linked := link_of_lookup stored
    by_cases first : cur.prevHash = zeroBlock
    · refine ⟨1, ?_⟩
      rintro (_ | m) enough heights list
      · exact absurd enough (by decide)
      · exact ⟨_, by rw [walk, if_pos first]⟩
    · cases known : blocks.lookup cur.prevHash with
      | none =>
        refine ⟨1, ?_⟩
        rintro (_ | m) enough heights list
        · exact absurd enough (by decide)
        · exact ⟨setAll (-1) heights list, by simp [walk, first, known]⟩
      | some next =>
        rw [if_neg first, if_pos (Finmap.mem_of_lookup_eq_some known)] at linked
        obtain ⟨n, ends⟩ := ih cur.prevHash linked known
        refine ⟨n + 1, ?_⟩
        rintro (_ | m) enough heights list
        · exact absurd enough (Nat.not_succ_le_zero n)
        · obtain ⟨heights', ended⟩ :=
            ends m (Nat.le_of_succ_le_succ enough) heights (cur.prevHash :: list)
          rw [walk, if_neg first]
          simp only [known]
          split
          · exact ⟨_, rfl⟩
          · split
            · exact ⟨_, rfl⟩
            · exact ⟨heights', ended⟩

theorem walk_mono {heights heights' : Heights} {n m : Nat} (enough : n ≤ m) {list : List Bytes}
    {cur : BlockHeader} (ended : walk blocks heights n list cur = some heights') :
    walk blocks heights m list cur = some heights' := by
  induction n generalizing m list cur with
  | zero => cases ended
  | succ n ih =>
    obtain _ | m := m
    · exact absurd enough (Nat.not_succ_le_zero n)
    · rw [walk] at ended ⊢
      split at ended
      case isTrue first =>
        rw [if_pos first]
        exact ended
      case isFalse later =>
        rw [if_neg later]
        cases known : blocks.lookup cur.prevHash with
        | none =>
          simp only [known] at ended ⊢
          exact ended
        | some next =>
          simp only [known] at ended ⊢
          split at ended
          case isTrue negative => rwa [if_pos negative]
          case isFalse other =>
            rw [if_neg other]
            split at ended
            case isTrue positive => rwa [if_pos positive]
            case isFalse unset =>
              rw [if_neg unset]
              exact ih (Nat.le_of_succ_le_succ enough) ended

end Walk

/-! ## The loop -/

section Loop

variable {blocks : Blocks}

theorem markLoop_ends (founded : WellFounded (Parent (link blocks))) {keys : List Bytes}
    (stored : ∀ b ∈ keys, b ∈ blocks) :
    ∃ n, ∀ m ≥ n, ∀ heights, ∃ heights', markLoop blocks m heights keys = some heights' := by
  induction keys with
  | nil => exact ⟨0, fun _ _ heights => ⟨heights, rfl⟩⟩
  | cons b keys ih =>
    obtain ⟨n, rest⟩ := ih fun c member => stored c (List.mem_cons_of_mem b member)
    obtain ⟨header, known⟩ := Finmap.mem_iff.mp (stored b List.mem_cons_self)
    obtain ⟨n', ends⟩ := walk_ends founded known
    refine ⟨max n n', ?_⟩
    intro m enough heights
    obtain ⟨walked, ended⟩ := ends m (le_of_max_le_right enough) heights [b]
    obtain ⟨heights', looped⟩ := rest m (le_of_max_le_left enough) walked
    rw [markLoop]
    split
    · exact ⟨heights, rfl⟩
    · exact ⟨heights', by simp [known, ended, looped]⟩

theorem markLoop_mono {heights heights' : Heights} {n m : Nat} (enough : n ≤ m)
    {keys : List Bytes} (looped : markLoop blocks n heights keys = some heights') :
    markLoop blocks m heights keys = some heights' := by
  induction keys generalizing heights with
  | nil => exact looped
  | cons b keys ih =>
    rw [markLoop] at looped ⊢
    split at looped
    case isTrue negative => rwa [if_pos negative]
    case isFalse unmet =>
      obtain ⟨header, known, looped⟩ := Option.bind_eq_some_iff.mp looped
      obtain ⟨next, ended, looped⟩ := Option.bind_eq_some_iff.mp looped
      rw [if_neg unmet, known]
      simp [walk_mono enough ended, ih looped]

structure Walked (blocks : Blocks) (done : List Bytes) (heights : Heights) : Prop where
  sound : HeightsSound blocks heights
  reached : ∀ x ∈ blocks, (heights.get x ≠ 0 ↔ ∃ s ∈ done, Above (link blocks) x s)

/-- `d` is marked with -1 before the loop comes to it. -/
def Met (blocks : Blocks) (done : List Bytes) (d : Bytes) : Prop :=
  Orphaned (link blocks) d ∧ ∃ s ∈ done, Above (link blocks) d s

theorem Walked.eq_neg_one_iff {done : List Bytes} {heights : Heights}
    (walked : Walked blocks done heights) {d : Bytes} (stored : d ∈ blocks) :
    heights.get d = -1 ↔ Met blocks done d := by
  unfold Met
  rw [← walked.reached d stored]
  constructor
  · intro negative
    have nonzero : heights.get d ≠ 0 := by omega
    exact ⟨(walked.sound.mark d stored nonzero).orphaned negative, nonzero⟩
  · rintro ⟨orphaned, nonzero⟩
    exact (walked.sound.mark d stored nonzero).eq_neg_one orphaned

/-- The loop walks from the blocks in order, up to the first that was met before. -/
theorem markLoop_walked {fuel : Nat} {keys done : List Bytes} {heights heights' : Heights}
    (walked : Walked blocks done heights) (stored : ∀ b ∈ keys, b ∈ blocks)
    (looped : markLoop blocks fuel heights keys = some heights') :
    ∃ front rest, keys = front ++ rest ∧ Walked blocks (done ++ front) heights' ∧
      (∀ before d after, front = before ++ d :: after → ¬ Met blocks (done ++ before) d) ∧
      ∀ d, rest.head? = some d → Met blocks (done ++ front) d := by
  induction keys generalizing done heights with
  | nil =>
    obtain rfl := Option.some.inj looped
    exact ⟨[], [], rfl, by simpa using walked, by simp, by simp⟩
  | cons b keys ih =>
    have here := stored b List.mem_cons_self
    rw [markLoop] at looped
    split at looped
    case isTrue negative =>
      obtain rfl := Option.some.inj looped
      refine ⟨[], b :: keys, rfl, by simpa using walked, by simp, ?_⟩
      intro d first
      obtain rfl := Option.some.inj first
      simpa using (walked.eq_neg_one_iff here).mp negative
    case isFalse unmet =>
      obtain ⟨header, known, looped⟩ := Option.bind_eq_some_iff.mp looped
      obtain ⟨next, ended, looped⟩ := Option.bind_eq_some_iff.mp looped
      obtain ⟨sound, reached⟩ :=
        (walk_marked walked.sound fuel known (List.isChain_singleton b) ended).sound walked.sound
      have walked' : Walked blocks (done ++ [b]) next := by
        refine ⟨sound, ?_⟩
        intro x within
        rw [reached x within, walked.reached x within]
        simp [or_and_right, exists_or]
      obtain ⟨front, rest, rfl, final, passed, stopped⟩ := ih walked'
        (fun c member => stored c (List.mem_cons_of_mem b member)) looped
      rw [List.append_assoc] at final
      refine ⟨b :: front, rest, rfl, final, ?_, ?_⟩
      · rintro (_ | ⟨c, before⟩) d after split
        · obtain ⟨rfl, -⟩ := List.cons.inj split
          rw [List.append_nil, ← walked.eq_neg_one_iff here]
          exact unmet
        · obtain ⟨rfl, split'⟩ := List.cons.inj split
          have later := passed before d after split'
          rwa [List.append_assoc] at later
      · intro d first
        have later := stopped d first
        rwa [List.append_assoc] at later

theorem mem_iff_of_split {front after : List Bytes} {d : Bytes}
    (split : blocks.keys.sort (· ≤ ·) = front ++ d :: after) (e : Bytes) :
    e ∈ front ↔ e ∈ blocks ∧ e < d := by
  have sorted : (blocks.keys.sort (· ≤ ·)).Pairwise (· < ·) :=
    (Finset.sortedLT_sort blocks.keys).pairwise
  have member : e ∈ blocks ↔ e ∈ front ++ d :: after := by
    rw [← split, Finset.mem_sort, Finmap.mem_keys]
  rw [split, List.pairwise_append, List.pairwise_cons] at sorted
  obtain ⟨-, ⟨behind, -⟩, across⟩ := sorted
  rw [member, List.mem_append, List.mem_cons]
  constructor
  · intro within
    exact ⟨.inl within, across e within d List.mem_cons_self⟩
  · rintro ⟨within | rfl | within, below⟩
    · exact within
    · exact absurd below (lt_irrefl e)
    · exact absurd below (behind e within).asymm

theorem walked_fresh (heights : Heights) :
    Walked blocks [] (setAll 0 heights (blocks.keys.sort (· ≤ ·))) := by
  have unset : ∀ x ∈ blocks,
      Heights.get (setAll 0 heights (blocks.keys.sort (· ≤ ·))) x = 0 := by
    intro x stored
    rw [get_setAll, if_pos ((Finset.mem_sort _).mpr (Finmap.mem_keys.mpr stored))]
  refine ⟨⟨?_, ?_⟩, ?_⟩
  · intro x stored nonzero
    exact absurd (unset x stored) nonzero
  · intro x y linked nonzero
    exact absurd (unset x (mem_of_link linked).1) nonzero
  · intro x stored
    simp [unset x stored]

/-- The call returns the same heights for all fuel that is enough. -/
def Marks (blocks : Blocks) (heights heights' : Heights) : Prop :=
  ∃ n, ∀ m ≥ n, markBlocks blocks m heights = some heights'

theorem wellFounded_parent (acyclic : Acyclic (link blocks)) :
    WellFounded (Parent (link blocks)) :=
  acyclic.wellFounded blocks.keys.finite_toSet fun _ _ linked =>
    Finmap.mem_keys.mpr (mem_of_link linked).1

theorem marks_unique {heights first second : Heights} (one : Marks blocks heights first)
    (other : Marks blocks heights second) : first = second := by
  obtain ⟨n, ends⟩ := one
  obtain ⟨n', ends'⟩ := other
  have same := (ends (max n n') (le_max_left n n')).symm.trans
    (ends' (max n n') (le_max_right n n'))
  exact Option.some.inj same

/-- Without a cycle the call ends: it has walked from the blocks below some hash, and it
was at that hash that it met -1. -/
theorem markBlocks_walked (acyclic : Acyclic (link blocks)) (heights : Heights) :
    ∃ heights' front rest, Marks blocks heights heights' ∧
      blocks.keys.sort (· ≤ ·) = front ++ rest ∧ Walked blocks front heights' ∧
      (∀ before d after, front = before ++ d :: after → ¬ Met blocks before d) ∧
      ∀ d, rest.head? = some d → Met blocks front d := by
  have stored : ∀ b ∈ blocks.keys.sort (· ≤ ·), b ∈ blocks := by
    intro b member
    exact Finmap.mem_keys.mp ((Finset.mem_sort _).mp member)
  obtain ⟨n, ends⟩ := markLoop_ends (wellFounded_parent acyclic) stored
  obtain ⟨heights', looped⟩ := ends n (Nat.le_refl n) (setAll 0 heights _)
  obtain ⟨front, rest, split, walked, passed, stopped⟩ :=
    markLoop_walked (walked_fresh heights) stored looped
  exact ⟨heights', front, rest, ⟨n, fun m enough => markLoop_mono enough looped⟩, split, walked,
    passed, stopped⟩

/-- `mark_blocks` ends and assigns no wrong height. -/
theorem markBlocks_right (acyclic : Acyclic (link blocks)) (heights : Heights) :
    ∃ heights', Marks blocks heights heights' ∧
      (∀ x ∈ blocks, ∀ k : Nat, 0 < k → heights'.get x = k → Depth (link blocks) x k) ∧
      ∀ x ∈ blocks, heights'.get x = -1 → Orphaned (link blocks) x := by
  obtain ⟨heights', front, rest, marks, -, walked, -, -⟩ := markBlocks_walked acyclic heights
  refine ⟨heights', marks, ?_, ?_⟩
  · intro x stored k positive value
    exact (walked.sound.mark x stored (by omega)).depth value
  · intro x stored value
    exact (walked.sound.mark x stored (by omega)).orphaned value

/-! ## Blocks without a height -/

/-- Every block has a height: a positive one below a first block, -1 below a missing one. -/
def Classified (blocks : Blocks) (heights : Heights) : Prop :=
  ∀ x ∈ blocks, heights.get x ≠ 0 ∧ ((∃ k, Depth (link blocks) x k) → 0 < heights.get x) ∧
    (Orphaned (link blocks) x → heights.get x = -1)

/-- Wherever an orphaned block is above one of smaller hash, the blocks of greater hash are
all above blocks of smaller hash. -/
def Unbroken (blocks : Blocks) : Prop :=
  ∀ d ∈ blocks, Orphaned (link blocks) d → (∃ e ∈ blocks, e < d ∧ Above (link blocks) d e) →
    ∀ m ∈ blocks, d < m → ∃ e ∈ blocks, e < d ∧ Above (link blocks) m e

theorem Walked.classified_iff {done : List Bytes} {heights : Heights}
    (walked : Walked blocks done heights) :
    Classified blocks heights ↔ ∀ x ∈ blocks, ∃ s ∈ done, Above (link blocks) x s := by
  constructor
  · intro classified x stored
    exact (walked.reached x stored).mp (classified x stored).1
  · intro above x stored
    have nonzero := (walked.reached x stored).mpr (above x stored)
    have mark := walked.sound.mark x stored nonzero
    refine ⟨nonzero, ?_, fun orphaned => mark.eq_neg_one orphaned⟩
    rintro ⟨k, depth⟩
    rcases mark with ⟨l, depth', value⟩ | ⟨orphaned, -⟩
    · have := depth'.positive
      omega
    · exact absurd orphaned depth.not_orphaned

theorem met_iff {front after : List Bytes} {d : Bytes}
    (split : blocks.keys.sort (· ≤ ·) = front ++ d :: after) :
    Met blocks front d ↔
      Orphaned (link blocks) d ∧ ∃ e ∈ blocks, e < d ∧ Above (link blocks) d e := by
  unfold Met
  simp only [mem_iff_of_split split, and_assoc]

theorem classified_iff_unbroken {front rest : List Bytes} {heights : Heights}
    (split : blocks.keys.sort (· ≤ ·) = front ++ rest) (walked : Walked blocks front heights)
    (passed : ∀ before d after, front = before ++ d :: after → ¬ Met blocks before d)
    (stopped : ∀ d, rest.head? = some d → Met blocks front d) :
    Classified blocks heights ↔ Unbroken blocks := by
  rw [walked.classified_iff]
  have listed : ∀ x, x ∈ blocks ↔ x ∈ front ∨ x ∈ rest := by
    intro x
    rw [← List.mem_append, ← split, Finset.mem_sort, Finmap.mem_keys]
  -- a block that was met is not in front of the one the loop stops at
  have behind : ∀ d, Orphaned (link blocks) d →
      (∃ e ∈ blocks, e < d ∧ Above (link blocks) d e) → d ∉ front := by
    intro d orphaned below within
    obtain ⟨before, after, rfl⟩ := List.append_of_mem within
    rw [List.append_assoc, List.cons_append] at split
    exact passed before d after rfl ((met_iff split).mpr ⟨orphaned, below⟩)
  obtain _ | ⟨c, rest⟩ := rest
  · refine iff_of_true ?_ ?_
    · intro x stored
      exact ⟨x, ((listed x).mp stored).resolve_right List.not_mem_nil, .refl⟩
    · intro d stored orphaned below
      exact absurd (((listed d).mp stored).resolve_right List.not_mem_nil)
        (behind d orphaned below)
  · have smaller := mem_iff_of_split split
    obtain ⟨orphaned, below⟩ := (met_iff split).mp (stopped c rfl)
    constructor
    · intro above d stored orphaned' below' m within _
      obtain ⟨s, processed, higher⟩ := above m within
      obtain ⟨known, less⟩ := (smaller s).mp processed
      have later : ¬ d < c := by
        intro sooner
        exact behind d orphaned' below' ((smaller d).mpr ⟨stored, sooner⟩)
      exact ⟨s, known, less.trans_le (not_lt.mp later), higher⟩
    · intro unbroken x stored
      have here : c ∈ blocks := (listed c).mpr (.inr List.mem_cons_self)
      rcases lt_trichotomy x c with sooner | rfl | later
      · exact ⟨x, (smaller x).mpr ⟨stored, sooner⟩, .refl⟩
      · obtain ⟨e, known, less, higher⟩ := below
        exact ⟨e, (smaller e).mpr ⟨known, less⟩, higher⟩
      · obtain ⟨e, known, less, higher⟩ := unbroken c here orphaned below x stored later
        exact ⟨e, (smaller e).mpr ⟨known, less⟩, higher⟩

theorem Marks.classified_iff (acyclic : Acyclic (link blocks)) {heights heights' : Heights}
    (marks : Marks blocks heights heights') : Classified blocks heights' ↔ Unbroken blocks := by
  obtain ⟨marked, front, rest, marks', split, walked, passed, stopped⟩ :=
    markBlocks_walked acyclic heights
  rw [marks_unique marks marks']
  exact classified_iff_unbroken split walked passed stopped

/-- `mark_blocks` gives every block its height exactly when no orphaned block that is above
one of smaller hash has a block of greater hash behind it that is not reached sooner. -/
theorem markBlocks_classified_iff (acyclic : Acyclic (link blocks)) (heights : Heights) :
    (∃ heights', Marks blocks heights heights' ∧ Classified blocks heights') ↔
      Unbroken blocks := by
  constructor
  · rintro ⟨heights', marks, classified⟩
    exact (marks.classified_iff acyclic).mp classified
  · intro unbroken
    obtain ⟨heights', front, rest, marks, -⟩ := markBlocks_walked acyclic heights
    exact ⟨heights', marks, (marks.classified_iff acyclic).mpr unbroken⟩

end Loop

/-- A first block with a fork under it, and an orphan with a block under it. -/
def forkedBlocks : Blocks :=
  ((((Finmap.singleton [2] { BlockHeader.new with prevHash := [6] }).insert [3]
    { BlockHeader.new with prevHash := [6] }).insert [4]
    { BlockHeader.new with prevHash := [5] }).insert [5]
    { BlockHeader.new with prevHash := [9] }).insert [6]
    { BlockHeader.new with prevHash := zeroBlock }

def oldHeights : Heights := (Finmap.singleton [6] 7).insert [4] 3

theorem mem_forkedBlocks {x : Bytes} (stored : x ∈ forkedBlocks) :
    x = [2] ∨ x = [3] ∨ x = [4] ∨ x = [5] ∨ x = [6] := by
  unfold forkedBlocks at stored
  simp only [Finmap.mem_insert, Finmap.mem_singleton] at stored
  tauto

theorem link_forkedBlocks :
    link forkedBlocks [2] = .parent [6] ∧ link forkedBlocks [3] = .parent [6] ∧
      link forkedBlocks [4] = .parent [5] ∧ link forkedBlocks [5] = .missing ∧
      link forkedBlocks [6] = .root :=
  ⟨rfl, rfl, rfl, rfl, rfl⟩

theorem acyclic_forkedBlocks : Acyclic (link forkedBlocks) := by
  obtain ⟨fork, fork', child, orphan, first⟩ := link_forkedBlocks
  apply acyclic_of_rank fun x => if x = [5] ∨ x = [6] then 0 else 1
  intro x y linked
  rcases mem_forkedBlocks (mem_of_link linked).1 with rfl | rfl | rfl | rfl | rfl
  · rw [← Link.parent.inj (fork.symm.trans linked)]
    decide
  · rw [← Link.parent.inj (fork'.symm.trans linked)]
    decide
  · rw [← Link.parent.inj (child.symm.trans linked)]
    decide
  · cases orphan.symm.trans linked
  · cases first.symm.trans linked

theorem not_orphaned_fork : ¬ Orphaned (link forkedBlocks) [2] ∧
    ¬ Orphaned (link forkedBlocks) [3] ∧ ¬ Orphaned (link forkedBlocks) [6] := by
  obtain ⟨fork, fork', -, -, first⟩ := link_forkedBlocks
  have depth : Depth (link forkedBlocks) [6] 1 := .root first
  exact ⟨(depth.parent fork).not_orphaned, (depth.parent fork').not_orphaned, depth.not_orphaned⟩

theorem markBlocks_right_forkedBlocks :
    ∃ heights', Marks forkedBlocks oldHeights heights' ∧ heights'.get [6] ≠ 7 ∧
      heights'.get [6] ≠ -1 := by
  obtain ⟨heights', marks, depths, orphans⟩ := markBlocks_right acyclic_forkedBlocks oldHeights
  obtain ⟨-, -, -, -, first⟩ := link_forkedBlocks
  have stored : [6] ∈ forkedBlocks := by decide
  refine ⟨heights', marks, fun seven => ?_, fun negative => ?_⟩
  · cases depths [6] stored 7 (by decide) seven with
    | parent linked => cases first.symm.trans linked
  · exact not_orphaned_fork.2.2 (orphans [6] stored negative)

theorem markBlocks_classified_forkedBlocks :
    ∃ heights', Marks forkedBlocks oldHeights heights' ∧ Classified forkedBlocks heights' := by
  obtain ⟨-, fork', -, -, -⟩ := link_forkedBlocks
  obtain ⟨two, three, six⟩ := not_orphaned_fork
  refine (markBlocks_classified_iff acyclic_forkedBlocks oldHeights).mpr ?_
  rintro d stored orphaned ⟨e, stored', less, above⟩ m stored'' later
  -- only the last block comes after an orphan with a block under it
  have under : Orphaned (link forkedBlocks) e := orphaned.of_above above
  rcases mem_forkedBlocks stored with rfl | rfl | rfl | rfl | rfl
  · exact absurd orphaned two
  · exact absurd orphaned three
  · rcases mem_forkedBlocks stored' with rfl | rfl | rfl | rfl | rfl
    · exact absurd under two
    · exact absurd under three
    · exact absurd less (by decide)
    · exact absurd less (by decide)
    · exact absurd less (by decide)
  · rcases mem_forkedBlocks stored'' with rfl | rfl | rfl | rfl | rfl
    · exact absurd later (by decide)
    · exact absurd later (by decide)
    · exact absurd later (by decide)
    · exact absurd later (by decide)
    · exact ⟨[3], (mem_of_link fork').1, by decide, .single fork'⟩
  · exact absurd orphaned six

/-- An orphan under an orphan of greater hash, and a first block behind both. -/
def threeBlocks : Blocks :=
  ((Finmap.singleton [1] { BlockHeader.new with prevHash := [2] }).insert [2]
    { BlockHeader.new with prevHash := [9] }).insert [3]
    { BlockHeader.new with prevHash := zeroBlock }

theorem mem_threeBlocks {x : Bytes} (stored : x ∈ threeBlocks) : x = [1] ∨ x = [2] ∨ x = [3] := by
  unfold threeBlocks at stored
  rw [Finmap.mem_insert, Finmap.mem_insert, Finmap.mem_singleton] at stored
  tauto

theorem link_threeBlocks :
    link threeBlocks [1] = .parent [2] ∧ link threeBlocks [2] = .missing ∧
      link threeBlocks [3] = .root :=
  ⟨rfl, rfl, rfl⟩

theorem acyclic_threeBlocks : Acyclic (link threeBlocks) := by
  obtain ⟨first, second, third⟩ := link_threeBlocks
  apply acyclic_of_rank fun x => if x = [1] then 1 else 0
  intro x y linked
  rcases mem_threeBlocks (mem_of_link linked).1 with rfl | rfl | rfl
  · rw [first] at linked
    rw [← Link.parent.inj linked]
    decide
  · rw [second] at linked
    cases linked
  · rw [third] at linked
    cases linked

theorem markBlocks_not_classified_threeBlocks :
    Acyclic (link threeBlocks) ∧
      ¬ ∃ heights', Marks threeBlocks ∅ heights' ∧ Classified threeBlocks heights' := by
  refine ⟨acyclic_threeBlocks, ?_⟩
  rintro ⟨heights', marks, classified⟩
  have unbroken := (marks.classified_iff acyclic_threeBlocks).mp classified
  obtain ⟨first, second, third⟩ := link_threeBlocks
  have orphaned : Orphaned (link threeBlocks) [2] := .missing second
  obtain ⟨e, stored, less, above⟩ := unbroken [2] (mem_of_link first).2 orphaned
    ⟨[1], (mem_of_link first).1, by decide, .single first⟩ [3] (by decide) (by decide)
  rcases mem_threeBlocks stored with rfl | rfl | rfl
  · have lost : Orphaned (link threeBlocks) [3] := (Orphaned.parent first orphaned).above_of above
    exact Depth.not_orphaned (.root third) lost
  · exact absurd less (by decide)
  · exact absurd less (by decide)

end Pttp.Chain
