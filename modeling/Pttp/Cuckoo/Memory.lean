import Pttp.Cuckoo.Coherence
import Pttp.Lib.Heap

/-!
# The cache in memory

Here the vectors hold addresses, and `store` deletes what it takes a slot from. With
a slot in `data` for each in `hashes` the slots own the heap: nothing is deleted twice
and no pointer dangles. The constructor makes no slot in `data` at all, and the first
`store` writes past its end.
-/

namespace Pttp.Cuckoo

open Calls Memory

/-- `none` is a null pointer. -/
structure Pointers where
  filter1 : Bloom
  filter2 : Bloom
  hashes : List (Option Nat)
  data : List (Option Nat)
  N : UInt64
  heap : Heap Bytes

namespace Pointers

/-- `Cuckoo::Cuckoo`, which gives `data` no slots. -/
def ofSize (N : UInt64) (key1 key2 : Bytes) : Cpp Pointers := do
  let filter1 ← Bloom.ofInt (Int32.ofNat N.toNat) key1
  let filter2 ← Bloom.ofInt (Int32.ofNat N.toNat) key2
  return ⟨filter1, filter2, List.replicate N.toNat none, [], N, .empty⟩

variable (S : ShortHash)

/-- The slot `store` comes to, and the heap behind what it deletes there. -/
def storeSlot (c : Pointers) (hash : Bytes) : Cpp (Nat × Heap Bytes) := do
  let p ← c.filter1.hash S hash
  let first ← Cpp.index c.hashes p.toNat
  match first with
  | none => return (p.toNat, c.heap)
  | some _ => do
      let p ← c.filter2.hash S hash
      let second ← Cpp.index c.hashes p.toNat
      match second with
      | none => return (p.toNat, c.heap)
      | some stored => do
          let value ← Cpp.index c.data p.toNat
          return (p.toNat, (c.heap.delete stored).deletePointer value)

def store (c : Pointers) (hash newData : Bytes) : Cpp Pointers := do
  let (p, heap) ← c.storeSlot S hash
  let hashes ← Cpp.assign c.hashes p (some heap.next)
  let heap := heap.allocate hash
  let data ← Cpp.assign c.data p (some heap.next)
  return { c with hashes := hashes, data := data, heap := heap.allocate newData }

def compare (c : Pointers) (p stored : Nat) (hash : Bytes) : Cpp (Option Nat) := do
  let key ← Cpp.index c.heap.cells stored
  if key ≠ hash then return none else Cpp.index c.data p

def get (c : Pointers) (hash : Bytes) : Cpp (Option Nat) := do
  let p ← c.filter1.hash S hash
  let first ← Cpp.index c.hashes p.toNat
  match first with
  | none => do
      let p ← c.filter2.hash S hash
      let second ← Cpp.index c.hashes p.toNat
      match second with
      | none => return none
      | some stored => c.compare p.toNat stored hash
  | some stored => c.compare p.toNat stored hash

inductive Call where
  | store (hash newData : Bytes)
  | get (hash : Bytes)

def call (c : Pointers) : Call → Cpp (Pointers × Option Nat)
  | .store hash newData => do
      let c ← c.store S hash newData
      return (c, none)
  | .get hash => do
      let pointer ← c.get S hash
      return (c, pointer)

/-! ## Slots -/

def place1 (c : Pointers) (hash : Bytes) : Nat := S.place c.filter1.key c.filter1.P hash

def place2 (c : Pointers) (hash : Bytes) : Nat := S.place c.filter2.key c.filter2.P hash

def key (c : Pointers) (p : Nat) : Option Nat := (c.hashes[p]?).join

def value (c : Pointers) (p : Nat) : Option Nat := (c.data[p]?).join

def storePlace (c : Pointers) (hash : Bytes) : Nat :=
  if c.key (c.place1 S hash) = none then c.place1 S hash else c.place2 S hash

def getPlace (c : Pointers) (hash : Bytes) : Nat :=
  if c.key (c.place1 S hash) = none then c.place2 S hash else c.place1 S hash

def Matches (c : Pointers) (hash : Bytes) : Prop :=
  ∃ stored, c.key (c.getPlace S hash) = some stored ∧ c.heap.cells[stored]? = some hash

/-! ## The discipline -/

/-- What is asked of the memory between two calls. -/
structure Intact (c : Pointers) : Prop where
  -- no pointer was deleted twice
  once : c.heap.deleted.Nodup
  paired : ∀ p stored, c.key p = some stored → c.heap.Valid stored ∧
    ∃ value, c.value p = some value ∧ c.heap.Valid value
  found : ∀ hash, c.Matches S hash → ∃ value, c.get S hash = .ok (some value) ∧
    c.heap.Valid value

/-- All calls return, so that no index is past the end of its vector, and leave the memory
intact. -/
def Disciplined (c : Pointers) (calls : List Call) : Prop :=
  ∀ before rest, calls = before ++ rest →
    ∃ t, after (call S) c before = .ok t ∧ t.Intact S

/-! ## The slots own the heap -/

def pointer (c : Pointers) : Bool × Nat → Option Nat
  | (false, p) => c.key p
  | (true, p) => c.value p

def evicted (c : Pointers) (p : Nat) : Heap Bytes :=
  match c.key p with
  | none => c.heap
  | some stored => (c.heap.delete stored).deletePointer (c.value p)

def put (c : Pointers) (p : Nat) (hash newData : Bytes) : Pointers :=
  let heap := (c.evicted p).allocate hash
  { c with
    hashes := c.hashes.set p (some (c.evicted p).next)
    data := c.data.set p (some heap.next)
    heap := heap.allocate newData }

structure Owning (c : Pointers) : Prop where
  firstKeyed : 16 ≤ c.filter1.key.length
  secondKeyed : 16 ≤ c.filter2.key.length
  first : ∀ hash, c.place1 S hash < c.hashes.length
  second : ∀ hash, c.place2 S hash < c.hashes.length
  sound : c.heap.Sound
  owned : c.heap.Owned c.pointer
  paired : ∀ p, c.key p ≠ none → c.value p ≠ none

variable {S} {c : Pointers}

theorem lt_of_value_eq_some {p value : Nat} (there : c.value p = some value) :
    p < c.data.length := by
  by_contra outside
  unfold Pointers.value at there
  rw [List.getElem?_eq_none (not_lt.mp outside)] at there
  cases there

namespace Owning

theorem storePlace_lt (owning : c.Owning S) (hash : Bytes) :
    c.storePlace S hash < c.hashes.length := by
  unfold storePlace
  split
  · exact owning.first hash
  · exact owning.second hash

theorem hash_first (owning : c.Owning S) (hash : Bytes) :
    ∃ p, c.filter1.hash S hash = .ok p ∧ p.toNat = c.place1 S hash :=
  ⟨_, Bloom.hash_of_keyed owning.firstKeyed hash, rfl⟩

theorem hash_second (owning : c.Owning S) (hash : Bytes) :
    ∃ p, c.filter2.hash S hash = .ok p ∧ p.toNat = c.place2 S hash :=
  ⟨_, Bloom.hash_of_keyed owning.secondKeyed hash, rfl⟩

theorem index_hashes {p : Nat} (inside : p < c.hashes.length) :
    Cpp.index c.hashes p = .ok (c.key p) := index_eq_join inside

theorem exists_value (owning : c.Owning S) {p stored : Nat} (taken : c.key p = some stored) :
    ∃ value, c.value p = some value :=
  Option.ne_none_iff_exists'.mp (owning.paired p (Option.ne_none_iff_exists'.mpr ⟨stored, taken⟩))

theorem index_data (owning : c.Owning S) {p stored : Nat} (taken : c.key p = some stored) :
    Cpp.index c.data p = .ok (c.value p) := by
  obtain ⟨value, there⟩ := owning.exists_value taken
  exact index_eq_join (lt_of_value_eq_some there)

theorem storeSlot_eq (owning : c.Owning S) (hash : Bytes) :
    c.storeSlot S hash = .ok (c.storePlace S hash, c.evicted (c.storePlace S hash)) := by
  obtain ⟨p, hashed, place⟩ := owning.hash_first hash
  obtain ⟨p', hashed', place'⟩ := owning.hash_second hash
  unfold storeSlot storePlace
  rw [hashed, Cpp.ok_bind, place, index_hashes (owning.first hash), Cpp.ok_bind]
  cases taken : c.key (c.place1 S hash) with
  | none =>
    rw [if_pos rfl]
    unfold evicted
    rw [taken]
    rfl
  | some stored =>
    rw [if_neg (Option.some_ne_none stored)]
    simp only [hashed', Cpp.ok_bind, place', index_hashes (owning.second hash)]
    unfold evicted
    cases taken' : c.key (c.place2 S hash) with
    | none => rfl
    | some stored' =>
      rw [owning.index_data taken']
      rfl

theorem store_eq (owning : c.Owning S) (hash newData : Bytes) :
    c.store S hash newData =
      if c.storePlace S hash < c.data.length then .ok (c.put (c.storePlace S hash) hash newData)
      else .error .pastEnd := by
  unfold store
  rw [owning.storeSlot_eq, Cpp.ok_bind]
  simp only [Cpp.assign_of_lt _ (owning.storePlace_lt hash), Cpp.ok_bind]
  unfold Cpp.assign
  split <;> rfl

end Owning

/-! ## What `store` keeps -/

@[simp] theorem length_hashes_put (p : Nat) (hash newData : Bytes) :
    (c.put p hash newData).hashes.length = c.hashes.length := List.length_set

@[simp] theorem length_data_put (p : Nat) (hash newData : Bytes) :
    (c.put p hash newData).data.length = c.data.length := List.length_set

theorem key_put (hash newData : Bytes) {p : Nat} (inside : p < c.hashes.length) (q : Nat) :
    (c.put p hash newData).key q = if q = p then some (c.evicted p).next else c.key q :=
  join_getElem?_set inside _ q

theorem value_put (hash newData : Bytes) {p : Nat} (inside : p < c.data.length) (q : Nat) :
    (c.put p hash newData).value q =
      if q = p then some ((c.evicted p).allocate hash).next else c.value q :=
  join_getElem?_set inside _ q

theorem pointer_put (hash newData : Bytes) {p : Nat} (inside : p < c.hashes.length)
    (inData : p < c.data.length) :
    (c.put p hash newData).pointer =
      Function.update (Function.update c.pointer (false, p) (some (c.evicted p).next))
        (true, p) (some ((c.evicted p).allocate hash).next) := by
  funext ⟨side, q⟩
  cases side with
  | false =>
    show (c.put p hash newData).key q = _
    rw [key_put hash newData inside, Function.update_of_ne (by simp)]
    by_cases here : q = p
    · rw [if_pos here, here, Function.update_self]
    · rw [if_neg here, Function.update_of_ne (by simp [here])]
      rfl
  | true =>
    show (c.put p hash newData).value q = _
    rw [value_put hash newData inData]
    by_cases here : q = p
    · rw [if_pos here, here, Function.update_self]
    · rw [if_neg here, Function.update_of_ne (by simp [here]),
        Function.update_of_ne (by simp)]
      rfl

theorem Owning.evicted (owning : c.Owning S) (p : Nat) :
    (c.evicted p).Sound ∧ (c.evicted p).Owned
      (Function.update (Function.update c.pointer (false, p) none) (true, p) none) := by
  unfold Pointers.evicted
  cases taken : c.key p with
  | none => exact ⟨owning.sound, (owning.owned.clear _).clear _⟩
  | some stored =>
    obtain ⟨value, there⟩ := owning.exists_value taken
    have keyThere : c.pointer (false, p) = some stored := taken
    have emptied := owning.owned.delete keyThere
    have valueThere : Function.update c.pointer (false, p) none (true, p) = some value := by
      rw [Function.update_of_ne (by simp)]
      exact there
    have sound := owning.sound.delete (owning.owned.valid _ _ keyThere)
    rw [there]
    exact ⟨sound.delete (emptied.valid _ _ valueThere), emptied.delete valueThere⟩

theorem Owning.put (owning : c.Owning S) {p : Nat} (inside : p < c.hashes.length)
    (inData : p < c.data.length) (hash newData : Bytes) :
    (c.put p hash newData).Owning S := by
  obtain ⟨sound, emptied⟩ := owning.evicted p
  have keyed := emptied.allocate sound (false, p) hash
  have valued := keyed.allocate (sound.allocate hash) (true, p) newData
  have twice := Function.update_comm (show (true, p) ≠ (false, p) by simp) none
    (some (c.evicted p).next) (Function.update c.pointer (false, p) none)
  rw [twice, Function.update_idem, Function.update_idem] at valued
  refine ⟨owning.firstKeyed, owning.secondKeyed, ?_, ?_, (sound.allocate hash).allocate newData,
    ?_, ?_⟩
  · intro other
    rw [length_hashes_put]
    exact owning.first other
  · intro other
    rw [length_hashes_put]
    exact owning.second other
  · rw [pointer_put hash newData inside inData]
    exact valued
  · intro q
    rw [key_put hash newData inside, value_put hash newData inData]
    by_cases here : q = p
    · rw [if_pos here, if_pos here]
      exact fun _ => Option.some_ne_none _
    · rw [if_neg here, if_neg here]
      exact owning.paired q

/-- A call that returns puts a key and its value in a slot that both vectors have, or changes
nothing. -/
theorem Owning.call_cases (owning : c.Owning S) {t : Pointers} {op : Call} {answer : Option Nat}
    (called : c.call S op = .ok (t, answer)) :
    (∃ hash newData, op = .store hash newData ∧ c.storePlace S hash < c.data.length ∧
      t = c.put (c.storePlace S hash) hash newData) ∨ (∃ hash, op = .get hash ∧ t = c) := by
  cases op with
  | store hash newData =>
    obtain ⟨u, stored, returned⟩ := Cpp.bind_eq_ok.mp called
    obtain ⟨rfl, -⟩ := Prod.mk.inj (Except.ok.inj returned)
    rw [owning.store_eq] at stored
    split at stored
    case isTrue inData =>
      exact .inl ⟨hash, newData, rfl, inData, (Except.ok.inj stored).symm⟩
    case isFalse => cases stored
  | get hash =>
    obtain ⟨pointer, -, returned⟩ := Cpp.bind_eq_ok.mp called
    exact .inr ⟨hash, rfl, (Prod.mk.inj (Except.ok.inj returned)).1.symm⟩

theorem Owning.call (owning : c.Owning S) {t : Pointers} {op : Call} {answer : Option Nat}
    (called : c.call S op = .ok (t, answer)) : t.Owning S := by
  rcases owning.call_cases called with ⟨hash, newData, rfl, inData, rfl⟩ | ⟨hash, rfl, rfl⟩
  · exact owning.put (owning.storePlace_lt hash) inData hash newData
  · exact owning

theorem Owning.sized_of_call (owning : c.Owning S) (sized : c.data.length = c.hashes.length)
    {t : Pointers} {op : Call} {answer : Option Nat} (called : c.call S op = .ok (t, answer)) :
    t.data.length = t.hashes.length := by
  rcases owning.call_cases called with ⟨hash, newData, rfl, inData, rfl⟩ | ⟨hash, rfl, rfl⟩
  · rw [length_data_put, length_hashes_put, sized]
  · exact sized

/-! ## What `get` finds -/

theorem Owning.compare_eq (owning : c.Owning S) {p stored : Nat} (there : c.key p = some stored)
    (hash : Bytes) : c.compare p stored hash =
      .ok (if c.heap.cells[stored]? = some hash then c.value p else none) := by
  have valid := owning.owned.valid (false, p) stored there
  obtain ⟨key, kept⟩ : ∃ key, c.heap.cells[stored]? = some key :=
    ⟨_, List.getElem?_eq_getElem valid.allocated⟩
  unfold compare
  rw [Cpp.index_eq_ok_iff.mpr kept, Cpp.ok_bind, kept]
  by_cases same : key = hash
  · rw [if_neg (not_not.mpr same), if_pos (congrArg some same), owning.index_data there]
  · rw [if_pos same, if_neg fun equal => same (Option.some.inj equal)]
    rfl

theorem Owning.get_eq (owning : c.Owning S) (hash : Bytes) :
    c.get S hash =
      match c.key (c.getPlace S hash) with
      | none => .ok none
      | some stored => c.compare (c.getPlace S hash) stored hash := by
  obtain ⟨p, hashed, place⟩ := owning.hash_first hash
  obtain ⟨p', hashed', place'⟩ := owning.hash_second hash
  unfold get getPlace
  rw [hashed, Cpp.ok_bind, place, index_hashes (owning.first hash), Cpp.ok_bind]
  cases taken : c.key (c.place1 S hash) with
  | none =>
    simp only [hashed', Cpp.ok_bind, place', index_hashes (owning.second hash), if_true]
    rfl
  | some stored =>
    rw [if_neg (Option.some_ne_none stored), taken]

theorem Owning.get_of_matches (owning : c.Owning S) {hash : Bytes} (matching : c.Matches S hash) :
    c.get S hash = .ok (c.value (c.getPlace S hash)) := by
  obtain ⟨stored, there, same⟩ := matching
  rw [owning.get_eq, there]
  simp only [owning.compare_eq there, if_pos same]

theorem Owning.get_of_not_matches (owning : c.Owning S) {hash : Bytes}
    (other : ¬ c.Matches S hash) : c.get S hash = .ok none := by
  rw [owning.get_eq]
  cases there : c.key (c.getPlace S hash) with
  | none => rfl
  | some stored =>
    simp only [owning.compare_eq there]
    rw [if_neg fun same => other ⟨stored, there, same⟩]

theorem Owning.exists_get (owning : c.Owning S) (hash : Bytes) :
    ∃ pointer, c.get S hash = .ok pointer := by
  by_cases matching : c.Matches S hash
  · exact ⟨_, owning.get_of_matches matching⟩
  · exact ⟨_, owning.get_of_not_matches matching⟩

theorem Owning.intact (owning : c.Owning S) : c.Intact S := by
  have paired : ∀ p stored, c.key p = some stored → c.heap.Valid stored ∧
      ∃ value, c.value p = some value ∧ c.heap.Valid value := by
    intro p stored there
    obtain ⟨value, known⟩ := owning.exists_value there
    exact ⟨owning.owned.valid (false, p) stored there, value, known,
      owning.owned.valid (true, p) value known⟩
  refine ⟨owning.sound.once, paired, ?_⟩
  intro hash matching
  obtain ⟨stored, there, -⟩ := id matching
  obtain ⟨-, value, known, valid⟩ := paired _ stored there
  refine ⟨value, ?_, valid⟩
  rw [owning.get_of_matches matching, known]

/-! ## Sequences of calls -/

def Fits (S : ShortHash) (c : Pointers) : Call → Prop
  | .store hash _ => c.storePlace S hash < c.data.length
  | .get _ => True

theorem Owning.call_of_fits (owning : c.Owning S) {op : Call} (fits : c.Fits S op) :
    ∃ t answer, c.call S op = .ok (t, answer) ∧ t.Owning S := by
  cases op with
  | store hash newData =>
    refine ⟨_, none, ?_, owning.put (owning.storePlace_lt hash) fits hash newData⟩
    unfold Pointers.call
    simp only [owning.store_eq, if_pos (show _ < _ from fits), Cpp.ok_bind]
    rfl
  | get hash =>
    obtain ⟨pointer, found⟩ := owning.exists_get hash
    refine ⟨c, pointer, ?_, owning⟩
    unfold Pointers.call
    simp only [found, Cpp.ok_bind]
    rfl

theorem Owning.fits_of_call (owning : c.Owning S) {t : Pointers} {op : Call}
    {answer : Option Nat} (called : c.call S op = .ok (t, answer)) : c.Fits S op := by
  rcases owning.call_cases called with ⟨hash, newData, rfl, inData, -⟩ | ⟨hash, rfl, -⟩
  · exact inData
  · trivial

/-- A sequence of calls is disciplined when every `store` of it comes to a slot of `data`. -/
theorem Owning.disciplined_iff_each (owning : c.Owning S) (calls : List Call) :
    c.Disciplined S calls ↔ Each (Pointers.call S) (Fits S) c calls := by
  constructor
  · rintro disciplined before op rest rfl t reached
    have owning' : t.Owning S :=
      after_preserves (fun _ u => u.Owning S) (fun _ _ _ _ _ kept called => kept.call called)
        owning reached
    obtain ⟨u, behind, -⟩ := disciplined (before ++ [op]) rest (by simp)
    rw [after_append, reached] at behind
    cases called : t.call S op with
    | error fault => exact absurd ((after_of_error [] called).symm.trans behind) (by simp)
    | ok result => exact owning'.fits_of_call called
  · intro each before rest split
    obtain ⟨t, reached, owning'⟩ := each.induct (fun _ u => u.Owning S)
      (fun _ u op kept fits => kept.call_of_fits fits) owning split
    exact ⟨t, reached, owning'.intact⟩

/-! ## The cache without its pointers -/

def pointees (h : Heap Bytes) (pointers : List (Option Nat)) : List (Option Bytes) :=
  pointers.map fun pointer => pointer.bind fun a => h.cells[a]?

/-- The cache that `Pttp.Cuckoo` is about. -/
def values (c : Pointers) : Cuckoo :=
  ⟨c.filter1, c.filter2, pointees c.heap c.hashes, pointees c.heap c.data, c.N⟩

theorem join_pointees (h : Heap Bytes) (pointers : List (Option Nat)) (p : Nat) :
    ((pointees h pointers)[p]?).join = (pointers[p]?).join.bind fun a => h.cells[a]? := by
  unfold pointees
  rw [List.getElem?_map]
  cases pointers[p]? <;> rfl

theorem held_values (p : Nat) : c.values.held p = (c.key p).bind fun a => c.heap.cells[a]? :=
  join_pointees _ _ _

theorem value_values (p : Nat) : c.values.value p = (c.value p).bind fun a => c.heap.cells[a]? :=
  join_pointees _ _ _

theorem cells_evicted (p : Nat) : (c.evicted p).cells = c.heap.cells := by
  unfold evicted
  cases c.key p with
  | none => rfl
  | some stored => cases c.value p <;> rfl

theorem pointees_set {h h' : Heap Bytes} {pointers : List (Option Nat)} {a p : Nat} {b : Bytes}
    (same : ∀ (q i : Nat), (pointers[q]?).join = some i → h'.cells[i]? = h.cells[i]?)
    (new : h'.cells[a]? = some b) :
    pointees h' (pointers.set p (some a)) = (pointees h pointers).set p (some b) := by
  unfold pointees
  rw [List.map_set, Option.bind_some, new]
  congr 1
  apply List.map_congr_left
  intro pointer member
  cases pointer with
  | none => rfl
  | some a =>
    obtain ⟨q, there⟩ := List.mem_iff_getElem?.mp member
    apply same q a
    rw [there]
    rfl

theorem Owning.values_put (owning : c.Owning S) (p : Nat) (hash newData : Bytes) :
    (c.put p hash newData).values = c.values.put p hash newData := by
  have kept : ∀ a, c.heap.Valid a → (c.put p hash newData).heap.cells[a]? = c.heap.cells[a]? := by
    intro a valid
    have inside : a < (c.evicted p).cells.length := by
      rw [cells_evicted]
      exact valid.allocated
    show (((c.evicted p).allocate hash).allocate newData).cells[a]? = _
    rw [Heap.getElem?_allocate (by simp; omega), Heap.getElem?_allocate inside, cells_evicted]
  have hashes : pointees (c.put p hash newData).heap (c.put p hash newData).hashes =
      (pointees c.heap c.hashes).set p (some hash) := by
    apply pointees_set
    · exact fun q a there => kept a (owning.owned.valid (false, q) a there)
    · show (((c.evicted p).allocate hash).allocate newData).cells[(c.evicted p).next]? = _
      rw [Heap.getElem?_allocate ((owning.evicted p).1.valid_next hash).allocated]
      exact Heap.getElem?_allocate_next _ _
  have data : pointees (c.put p hash newData).heap (c.put p hash newData).data =
      (pointees c.heap c.data).set p (some newData) := by
    apply pointees_set
    · exact fun q a there => kept a (owning.owned.valid (true, q) a there)
    · exact Heap.getElem?_allocate_next _ _
  unfold values Cuckoo.put
  rw [hashes, data]
  rfl

theorem Owning.held_eq_none_iff (owning : c.Owning S) (p : Nat) :
    c.values.held p = none ↔ c.key p = none := by
  rw [held_values]
  cases there : c.key p with
  | none => simp
  | some stored =>
    have valid := owning.owned.valid (false, p) stored there
    simp [valid.allocated]

theorem Owning.storePlace_values (owning : c.Owning S) (hash : Bytes) :
    c.values.storePlace S hash = c.storePlace S hash := by
  unfold Cuckoo.storePlace storePlace
  simp only [owning.held_eq_none_iff]
  rfl

theorem Owning.getPlace_values (owning : c.Owning S) (hash : Bytes) :
    c.values.getPlace S hash = c.getPlace S hash := by
  unfold Cuckoo.getPlace getPlace
  simp only [owning.held_eq_none_iff]
  rfl

theorem Owning.slotted (owning : c.Owning S) (sized : c.data.length = c.hashes.length) :
    c.values.Slotted S where
  firstKeyed := owning.firstKeyed
  secondKeyed := owning.secondKeyed
  first hash := by
    show c.place1 S hash < (pointees c.heap c.hashes).length
    unfold pointees
    rw [List.length_map]
    exact owning.first hash
  second hash := by
    show c.place2 S hash < (pointees c.heap c.hashes).length
    unfold pointees
    rw [List.length_map]
    exact owning.second hash
  dataSized := by
    show (pointees c.heap c.data).length = (pointees c.heap c.hashes).length
    unfold pointees
    rw [List.length_map, List.length_map]
    exact sized

theorem ofSize_values (N : UInt64) (key1 key2 : Bytes) :
    (ofSize N key1 key2).map values = Cuckoo.ofSize N key1 key2 := by
  have null : pointees .empty (List.replicate N.toNat none) = List.replicate N.toNat none :=
    List.map_replicate
  unfold ofSize Cuckoo.ofSize
  cases Bloom.ofInt (Int32.ofNat N.toNat) key1 with
  | error fault => rfl
  | ok filter1 =>
    cases Bloom.ofInt (Int32.ofNat N.toNat) key2 with
    | error fault => rfl
    | ok filter2 =>
      show Except.ok (Cuckoo.mk filter1 filter2 (pointees .empty (List.replicate N.toNat none)) []
        N) = _
      rw [null]
      rfl

theorem Owning.store_values (owning : c.Owning S) (sized : c.data.length = c.hashes.length)
    (hash newData : Bytes) :
    ∃ t, c.store S hash newData = .ok t ∧ c.values.store S hash newData = .ok t.values := by
  have inside := owning.storePlace_lt hash
  rw [← sized] at inside
  refine ⟨c.put (c.storePlace S hash) hash newData, ?_, ?_⟩
  · rw [owning.store_eq, if_pos inside]
  · rw [(owning.slotted sized).store_eq, owning.storePlace_values, owning.values_put]

theorem Owning.get_values (owning : c.Owning S) (sized : c.data.length = c.hashes.length)
    (hash : Bytes) :
    ∃ pointer, c.get S hash = .ok pointer ∧
      c.values.fetch S hash = .ok (pointer.bind fun a => c.heap.cells[a]?) := by
  have found : c.values.held (c.getPlace S hash) = some hash ↔ c.Matches S hash := by
    rw [held_values]
    exact Option.bind_eq_some_iff
  rw [(owning.slotted sized).fetch_eq, owning.getPlace_values]
  by_cases matching : c.Matches S hash
  · refine ⟨_, owning.get_of_matches matching, ?_⟩
    rw [if_pos (found.mpr matching), value_values]
  · refine ⟨_, owning.get_of_not_matches matching, ?_⟩
    rw [if_neg (found.not.mpr matching)]
    rfl

def stores (calls : List Call) : List (Bytes × Bytes) :=
  calls.filterMap fun
    | .store hash newData => some (hash, newData)
    | .get _ => none

theorem Owning.run_values (owning : c.Owning S) (sized : c.data.length = c.hashes.length)
    {calls : List Call} {t : Pointers} (reached : after (Pointers.call S) c calls = .ok t) :
    after (storeCall S) c.values (stores calls) = .ok t.values := by
  refine (after_preserves (fun history u => (u.Owning S ∧ u.data.length = u.hashes.length) ∧
    after (storeCall S) c.values (stores history) = .ok u.values) ?_
    ⟨⟨owning, sized⟩, rfl⟩ reached).2
  rintro history u op v answer ⟨⟨owning', sized'⟩, before⟩ called
  refine ⟨⟨owning'.call called, owning'.sized_of_call sized' called⟩, ?_⟩
  cases op with
  | store hash newData =>
    have snoc : stores (history ++ [.store hash newData]) =
        stores history ++ [(hash, newData)] := List.filterMap_append
    obtain ⟨w, stored, stored'⟩ := owning'.store_values sized' hash newData
    obtain ⟨w', same, returned⟩ := Cpp.bind_eq_ok.mp called
    obtain rfl := Cpp.ok_unique stored same
    obtain ⟨rfl, -⟩ := Prod.mk.inj (Except.ok.inj returned)
    have last : storeCall S u.values (hash, newData) = .ok (w.values, ()) := by
      unfold storeCall
      rw [stored']
      rfl
    rw [snoc, after_append, before]
    exact after_cons [] last
  | get hash =>
    have snoc : stores (history ++ [.get hash]) = stores history := by
      unfold stores
      rw [List.filterMap_append]
      exact List.append_nil _
    obtain ⟨pointer, -, returned⟩ := Cpp.bind_eq_ok.mp called
    obtain ⟨rfl, -⟩ := Prod.mk.inj (Except.ok.inj returned)
    rw [snoc]
    exact before

/-! ## A new cache -/

theorem owning_ofSize {N : UInt64} (positive : 1 ≤ N.toNat) {key1 key2 : Bytes}
    (keyed1 : 16 ≤ key1.length) (keyed2 : 16 ≤ key2.length) (made : ofSize N key1 key2 = .ok c)
    (slots : Nat) : ({ c with data := List.replicate slots none } : Pointers).Owning S := by
  unfold ofSize at made
  obtain ⟨filter1, made1, rest⟩ := Cpp.bind_eq_ok.mp made
  obtain ⟨filter2, made2, whole⟩ := Cpp.bind_eq_ok.mp rest
  obtain rfl := Except.ok.inj whole
  obtain ⟨rfl, below1⟩ := place_lt_of_ofInt (S := S) positive made1
  obtain ⟨rfl, below2⟩ := place_lt_of_ofInt (S := S) positive made2
  have null : ∀ (n p : Nat), ((List.replicate n (none : Option Nat))[p]?).join = none := by
    intro n p
    rw [List.getElem?_replicate]
    split <;> rfl
  refine ⟨keyed1, keyed2, ?_, ?_, Heap.sound_empty, ⟨?_, ?_⟩, ?_⟩
  · intro hash
    rw [List.length_replicate]
    exact below1 hash
  · intro hash
    rw [List.length_replicate]
    exact below2 hash
  · rintro ⟨side, p⟩ a there
    cases side with
    | false => exact absurd ((null N.toNat p).symm.trans there) (by simp)
    | true => exact absurd ((null slots p).symm.trans there) (by simp)
  · rintro ⟨side, p⟩ j a there
    cases side with
    | false => exact absurd ((null N.toNat p).symm.trans there) (by simp)
    | true => exact absurd ((null slots p).symm.trans there) (by simp)
  · intro p taken
    exact absurd (null N.toNat p) taken

theorem Owning.each_fits_iff (owning : c.Owning S) (unslotted : c.data = []) (calls : List Call) :
    Each (Pointers.call S) (Fits S) c calls ↔ ∀ hash newData, .store hash newData ∉ calls := by
  induction calls with
  | nil => exact iff_of_true (each_nil c) fun _ _ => List.not_mem_nil
  | cons op calls ih =>
    cases op with
    | store hash newData =>
      apply iff_of_false
      · intro each
        have inside : c.storePlace S hash < c.data.length := each.head
        rw [unslotted] at inside
        exact Nat.not_lt_zero _ inside
      · intro absent
        exact absent hash newData List.mem_cons_self
    | get hash =>
      obtain ⟨pointer, found⟩ := owning.exists_get hash
      have called : c.call S (.get hash) = .ok (c, pointer) := by
        unfold Pointers.call
        simp only [found, Cpp.ok_bind]
        rfl
      rw [each_cons called, ih]
      simp [Fits]

/-- The calls on a new cache are disciplined when none of them is a `store`. -/
theorem disciplined_iff {N : UInt64} (positive : 1 ≤ N.toNat) {key1 key2 : Bytes}
    (keyed1 : 16 ≤ key1.length) (keyed2 : 16 ≤ key2.length) (made : ofSize N key1 key2 = .ok c)
    (calls : List Call) :
    c.Disciplined S calls ↔ ∀ hash newData, .store hash newData ∉ calls := by
  have owning := owning_ofSize (S := S) positive keyed1 keyed2 made 0
  have unslotted : c.data = [] := by
    unfold ofSize at made
    obtain ⟨filter1, -, rest⟩ := Cpp.bind_eq_ok.mp made
    obtain ⟨filter2, -, whole⟩ := Cpp.bind_eq_ok.mp rest
    rw [← Except.ok.inj whole]
  have same : ({ c with data := List.replicate 0 none } : Pointers) = c := by
    rw [List.replicate_zero, ← unslotted]
  rw [same] at owning
  rw [owning.disciplined_iff_each, owning.each_fits_iff unslotted]

theorem disciplined_one_get :
    ∃ c, ofSize 1 (List.replicate 16 0) (List.replicate 16 1) = .ok c ∧
      c.Disciplined .firstBytes [.get [1]] := by
  refine ⟨_, rfl, (disciplined_iff (N := 1) (by decide) (by decide) (by decide) rfl _).mpr ?_⟩
  intro hash newData member
  exact absurd (List.mem_singleton.mp member) Call.noConfusion

theorem not_disciplined_store :
    ∃ c, ofSize 1 (List.replicate 16 0) (List.replicate 16 1) = .ok c ∧
      ¬ c.Disciplined .firstBytes [.store [1] [5]] := by
  refine ⟨_, rfl, ?_⟩
  intro disciplined
  obtain ⟨t, reached, -⟩ := disciplined [.store [1] [5]] [] rfl
  cases reached

/-- With as many slots in `data` as in `hashes` all calls would be disciplined. -/
theorem disciplined_of_sized {N : UInt64} (positive : 1 ≤ N.toNat) {key1 key2 : Bytes}
    (keyed1 : 16 ≤ key1.length) (keyed2 : 16 ≤ key2.length) (made : ofSize N key1 key2 = .ok c)
    (calls : List Call) :
    ({ c with data := List.replicate c.hashes.length none } : Pointers).Disciplined S calls := by
  have owning := owning_ofSize (S := S) positive keyed1 keyed2 made c.hashes.length
  rw [owning.disciplined_iff_each]
  intro before op rest split t reached
  obtain ⟨owning', sized⟩ := after_preserves
    (fun _ u => u.Owning S ∧ u.data.length = u.hashes.length)
    (fun _ _ _ _ _ kept called => ⟨kept.1.call called, kept.1.sized_of_call kept.2 called⟩)
    ⟨owning, List.length_replicate⟩ reached
  cases op with
  | store hash newData =>
    show t.storePlace S hash < t.data.length
    rw [sized]
    exact owning'.storePlace_lt hash
  | get hash => trivial

end Pointers

end Pttp.Cuckoo
