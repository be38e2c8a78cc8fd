import Mathlib

/-!
# Nodes linked to their parents

A node is a root, has a parent, or names a parent that is missing. From a root the nodes
have depths; from a missing parent they are orphaned. Without a cycle among finitely many
linked nodes, a walk to the parents ends.
-/

namespace Forest

universe u

inductive Link (α : Type u) where
  | root
  | missing
  | parent (y : α)

variable {α : Type u} (link : α → Link α)

def Parent (y x : α) : Prop := link x = .parent y

def Above : α → α → Prop := Relation.ReflTransGen (Parent link)

/-- The number of nodes from `x` up to its root, both counted. -/
inductive Depth : α → Nat → Prop where
  | root {x : α} : link x = .root → Depth x 1
  | parent {x y : α} {k : Nat} : link x = .parent y → Depth y k → Depth x (k + 1)

inductive Orphaned : α → Prop where
  | missing {x : α} : link x = .missing → Orphaned x
  | parent {x y : α} : link x = .parent y → Orphaned y → Orphaned x

def Acyclic : Prop := ∀ x, ¬ Relation.TransGen (Parent link) x x

variable {link}

theorem Depth.positive {x : α} {k : Nat} (depth : Depth link x k) : 0 < k := by
  cases depth <;> omega

theorem Depth.not_orphaned {x : α} {k : Nat} (depth : Depth link x k) : ¬ Orphaned link x := by
  induction depth with
  | root here =>
    intro orphaned
    cases orphaned with
    | missing there | parent there =>
      rw [here] at there
      cases there
  | parent here _ ih =>
    intro orphaned
    cases orphaned with
    | missing there =>
      rw [here] at there
      cases there
    | parent there above =>
      rw [here] at there
      obtain rfl := Link.parent.inj there
      exact ih above

theorem Orphaned.of_above {x y : α} (orphaned : Orphaned link y) (above : Above link y x) :
    Orphaned link x := by
  induction above with
  | refl => exact orphaned
  | tail _ linked ih => exact .parent linked ih

theorem Orphaned.above_of {x y : α} (orphaned : Orphaned link x) (above : Above link y x) :
    Orphaned link y := by
  induction above with
  | refl => exact orphaned
  | tail _ linked ih =>
    apply ih
    cases orphaned with
    | missing there =>
      rw [Parent, there] at linked
      cases linked
    | parent there orphaned =>
      rw [Parent, there] at linked
      obtain rfl := Link.parent.inj linked
      exact orphaned

/-- Among finitely many linked nodes, no cycle leaves a walk without an end. -/
theorem Acyclic.wellFounded (acyclic : Acyclic link) {s : Set α} (finite : s.Finite)
    (linked : ∀ x y, link x = .parent y → x ∈ s) : WellFounded (Parent link) := by
  have strict : IsStrictOrder α (Relation.TransGen (Parent link)) :=
    { irrefl := acyclic, trans := fun _ _ _ => Relation.TransGen.trans }
  have founded : s.WellFoundedOn (Relation.TransGen (Parent link)) := finite.wellFoundedOn
  have outside : ∀ x, x ∉ s → Acc (Parent link) x := by
    intro x out
    refine ⟨x, ?_⟩
    intro y parent
    exact absurd (linked x y parent) out
  constructor
  intro x
  by_cases within : x ∈ s
  · refine founded.induction within ?_
    intro x _ ih
    refine ⟨x, ?_⟩
    intro y parent
    by_cases within' : y ∈ s
    · exact ih y within' (.single parent)
    · exact outside y within'
  · exact outside x within

theorem acyclic_of_rank (rank : α → Nat) (falls : ∀ x y, link x = .parent y → rank y < rank x) :
    Acyclic link := by
  intro x around
  have below : ∀ y, Relation.TransGen (Parent link) x y → rank x < rank y := by
    intro y above
    induction above with
    | single linked => exact falls _ _ linked
    | tail _ linked ih => exact ih.trans (falls _ _ linked)
  exact Nat.lt_irrefl _ (below x around)

/-! ## Marks -/

/-- The mark of a node: its depth, or -1 for an orphan. -/
def Mark (link : α → Link α) (x : α) (v : Int) : Prop :=
  (∃ k : Nat, Depth link x k ∧ v = k) ∨ Orphaned link x ∧ v = -1

theorem Mark.ne_zero {x : α} {v : Int} (mark : Mark link x v) : v ≠ 0 := by
  rcases mark with ⟨k, depth, rfl⟩ | ⟨-, rfl⟩
  · have := depth.positive
    omega
  · decide

theorem Mark.orphaned {x : α} {v : Int} (mark : Mark link x v) (negative : v = -1) :
    Orphaned link x := by
  rcases mark with ⟨k, -, rfl⟩ | ⟨orphaned, -⟩
  · omega
  · exact orphaned

theorem Mark.depth {x : α} {v : Int} (mark : Mark link x v) {k : Nat} (value : v = k) :
    Depth link x k := by
  rcases mark with ⟨l, depth, rfl⟩ | ⟨-, rfl⟩
  · obtain rfl : l = k := by omega
    exact depth
  · omega

theorem Mark.eq_neg_one {x : α} {v : Int} (mark : Mark link x v) (orphaned : Orphaned link x) :
    v = -1 := by
  rcases mark with ⟨k, depth, -⟩ | ⟨-, rfl⟩
  · exact absurd orphaned depth.not_orphaned
  · rfl

/-- A path, its upper end first. -/
def Path (link : α → Link α) : List α → Prop := List.IsChain (Parent link)

theorem Path.above {x : α} {path : List α} (linked : Path link (x :: path)) :
    ∀ y ∈ x :: path, Above link x y := by
  induction path generalizing x with
  | nil =>
    intro y member
    rw [List.mem_singleton.mp member]
    exact .refl
  | cons z path ih =>
    intro y member
    obtain ⟨parent, rest⟩ := List.isChain_cons_cons.mp linked
    rcases List.mem_cons.mp member with rfl | below
    · exact .refl
    · exact .head parent (ih rest y below)

theorem Path.above_last {s : α} {front : List α} (linked : Path link (front ++ [s])) :
    ∀ x ∈ front ++ [s], Above link x s := by
  induction front with
  | nil =>
    intro x member
    rw [List.mem_singleton.mp member]
    exact .refl
  | cons x front ih =>
    have whole := Path.above linked s (by simp)
    intro y member
    rcases List.mem_cons.mp member with rfl | below
    · exact whole
    · exact ih (List.IsChain.of_cons linked) y below

theorem Path.eq_or_parent {x : α} {path : List α} (linked : Path link (x :: path)) :
    ∀ y ∈ x :: path, y = x ∨ ∃ z ∈ x :: path, link y = .parent z := by
  induction path generalizing x with
  | nil =>
    intro y member
    exact .inl (List.mem_singleton.mp member)
  | cons z path ih =>
    intro y member
    obtain ⟨parent, rest⟩ := List.isChain_cons_cons.mp linked
    rcases List.mem_cons.mp member with rfl | below
    · exact .inl rfl
    · rcases ih rest y below with rfl | ⟨w, within, above⟩
      · exact .inr ⟨x, List.mem_cons_self, parent⟩
      · exact .inr ⟨w, List.mem_cons_of_mem x within, above⟩

theorem Above.induct {p : α → Prop} (up : ∀ x y, link x = .parent y → p x → p y) {x y : α}
    (above : Above link y x) (here : p x) : p y := by
  induction above with
  | refl => exact here
  | tail _ linked ih => exact ih (up _ _ linked here)

end Forest
