import Pttp.Lib.Runs

/-!
# Flooding one message over a directed multigraph

A node that gets a copy for the first time accepts it and issues one copy on each
of its outgoing edges; later copies are dropped. A copy may also be injected at
any node, which issues copies but does not accept. Copies wait on their edge
until they are delivered, in any order.
-/

namespace Flooding

open Runs

universe u v

variable {Node : Type u} {Edge : Type v} [DecidableEq Node] [DecidableEq Edge]

@[ext] structure Flood (Node : Type u) (Edge : Type v) where
  injected : Node → ℕ
  accepted : Node → ℕ
  waiting : Edge → ℕ
  issued : Edge → ℕ

def Flood.quiet : Flood Node Edge := ⟨fun _ => 0, fun _ => 0, fun _ => 0, fun _ => 0⟩

inductive Action (Node : Type u) (Edge : Type v) where
  | inject (node : Node)
  | deliver (edge : Edge)

variable (source target : Edge → Node)

/-- One more copy on each edge out of the node. -/
def issue (copies : Edge → ℕ) (node : Node) (edge : Edge) : ℕ :=
  copies edge + if source edge = node then 1 else 0

def Flood.inject (s : Flood Node Edge) (node : Node) : Flood Node Edge where
  injected := Function.update s.injected node (s.injected node + 1)
  accepted := s.accepted
  waiting := issue source s.waiting node
  issued := issue source s.issued node

def Flood.drop (s : Flood Node Edge) (edge : Edge) : Flood Node Edge :=
  { s with waiting := Function.update s.waiting edge (s.waiting edge - 1) }

def Flood.accept (s : Flood Node Edge) (node : Node) : Flood Node Edge where
  injected := s.injected
  accepted := Function.update s.accepted node (s.accepted node + 1)
  waiting := issue source s.waiting node
  issued := issue source s.issued node

inductive Step : Flood Node Edge → Action Node Edge → Flood Node Edge → Prop where
  | inject (s : Flood Node Edge) (node : Node) : Step s (.inject node) (s.inject source node)
  | again (s : Flood Node Edge) (edge : Edge) (copy : 0 < s.waiting edge)
      (known : 0 < s.accepted (target edge)) : Step s (.deliver edge) (s.drop edge)
  | first (s : Flood Node Edge) (edge : Edge) (copy : 0 < s.waiting edge)
      (new : s.accepted (target edge) = 0) :
      Step s (.deliver edge) ((s.drop edge).accept source (target edge))

structure Invariant (s : Flood Node Edge) : Prop where
  once : ∀ node, s.accepted node ≤ 1
  issued_eq : ∀ edge, s.issued edge = s.injected (source edge) + s.accepted (source edge)
  reaches : ∀ edge, 0 < s.accepted (source edge) →
    0 < s.accepted (target edge) ∨ 0 < s.waiting edge
  handed : ∀ edge, s.waiting edge < s.issued edge → 0 < s.accepted (target edge)

omit [DecidableEq Node] [DecidableEq Edge] in
theorem invariant_quiet : Invariant source target (Flood.quiet : Flood Node Edge) where
  once _ := Nat.zero_le 1
  issued_eq _ := rfl
  reaches _ accepted := absurd accepted (lt_irrefl 0)
  handed _ fewer := absurd fewer (lt_irrefl 0)

variable {source target} {s t : Flood Node Edge}

omit [DecidableEq Edge] in
theorem Invariant.inject (inv : Invariant source target s) (node : Node) :
    Invariant source target (s.inject source node) where
  once := inv.once
  issued_eq edge := by
    have before := inv.issued_eq edge
    by_cases here : source edge = node
    · subst here
      simp only [Flood.inject, issue, if_true, Function.update_self]
      omega
    · simp only [Flood.inject, issue, if_neg here, Function.update_of_ne here]
      omega
  reaches edge accepted := by
    refine (inv.reaches edge accepted).imp id fun copy => ?_
    exact Nat.lt_of_lt_of_le copy (Nat.le_add_right _ _)
  handed edge fewer := inv.handed edge (Nat.lt_of_add_lt_add_right fewer)

omit [DecidableEq Node] in
theorem Invariant.drop (inv : Invariant source target s) {edge : Edge}
    (known : 0 < s.accepted (target edge)) : Invariant source target (s.drop edge) where
  once := inv.once
  issued_eq := inv.issued_eq
  reaches other accepted := by
    by_cases same : other = edge
    · subst same
      exact .inl known
    · simp only [Flood.drop, Function.update_of_ne same]
      exact inv.reaches other accepted
  handed other fewer := by
    by_cases same : other = edge
    · subst same
      exact known
    · simp only [Flood.drop, Function.update_of_ne same] at fewer
      exact inv.handed other fewer

/-- The delivered copy is the one the new node no longer needs. -/
theorem Invariant.first (inv : Invariant source target s) {edge : Edge}
    (new : s.accepted (target edge) = 0) :
    Invariant source target ((s.drop edge).accept source (target edge)) where
  once node := by
    by_cases same : node = target edge
    · subst same
      simp only [Flood.accept, Flood.drop, Function.update_self, new]
      omega
    · simp only [Flood.accept, Flood.drop, Function.update_of_ne same]
      exact inv.once node
  issued_eq other := by
    have before := inv.issued_eq other
    by_cases here : source other = target edge
    · rw [here] at before
      simp only [Flood.accept, Flood.drop, issue, here, if_true, Function.update_self]
      omega
    · simp only [Flood.accept, Flood.drop, issue, if_neg here, Function.update_of_ne here]
      omega
  reaches other accepted := by
    by_cases own : source other = target edge
    · right
      simp only [Flood.accept, issue, if_pos own]
      exact Nat.succ_pos _
    · simp only [Flood.accept, Flood.drop, Function.update_of_ne own] at accepted
      by_cases arrived : target other = target edge
      · left
        simp only [Flood.accept, arrived, Function.update_self]
        exact Nat.succ_pos _
      · have different : other ≠ edge := fun same => arrived (same ▸ rfl)
        simp only [Flood.accept, Flood.drop, issue, Function.update_of_ne arrived, if_neg own,
          Function.update_of_ne different]
        exact inv.reaches other accepted
  handed other fewer := by
    by_cases arrived : target other = target edge
    · simp only [Flood.accept, arrived, Function.update_self]
      exact Nat.succ_pos _
    · have different : other ≠ edge := fun same => arrived (same ▸ rfl)
      simp only [Flood.accept, Flood.drop, issue, Function.update_of_ne different] at fewer
      simp only [Flood.accept, Flood.drop, Function.update_of_ne arrived]
      exact inv.handed other (Nat.lt_of_add_lt_add_right fewer)

theorem Invariant.step {action : Action Node Edge} (inv : Invariant source target s)
    (taken : Step source target s action t) : Invariant source target t := by
  cases taken with
  | inject node => exact inv.inject node
  | again edge _ known => exact inv.drop known
  | first edge _ new => exact inv.first new

theorem invariant_of_run {history : List (Flood Node Edge × Action Node Edge)}
    (run : Run (Step source target) Flood.quiet history t) : Invariant source target t :=
  run.invariant (invariant_quiet source target) fun _ _ _ => Invariant.step

omit [DecidableEq Node] [DecidableEq Edge] in
/-- The copies ever issued: one for each edge, and one for each outgoing edge of a
node at each injection there. -/
theorem Invariant.sum_issued_le [Fintype Edge] (inv : Invariant source target s) :
    ∑ edge, s.issued edge ≤ Fintype.card Edge + ∑ edge, s.injected (source edge) := by
  calc ∑ edge, s.issued edge
      ≤ ∑ edge, (1 + s.injected (source edge)) := by
        refine Finset.sum_le_sum fun edge _ => ?_
        have := inv.issued_eq edge
        have := inv.once (source edge)
        omega
    _ = Fintype.card Edge + ∑ edge, s.injected (source edge) := by
        rw [Finset.sum_add_distrib, Finset.sum_const, Finset.card_univ, smul_eq_mul, mul_one]

omit [DecidableEq Node] [DecidableEq Edge] in
theorem Invariant.accepted_of_reachable (inv : Invariant source target s)
    (quiet : ∀ edge, s.waiting edge = 0) {u v : Node}
    (path : Relation.ReflTransGen (fun u v => ∃ edge, source edge = u ∧ target edge = v) u v)
    (accepted : 0 < s.accepted u) : 0 < s.accepted v := by
  induction path with
  | refl => exact accepted
  | tail _ last ih =>
    obtain ⟨edge, rfl, rfl⟩ := last
    refine (inv.reaches edge ih).resolve_right ?_
    rw [quiet edge]
    exact lt_irrefl 0

/-! ## Where copies come from -/

/-- A copy waits on an edge only after one was injected or accepted at its source, what was
accepted came over edges from an injection, and what was injected goes on. -/
structure Traced (source target : Edge → Node) (s : Flood Node Edge) : Prop where
  came : ∀ node, 0 < s.accepted node → ∃ origin, 0 < s.injected origin ∧
    Relation.TransGen (fun u v => ∃ edge, source edge = u ∧ target edge = v) origin node
  waited : ∀ edge, 0 < s.waiting edge →
    0 < s.injected (source edge) ∨ 0 < s.accepted (source edge)
  goes : ∀ edge, 0 < s.injected (source edge) →
    0 < s.accepted (target edge) ∨ 0 < s.waiting edge

omit [DecidableEq Node] [DecidableEq Edge] in
theorem traced_quiet : Traced source target (Flood.quiet : Flood Node Edge) where
  came _ accepted := absurd accepted (lt_irrefl 0)
  waited _ waiting := absurd waiting (lt_irrefl 0)
  goes _ injected := absurd injected (lt_irrefl 0)

omit [DecidableEq Edge] in
theorem Traced.inject (traced : Traced source target s) (node : Node) :
    Traced source target (s.inject source node) := by
  have more (other : Node) (before : 0 < s.injected other) :
      0 < (s.inject source node).injected other := by
    by_cases here : other = node
    · subst here
      simp [Flood.inject]
    · simpa [Flood.inject, here] using before
  refine ⟨fun other accepted => ?_, fun edge waiting => ?_, fun edge injected => ?_⟩
  · obtain ⟨origin, injected, path⟩ := traced.came other accepted
    exact ⟨origin, more origin injected, path⟩
  · by_cases here : source edge = node
    · left
      simp [Flood.inject, here]
    · simp only [Flood.inject, issue, if_neg here, Nat.add_zero] at waiting
      exact (traced.waited edge waiting).imp_left (more _)
  · by_cases here : source edge = node
    · right
      simp [Flood.inject, issue, here]
    · simp only [Flood.inject, Function.update_of_ne here] at injected
      refine (traced.goes edge injected).imp_right fun waiting => ?_
      exact Nat.lt_of_lt_of_le waiting (Nat.le_add_right _ _)

omit [DecidableEq Node] in
theorem Traced.drop (traced : Traced source target s) {edge : Edge}
    (known : 0 < s.accepted (target edge)) : Traced source target (s.drop edge) where
  came := traced.came
  waited other waiting := by
    apply traced.waited other
    by_cases same : other = edge
    · subst same
      simp only [Flood.drop, Function.update_self] at waiting
      exact Nat.lt_of_lt_of_le waiting (Nat.sub_le _ _)
    · simpa only [Flood.drop, Function.update_of_ne same] using waiting
  goes other injected := by
    by_cases same : other = edge
    · subst same
      exact .inl known
    · simp only [Flood.drop, Function.update_of_ne same]
      exact traced.goes other injected

theorem Traced.first (traced : Traced source target s) {edge : Edge} (copy : 0 < s.waiting edge) :
    Traced source target ((s.drop edge).accept source (target edge)) := by
  have more (node : Node) (before : 0 < s.accepted node) :
      0 < ((s.drop edge).accept source (target edge)).accepted node := by
    by_cases here : node = target edge
    · subst here
      simp [Flood.accept]
    · simpa [Flood.accept, Flood.drop, here] using before
  have accepted : 0 < ((s.drop edge).accept source (target edge)).accepted (target edge) := by
    simp [Flood.accept]
  refine ⟨fun node accepted => ?_, fun other waiting => ?_, fun other injected => ?_⟩
  · by_cases here : node = target edge
    · subst here
      rcases traced.waited edge copy with injected | before
      · exact ⟨_, injected, .single ⟨edge, rfl, rfl⟩⟩
      · obtain ⟨origin, injected, path⟩ := traced.came _ before
        exact ⟨origin, injected, path.tail ⟨edge, rfl, rfl⟩⟩
    · simp only [Flood.accept, Flood.drop, Function.update_of_ne here] at accepted
      exact traced.came node accepted
  · by_cases here : source other = target edge
    · right
      rw [here]
      exact accepted
    · simp only [Flood.accept, issue, if_neg here, Nat.add_zero] at waiting
      refine (traced.waited other ?_).imp_right (more _)
      by_cases same : other = edge
      · subst same
        exact copy
      · simpa only [Flood.drop, Function.update_of_ne same] using waiting
  · by_cases arrived : target other = target edge
    · left
      rw [arrived]
      exact accepted
    · have different : other ≠ edge := fun same => arrived (same ▸ rfl)
      refine (traced.goes other injected).imp (more _) fun waiting => ?_
      simp only [Flood.accept, Flood.drop, issue, Function.update_of_ne different]
      exact Nat.lt_of_lt_of_le waiting (Nat.le_add_right _ _)

theorem traced_of_run {history : List (Flood Node Edge × Action Node Edge)}
    (run : Run (Step source target) Flood.quiet history t) : Traced source target t := by
  apply run.invariant traced_quiet
  intro s action t traced taken
  cases taken with
  | inject node => exact traced.inject node
  | again edge _ known => exact traced.drop known
  | first edge copy _ => exact traced.first copy

omit [DecidableEq Node] [DecidableEq Edge] in
/-- When no copy waits, a node has accepted exactly when edges lead to it from an injection. -/
theorem Traced.accepted_iff (traced : Traced source target s) (inv : Invariant source target s)
    (quiet : ∀ edge, s.waiting edge = 0) (node : Node) :
    0 < s.accepted node ↔ ∃ origin, 0 < s.injected origin ∧
      Relation.TransGen (fun u v => ∃ edge, source edge = u ∧ target edge = v) origin node := by
  refine ⟨traced.came node, ?_⟩
  rintro ⟨origin, injected, path⟩
  obtain ⟨next, ⟨edge, rfl, rfl⟩, rest⟩ := Relation.TransGen.head'_iff.mp path
  have first : 0 < s.accepted (target edge) := by
    refine (traced.goes edge injected).resolve_right ?_
    rw [quiet edge]
    exact lt_irrefl 0
  exact inv.accepted_of_reachable quiet rest first

end Flooding
