import Mathlib

/-!
# Greedy selection

A list is read once. An element that the current state admits is selected and
changes the state; any other element is dropped and changes nothing.
-/

namespace Greedy

universe u v w

variable {σ : Type u} {σ' : Type w} {τ : Type v}

/-- The selected elements, in the order of the list, and the last state. -/
def run (ok : σ → τ → Prop) [∀ s t, Decidable (ok s t)] (apply : σ → τ → σ) :
    σ → List τ → List τ × σ
  | s, [] => ([], s)
  | s, t :: ts =>
      if ok s t then
        let rest := run ok apply (apply s t) ts
        (t :: rest.1, rest.2)
      else run ok apply s ts

variable {ok : σ → τ → Prop} [∀ s t, Decidable (ok s t)] {apply : σ → τ → σ}

@[simp] theorem run_nil (s : σ) : run ok apply s [] = ([], s) := rfl

theorem run_cons_of_ok {s : σ} {t : τ} (h : ok s t) (ts : List τ) :
    run ok apply s (t :: ts) =
      (t :: (run ok apply (apply s t) ts).1, (run ok apply (apply s t) ts).2) := by
  simp only [run, if_pos h]

theorem run_cons_of_not_ok {s : σ} {t : τ} (h : ¬ ok s t) (ts : List τ) :
    run ok apply s (t :: ts) = run ok apply s ts := by
  simp only [run, if_neg h]

theorem selected_sublist (s : σ) (ts : List τ) : (run ok apply s ts).1.Sublist ts := by
  induction ts generalizing s with
  | nil => exact List.Sublist.refl _
  | cons t ts ih =>
    by_cases h : ok s t
    · rw [run_cons_of_ok h]
      exact (ih _).cons_cons t
    · rw [run_cons_of_not_ok h]
      exact (ih _).cons t

/-- Nothing is selected exactly when the first state admits no element: until
the first selection the state does not change. -/
theorem selected_eq_nil_iff (s : σ) (ts : List τ) :
    (run ok apply s ts).1 = [] ↔ ∀ t ∈ ts, ¬ ok s t := by
  induction ts with
  | nil => simp
  | cons t ts ih =>
    by_cases h : ok s t
    · simp [run_cons_of_ok h, h]
    · simp [run_cons_of_not_ok h, h, ih]

theorem mem_selected_of_ok {t : τ} (admitted : ∀ s, ok s t) {ts : List τ} (member : t ∈ ts)
    (s : σ) : t ∈ (run ok apply s ts).1 := by
  induction ts generalizing s with
  | nil => cases member
  | cons first ts ih =>
    rcases List.mem_cons.mp member with rfl | later
    · rw [run_cons_of_ok (admitted s)]
      exact List.mem_cons_self
    · by_cases h : ok s first
      · rw [run_cons_of_ok h]
        exact List.mem_cons_of_mem first (ih later _)
      · rw [run_cons_of_not_ok h]
        exact ih later s

/-- What each admitted element adds to a quantity, the selected ones add up to. -/
theorem run_accumulates {A : Type*} [AddCommMonoid A] {quantity : σ → A} {amount : τ → A}
    (adds : ∀ s t, ok s t → quantity (apply s t) = quantity s + amount t) (ts : List τ) (s : σ) :
    quantity (run ok apply s ts).2 =
      quantity s + ((run ok apply s ts).1.map amount).sum := by
  induction ts generalizing s with
  | nil => rw [run_nil, List.map_nil, List.sum_nil, add_zero]
  | cons t ts ih =>
    by_cases h : ok s t
    · rw [run_cons_of_ok h, List.map_cons, List.sum_cons, ih, adds s t h, add_assoc]
    · rw [run_cons_of_not_ok h]
      exact ih s

/-- Two selections over the same list select the same elements when their states
are related throughout. The relation has to survive a selection only when the
state the second selection reaches by it is safe. -/
theorem run_related {ok' : σ' → τ → Prop} [∀ s t, Decidable (ok' s t)] {apply' : σ' → τ → σ'}
    {R : σ → σ' → Prop} (Safe : σ' → Prop) (ts : List τ)
    (agree : ∀ s s' t, t ∈ ts → R s s' → (ok s t ↔ ok' s' t))
    (related : ∀ s s' t, t ∈ ts → R s s' → ok' s' t → Safe (apply' s' t) →
      R (apply s t) (apply' s' t))
    (s : σ) (s' : σ') (initially : R s s')
    (safe : ∀ front, front <+: ts → Safe (run ok' apply' s' front).2) :
    (run ok apply s ts).1 = (run ok' apply' s' ts).1 ∧
      R (run ok apply s ts).2 (run ok' apply' s' ts).2 := by
  induction ts generalizing s s' with
  | nil => exact ⟨rfl, initially⟩
  | cons t ts ih =>
    have agree' : ∀ s s' u, u ∈ ts → R s s' → (ok s u ↔ ok' s' u) :=
      fun s s' u hu => agree s s' u (List.mem_cons_of_mem _ hu)
    have related' : ∀ s s' u, u ∈ ts → R s s' → ok' s' u → Safe (apply' s' u) →
        R (apply s u) (apply' s' u) :=
      fun s s' u hu => related s s' u (List.mem_cons_of_mem _ hu)
    by_cases h' : ok' s' t
    · have h : ok s t := (agree s s' t (by simp) initially).mpr h'
      have stepSafe : Safe (apply' s' t) := by
        have := safe [t] ⟨ts, rfl⟩
        simpa [run_cons_of_ok h'] using this
      rw [run_cons_of_ok h, run_cons_of_ok h']
      have rest := ih agree' related' (apply s t) (apply' s' t)
        (related s s' t (by simp) initially h' stepSafe) (fun front hf => by
          have := safe (t :: front) ((List.prefix_cons_inj t).mpr hf)
          simpa [run_cons_of_ok h'] using this)
      exact ⟨congrArg (t :: ·) rest.1, rest.2⟩
    · have h : ¬ ok s t := fun yes => h' ((agree s s' t (by simp) initially).mp yes)
      rw [run_cons_of_not_ok h, run_cons_of_not_ok h']
      exact ih agree' related' s s' initially (fun front hf => by
        have := safe (t :: front) ((List.prefix_cons_inj t).mpr hf)
        simpa [run_cons_of_not_ok h'] using this)

end Greedy
