import Mathlib

/-!
# Runs of a transition system

A run remembers each state it left and the action it took there. An invariant
that one step preserves holds at the end of every run, and since every beginning
of a run is a run, in every state reached. `Run.holds_iff` is for steps that
preserve the invariant under a condition only: the invariant holds all along a
run exactly when each of its steps met the condition.
-/

namespace Runs

universe u v w x

variable {State : Type u} {Action : Type v}

inductive Run (step : State → Action → State → Prop) (start : State) :
    List (State × Action) → State → Prop where
  | nil : Run step start [] start
  | snoc {history : List (State × Action)} {s t : State} {a : Action} :
      Run step start history s → step s a t → Run step start (history ++ [(s, a)]) t

variable {step : State → Action → State → Prop} {start : State}

theorem Run.invariant {Inv : State → Prop} (initially : Inv start)
    (preserved : ∀ s a t, Inv s → step s a t → Inv t)
    {history : List (State × Action)} {t : State} (run : Run step start history t) : Inv t := by
  induction run with
  | nil => exact initially
  | snoc _ taken ih => exact preserved _ _ _ ih taken

theorem Run.trans {history history' : List (State × Action)} {s t : State}
    (run : Run step start history s) (run' : Run step s history' t) :
    Run step start (history ++ history') t := by
  induction run' with
  | nil => exact (List.append_nil history).symm ▸ run
  | snoc _ taken ih => exact List.append_assoc .. ▸ ih.snoc taken

theorem Run.of_mem {history : List (State × Action)} {s t : State} {a : Action}
    (run : Run step start history t) (visit : (s, a) ∈ history) :
    ∃ before u, Run step start before s ∧ step s a u := by
  induction run with
  | nil => cases visit
  | snoc before taken ih =>
    rcases List.mem_append.mp visit with earlier | last
    · exact ih earlier
    · obtain ⟨rfl, rfl⟩ := Prod.mk.inj (List.mem_singleton.mp last)
      exact ⟨_, _, before, taken⟩

def Holds (Inv : State → Prop) (history : List (State × Action)) (t : State) : Prop :=
  (∀ visit ∈ history, Inv visit.1) ∧ Inv t

def Meets (condition : State → Action → Prop) (history : List (State × Action)) : Prop :=
  ∀ visit ∈ history, condition visit.1 visit.2

@[simp] theorem meets_snoc (condition : State → Action → Prop)
    (history : List (State × Action)) (s : State) (a : Action) :
    Meets condition (history ++ [(s, a)]) ↔ Meets condition history ∧ condition s a := by
  simp only [Meets, List.mem_append, List.mem_singleton, or_imp, forall_and, forall_eq]

theorem holds_snoc (Inv : State → Prop) (history : List (State × Action)) (s t : State)
    (a : Action) :
    Holds Inv (history ++ [(s, a)]) t ↔ Holds Inv history s ∧ Inv t := by
  simp only [Holds, List.mem_append, List.mem_singleton, or_imp, forall_and, forall_eq]

theorem Run.invariant_of_meets {Inv : State → Prop} {condition : State → Action → Prop}
    (initially : Inv start)
    (preserved : ∀ s a t, Inv s → condition s a → step s a t → Inv t)
    {history : List (State × Action)} {t : State} (run : Run step start history t)
    (met : Meets condition history) : Inv t := by
  induction run with
  | nil => exact initially
  | snoc _ taken ih =>
    rw [meets_snoc] at met
    exact preserved _ _ _ (ih met.1) met.2 taken

/-- When a step from a good state ends in a good state exactly under a condition
on the state before it, a run is good throughout exactly when all its steps were
taken under the condition. -/
theorem Run.holds_iff {Inv : State → Prop} {condition : State → Action → Prop}
    (initially : Inv start)
    (sharp : ∀ s a t, Inv s → step s a t → (Inv t ↔ condition s a))
    {history : List (State × Action)} {t : State} (run : Run step start history t) :
    Holds Inv history t ↔ Meets condition history := by
  induction run with
  | nil => simp [Holds, Meets, initially]
  | snoc _ taken ih =>
    rw [holds_snoc, meets_snoc, ← ih]
    constructor
    · rintro ⟨before, after⟩
      exact ⟨before, (sharp _ _ _ before.2 taken).mp after⟩
    · rintro ⟨before, met⟩
      exact ⟨before, (sharp _ _ _ before.2 taken).mpr met⟩

theorem Run.holds_and_iff {Inv P : State → Prop}
    (always : ∀ history t, Run step start history t → Inv t)
    {history : List (State × Action)} {t : State} (run : Run step start history t) :
    Holds (fun s => Inv s ∧ P s) history t ↔ Holds P history t := by
  induction run with
  | nil => simp [Holds, always _ _ Run.nil]
  | snoc before taken ih =>
    rw [holds_snoc, holds_snoc, ih]
    exact and_congr_right' (and_iff_right (always _ _ (before.snoc taken)))

/-! ## What happened in a run -/

def Visits (p : State → Action → Prop) (history : List (State × Action)) : Prop :=
  ∃ visit ∈ history, p visit.1 visit.2

def VisitsThen (p q : State → Action → Prop) (history : List (State × Action)) : Prop :=
  ∃ before after, history = before ++ after ∧ Visits p before ∧ Visits q after

theorem visits_snoc (p : State → Action → Prop) (history : List (State × Action)) (s : State)
    (a : Action) : Visits p (history ++ [(s, a)]) ↔ Visits p history ∨ p s a := by
  simp only [Visits, List.mem_append, List.mem_singleton, or_and_right, exists_or,
    exists_eq_left]

theorem VisitsThen.append {p q : State → Action → Prop} {history : List (State × Action)}
    (visits : VisitsThen p q history) (earlier later : List (State × Action)) :
    VisitsThen p q (earlier ++ history ++ later) := by
  obtain ⟨before, after, rfl, ⟨first, member, here⟩, second, member', there⟩ := visits
  refine ⟨earlier ++ before, after ++ later, by simp, ?_, ?_⟩
  · exact ⟨first, List.mem_append_right _ member, here⟩
  · exact ⟨second, List.mem_append_left _ member', there⟩

theorem Run.split {before after : List (State × Action)} {t : State}
    (run : Run step start (before ++ after) t) :
    ∃ s, Run step start before s ∧ Run step s after t := by
  induction after using List.reverseRecOn generalizing t with
  | nil => exact ⟨t, List.append_nil before ▸ run, .nil⟩
  | append_singleton after visit ih =>
    rw [← List.append_assoc] at run
    generalize whole : before ++ after ++ [visit] = history at run
    cases run with
    | nil => simp at whole
    | snoc earlier taken =>
      obtain ⟨rfl, last⟩ := List.append_inj' whole rfl
      obtain rfl := List.singleton_inj.mp last
      obtain ⟨s, front, back⟩ := ih earlier
      exact ⟨s, front, back.snoc taken⟩

/-- What a step of some kind brings about and no step undoes holds once there was such a
step. The invariant may be used to see that. -/
theorem Run.of_visits (Inv : State → Prop) {Goal : State → Prop} {p : State → Action → Prop}
    (initially : Inv start) (kept : ∀ s a t, Inv s → step s a t → Inv t)
    (brings : ∀ s a t, Inv s → p s a → step s a t → Goal t)
    (stays : ∀ s a t, Inv s → Goal s → step s a t → Goal t)
    {history : List (State × Action)} {t : State} (run : Run step start history t)
    (visits : Visits p history) : Goal t := by
  induction run with
  | nil =>
    obtain ⟨visit, member, -⟩ := visits
    cases member
  | snoc before taken ih =>
    have good := before.invariant initially kept
    rcases (visits_snoc p _ _ _).mp visits with earlier | last
    · exact stays _ _ _ good (ih earlier) taken
    · exact brings _ _ _ good last taken

theorem Run.of_visitsThen (Inv Middle : State → Prop) {Goal : State → Prop}
    {p q : State → Action → Prop} (initially : Inv start)
    (kept : ∀ s a t, Inv s → step s a t → Inv t)
    (begins : ∀ s a t, Inv s → p s a → step s a t → Middle t)
    (waits : ∀ s a t, Inv s → Middle s → step s a t → Middle t)
    (ends : ∀ s a t, Inv s → Middle s → q s a → step s a t → Goal t)
    (stays : ∀ s a t, Inv s → Goal s → step s a t → Goal t)
    {history : List (State × Action)} {t : State} (run : Run step start history t)
    (visits : VisitsThen p q history) : Goal t := by
  obtain ⟨before, after, rfl, first, second⟩ := visits
  obtain ⟨s, front, back⟩ := run.split
  have begun : Middle s := front.of_visits Inv initially kept begins waits first
  have good : Inv s := front.invariant initially kept
  apply back.of_visits (fun s => Inv s ∧ Middle s) ⟨good, begun⟩ _ _ _ second
  · rintro s a t ⟨good, middle⟩ taken
    exact ⟨kept s a t good taken, waits s a t good middle taken⟩
  · rintro s a t ⟨good, middle⟩ last taken
    exact ends s a t good middle last taken
  · rintro s a t ⟨good, -⟩ goal taken
    exact stays s a t good goal taken

/-- What holds at the end of a run and is never gained by a step holds after every
step of it. -/
theorem Run.within {Q : State → Prop} (back : ∀ s a t, step s a t → Q t → Q s)
    {history : List (State × Action)} {t : State} (run : Run step start history t)
    (atEnd : Q t) : Run (fun s a t => step s a t ∧ Q t) start history t := by
  induction run with
  | nil => exact .nil
  | snoc _ taken ih => exact (ih (back _ _ _ taken atEnd)).snoc ⟨taken, atEnd⟩

/-- A map of states that turns every step into a step or into no change turns
runs into runs. The invariant may be used to see that. -/
theorem Run.simulate {State' : Type w} {Action' : Type x}
    {step' : State' → Action' → State' → Prop} {Inv : State → Prop} (abstraction : State → State')
    (initially : Inv start) (preserved : ∀ s a t, Inv s → step s a t → Inv t)
    (simulated : ∀ s a t, Inv s → step s a t →
      abstraction t = abstraction s ∨ ∃ b, step' (abstraction s) b (abstraction t))
    {history : List (State × Action)} {t : State} (run : Run step start history t) :
    ∃ history', Run step' (abstraction start) history' (abstraction t) := by
  induction run with
  | nil => exact ⟨[], .nil⟩
  | @snoc history s t a before taken ih =>
    obtain ⟨history', run'⟩ := ih
    have good : Inv s := before.invariant initially preserved
    rcases simulated s a t good taken with same | ⟨b, taken'⟩
    · exact ⟨history', same ▸ run'⟩
    · exact ⟨_, run'.snoc taken'⟩

end Runs
