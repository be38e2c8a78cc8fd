import Mathlib

/-!
# Sequences of calls

A store takes one call after the other, until one of them fails. `Refines` says
when a store answers a call as the store it stands for does, by a condition on
the state before the call and on the call itself, and no sequence is answered
alike unless each of its calls meets that condition.
-/

namespace Calls

universe u

variable {Fault Store Store' Call Answer : Type u}

/-- The answers of a sequence of calls, or the fault it ends with. -/
def answers (call : Store → Call → Except Fault (Store × Answer)) :
    Store → List Call → Except Fault (List Answer)
  | _, [] => .ok []
  | s, c :: calls => do
      let (s, answer) ← call s c
      let rest ← answers call s calls
      return answer :: rest

def after (call : Store → Call → Except Fault (Store × Answer)) :
    Store → List Call → Except Fault Store
  | s, [] => .ok s
  | s, c :: calls => do
      let (s, _) ← call s c
      after call s calls

def Each (call : Store → Call → Except Fault (Store × Answer)) (condition : Store → Call → Prop)
    (s : Store) (calls : List Call) : Prop :=
  ∀ before c rest, calls = before ++ c :: rest → ∀ t, after call s before = .ok t → condition t c

variable {call : Store → Call → Except Fault (Store × Answer)}
  {call' : Store' → Call → Except Fault (Store' × Answer)} {condition : Store → Call → Prop}

theorem answers_cons {s t : Store} {c : Call} {answer : Answer} (calls : List Call)
    (called : call s c = .ok (t, answer)) :
    answers call s (c :: calls) = (answers call t calls).map (answer :: ·) := by
  rw [answers, called]
  rfl

theorem after_cons {s t : Store} {c : Call} {answer : Answer} (calls : List Call)
    (called : call s c = .ok (t, answer)) : after call s (c :: calls) = after call t calls := by
  rw [after, called]
  rfl

theorem after_of_error {s : Store} {c : Call} {e : Fault} (calls : List Call)
    (called : call s c = .error e) : after call s (c :: calls) = .error e := by
  rw [after, called]
  rfl

theorem after_append (s : Store) (calls calls' : List Call) :
    after call s (calls ++ calls') = after call s calls >>= fun t => after call t calls' := by
  induction calls generalizing s with
  | nil => rfl
  | cons c calls ih =>
    cases called : call s c with
    | error e =>
      rw [List.cons_append, after_of_error _ called, after_of_error _ called]
      rfl
    | ok reached =>
      rw [List.cons_append, after_cons _ called, after_cons _ called, ih]

/-- What the calls that meet the condition keep of the history of calls holds after every
beginning of a sequence of such calls. -/
theorem Each.induct (Inv : List Call → Store → Prop)
    (keeps : ∀ history s c, Inv history s → condition s c →
      ∃ t answer, call s c = .ok (t, answer) ∧ Inv (history ++ [c]) t)
    {s : Store} (initially : Inv [] s) {calls : List Call} (all : Each call condition s calls)
    {before rest : List Call} (split : calls = before ++ rest) :
    ∃ t, after call s before = .ok t ∧ Inv before t := by
  induction before using List.reverseRecOn generalizing rest with
  | nil => exact ⟨s, rfl, initially⟩
  | append_singleton before c ih =>
    rw [List.append_assoc] at split
    obtain ⟨t, reached, kept⟩ := ih split
    obtain ⟨u, answer, called, kept'⟩ := keeps before t c kept (all before c rest split t reached)
    refine ⟨u, ?_, kept'⟩
    rw [after_append, reached]
    exact after_cons [] called

/-- What each call keeps of the history of calls, a store that always returns keeps. -/
theorem after_induct (Inv : List Call → Store → Prop)
    (returns : ∀ history s c, Inv history s →
      ∃ t answer, call s c = .ok (t, answer) ∧ Inv (history ++ [c]) t)
    {s : Store} (initially : Inv [] s) (calls : List Call) :
    ∃ t, after call s calls = .ok t ∧ Inv calls t := by
  have all : Each call (fun _ _ => True) s calls := fun _ _ _ _ _ _ => trivial
  exact all.induct Inv (fun history s c kept _ => returns history s c kept) initially
    (List.append_nil calls).symm

theorem after_preserves (Inv : List Call → Store → Prop)
    (keeps : ∀ history s c t answer, Inv history s → call s c = .ok (t, answer) →
      Inv (history ++ [c]) t)
    {s t : Store} (initially : Inv [] s) {calls : List Call}
    (reached : after call s calls = .ok t) : Inv calls t := by
  induction calls using List.reverseRecOn generalizing t with
  | nil =>
    obtain rfl := Except.ok.inj reached
    exact initially
  | append_singleton calls c ih =>
    rw [after_append] at reached
    cases before : after call s calls with
    | error e =>
      rw [before] at reached
      cases reached
    | ok u =>
      rw [before] at reached
      cases called : call u c with
      | error e => exact absurd ((after_of_error [] called).symm.trans reached) (by simp)
      | ok last =>
        obtain ⟨t', answer⟩ := last
        have ended := after_cons [] called
        obtain rfl : t' = t := Except.ok.inj (ended.symm.trans reached)
        exact keeps calls u c t' answer (ih before) called

theorem each_nil (s : Store) : Each call condition s [] := by
  intro before c rest split
  simp at split

theorem each_cons {s t : Store} {c : Call} {answer : Answer} {calls : List Call}
    (called : call s c = .ok (t, answer)) :
    Each call condition s (c :: calls) ↔ condition s c ∧ Each call condition t calls := by
  constructor
  · intro all
    refine ⟨all [] c calls rfl s rfl, ?_⟩
    rintro before d rest rfl u reached
    apply all (c :: before) d rest rfl u
    rw [after_cons before called]
    exact reached
  · rintro ⟨here, later⟩ before d rest split u reached
    cases before with
    | nil =>
      obtain ⟨rfl, rfl⟩ := List.cons.inj split
      obtain rfl := Except.ok.inj reached
      exact here
    | cons e before =>
      obtain ⟨rfl, rfl⟩ := List.cons.inj split
      rw [after_cons before called] at reached
      exact later before d rest rfl u reached

theorem Each.head {s : Store} {c : Call} {calls : List Call}
    (all : Each call condition s (c :: calls)) : condition s c :=
  all [] c calls rfl s rfl

theorem answers_cons_eq_iff {s t : Store} {s' t' : Store'} {c : Call} {answer : Answer}
    {calls : List Call} (called : call s c = .ok (t, answer))
    (called' : call' s' c = .ok (t', answer)) :
    answers call s (c :: calls) = answers call' s' (c :: calls) ↔
      answers call t calls = answers call' t' calls := by
  rw [answers_cons calls called, answers_cons calls called']
  generalize answers call t calls = rest
  generalize answers call' t' calls = rest'
  cases rest <;> cases rest' <;> simp [Except.map]

theorem answers_of_total (total : ∀ s c, ∃ t answer, call s c = .ok (t, answer)) (s : Store)
    (calls : List Call) : ∃ result, answers call s calls = .ok result := by
  induction calls generalizing s with
  | nil => exact ⟨[], rfl⟩
  | cons c calls ih =>
    obtain ⟨t, answer, called⟩ := total s c
    obtain ⟨rest, answered⟩ := ih t
    refine ⟨answer :: rest, ?_⟩
    rw [answers_cons calls called, answered]
    rfl

theorem head_of_answers_eq {s : Store} {s' t' : Store'} {c : Call} {calls : List Call}
    {answer : Answer} {rest : List Answer} (called' : call' s' c = .ok (t', answer))
    (answered' : answers call' t' calls = .ok rest)
    (same : answers call s (c :: calls) = answers call' s' (c :: calls)) :
    ∃ t, call s c = .ok (t, answer) := by
  rw [answers_cons calls called', answered'] at same
  cases called : call s c with
  | error e =>
    have failed : answers call s (c :: calls) = .error e := by
      rw [answers, called]
      rfl
    rw [failed] at same
    cases same
  | ok reached =>
    obtain ⟨t, first⟩ := reached
    rw [answers_cons calls called] at same
    cases answered : answers call t calls with
    | error e =>
      rw [answered] at same
      cases same
    | ok tail =>
      rw [answered] at same
      obtain ⟨rfl, -⟩ := List.cons.inj (Except.ok.inj same)
      exact ⟨t, rfl⟩

/-- A store that stands for another answers as it does, and goes on standing for it,
on the calls that meet the condition and on no others. -/
structure Refines (call : Store → Call → Except Fault (Store × Answer))
    (call' : Store' → Call → Except Fault (Store' × Answer)) (abstraction : Store → Store')
    (Inv : Store → Prop) (condition : Store → Call → Prop) : Prop where
  total : ∀ s' c, ∃ t' answer, call' s' c = .ok (t', answer)
  agrees : ∀ s c, Inv s → condition s c → ∃ t answer, call s c = .ok (t, answer) ∧
    call' (abstraction s) c = .ok (abstraction t, answer) ∧ Inv t
  differs : ∀ s c, Inv s → ¬ condition s c → ∀ t t' answer, call s c = .ok (t, answer) →
    call' (abstraction s) c ≠ .ok (t', answer)

theorem Refines.answers_eq_iff {abstraction : Store → Store'} {Inv : Store → Prop}
    (refines : Refines call call' abstraction Inv condition) {s : Store} (good : Inv s)
    (calls : List Call) :
    answers call s calls = answers call' (abstraction s) calls ↔ Each call condition s calls := by
  induction calls generalizing s with
  | nil => exact iff_of_true rfl (each_nil s)
  | cons c calls ih =>
    by_cases met : condition s c
    · obtain ⟨t, answer, called, called', good'⟩ := refines.agrees s c good met
      rw [answers_cons_eq_iff called called', each_cons called, ih good']
      simp [met]
    · apply iff_of_false
      · intro same
        obtain ⟨t', answer, called'⟩ := refines.total (abstraction s) c
        obtain ⟨rest, answered'⟩ := answers_of_total refines.total t' calls
        obtain ⟨t, called⟩ := head_of_answers_eq called' answered' same
        exact refines.differs s c good met t t' answer called called'
      · intro all
        exact met all.head

end Calls
