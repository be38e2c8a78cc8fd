import Mathlib

/-!
# Answering a list in order

A consumer walks over requests and takes one answer from a queue for each of
them. `Covers` says that the walk succeeds, `RunsOut` that the queue is empty
while every answer taken so far was good. `TestsOnly` is for a test that may be
made on some pairs only: the walk makes it up to the first answer that is not
good. The `_drop` rules follow one step of a walk that keeps a counter into the
queue.
-/

namespace Covering

universe u v

variable {α : Type u} {β : Type v}

/-- The `k`-th element of the first list is answered by the `k`-th element of
the second; what is left of the second list is not looked at. -/
def Covers (good : α → β → Prop) : List α → List β → Prop
  | [], _ => True
  | _ :: _, [] => False
  | a :: as, b :: bs => good a b ∧ Covers good as bs

/-- All answers are used up, all of them good, and a request is left. -/
def RunsOut (good : α → β → Prop) (as : List α) (bs : List β) : Prop :=
  bs.length < as.length ∧ Covers (fun b a => good a b) bs as

/-- The tests of the walk are made on safe pairs. -/
def TestsOnly (good safe : α → β → Prop) : List α → List β → Prop
  | [], _ => True
  | _ :: _, [] => True
  | a :: as, b :: bs => safe a b ∧ (good a b → TestsOnly good safe as bs)

variable {good safe : α → β → Prop}

@[simp] theorem covers_nil (bs : List β) : Covers good [] bs := by
  cases bs <;> trivial

@[simp] theorem covers_cons_nil (a : α) (as : List α) : ¬ Covers good (a :: as) [] :=
  id

@[simp] theorem covers_cons_cons (a : α) (as : List α) (b : β) (bs : List β) :
    Covers good (a :: as) (b :: bs) ↔ good a b ∧ Covers good as bs := Iff.rfl

instance decidableCovers [∀ a b, Decidable (good a b)] :
    ∀ (as : List α) (bs : List β), Decidable (Covers good as bs)
  | [], _ => isTrue (covers_nil _)
  | _ :: _, [] => isFalse id
  | _ :: as, _ :: bs =>
    have := decidableCovers as bs
    inferInstanceAs (Decidable (_ ∧ _))

instance [∀ a b, Decidable (good a b)] (as : List α) (bs : List β) :
    Decidable (RunsOut good as bs) := inferInstanceAs (Decidable (_ ∧ _))

theorem covers_iff_getElem (as : List α) (bs : List β) :
    Covers good as bs ↔ as.length ≤ bs.length ∧
      ∀ k (ha : k < as.length) (hb : k < bs.length), good as[k] bs[k] := by
  induction as generalizing bs with
  | nil => simp
  | cons a as ih =>
    cases bs with
    | nil => simp
    | cons b bs =>
      rw [covers_cons_cons, ih]
      constructor
      · rintro ⟨first, short, rest⟩
        refine ⟨by simpa using short, ?_⟩
        intro k ha hb
        cases k with
        | zero => exact first
        | succ k => exact rest k (by simpa using ha) (by simpa using hb)
      · rintro ⟨short, all⟩
        refine ⟨all 0 (by simp) (by simp), by simpa using short, ?_⟩
        intro k ha hb
        exact all (k + 1) (by simpa using ha) (by simpa using hb)

theorem Covers.exists_good {as : List α} {bs : List β} (covered : Covers good as bs) {a : α}
    (member : a ∈ as) : ∃ b ∈ bs, good a b := by
  induction as generalizing bs with
  | nil => cases member
  | cons first as ih =>
    cases bs with
    | nil => exact absurd covered (covers_cons_nil first as)
    | cons b bs =>
      obtain ⟨here, later⟩ := covered
      rcases List.mem_cons.mp member with rfl | behind
      · exact ⟨b, List.mem_cons_self, here⟩
      · obtain ⟨b', answer, fits⟩ := ih later behind
        exact ⟨b', List.mem_cons_of_mem b answer, fits⟩

theorem covers_map {γ : Type*} (f : γ → α) (g : γ → β) (l : List γ)
    (h : ∀ x ∈ l, good (f x) (g x)) : Covers good (l.map f) (l.map g) := by
  induction l with
  | nil => exact covers_nil _
  | cons x l ih =>
    exact ⟨h x (by simp), ih fun y hy => h y (List.mem_cons_of_mem _ hy)⟩

theorem covers_cons_drop (a : α) (as : List α) (bs : List β) (k : Nat) :
    Covers good (a :: as) (bs.drop k) ↔
      ∃ b, bs[k]? = some b ∧ good a b ∧ Covers good as (bs.drop (k + 1)) := by
  rcases Nat.lt_or_ge k bs.length with hk | hk
  · rw [List.drop_eq_getElem_cons hk]
    simp only [covers_cons_cons, List.getElem?_eq_getElem hk, Option.some.injEq,
      exists_eq_left']
  · simp [List.drop_eq_nil_of_le hk, List.getElem?_eq_none hk]

theorem runsOut_nil (bs : List β) : ¬ RunsOut good [] bs := by simp [RunsOut]

theorem runsOut_cons_drop (a : α) (as : List α) (bs : List β) (k : Nat) :
    RunsOut good (a :: as) (bs.drop k) ↔
      bs[k]? = none ∨
        ∃ b, bs[k]? = some b ∧ good a b ∧ RunsOut good as (bs.drop (k + 1)) := by
  rcases Nat.lt_or_ge k bs.length with hk | hk
  · rw [List.drop_eq_getElem_cons hk]
    simp only [RunsOut, List.length_cons, covers_cons_cons, List.getElem?_eq_getElem hk,
      reduceCtorEq, Option.some.injEq, exists_eq_left', false_or]
    constructor
    · rintro ⟨short, first, rest⟩
      exact ⟨first, by omega, rest⟩
    · rintro ⟨first, short, rest⟩
      exact ⟨by omega, first, rest⟩
  · simp [RunsOut, List.drop_eq_nil_of_le hk, List.getElem?_eq_none hk]

@[simp] theorem testsOnly_nil (bs : List β) : TestsOnly good safe [] bs := by
  cases bs <;> trivial

theorem testsOnly_cons_drop (a : α) (as : List α) (bs : List β) (k : Nat) :
    TestsOnly good safe (a :: as) (bs.drop k) ↔
      ∀ b, bs[k]? = some b →
        safe a b ∧ (good a b → TestsOnly good safe as (bs.drop (k + 1))) := by
  rcases Nat.lt_or_ge k bs.length with hk | hk
  · rw [List.drop_eq_getElem_cons hk]
    simp only [TestsOnly, List.getElem?_eq_getElem hk, Option.some.injEq, forall_eq']
  · simp [List.drop_eq_nil_of_le hk, List.getElem?_eq_none hk, TestsOnly]

theorem testsOnly_of_forall {as : List α} {bs : List β} (all : ∀ a ∈ as, ∀ b ∈ bs, safe a b) :
    TestsOnly good safe as bs := by
  induction as generalizing bs with
  | nil => exact testsOnly_nil bs
  | cons a as ih =>
    cases bs with
    | nil => trivial
    | cons b bs =>
      refine ⟨all a List.mem_cons_self b List.mem_cons_self, fun _ => ih ?_⟩
      intro a' behind b' later
      exact all a' (List.mem_cons_of_mem a behind) b' (List.mem_cons_of_mem b later)

end Covering
