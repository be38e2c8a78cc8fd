import Mathlib

/-!
# Balances and postings

A posting is a list of signed amounts for accounts. It is covered when it names
every account once and takes from no account more than it holds. Posting it keeps
all balances non-negative.
-/

namespace Accounts

universe u

variable {Account : Type u} [DecidableEq Account]

def Covered (balance : Account → ℤ) (posting : List (Account × ℤ)) : Prop :=
  (posting.map Prod.fst).Nodup ∧ ∀ entry ∈ posting, entry.2 < 0 → -entry.2 ≤ balance entry.1

instance (balance : Account → ℤ) (posting : List (Account × ℤ)) :
    Decidable (Covered balance posting) := inferInstanceAs (Decidable (_ ∧ _))

/-- Every account gets the sum of the amounts that name it. -/
def post (balance : Account → ℤ) (posting : List (Account × ℤ)) (account : Account) : ℤ :=
  balance account + ((posting.filter (·.1 = account)).map Prod.snd).sum

@[simp] theorem post_nil (balance : Account → ℤ) : post balance [] = balance := by
  funext account
  simp [post]

theorem post_cons (balance : Account → ℤ) (entry : Account × ℤ) (rest : List (Account × ℤ)) :
    post balance (entry :: rest) =
      post (Function.update balance entry.1 (balance entry.1 + entry.2)) rest := by
  funext account
  by_cases named : entry.1 = account
  · subst named
    simp [post, add_assoc]
  · simp [post, named, Function.update_of_ne (Ne.symm named)]

theorem post_of_not_mem {balance : Account → ℤ} {posting : List (Account × ℤ)}
    {account : Account} (absent : account ∉ posting.map Prod.fst) :
    post balance posting account = balance account := by
  have none : posting.filter (·.1 = account) = [] := by
    rw [List.filter_eq_nil_iff]
    intro entry member
    have : entry.1 ≠ account := fun named => absent (List.mem_map.mpr ⟨entry, member, named⟩)
    simpa using this
  simp [post, none]

theorem post_of_mem {balance : Account → ℤ} {posting : List (Account × ℤ)}
    (once : (posting.map Prod.fst).Nodup) {entry : Account × ℤ} (member : entry ∈ posting) :
    post balance posting entry.1 = balance entry.1 + entry.2 := by
  induction posting generalizing balance with
  | nil => simp at member
  | cons first rest ih =>
    rw [List.map_cons, List.nodup_cons] at once
    rw [post_cons]
    rcases List.mem_cons.mp member with rfl | later
    · rw [post_of_not_mem once.1, Function.update_self]
    · have other : entry.1 ≠ first.1 := fun same =>
        once.1 (same ▸ List.mem_map.mpr ⟨entry, later, rfl⟩)
      rw [ih once.2 later, Function.update_of_ne other]

theorem post_nonneg {balance : Account → ℤ} {posting : List (Account × ℤ)}
    (nonneg : ∀ account, 0 ≤ balance account) (covered : Covered balance posting)
    (account : Account) : 0 ≤ post balance posting account := by
  by_cases named : account ∈ posting.map Prod.fst
  · obtain ⟨entry, member, rfl⟩ := List.mem_map.mp named
    rw [post_of_mem covered.1 member]
    rcases lt_or_ge entry.2 0 with debit | credit
    · have := covered.2 entry member debit
      omega
    · exact add_nonneg (nonneg _) credit
  · rw [post_of_not_mem named]
    exact nonneg account

end Accounts
