import Mathlib.Data.ZMod.Basic
import Pttp.Chain.Ledger

/-!
# The money that is there

Nothing asks that the credits of a transaction add up to zero. What `get_latest` keeps is
the account of it: the working balances together hold what the balances held and what the
selected transactions pay out, up to the wrapping of 64 bits. And a transaction that takes
from no one is selected whatever the balances are, so the total is what anyone makes it.
-/

namespace Pttp.Chain

def total (balance : Balances) : ℤ := ∑ pub ∈ balance.keys, ledgerOf balance pub

def issued (credits : List Credit) : ℤ := (credits.map fun credit => credit.amount.toInt).sum

/-- The total of the 64-bit entries. -/
def supply (balance : Balances) : ZMod (2 ^ 64) := total balance

/-- No account is named twice and nothing is taken. -/
def Unbacked (credits : List Credit) : Prop :=
  (credits.map Credit.pub).Nodup ∧ ∀ credit ∈ credits, 0 ≤ credit.amount

instance decidableUnbacked (credits : List Credit) : Decidable (Unbacked credits) :=
  inferInstanceAs (Decidable (_ ∧ _))

/-! ## One posting -/

theorem total_eq_sum {balance : Balances} {accounts : Finset Bytes}
    (all : balance.keys ⊆ accounts) : total balance = ∑ pub ∈ accounts, ledgerOf balance pub := by
  apply Finset.sum_subset all
  intro pub _ absent
  apply ledgerOf_of_absent
  rw [Finmap.lookup_eq_none, ← Finmap.mem_keys]
  exact absent

theorem total_insert (balance : Balances) (pub : Bytes) (held : Int64) :
    total (balance.insert pub held) = total balance - ledgerOf balance pub + held.toInt := by
  have present : pub ∈ insert pub balance.keys := Finset.mem_insert_self pub _
  have after : (balance.insert pub held).keys ⊆ insert pub balance.keys := by
    intro other member
    rw [Finmap.mem_keys, Finmap.mem_insert] at member
    rw [Finset.mem_insert, Finmap.mem_keys]
    exact member
  rw [total_eq_sum after, total_eq_sum (Finset.subset_insert pub balance.keys), ledgerOf_insert,
    Finset.sum_update_of_mem present, ← Finset.add_sum_erase _ _ present,
    Finset.sdiff_singleton_eq_erase]
  omega

theorem toInt_add_cast (held amount : Int64) :
    ((held + amount).toInt : ZMod (2 ^ 64)) = held.toInt + amount.toInt := by
  rw [Int64.toInt_add, ← Int.cast_add, ZMod.intCast_eq_intCast_iff_dvd_sub]
  exact Int.dvd_self_sub_bmod

theorem supply_applyCredits (balance : Balances) (credits : List Credit) :
    supply (applyCredits balance credits) = supply balance + issued credits := by
  induction credits generalizing balance with
  | nil => simp [applyCredits, issued]
  | cons credit rest ih =>
    obtain ⟨held, holds, unfolded⟩ := applyCredits_cons balance credit rest
    have posted : supply (balance.insert credit.pub (held + credit.amount)) =
        supply balance + credit.amount.toInt := by
      unfold supply
      rw [total_insert, ← holds]
      push_cast
      rw [toInt_add_cast]
      ring
    have split : issued (credit :: rest) = credit.amount.toInt + issued rest := rfl
    rw [unfolded, ih, posted, split]
    push_cast
    ring

/-! ## The whole loop -/

theorem supply_select (txs : Finmap fun _ : Bytes => Transaction) (balance : Balances)
    (hashes : List Bytes) :
    supply (select txs balance hashes).2 = supply balance +
      ((select txs balance hashes).1.map fun h =>
        (issued (creditsOf txs h) : ZMod (2 ^ 64))).sum := by
  apply Greedy.run_accumulates
  intro balance h _
  exact supply_applyCredits balance (creditsOf txs h)

theorem creditsValid_of_unbacked {credits : List Credit} (unbacked : Unbacked credits)
    (balanceCpy : Balances) {pubSet : Finset Bytes}
    (fresh : ∀ credit ∈ credits, credit.pub ∉ pubSet) :
    creditsValid balanceCpy credits pubSet = true := by
  induction credits generalizing pubSet with
  | nil => rfl
  | cons credit rest ih =>
    obtain ⟨once, nonneg⟩ := unbacked
    rw [List.map_cons, List.nodup_cons] at once
    rw [List.forall_mem_cons] at nonneg fresh
    have kept : ¬ (credit.amount < 0 ∧ (credit.pub ∉ balanceCpy ∨
        (balanceCpy.lookup credit.pub).getD 0 < -credit.amount)) :=
      fun overdrawn => absurd overdrawn.1 (Int64.not_lt.mpr nonneg.1)
    rw [creditsValid, if_neg fresh.1, if_neg kept]
    apply ih ⟨once.2, nonneg.2⟩
    intro other member
    rw [Finset.mem_insert, not_or]
    refine ⟨?_, fresh.2 other member⟩
    intro same
    exact once.1 (same ▸ List.mem_map_of_mem member)

/-- When `get_latest` returns, its working balances hold what was there and what the selected
transactions issue; and every transaction of the mempool that takes nothing is selected. -/
theorem getLatest_supply {G : GenericHash} {c c' : BlockChain} {h : Bytes}
    (returned : c.getLatest G = .ok (h, c')) :
    (∃ st, selectLoop c.txs c.ordered ⟨[], [], c.balance⟩ = .ok st ∧
      st.latestSet = c'.latestSet ∧
      supply st.balanceCpy = supply c.balance +
        (c'.latestSet.map fun h => (issued (creditsOf c.txs h) : ZMod (2 ^ 64))).sum) ∧
    ∀ k ∈ c.mempool, Unbacked (creditsOf c.txs k) → k ∈ c'.latestSet := by
  obtain ⟨known, -, rfl⟩ := getLatest_eq_ok_iff.mp returned
  have listed : ∀ k, k ∈ c.ordered ↔ k ∈ c.mempool := fun k => Finset.mem_sort _
  constructor
  · refine ⟨_, selectLoop_eq (fun k member => known k ((listed k).mp member)) _, rfl, ?_⟩
    exact supply_select c.txs c.balance c.ordered
  · intro k member unbacked
    apply Greedy.mem_selected_of_ok _ ((listed k).mpr member)
    intro balanceCpy
    exact creditsValid_of_unbacked unbacked balanceCpy fun credit _ =>
      Finset.notMem_empty credit.pub

def onePayment : BlockChain where
  txs := (∅ : Finmap fun _ : Bytes => Transaction).insert [1] ⟨[⟨[7], 5⟩], []⟩
  mempool := {[1]}
  latestSet := []
  latestHash := []
  balance := ∅

theorem getLatest_supply_onePayment :
    ∃ h c' st, onePayment.getLatest .polynomial = .ok (h, c') ∧ [1] ∈ c'.latestSet ∧
      selectLoop onePayment.txs onePayment.ordered ⟨[], [], ∅⟩ = .ok st ∧
      supply st.balanceCpy = 5 := by
  have ordered : onePayment.ordered = [[1]] := Finset.sort_singleton _ _
  have selected : onePayment.selected = [[1]] := by
    unfold BlockChain.selected
    rw [ordered]
    decide
  have nonempty : onePayment.selected ≠ [] := selected ▸ List.cons_ne_nil [1] []
  obtain ⟨h, hashed, -⟩ := hashVec_of_ne_nil .polynomial nonempty
  have returned := getLatest_eq_ok_iff.mpr ⟨(by decide), hashed, rfl⟩
  obtain ⟨⟨st, looped, -, total⟩, paid⟩ := getLatest_supply returned
  refine ⟨h, _, st, returned, paid [1] (by decide) (by decide), looped, total.trans ?_⟩
  simp only [selected]
  decide

end Pttp.Chain
