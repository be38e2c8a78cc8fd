import Pttp.Chain.BlockChain
import Pttp.Lib.Accounts
import Pttp.Process.Soundness

/-!
# get_latest as a ledger

The working balances of the loop stand for a function into the integers, with
zero for the accounts that are absent. While no balance leaves the 64-bit range,
the loop selects what the greedy rule of `Lib.Accounts` selects.
-/

namespace Pttp.Chain

open Accounts

def ledgerOf (balance : Balances) (pub : Bytes) : ℤ :=
  ((balance.lookup pub).map Int64.toInt).getD 0

def entriesOf (credits : List Credit) : List (Bytes × ℤ) :=
  credits.map fun credit => (credit.pub, credit.amount.toInt)

@[simp] theorem entriesOf_cons (credit : Credit) (rest : List Credit) :
    entriesOf (credit :: rest) = (credit.pub, credit.amount.toInt) :: entriesOf rest := rfl

@[simp] theorem map_fst_entriesOf (credits : List Credit) :
    (entriesOf credits).map Prod.fst = credits.map Credit.pub := by
  simp [entriesOf]

theorem ledgerOf_of_lookup {balance : Balances} {pub : Bytes} {held : Int64}
    (found : balance.lookup pub = some held) : ledgerOf balance pub = held.toInt := by
  rw [ledgerOf, found]
  rfl

theorem ledgerOf_of_absent {balance : Balances} {pub : Bytes}
    (absent : balance.lookup pub = none) : ledgerOf balance pub = 0 := by
  rw [ledgerOf, absent]
  rfl

theorem ledgerOf_insert (balance : Balances) (pub : Bytes) (held : Int64) :
    ledgerOf (balance.insert pub held) = Function.update (ledgerOf balance) pub held.toInt := by
  funext account
  by_cases same : account = pub
  · subst same
    rw [Function.update_self]
    exact ledgerOf_of_lookup (Finmap.lookup_insert _)
  · rw [Function.update_of_ne same, ledgerOf, Finmap.lookup_insert_of_ne _ same]
    rfl

/-! ## One transaction -/

theorem toInt_neg_of_fitsInt {amount : Int64} (fits : FitsInt amount) :
    (-amount).toInt = -amount.toInt := by
  obtain ⟨low, high⟩ := fits
  rw [Int64.toInt_neg]
  exact Int.bmod_eq_of_le (by omega) (by omega)

/-- The test of one credit. An absent account fails a debit as an account that
holds nothing does. -/
theorem overdrawn_iff (balance : Balances) {credit : Credit} (fits : FitsInt credit.amount) :
    (credit.amount < 0 ∧ (credit.pub ∉ balance ∨
        (balance.lookup credit.pub).getD 0 < -credit.amount)) ↔
      ¬ (credit.amount.toInt < 0 → -credit.amount.toInt ≤ ledgerOf balance credit.pub) := by
  have sign : credit.amount < 0 ↔ credit.amount.toInt < 0 := Int64.lt_iff_toInt_lt
  rw [Classical.not_imp, sign, not_le]
  refine and_congr_right fun negative => ?_
  cases found : balance.lookup credit.pub with
  | none =>
    have absent : credit.pub ∉ balance := Finmap.lookup_eq_none.mp found
    rw [ledgerOf_of_absent found]
    exact ⟨fun _ => by omega, fun _ => Or.inl absent⟩
  | some held =>
    have present : credit.pub ∈ balance := Finmap.mem_iff.mpr ⟨held, found⟩
    rw [ledgerOf_of_lookup found, Option.getD_some, Int64.lt_iff_toInt_lt,
      toInt_neg_of_fitsInt fits]
    exact or_iff_right (not_not_intro present)

theorem covered_cons (balance : Balances) (credit : Credit) (rest : List Credit) :
    Covered (ledgerOf balance) (entriesOf (credit :: rest)) ↔
      credit.pub ∉ rest.map Credit.pub ∧
      (credit.amount.toInt < 0 → -credit.amount.toInt ≤ ledgerOf balance credit.pub) ∧
      Covered (ledgerOf balance) (entriesOf rest) := by
  simp only [Covered, entriesOf_cons, List.map_cons, List.nodup_cons, map_fst_entriesOf,
    List.forall_mem_cons]
  tauto

theorem creditsValid_iff {balance : Balances} {credits : List Credit}
    (narrow : ∀ credit ∈ credits, FitsInt credit.amount) (pubSet : Finset Bytes) :
    creditsValid balance credits pubSet = true ↔
      (∀ credit ∈ credits, credit.pub ∉ pubSet) ∧
        Covered (ledgerOf balance) (entriesOf credits) := by
  induction credits generalizing pubSet with
  | nil => simp [creditsValid, Covered, entriesOf]
  | cons credit rest ih =>
    have ih' := ih (fun other member => narrow other (List.mem_cons_of_mem _ member))
      (insert credit.pub pubSet)
    have fresh : (∀ other ∈ rest, other.pub ∉ insert credit.pub pubSet) ↔
        (∀ other ∈ rest, other.pub ∉ pubSet) ∧ credit.pub ∉ rest.map Credit.pub := by
      simp only [Finset.mem_insert, not_or, List.mem_map, not_exists, not_and]
      exact ⟨fun h => ⟨fun o m => (h o m).2, fun o m => (h o m).1⟩,
        fun h o m => ⟨h.2 o m, h.1 o m⟩⟩
    have test := overdrawn_iff balance (narrow credit (by simp))
    rw [creditsValid, List.forall_mem_cons, covered_cons]
    by_cases seen : credit.pub ∈ pubSet
    · simp [seen]
    · rw [if_neg seen]
      split
      case isTrue overdrawn =>
        refine ⟨fun accepted => absurd accepted Bool.false_ne_true, ?_⟩
        rintro ⟨-, -, affordable, -⟩
        exact absurd affordable (test.mp overdrawn)
      case isFalse notOverdrawn =>
        have affordable := not_not.mp (mt test.mpr notOverdrawn)
        rw [ih', fresh]
        constructor
        · rintro ⟨⟨unseen, unnamed⟩, later⟩
          exact ⟨⟨seen, unseen⟩, unnamed, affordable, later⟩
        · rintro ⟨⟨-, unseen⟩, unnamed, -, later⟩
          exact ⟨⟨unseen, unnamed⟩, later⟩

theorem applyCredits_cons (balance : Balances) (credit : Credit) (rest : List Credit) :
    ∃ held : Int64, held.toInt = ledgerOf balance credit.pub ∧
      applyCredits balance (credit :: rest) =
        applyCredits (balance.insert credit.pub (held + credit.amount)) rest := by
  cases found : balance.lookup credit.pub with
  | none =>
    refine ⟨0, (ledgerOf_of_absent found).symm, ?_⟩
    simp only [applyCredits, found, Int64.zero_add]
  | some held =>
    refine ⟨held, (ledgerOf_of_lookup found).symm, ?_⟩
    simp only [applyCredits, found]

def InRange (amount : ℤ) : Prop := -2 ^ 63 ≤ amount ∧ amount < 2 ^ 63

theorem toInt_add_of_inRange {held amount : Int64} (fits : InRange (held.toInt + amount.toInt)) :
    (held + amount).toInt = held.toInt + amount.toInt := by
  obtain ⟨low, high⟩ := fits
  rw [Int64.toInt_add]
  exact Int.bmod_eq_of_le (by omega) (by omega)

theorem ledgerOf_applyCredits {balance : Balances} {credits : List Credit}
    (once : (credits.map Credit.pub).Nodup)
    (fits : ∀ credit ∈ credits, InRange (ledgerOf balance credit.pub + credit.amount.toInt)) :
    ledgerOf (applyCredits balance credits) = post (ledgerOf balance) (entriesOf credits) := by
  induction credits generalizing balance with
  | nil => simp [applyCredits, entriesOf]
  | cons credit rest ih =>
    rw [List.map_cons, List.nodup_cons] at once
    obtain ⟨held, holds, unfolded⟩ := applyCredits_cons balance credit rest
    have sum : (held + credit.amount).toInt =
        ledgerOf balance credit.pub + credit.amount.toInt := by
      rw [← holds]
      exact toInt_add_of_inRange (holds ▸ fits credit (by simp))
    have fits' : ∀ other ∈ rest, InRange
        (ledgerOf (balance.insert credit.pub (held + credit.amount)) other.pub +
          other.amount.toInt) := by
      intro other member
      have different : other.pub ≠ credit.pub := fun same =>
        once.1 (same ▸ List.mem_map.mpr ⟨other, member, rfl⟩)
      rw [ledgerOf_insert, Function.update_of_ne different]
      exact fits other (List.mem_cons_of_mem _ member)
    rw [unfolded, ih once.2 fits', ledgerOf_insert, sum, entriesOf_cons, post_cons]

/-! ## The whole loop -/

/-- The greedy rule over the integers. -/
def greedyRule (txs : Finmap fun _ : Bytes => Transaction) :
    (Bytes → ℤ) → List Bytes → List Bytes × (Bytes → ℤ) :=
  Greedy.run (fun ledger h => Covered ledger (entriesOf (creditsOf txs h)))
    (fun ledger h => post ledger (entriesOf (creditsOf txs h)))

/-- The working balances stand for the ledger, and the ledger is not overdrawn. -/
def Represents (balance : Balances) (ledger : Bytes → ℤ) : Prop :=
  ledgerOf balance = ledger ∧ ∀ pub, 0 ≤ ledger pub

theorem Represents.of_nonneg {balance : Balances}
    (nonneg : ∀ pub held, balance.lookup pub = some held → 0 ≤ held) :
    Represents balance (ledgerOf balance) := by
  refine ⟨rfl, fun pub => ?_⟩
  cases found : balance.lookup pub with
  | none => exact (ledgerOf_of_absent found).ge
  | some held =>
    rw [ledgerOf_of_lookup found]
    exact Int64.le_iff_toInt_le.mp (nonneg pub held found)

theorem Represents.nonneg {balance : Balances} {ledger : Bytes → ℤ}
    (represents : Represents balance ledger) {pub : Bytes} {held : Int64}
    (found : balance.lookup pub = some held) : 0 ≤ held := by
  obtain ⟨rfl, nonneg⟩ := represents
  have := nonneg pub
  rw [ledgerOf_of_lookup found] at this
  exact Int64.le_iff_toInt_le.mpr this

theorem Represents.applyCredits {balance : Balances} {ledger : Bytes → ℤ}
    {credits : List Credit} (represents : Represents balance ledger)
    (covered : Covered ledger (entriesOf credits))
    (small : ∀ pub, post ledger (entriesOf credits) pub < 2 ^ 63) :
    Represents (applyCredits balance credits) (post ledger (entriesOf credits)) := by
  obtain ⟨rfl, nonneg⟩ := represents
  have nonneg' := post_nonneg nonneg covered
  refine ⟨ledgerOf_applyCredits (map_fst_entriesOf credits ▸ covered.1) ?_, nonneg'⟩
  intro credit member
  have entry : (credit.pub, credit.amount.toInt) ∈ entriesOf credits :=
    List.mem_map.mpr ⟨credit, member, rfl⟩
  have reached : post (ledgerOf balance) (entriesOf credits) credit.pub =
      ledgerOf balance credit.pub + credit.amount.toInt := post_of_mem covered.1 entry
  constructor
  · have := nonneg' credit.pub
    omega
  · have := small credit.pub
    omega

theorem select_represents {txs : Finmap fun _ : Bytes => Transaction} {balance : Balances}
    {ledger : Bytes → ℤ} {hashes : List Bytes} (initially : Represents balance ledger)
    (narrow : ∀ h ∈ hashes, ∀ credit ∈ creditsOf txs h, FitsInt credit.amount)
    (small : ∀ front, front <+: hashes → ∀ pub, (greedyRule txs ledger front).2 pub < 2 ^ 63) :
    (select txs balance hashes).1 = (greedyRule txs ledger hashes).1 ∧
      Represents (select txs balance hashes).2 (greedyRule txs ledger hashes).2 := by
  refine Greedy.run_related (fun ledger => ∀ pub, ledger pub < 2 ^ 63) hashes ?agree ?related
    balance ledger initially small
  case agree =>
    intro balance ledger h member represents
    rw [Admits, creditsValid_iff (narrow h member), represents.1]
    exact and_iff_right fun credit _ => Finset.notMem_empty credit.pub
  case related =>
    intro balance ledger h _ represents covered small
    exact represents.applyCredits covered small

/-- `get_latest` selects what the greedy rule selects, with working balances that
are the rule's and never negative. -/
theorem getLatest_follows_greedyRule (G : GenericHash) (c : BlockChain)
    (nonneg : ∀ pub held, c.balance.lookup pub = some held → 0 ≤ held)
    (known : ∀ h ∈ c.mempool, h ∈ c.txs)
    (narrow : ∀ h ∈ c.mempool, ∀ credit ∈ creditsOf c.txs h, FitsInt credit.amount)
    (noOverflow : ∀ front, front <+: c.ordered → ∀ pub,
      (greedyRule c.txs (ledgerOf c.balance) front).2 pub < 2 ^ 63)
    (nonempty : (greedyRule c.txs (ledgerOf c.balance) c.ordered).1 ≠ []) :
    ∃ h c', c.getLatest G = .ok (h, c') ∧
      c'.latestSet = (greedyRule c.txs (ledgerOf c.balance) c.ordered).1 ∧
      c'.latestSet.Sublist c.ordered ∧
      hashVec G c'.latestSet = .ok h ∧ c'.latestHash = h ∧
      c'.balance = c.balance ∧ c'.mempool = c.mempool ∧ c'.txs = c.txs ∧
      ∀ front, front <+: c.ordered → ∃ st,
        selectLoop c.txs front ⟨[], [], c.balance⟩ = .ok st ∧
        st.latestSet = (greedyRule c.txs (ledgerOf c.balance) front).1 ∧
        ledgerOf st.balanceCpy = (greedyRule c.txs (ledgerOf c.balance) front).2 ∧
        ∀ pub held, st.balanceCpy.lookup pub = some held → 0 ≤ held := by
  have inMempool {front : List Bytes} (before : front <+: c.ordered) {h : Bytes}
      (member : h ∈ front) : h ∈ c.mempool := (Finset.mem_sort _).mp (before.subset member)
  have represented (front : List Bytes) (before : front <+: c.ordered) :=
    select_represents (.of_nonneg nonneg) (fun h member => narrow h (inMempool before member))
      fun shorter prior => noOverflow shorter (prior.trans before)
  have selected : c.selected = (greedyRule c.txs (ledgerOf c.balance) c.ordered).1 :=
    (represented c.ordered (List.prefix_refl _)).1
  obtain ⟨h, hashed, -⟩ := hashVec_of_ne_nil (G := G) (selected ▸ nonempty)
  refine ⟨h, { c with latestSet := c.selected, latestHash := h },
    getLatest_eq_ok_iff.mpr ⟨known, hashed, rfl⟩, selected, selected_sublist c, hashed,
    rfl, rfl, rfl, rfl, ?_⟩
  intro front before
  obtain ⟨same, represents⟩ := represented front before
  refine ⟨_, selectLoop_eq (fun h member => known h (inMempool before member)) _, same,
    represents.1, fun pub held => represents.nonneg⟩

def twoPayments : BlockChain where
  txs := (∅ : Finmap fun _ : Bytes => Transaction)
    |>.insert [1] ⟨[⟨[7], -5⟩, ⟨[8], 5⟩], []⟩ |>.insert [2] ⟨[⟨[8], -3⟩, ⟨[9], 3⟩], []⟩
  mempool := {[1], [2]}
  latestSet := []
  latestHash := []
  balance := (∅ : Balances).insert [7] 5

theorem ordered_twoPayments : twoPayments.ordered = [[1], [2]] := by
  have distinct : ([[1], [2]] : List Bytes).Nodup := by decide
  have listed : twoPayments.mempool = ([[1], [2]] : List Bytes).toFinset := by decide
  rw [BlockChain.ordered, listed]
  exact (List.toFinset_sort (· ≤ ·) distinct).mpr (by decide)

theorem ledgerOf_twoPayments (pub : Bytes) :
    ledgerOf twoPayments.balance pub = if pub = [7] then 5 else 0 := by
  rw [twoPayments, ledgerOf_insert, Function.update_apply,
    ledgerOf_of_absent (Finmap.lookup_empty pub)]
  rfl

theorem greedyRule_twoPayments_lt {front : List Bytes} (before : front <+: [[1], [2]])
    (pub : Bytes) :
    (greedyRule twoPayments.txs (ledgerOf twoPayments.balance) front).2 pub < 2 ^ 63 := by
  have first : (greedyRule twoPayments.txs (ledgerOf twoPayments.balance) [[1]]).2 =
      post (ledgerOf twoPayments.balance) [([7], -5), ([8], 5)] := rfl
  have second : (greedyRule twoPayments.txs (ledgerOf twoPayments.balance) [[1], [2]]).2 =
      post (post (ledgerOf twoPayments.balance) [([7], -5), ([8], 5)])
        [([8], -3), ([9], 3)] := rfl
  simp only [List.prefix_cons_iff, List.prefix_nil] at before
  rcases before with rfl | ⟨_, rfl, rfl | ⟨_, rfl, rfl⟩⟩
  · change ledgerOf twoPayments.balance pub < 2 ^ 63
    rw [ledgerOf_twoPayments]
    split <;> norm_num
  · rw [first]
    simp only [post_cons, post_nil, Function.update_apply, ledgerOf_twoPayments]
    split_ifs <;> norm_num
  · rw [second]
    simp only [post_cons, post_nil, Function.update_apply, ledgerOf_twoPayments]
    split_ifs <;> norm_num

theorem getLatest_follows_greedyRule_twoPayments :
    ∃ h c', twoPayments.getLatest .polynomial = .ok (h, c') ∧ c'.latestSet = [[1], [2]] := by
  have nonneg : ∀ pub held, twoPayments.balance.lookup pub = some held → 0 ≤ held := by
    intro pub held found
    by_cases named : pub = [7]
    · subst named
      cases found
      decide
    · rw [twoPayments, Finmap.lookup_insert_of_ne _ named, Finmap.lookup_empty] at found
      cases found
  have rule : (greedyRule twoPayments.txs (ledgerOf twoPayments.balance)
      twoPayments.ordered).1 = [[1], [2]] := by
    rw [ordered_twoPayments]
    decide
  obtain ⟨h, c', returned, selected, -⟩ := getLatest_follows_greedyRule .polynomial twoPayments
    nonneg (by decide) (by decide)
    (fun _ before => greedyRule_twoPayments_lt (ordered_twoPayments ▸ before))
    (rule ▸ List.cons_ne_nil _ _)
  exact ⟨h, c', returned, selected.trans rule⟩

end Pttp.Chain
