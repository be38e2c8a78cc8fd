import Pttp.Chain.Ledger
import Pttp.Chain.Reserialise
import Pttp.Chain.Runs

/-!
# Who signed for what is spent

A `pttp::Transaction` has one constructor, which reads a message and verifies its
signatures. So every transaction that `add` gets was signed by the accounts it takes
from, over the bytes its credits were read from, and `get_latest` lets no working balance
fall without such a signature. The constructor also cuts every amount to an `int`, which
is what keeps the negation in the test of `get_latest` from overflowing.
-/

namespace Pttp.Chain

open Accounts Covering Messages Runs

variable (S : SignScheme) (creditSets : Codec CreditSet)
  (transactions : Codec Messages.Transaction)

/-- The credits were read from bytes that every account they take from has signed: the
witnesses answer the debits in order. -/
def Signed (tx : Transaction) (creditData : Bytes) : Prop :=
  (∃ cs, creditSets.read creditData = .ok cs ∧
    tx.credits = cs.credits.map fun credit => ⟨credit.account, credit.amount.toInt32.toInt64⟩) ∧
  Covers (fun credit witness => S.verify witness creditData credit.pub = true)
    (tx.credits.filter (·.amount < 0)) tx.witnesses

/-- `add` is called with what the constructor makes of some bytes. -/
def Received : Cpp BlockChain → Op → Prop
  | _, .add tx => ∃ b, Transaction.ofBytes S creditSets transactions b = .ok tx
  | _, .getLatest => True

structure AllSigned (c : BlockChain) : Prop where
  signed : ∀ h tx, c.txs.lookup h = some tx → ∃ creditData, Signed S creditSets tx creditData
  narrow : ∀ h, ∀ credit ∈ creditsOf c.txs h, FitsInt credit.amount

def Guarded (s : Cpp BlockChain) : Prop := ∀ c, s = .ok c → AllSigned S creditSets c

variable {S creditSets transactions} {G : GenericHash}

/-! ## What the constructor makes -/

theorem amount_neg_iff (amount : Int64) : amount.toInt32.toInt64 < 0 ↔ amount.toInt32 < 0 := by
  rw [Int64.lt_iff_toInt_lt, Int32.lt_iff_toInt_lt, Int32.toInt_toInt64]
  exact Iff.rfl

theorem filter_negative_map (credits : List Messages.Credit) :
    (credits.map fun credit => (⟨credit.account, credit.amount.toInt32.toInt64⟩ : Credit)).filter
        (·.amount < 0) =
      (debits credits).map fun credit => ⟨credit.account, credit.amount.toInt32.toInt64⟩ := by
  unfold debits
  rw [List.filter_map]
  congr 1
  apply List.filter_congr
  intro credit _
  exact decide_eq_decide.mpr (amount_neg_iff credit.amount)

theorem covers_cut {creditData : Bytes} {credits : List Messages.Credit}
    {signatures : List Witness}
    (covered : Covers (Witnessed S creditData) (debits credits) signatures)
    (padding : List Bytes) :
    Covers (fun (credit : Credit) witness => S.verify witness creditData credit.pub = true)
      ((debits credits).map fun credit => ⟨credit.account, credit.amount.toInt32.toInt64⟩)
      ((signatures.take (debits credits).length).map Witness.data ++ padding) := by
  rw [covers_iff_getElem] at covered ⊢
  obtain ⟨enough, all⟩ := covered
  have taken : (signatures.take (debits credits).length).length = (debits credits).length :=
    List.length_take_of_le enough
  constructor
  · simp only [List.length_map, List.length_append, taken]
    exact Nat.le_add_right _ _
  · intro k debit supplied
    rw [List.length_map] at debit
    have inFront : k < ((signatures.take (debits credits).length).map Witness.data).length := by
      rw [List.length_map, taken]
      exact debit
    rw [List.getElem_append_left inFront, List.getElem_map, List.getElem_map, List.getElem_take]
    exact all k debit (debit.trans_le enough)

theorem signed_of_ofBytes {b : Bytes} {tx : Transaction}
    (built : Transaction.ofBytes S creditSets transactions b = .ok tx) :
    ∃ creditData, Signed S creditSets tx creditData := by
  obtain ⟨message, decodedTx, inner⟩ := Cpp.bind_eq_ok.mp built
  obtain ⟨cs, decodedSet, -⟩ := Cpp.bind_eq_ok.mp inner
  have credits := ofBytes_credits decodedTx decodedSet built
  have covered := (ofBytes_completes_iff decodedTx decodedSet).mp ⟨tx, built⟩
  refine ⟨message.creditSet, ⟨cs, decodedSet, credits⟩, ?_⟩
  rw [credits, filter_negative_map, ofBytes_witnesses decodedTx decodedSet built]
  exact covers_cut covered _

theorem fitsInt_cut (amount : Int64) : FitsInt amount.toInt32.toInt64 := by
  rw [fitsInt_iff, Int32.toInt_toInt64, Int32.toInt32_toInt64]

theorem Signed.fitsInt {tx : Transaction} {creditData : Bytes}
    (signed : Signed S creditSets tx creditData) :
    ∀ credit ∈ tx.credits, FitsInt credit.amount := by
  obtain ⟨⟨cs, -, credits⟩, -⟩ := signed
  intro credit member
  rw [credits] at member
  obtain ⟨source, -, rfl⟩ := List.mem_map.mp member
  exact fitsInt_cut source.amount

theorem Signed.exists_witness {tx : Transaction} {creditData : Bytes}
    (signed : Signed S creditSets tx creditData) {credit : Credit} (member : credit ∈ tx.credits)
    (debit : credit.amount < 0) :
    ∃ witness ∈ tx.witnesses, S.verify witness creditData credit.pub = true :=
  signed.2.exists_good (List.mem_filter.mpr ⟨member, decide_eq_true debit⟩)

/-! ## Runs -/

theorem creditsOf_of_absent {txs : Finmap fun _ : Bytes => Transaction} {h : Bytes}
    (absent : txs.lookup h = none) : creditsOf txs h = [] := by
  rw [creditsOf, absent]
  rfl

theorem allSigned_of_signed {c : BlockChain}
    (signed : ∀ h tx, c.txs.lookup h = some tx → ∃ creditData, Signed S creditSets tx creditData) :
    AllSigned S creditSets c := by
  refine ⟨signed, ?_⟩
  intro h credit member
  cases found : c.txs.lookup h with
  | none =>
    rw [creditsOf_of_absent found] at member
    cases member
  | some tx =>
    rw [creditsOf_eq found] at member
    obtain ⟨creditData, bySignatures⟩ := signed h tx found
    exact bySignatures.fitsInt credit member

theorem allSigned_fresh (balance : Balances) : AllSigned S creditSets (.fresh balance) := by
  apply allSigned_of_signed
  intro h tx found
  rw [BlockChain.fresh, Finmap.lookup_empty] at found
  cases found

theorem AllSigned.add {c : BlockChain} (all : AllSigned S creditSets c) {tx : Transaction}
    {creditData : Bytes} (signed : Signed S creditSets tx creditData) :
    AllSigned S creditSets (c.add G creditSets transactions tx) := by
  rw [BlockChain.add]
  split
  case isTrue => exact all
  case isFalse fresh =>
    apply allSigned_of_signed
    intro h other found
    by_cases new : h = hash G (tx.bytes creditSets transactions)
    · subst new
      rw [Finmap.lookup_insert] at found
      obtain rfl := Option.some.inj found
      exact ⟨creditData, signed⟩
    · rw [Finmap.lookup_insert_of_ne _ new] at found
      exact all.signed h other found

theorem exec_getLatest_eq_ok {c c' : BlockChain}
    (ended : c.exec G creditSets transactions .getLatest = .ok c') :
    ∃ latestSet latestHash, c' = { c with latestSet, latestHash } := by
  cases returned : c.getLatest G with
  | error e =>
    rw [BlockChain.exec, returned] at ended
    cases ended
  | ok result =>
    obtain ⟨h, after⟩ := result
    rw [BlockChain.exec, returned] at ended
    obtain rfl : after = c' := Except.ok.inj ended
    exact ⟨_, _, (getLatest_eq_ok_iff.mp returned).2.2⟩

theorem Guarded.step {s t : Cpp BlockChain} {op : Op} (guarded : Guarded S creditSets s)
    (came : Received S creditSets transactions s op)
    (taken : Step G creditSets transactions s op t) : Guarded S creditSets t := by
  obtain ⟨c, rfl, ended⟩ := taken
  have all := guarded c rfl
  rintro c' rfl
  cases op with
  | add tx =>
    obtain ⟨b, built⟩ := came
    obtain ⟨creditData, signed⟩ := signed_of_ofBytes built
    exact Except.ok.inj ended ▸ all.add signed
  | getLatest =>
    obtain ⟨latestSet, latestHash, rfl⟩ := exec_getLatest_eq_ok ended
    exact ⟨all.signed, all.narrow⟩

theorem run_guarded (balance : Balances) {history : List (Cpp BlockChain × Op)}
    {t : Cpp BlockChain}
    (run : Run (Step G creditSets transactions) (.ok (.fresh balance)) history t)
    (received : Meets (Received S creditSets transactions) history) : Guarded S creditSets t := by
  have initially : Guarded S creditSets (.ok (.fresh balance)) := by
    intro c same
    exact Except.ok.inj same ▸ allSigned_fresh balance
  exact run.invariant_of_meets initially (fun _ _ _ => Guarded.step) received

/-! ## A balance that falls -/

theorem ledgerOf_of_admits {txs : Finmap fun _ : Bytes => Transaction} {balance : Balances}
    {h : Bytes} (narrow : ∀ credit ∈ creditsOf txs h, FitsInt credit.amount)
    (fits : ∀ credit ∈ creditsOf txs h, InRange (ledgerOf balance credit.pub + credit.amount.toInt))
    (admitted : Admits txs balance h) :
    ledgerOf (applyCredits balance (creditsOf txs h)) =
      post (ledgerOf balance) (entriesOf (creditsOf txs h)) := by
  have once := ((creditsValid_iff narrow ∅).mp admitted).2.1
  rw [map_fst_entriesOf] at once
  exact ledgerOf_applyCredits once fits

theorem exists_debit_of_falls {txs : Finmap fun _ : Bytes => Transaction} {balance : Balances}
    {h pub : Bytes} (narrow : ∀ credit ∈ creditsOf txs h, FitsInt credit.amount)
    (fits : ∀ credit ∈ creditsOf txs h, InRange (ledgerOf balance credit.pub + credit.amount.toInt))
    (admitted : Admits txs balance h)
    (falls : ledgerOf (applyCredits balance (creditsOf txs h)) pub < ledgerOf balance pub) :
    ∃ credit ∈ creditsOf txs h, credit.pub = pub ∧ credit.amount < 0 := by
  have once := ((creditsValid_iff narrow ∅).mp admitted).2.1
  rw [ledgerOf_of_admits narrow fits admitted] at falls
  by_cases named : pub ∈ (entriesOf (creditsOf txs h)).map Prod.fst
  · obtain ⟨entry, member, rfl⟩ := List.mem_map.mp named
    rw [post_of_mem once member] at falls
    obtain ⟨credit, inside, rfl⟩ := List.mem_map.mp member
    refine ⟨credit, inside, rfl, Int64.lt_iff_toInt_lt.mpr ?_⟩
    have zero : (0 : Int64).toInt = 0 := rfl
    rw [zero]
    simp only at falls
    omega
  · rw [post_of_not_mem named] at falls
    exact absurd falls (lt_irrefl _)

theorem select_append_singleton (txs : Finmap fun _ : Bytes => Transaction) (balance : Balances)
    (front : List Bytes) (h : Bytes) :
    (select txs balance (front ++ [h])).2 =
      if Admits txs (select txs balance front).2 h then
        applyCredits (select txs balance front).2 (creditsOf txs h)
      else (select txs balance front).2 := by
  unfold select
  induction front generalizing balance with
  | nil =>
    by_cases admitted : Admits txs balance h
    · rw [List.nil_append, Greedy.run_cons_of_ok admitted, Greedy.run_nil, Greedy.run_nil,
        if_pos admitted]
    · rw [List.nil_append, Greedy.run_cons_of_not_ok admitted, Greedy.run_nil, if_neg admitted]
  | cons first front ih =>
    rw [List.cons_append]
    by_cases admitted : Admits txs balance first
    · rw [Greedy.run_cons_of_ok admitted, Greedy.run_cons_of_ok admitted]
      exact ih _
    · rw [Greedy.run_cons_of_not_ok admitted, Greedy.run_cons_of_not_ok admitted]
      exact ih _

/-- However transactions come in and `get_latest` is called: when the loop of `get_latest`
comes to a transaction and an account has less behind it than before, the account has signed
the bytes that the transaction's credits were read from. -/
theorem run_spending_signed (balance : Balances) {history : List (Cpp BlockChain × Op)}
    {c : BlockChain}
    (run : Run (Step G creditSets transactions) (.ok (.fresh balance)) history (.ok c))
    (received : Meets (Received S creditSets transactions) history)
    (front : List Bytes) (h pub : Bytes)
    (fits : ∀ credit ∈ creditsOf c.txs h,
      InRange (ledgerOf (select c.txs c.balance front).2 credit.pub + credit.amount.toInt))
    (falls : ledgerOf (select c.txs c.balance (front ++ [h])).2 pub <
      ledgerOf (select c.txs c.balance front).2 pub) :
    ∃ tx creditData, c.txs.lookup h = some tx ∧ Signed S creditSets tx creditData ∧
      ∃ witness ∈ tx.witnesses, S.verify witness creditData pub = true := by
  have all := run_guarded balance run received c rfl
  rw [select_append_singleton] at falls
  split at falls
  case isFalse => exact absurd falls (lt_irrefl _)
  case isTrue admitted =>
    obtain ⟨credit, member, rfl, debit⟩ := exists_debit_of_falls (all.narrow h) fits admitted falls
    cases found : c.txs.lookup h with
    | none =>
      rw [creditsOf_of_absent found] at member
      cases member
    | some tx =>
      rw [creditsOf_eq found] at member
      obtain ⟨creditData, signed⟩ := all.signed h tx found
      exact ⟨tx, creditData, rfl, signed, signed.exists_witness member debit⟩

theorem exists_signed_debit (creditSets : Codec CreditSet)
    (transactions : Codec Messages.Transaction) :
    ∃ b tx, Transaction.ofBytes .prefixing creditSets transactions b = .ok tx ∧
      tx.credits = [⟨[1], -3⟩] := by
  have decodedTx := transactions.read_write ⟨creditSets.write ⟨[⟨[1], -3⟩]⟩,
    [⟨0, [1] ++ creditSets.write ⟨[⟨[1], -3⟩]⟩⟩]⟩
  have decodedSet := creditSets.read_write ⟨[⟨[1], -3⟩]⟩
  have oneDebit : debits [⟨[1], -3⟩] = [⟨[1], -3⟩] := by decide
  obtain ⟨tx, built⟩ := (ofBytes_completes_iff (S := .prefixing) decodedTx decodedSet).mpr (by
    rw [oneDebit]
    exact ⟨decide_eq_true rfl, trivial⟩)
  exact ⟨_, tx, built, ofBytes_credits decodedTx decodedSet built⟩

theorem creditsOf_add_fresh (G : GenericHash) (creditSets : Codec CreditSet)
    (transactions : Codec Messages.Transaction) (balance : Balances) (tx : Transaction) :
    creditsOf ((BlockChain.fresh balance).add G creditSets transactions tx).txs
        (hash G (tx.bytes creditSets transactions)) = tx.credits ∧
      ((BlockChain.fresh balance).add G creditSets transactions tx).balance = balance := by
  have new : hash G (tx.bytes creditSets transactions) ∉ (BlockChain.fresh balance).txs :=
    Finmap.notMem_empty
  rw [BlockChain.add, if_neg new]
  exact ⟨creditsOf_eq (Finmap.lookup_insert _), rfl⟩

theorem run_spending_signed_payment :
    ∃ tx creditData, Signed .prefixing (Codec.ofEncodable CreditSet) tx creditData ∧
      ∃ witness ∈ tx.witnesses, SignScheme.prefixing.verify witness creditData [1] = true := by
  obtain ⟨b, tx, built, credits⟩ := exists_signed_debit (Codec.ofEncodable CreditSet)
    (Codec.ofEncodable Messages.Transaction)
  obtain ⟨stored, unspent⟩ := creditsOf_add_fresh .polynomial (Codec.ofEncodable CreditSet)
    (Codec.ofEncodable Messages.Transaction) ((∅ : Balances).insert [1] 5) tx
  rw [credits] at stored
  have run : Run (Step .polynomial (Codec.ofEncodable CreditSet)
      (Codec.ofEncodable Messages.Transaction)) (.ok (.fresh ((∅ : Balances).insert [1] 5)))
      ([] ++ [(_, .add tx)]) (.ok _) := Run.nil.snoc ⟨_, rfl, rfl⟩
  have received : Meets (Received .prefixing (Codec.ofEncodable CreditSet)
      (Codec.ofEncodable Messages.Transaction))
      ([] ++ [(.ok (.fresh ((∅ : Balances).insert [1] 5)), .add tx)]) := by
    rw [meets_snoc]
    exact ⟨nofun, b, built⟩
  have admitted : Admits ((BlockChain.fresh ((∅ : Balances).insert [1] 5)).add .polynomial
      (Codec.ofEncodable CreditSet) (Codec.ofEncodable Messages.Transaction) tx).txs
      ((∅ : Balances).insert [1] 5) (hash .polynomial (tx.bytes (Codec.ofEncodable CreditSet)
        (Codec.ofEncodable Messages.Transaction))) := by
    unfold Admits
    rw [stored]
    decide
  obtain ⟨tx', creditData, -, signed, witnessed⟩ :=
    run_spending_signed ((∅ : Balances).insert [1] 5) run received [] _ [1]
      (by
        rw [stored, unspent]
        change ∀ credit : Credit, credit ∈ _ →
          InRange (ledgerOf ((∅ : Balances).insert [1] 5) credit.pub + credit.amount.toInt)
        rw [List.forall_mem_singleton]
        exact ⟨by decide, by decide⟩)
      (by
        rw [select_append_singleton, stored, unspent]
        change ledgerOf (if Admits _ ((∅ : Balances).insert [1] 5) _ then
          applyCredits ((∅ : Balances).insert [1] 5) _ else _) [1] <
            ledgerOf ((∅ : Balances).insert [1] 5) [1]
        rw [if_pos admitted]
        decide)
  exact ⟨tx', creditData, signed, witnessed⟩

end Pttp.Chain
