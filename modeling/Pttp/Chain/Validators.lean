import Pttp.Chain.Transaction

/-!
# The constructor against process_transaction

Both loops accept the same messages. They part where the signatures run out
behind verified ones: process_transaction refuses, the constructor reads on.
-/

namespace Pttp.Chain

open Covering Messages

variable {S : SignScheme} {creditSets : Codec CreditSet}
  {transactions : Codec Messages.Transaction}

theorem processTransaction_eq {b : Bytes} {tx : Messages.Transaction}
    (decodedTx : transactions.read b = .ok tx) :
    processTransaction S creditSets transactions b [] [] =
      processTransactionReader S creditSets tx [] [] none := by
  rw [processTransaction, decodedTx, Cpp.ok_bind]

section Decoded

variable {b : Bytes} {tx : Messages.Transaction} {cs : CreditSet}
  (decodedTx : transactions.read b = .ok tx) (decodedSet : creditSets.read tx.creditSet = .ok cs)

include decodedTx decodedSet

theorem ofBytes_eq : Transaction.ofBytes S creditSets transactions b =
    checkCredits S tx.creditSet tx.signatures cs.credits 0 0
      ⟨List.replicate cs.credits.length ⟨[], 0⟩, List.replicate cs.credits.length []⟩ := by
  rw [Transaction.ofBytes, decodedTx, Cpp.ok_bind, decodedSet]
  rfl

theorem ofBytes_completes_iff :
    (∃ t, Transaction.ofBytes S creditSets transactions b = .ok t) ↔
      Covers (Witnessed S tx.creditSet) (debits cs.credits) tx.signatures := by
  rw [ofBytes_eq decodedTx decodedSet]
  exact (checkCredits_outcome _ _ _ _ _ (by simp)).1

theorem ofBytes_readsPastEnd_iff :
    Transaction.ofBytes S creditSets transactions b = .error .pastEnd ↔
      RunsOut (Witnessed S tx.creditSet) (debits cs.credits) tx.signatures := by
  rw [ofBytes_eq decodedTx decodedSet]
  exact (checkCredits_outcome _ _ _ _ _ (by simp)).2

theorem ofBytes_credits {t : Transaction}
    (built : Transaction.ofBytes S creditSets transactions b = .ok t) :
    t.credits =
      cs.credits.map fun credit => ⟨credit.account, credit.amount.toInt32.toInt64⟩ := by
  rw [ofBytes_eq decodedTx decodedSet] at built
  exact checkCredits_credits tx.signatures cs.credits [] _ 0 _ t rfl (by simp) (by simp) built

theorem processTransaction_accepts_iff :
    (∃ out, processTransaction S creditSets transactions b [] [] = .ok (true, out)) ↔
      Covers (Witnessed S tx.creditSet) (debits cs.credits) tx.signatures := by
  rw [processTransaction_eq decodedTx]
  constructor
  · rintro ⟨out, returned⟩
    obtain ⟨cs', decoded', covered, _⟩ := processTransactionReader_accepts returned
    have : cs = cs' := Cpp.ok_unique decodedSet decoded'
    exact this ▸ covered
  · exact fun covered => processTransactionReader_of_covers decodedSet covered none

end Decoded

theorem processTransaction_ne_pastEnd (b : Bytes) :
    processTransaction S creditSets transactions b [] [] ≠ .error .pastEnd := by
  intro faulted
  rw [processTransaction] at faulted
  cases readTx : transactions.read b with
  | error e =>
    rw [readTx, Cpp.error_bind, Codec.eq_thrown_of_read_eq_error readTx] at faulted
    cases faulted
  | ok tx =>
    rw [readTx, Cpp.ok_bind, processTransactionReader] at faulted
    cases readSet : creditSets.read tx.creditSet with
    | error e =>
      rw [readSet, Cpp.error_bind, Codec.eq_thrown_of_read_eq_error readSet] at faulted
      cases faulted
    | ok cs =>
      rw [readSet] at faulted
      cases faulted

/-- The two validators give one verdict and one report, and stay inside the
signature list. -/
structure Agreement (S : SignScheme) (creditSets : Codec CreditSet)
    (transactions : Codec Messages.Transaction) (b : Bytes) : Prop where
  verdict : (∃ t, Transaction.ofBytes S creditSets transactions b = .ok t) ↔
    ∃ out, processTransaction S creditSets transactions b [] [] = .ok (true, out)
  accounts : ∀ t out, Transaction.ofBytes S creditSets transactions b = .ok t →
    processTransaction S creditSets transactions b [] [] = .ok (true, out) →
    t.credits.map Credit.pub = out.accounts
  amounts : ∀ t out, Transaction.ofBytes S creditSets transactions b = .ok t →
    processTransaction S creditSets transactions b [] [] = .ok (true, out) →
    t.credits.map Credit.amount = out.amounts.map Int32.toInt64
  constructorInBounds : Transaction.ofBytes S creditSets transactions b ≠ .error .pastEnd
  processInBounds : processTransaction S creditSets transactions b [] [] ≠ .error .pastEnd

theorem agreement_of_unreadable {b : Bytes}
    (unreadable : ∀ tx cs, transactions.read b = .ok tx → creditSets.read tx.creditSet ≠ .ok cs) :
    Agreement S creditSets transactions b := by
  have thrown : Transaction.ofBytes S creditSets transactions b = .error .thrown := by
    rw [Transaction.ofBytes]
    cases readTx : transactions.read b with
    | error e => rw [Codec.eq_thrown_of_read_eq_error readTx, Cpp.error_bind]
    | ok tx =>
      rw [Cpp.ok_bind]
      cases readSet : creditSets.read tx.creditSet with
      | error e => rw [Codec.eq_thrown_of_read_eq_error readSet, Cpp.error_bind]
      | ok cs => exact absurd readSet (unreadable tx cs readTx)
  have refused (out : Progress) :
      processTransaction S creditSets transactions b [] [] ≠ .ok (true, out) := by
    intro returned
    obtain ⟨tx, readTx, inner⟩ := Cpp.bind_eq_ok.mp returned
    obtain ⟨cs, readSet, _⟩ := Cpp.bind_eq_ok.mp inner
    exact unreadable tx cs readTx readSet
  exact ⟨by simp [thrown, refused], by simp [thrown], by simp [thrown], by simp [thrown],
    processTransaction_ne_pastEnd b⟩

/-- The validators agree on exactly the messages whose signatures do not run out:
there is one for every debit, or one of them does not verify. -/
theorem agreement_iff (b : Bytes) :
    Agreement S creditSets transactions b ↔
      ∀ tx cs, transactions.read b = .ok tx → creditSets.read tx.creditSet = .ok cs →
        ¬ RunsOut (Witnessed S tx.creditSet) (debits cs.credits) tx.signatures := by
  constructor
  · intro agreement tx cs readTx readSet runsOut
    exact agreement.constructorInBounds ((ofBytes_readsPastEnd_iff readTx readSet).mpr runsOut)
  · intro enough
    by_cases readable : ∃ tx cs, transactions.read b = .ok tx ∧
        creditSets.read tx.creditSet = .ok cs
    · obtain ⟨tx, cs, readTx, readSet⟩ := readable
      have report (out : Progress)
          (returned : processTransaction S creditSets transactions b [] [] = .ok (true, out)) :
          out.accounts = cs.credits.map Messages.Credit.account ∧
            out.amounts = cs.credits.map fun credit => credit.amount.toInt32 := by
        rw [processTransaction_eq readTx] at returned
        obtain ⟨cs', readSet', _, reported⟩ := processTransactionReader_accepts returned
        have : cs = cs' := Cpp.ok_unique readSet readSet'
        exact this ▸ reported
      refine ⟨?_, ?_, ?_, ?_, processTransaction_ne_pastEnd b⟩
      · rw [ofBytes_completes_iff readTx readSet, processTransaction_accepts_iff readTx readSet]
      · intro t out built returned
        rw [ofBytes_credits readTx readSet built, (report out returned).1, List.map_map]
        rfl
      · intro t out built returned
        rw [ofBytes_credits readTx readSet built, (report out returned).2, List.map_map,
          List.map_map]
        rfl
      · intro pastEnd
        exact enough tx cs readTx readSet ((ofBytes_readsPastEnd_iff readTx readSet).mp pastEnd)
    · push Not at readable
      exact agreement_of_unreadable readable

/-- A debit of 1 and no signature: process_transaction refuses the message, the
constructor reads the first element of an empty list. -/
theorem unsigned_debit_reads_past_end (creditSets : Codec CreditSet)
    (transactions : Codec Messages.Transaction) (account : Bytes) :
    Transaction.ofBytes S creditSets transactions
        (transactions.write ⟨creditSets.write ⟨[⟨account, -1⟩]⟩, []⟩) = .error .pastEnd ∧
    ¬ Agreement S creditSets transactions
        (transactions.write ⟨creditSets.write ⟨[⟨account, -1⟩]⟩, []⟩) := by
  have readSet := creditSets.read_write ⟨[⟨account, -1⟩]⟩
  have pastEnd : Transaction.ofBytes S creditSets transactions
      (transactions.write ⟨creditSets.write ⟨[⟨account, -1⟩]⟩, []⟩) = .error .pastEnd := by
    rw [ofBytes_eq (transactions.read_write _) readSet]
    rfl
  exact ⟨pastEnd, fun agreement => agreement.constructorInBounds pastEnd⟩

theorem validators_part_on_unsigned_debit :
    Transaction.ofBytes .prefixing (Codec.ofEncodable CreditSet)
        (Codec.ofEncodable Messages.Transaction)
        ((Codec.ofEncodable Messages.Transaction).write
          ⟨(Codec.ofEncodable CreditSet).write ⟨[⟨[1], -1⟩]⟩, []⟩) = .error .pastEnd ∧
    ¬ Agreement .prefixing (Codec.ofEncodable CreditSet)
        (Codec.ofEncodable Messages.Transaction)
        ((Codec.ofEncodable Messages.Transaction).write
          ⟨(Codec.ofEncodable CreditSet).write ⟨[⟨[1], -1⟩]⟩, []⟩) :=
  unsigned_debit_reads_past_end _ _ [1]

end Pttp.Chain
