import Pttp.Process

/-!
# pttp::Transaction

The constructor runs the loop of `process_transaction` a second time, but tests
its witness counter against a vector of its own that has one element for every
credit. The element of the message's signature list is then read unchecked.
-/

namespace Pttp.Chain

open Covering Messages

structure Credit where
  pub : Bytes
  amount : Int64
  deriving DecidableEq

structure Transaction where
  credits : List Credit
  witnesses : List Bytes
  deriving DecidableEq

variable (S : SignScheme) (creditSets : Codec CreditSet)
  (transactions : Codec Messages.Transaction)

def checkCredits (creditData : Bytes) (capWitnesses : List Witness) :
    List Messages.Credit → Nat → Nat → Transaction → Cpp Transaction
  | [], _, _, t => .ok t
  | credit :: rest, i, nNeg, t =>
      let amount := credit.amount.toInt32
      let t := { t with credits := t.credits.set i ⟨credit.account, amount.toInt64⟩ }
      if amount < 0 then
        -- `witnesses` is the member, not the signature list
        if t.witnesses.length ≤ nNeg then .error .thrown
        else
          match capWitnesses[nNeg]? with
          | none => .error .pastEnd
          | some witness =>
              let t := { t with witnesses := t.witnesses.set nNeg witness.data }
              if S.verify witness.data creditData credit.account then
                checkCredits creditData capWitnesses rest (i + 1) (nNeg + 1) t
              else .error .thrown
      else checkCredits creditData capWitnesses rest (i + 1) nNeg t

def Transaction.ofBytes (b : Bytes) : Cpp Transaction := do
  let tx ← transactions.read b
  let creditReader ← creditSets.read tx.creditSet
  let n := creditReader.credits.length
  checkCredits S tx.creditSet tx.signatures creditReader.credits 0 0
    ⟨List.replicate n ⟨[], 0⟩, List.replicate n []⟩

def Transaction.creditBytes (t : Transaction) : Bytes :=
  creditSets.write ⟨t.credits.map fun credit => ⟨credit.pub, credit.amount⟩⟩

def Transaction.bytes (t : Transaction) : Bytes :=
  transactions.write ⟨t.creditBytes creditSets, t.witnesses.map fun data => ⟨0, data⟩⟩

variable {S} {creditData : Bytes}

/-- The test of the constructor never fires: there are at most as many debits as
credits. -/
theorem checkCredits_cons (S : SignScheme) (creditData : Bytes) (capWitnesses : List Witness)
    (credit : Messages.Credit) (rest : List Messages.Credit) (i nNeg : Nat) (t : Transaction)
    (room : nNeg + (rest.length + 1) ≤ t.witnesses.length) :
    ∃ t' : Transaction,
      t'.credits = t.credits.set i ⟨credit.account, credit.amount.toInt32.toInt64⟩ ∧
      t'.witnesses.length = t.witnesses.length ∧
      checkCredits S creditData capWitnesses (credit :: rest) i nNeg t =
        if credit.amount.toInt32 < 0 then
          match capWitnesses[nNeg]? with
          | none => .error .pastEnd
          | some witness =>
              if Witnessed S creditData credit witness then
                checkCredits S creditData capWitnesses rest (i + 1) (nNeg + 1) t'
              else .error .thrown
        else checkCredits S creditData capWitnesses rest (i + 1) nNeg t' := by
  have notFull : ¬ t.witnesses.length ≤ nNeg := by omega
  by_cases negative : credit.amount.toInt32 < 0
  · cases found : capWitnesses[nNeg]? with
    | none =>
      refine ⟨{ t with credits := t.credits.set i ⟨credit.account, credit.amount.toInt32.toInt64⟩ },
        rfl, rfl, ?_⟩
      simp only [checkCredits, if_pos negative, if_neg notFull, found]
    | some witness =>
      refine ⟨{ credits := t.credits.set i ⟨credit.account, credit.amount.toInt32.toInt64⟩
                witnesses := t.witnesses.set nNeg witness.data },
        rfl, List.length_set, ?_⟩
      simp only [checkCredits, if_pos negative, if_neg notFull, found]
      rfl
  · refine ⟨{ t with credits := t.credits.set i ⟨credit.account, credit.amount.toInt32.toInt64⟩ },
      rfl, rfl, ?_⟩
    simp only [checkCredits, if_neg negative]

/-- The loop completes when the witnesses cover the debits, and reads past the end of them
when they run out. -/
theorem checkCredits_outcome (capWitnesses : List Witness)
    (credits : List Messages.Credit) (i nNeg : Nat) (t : Transaction)
    (room : nNeg + credits.length ≤ t.witnesses.length) :
    ((∃ t', checkCredits S creditData capWitnesses credits i nNeg t = .ok t') ↔
      Covers (Witnessed S creditData) (debits credits) (capWitnesses.drop nNeg)) ∧
    (checkCredits S creditData capWitnesses credits i nNeg t = .error .pastEnd ↔
      RunsOut (Witnessed S creditData) (debits credits) (capWitnesses.drop nNeg)) := by
  induction credits generalizing i nNeg t with
  | nil => simp [checkCredits, runsOut_nil]
  | cons credit rest ih =>
    rw [List.length_cons] at room
    obtain ⟨t', _, sameLength, unfolded⟩ :=
      checkCredits_cons S creditData capWitnesses credit rest i nNeg t room
    rw [unfolded]
    by_cases negative : credit.amount.toInt32 < 0
    · rw [if_pos negative, debits_cons_of_neg negative, covers_cons_drop, runsOut_cons_drop]
      cases found : capWitnesses[nNeg]? with
      | none => simp
      | some witness =>
        by_cases witnessed : Witnessed S creditData credit witness
        · simpa [witnessed] using ih (i + 1) (nNeg + 1) t' (by omega)
        · simp [witnessed]
    · rw [if_neg negative, debits_cons_of_not_neg negative]
      exact ih (i + 1) nNeg t' (by omega)

theorem checkCredits_credits (capWitnesses : List Witness) (credits : List Messages.Credit)
    (front back : List Credit) (nNeg : Nat) (t t' : Transaction)
    (split : t.credits = front ++ back) (length : back.length = credits.length)
    (room : nNeg + credits.length ≤ t.witnesses.length)
    (returned : checkCredits S creditData capWitnesses credits front.length nNeg t = .ok t') :
    t'.credits =
      front ++ credits.map fun credit => ⟨credit.account, credit.amount.toInt32.toInt64⟩ := by
  induction credits generalizing front back nNeg t with
  | nil =>
    have empty : back = [] := List.length_eq_zero_iff.mp length
    rw [checkCredits, Except.ok.injEq] at returned
    rw [← returned, split, empty]
    rfl
  | cons credit rest ih =>
    rw [List.length_cons] at room
    obtain ⟨u, credits, sameLength, unfolded⟩ := checkCredits_cons S creditData
      capWitnesses credit rest front.length nNeg t room
    cases back with
    | nil => simp at length
    | cons old back =>
      have written : u.credits =
          (front ++ [⟨credit.account, credit.amount.toInt32.toInt64⟩]) ++ back := by
        rw [credits, split, List.set_append_right _ _ (Nat.le_refl _)]
        simp
      have after (nNeg' : Nat) (room' : nNeg' + rest.length ≤ u.witnesses.length)
          (continued : checkCredits S creditData capWitnesses rest (front.length + 1) nNeg' u =
            .ok t') := by
        have := ih _ back nNeg' u written (by simpa using length) room'
          (by simpa using continued)
        rwa [List.append_assoc] at this
      rw [unfolded] at returned
      split at returned
      · split at returned
        · cases returned
        · split at returned
          · exact after (nNeg + 1) (by omega) returned
          · cases returned
      · exact after nNeg (by omega) returned

end Pttp.Chain
