import Pttp.Process

/-!
# Signatures and keys of any length

What a peer sent as a witness or an account is as long as the peer made it. `Signature::verify`
passes the two on as they are, and the library takes 64 bytes of the one and 32 of the other:
past the end of a shorter one, nothing is determined any more. The loop makes its calls up to
the first that fails.
-/

namespace Pttp

open Covering Messages

section

variable (S : SignScheme) (creditSets : Codec CreditSet)

/-- `Signature::verify` on vectors of any size. -/
def verifyDetached (sig message pub : Bytes) : Cpp Bool :=
  if 64 ≤ sig.length ∧ 32 ≤ pub.length then .ok (S.verify sig message pub) else .error .pastEnd

def processCreditsSized (creditData : Bytes) (witnesses : List Witness) :
    List Credit → Nat → Progress → Cpp (Bool × Progress)
  | [], _, st => .ok (true, st)
  | credit :: rest, i, st =>
      let a := credit.amount.toInt32
      let st := { st with
        amounts := st.amounts.set i a
        accounts := st.accounts ++ [credit.account] }
      if a < 0 then
        match witnesses[st.nNeg]? with
        | none => .ok (false, st)
        | some witness => do
            let st := { st with sigs := st.sigs.map (· ++ [witness.data]) }
            let verified ← verifyDetached S witness.data creditData credit.account
            if verified then
              processCreditsSized creditData witnesses rest (i + 1)
                { st with nNeg := st.nNeg + 1 }
            else .ok (false, st)
      else processCreditsSized creditData witnesses rest (i + 1) st

def processTransactionSized (tx : Transaction) (accounts : List Bytes) (amounts : List Int32)
    (sigs : Option (List Bytes)) : Cpp (Bool × Progress) := do
  let creditReader ← creditSets.read tx.creditSet
  let credits := creditReader.credits
  processCreditsSized S tx.creditSet tx.signatures credits 0
    ⟨0, accounts, amounts.takeD credits.length 0, sigs⟩

end

/-- What the library takes is there. -/
def Sized (credit : Credit) (witness : Witness) : Prop :=
  64 ≤ witness.data.length ∧ 32 ≤ credit.account.length

instance (credit : Credit) (witness : Witness) : Decidable (Sized credit witness) :=
  inferInstanceAs (Decidable (_ ∧ _))

variable {S : SignScheme} {creditSets : Codec CreditSet} {creditData : Bytes}

theorem verifyDetached_of_sized {credit : Credit} {witness : Witness}
    (sized : Sized credit witness) : verifyDetached S witness.data creditData credit.account =
      .ok (S.verify witness.data creditData credit.account) := if_pos sized

theorem verifyDetached_of_not_sized {credit : Credit} {witness : Witness}
    (short : ¬ Sized credit witness) :
    verifyDetached S witness.data creditData credit.account = .error .pastEnd := if_neg short

/-- As long as the calls of the library find what they take, the sizes make no difference. -/
theorem processCreditsSized_eq (S : SignScheme) (creditData : Bytes) (witnesses : List Witness)
    (credits : List Credit) (i : Nat) (st : Progress) :
    (TestsOnly (Witnessed S creditData) Sized (debits credits) (witnesses.drop st.nNeg) ∧
      processCreditsSized S creditData witnesses credits i st =
        .ok (processCredits S creditData witnesses credits i st)) ∨
    (¬ TestsOnly (Witnessed S creditData) Sized (debits credits) (witnesses.drop st.nNeg) ∧
      processCreditsSized S creditData witnesses credits i st = .error .pastEnd) := by
  induction credits generalizing i st with
  | nil => exact .inl ⟨testsOnly_nil _, rfl⟩
  | cons credit rest ih =>
    by_cases negative : credit.amount.toInt32 < 0
    · rw [debits_cons_of_neg negative, testsOnly_cons_drop]
      simp only [processCreditsSized, processCredits, if_pos negative]
      cases found : witnesses[st.nNeg]? with
      | none => exact .inl ⟨fun witness impossible => (by cases impossible), rfl⟩
      | some witness =>
        simp only [Option.some.injEq, forall_eq']
        by_cases sized : Sized credit witness
        · simp only [verifyDetached_of_sized sized, Cpp.ok_bind]
          by_cases verified : S.verify witness.data creditData credit.account = true
          · have good : Witnessed S creditData credit witness := verified
            simp only [if_pos verified, sized, good, true_and, true_implies]
            exact ih (i + 1) ⟨st.nNeg + 1, st.accounts ++ [credit.account],
              st.amounts.set i credit.amount.toInt32, st.sigs.map (· ++ [witness.data])⟩
          · have bad : ¬ Witnessed S creditData credit witness := verified
            simp only [if_neg verified]
            exact .inl ⟨⟨sized, fun good => absurd good bad⟩, trivial⟩
        · simp only [verifyDetached_of_not_sized sized, Cpp.error_bind]
          exact .inr ⟨fun tests => sized tests.1, trivial⟩
    · rw [debits_cons_of_not_neg negative]
      simp only [processCreditsSized, processCredits, if_neg negative]
      exact ih (i + 1) ⟨st.nNeg, st.accounts ++ [credit.account],
        st.amounts.set i credit.amount.toInt32, st.sigs⟩

variable (S) in
def CallsSized (tx : Transaction) (credits : List Credit) : Prop :=
  TestsOnly (Witnessed S tx.creditSet) Sized (debits credits) tx.signatures

theorem processTransactionSized_of_callsSized {tx : Transaction} {cs : CreditSet}
    (decoded : creditSets.read tx.creditSet = .ok cs) (sized : CallsSized S tx cs.credits)
    (accounts : List Bytes) (amounts : List Int32) (sigs : Option (List Bytes)) :
    processTransactionSized S creditSets tx accounts amounts sigs =
      processTransactionReader S creditSets tx accounts amounts sigs := by
  unfold processTransactionSized processTransactionReader
  rw [decoded, Cpp.ok_bind, Cpp.ok_bind]
  rcases processCreditsSized_eq S tx.creditSet tx.signatures cs.credits 0
    ⟨0, accounts, amounts.takeD cs.credits.length 0, sigs⟩ with ⟨-, same⟩ | ⟨short, -⟩
  · exact same
  · exact absurd sized short

theorem processTransactionSized_of_not_callsSized {tx : Transaction} {cs : CreditSet}
    (decoded : creditSets.read tx.creditSet = .ok cs) (short : ¬ CallsSized S tx cs.credits)
    (accounts : List Bytes) (amounts : List Int32) (sigs : Option (List Bytes)) :
    processTransactionSized S creditSets tx accounts amounts sigs = .error .pastEnd := by
  unfold processTransactionSized
  rw [decoded, Cpp.ok_bind]
  rcases processCreditsSized_eq S tx.creditSet tx.signatures cs.credits 0
    ⟨0, accounts, amounts.takeD cs.credits.length 0, sigs⟩ with ⟨sized, -⟩ | ⟨-, ended⟩
  · exact absurd sized short
  · exact ended

end Pttp
