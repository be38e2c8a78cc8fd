import Pttp.Lib.Covering
import Pttp.Messages
import Pttp.Sodium

/-!
# Building and checking transactions

process.cc. The signer and the verifier each count the negative credits on their
own; the counters meet in `Covering.Covers`, which says that the debits are
answered in order by the witnesses. Amounts are `Int64` on the wire and `int` in
the program.
-/

namespace Pttp

open Covering Messages

structure SignKeyPair (S : SignScheme) where
  priv : Bytes
  pub : Bytes
  paired : S.Pair pub priv

/-- The locals and output vectors of the loop of `process_transaction`. -/
structure Progress where
  nNeg : Nat
  accounts : List Bytes
  amounts : List Int32
  sigs : Option (List Bytes)
  deriving DecidableEq

section

variable (S : SignScheme) (creditSets : Codec CreditSet) (transactions : Codec Transaction)

/-- The loop from credit `i` on. -/
def processCredits (creditData : Bytes) (witnesses : List Witness) :
    List Credit → Nat → Progress → Bool × Progress
  | [], _, st => (true, st)
  | credit :: rest, i, st =>
      let a := credit.amount.toInt32
      let st := { st with
        amounts := st.amounts.set i a
        accounts := st.accounts ++ [credit.account] }
      if a < 0 then
        match witnesses[st.nNeg]? with
        | none => (false, st)
        | some witness =>
            let st := { st with sigs := st.sigs.map (· ++ [witness.data]) }
            if S.verify witness.data creditData credit.account then
              processCredits creditData witnesses rest (i + 1) { st with nNeg := st.nNeg + 1 }
            else (false, st)
      else processCredits creditData witnesses rest (i + 1) st

def processTransactionReader (tx : Transaction) (accounts : List Bytes) (amounts : List Int32)
    (sigs : Option (List Bytes)) : Cpp (Bool × Progress) := do
  let creditReader ← creditSets.read tx.creditSet
  let credits := creditReader.credits
  return processCredits S tx.creditSet tx.signatures credits 0
    ⟨0, accounts, amounts.takeD credits.length 0, sigs⟩

def processTransaction (b : Bytes) (accounts : List Bytes) (amounts : List Int32) :
    Cpp (Bool × Progress) := do
  let tx ← transactions.read b
  processTransactionReader S creditSets tx accounts amounts none

/-- The first loop of `create_transaction`: the credits and `n_negative`. -/
def fillCredits : List (SignKeyPair S × Int32) → Nat → List Credit × Nat
  | [], nNegative => ([], nNegative)
  | (account, amount) :: rest, nNegative =>
      let filled := fillCredits rest (if amount < 0 then nNegative + 1 else nNegative)
      (⟨account.pub, amount.toInt64⟩ :: filled.1, filled.2)

/-- The second loop: the `c`-th element of the signature list is set at the `c`-th
negative amount. -/
def signDebits (creditData : Bytes) :
    List (SignKeyPair S × Int32) → Nat → List Witness → Cpp (List Witness)
  | [], _, builder => .ok builder
  | (account, amount) :: rest, c, builder =>
      if amount < 0 then
        match builder[c]? with
        | none => .error .pastEnd
        | some witness =>
            signDebits creditData rest (c + 1)
              (builder.set c { witness with data := S.sign creditData account.priv })
      else signDebits creditData rest c builder

def createTransactionBuilder (builder : Transaction) (accounts : List (SignKeyPair S))
    (amounts : List Int32) : Cpp (Bool × Transaction) :=
  if amounts.length = accounts.length then do
    let filled := fillCredits S (accounts.zip amounts) 0
    let creditData := creditSets.write ⟨filled.1⟩
    let witnesses ← signDebits S creditData (accounts.zip amounts) 0
      (List.replicate filled.2 ⟨0, []⟩)
    return (true, { builder with creditSet := creditData, signatures := witnesses })
  else return (false, builder)

def createTransaction (accounts : List (SignKeyPair S)) (amounts : List Int32) : Cpp Bytes := do
  let (created, tx) ← createTransactionBuilder S creditSets ⟨[], []⟩ accounts amounts
  if created then return transactions.write tx else throw .thrown

end

/-! ## The verifier's loop -/

/-- The credits the program treats as negative. -/
def debits (credits : List Credit) : List Credit :=
  credits.filter fun credit => credit.amount.toInt32 < 0

@[simp] theorem debits_nil : debits [] = [] := rfl

theorem debits_cons_of_neg {credit : Credit} (h : credit.amount.toInt32 < 0)
    (rest : List Credit) : debits (credit :: rest) = credit :: debits rest :=
  List.filter_cons_of_pos (decide_eq_true h)

theorem debits_cons_of_not_neg {credit : Credit} (h : ¬ credit.amount.toInt32 < 0)
    (rest : List Credit) : debits (credit :: rest) = debits rest :=
  List.filter_cons_of_neg (by simpa using h)

section

variable (S : SignScheme) (creditData : Bytes)

def Witnessed (credit : Credit) (witness : Witness) : Prop :=
  S.verify witness.data creditData credit.account = true

instance (credit : Credit) (witness : Witness) :
    Decidable (Witnessed S creditData credit witness) := inferInstanceAs (Decidable (_ = true))

variable {S creditData}

theorem processCredits_returns_true_iff (witnesses : List Witness) (credits : List Credit)
    (i : Nat) (st : Progress) :
    (processCredits S creditData witnesses credits i st).1 = true ↔
      Covers (Witnessed S creditData) (debits credits) (witnesses.drop st.nNeg) := by
  induction credits generalizing i st with
  | nil => simp [processCredits]
  | cons credit rest ih =>
    by_cases negative : credit.amount.toInt32 < 0
    · rw [debits_cons_of_neg negative, covers_cons_drop]
      simp only [processCredits, if_pos negative]
      cases found : witnesses[st.nNeg]? with
      | none => simp
      | some witness =>
        by_cases verified : S.verify witness.data creditData credit.account = true
        · simp [verified, ih, Witnessed]
        · simp [verified, Witnessed]
    · rw [debits_cons_of_not_neg negative]
      simp only [processCredits, if_neg negative]
      exact ih _ _

theorem processCredits_cons_returns_true (witnesses : List Witness) (credit : Credit)
    (rest : List Credit) (i : Nat) (st : Progress)
    (returned : (processCredits S creditData witnesses (credit :: rest) i st).1 = true) :
    ∃ st' : Progress,
      processCredits S creditData witnesses (credit :: rest) i st =
        processCredits S creditData witnesses rest (i + 1) st' ∧
      st'.accounts = st.accounts ++ [credit.account] ∧
      st'.amounts = st.amounts.set i credit.amount.toInt32 := by
  simp only [processCredits] at returned ⊢
  by_cases negative : credit.amount.toInt32 < 0
  · rw [if_pos negative] at returned ⊢
    cases found : witnesses[st.nNeg]? with
    | none => simp [found] at returned
    | some witness =>
      by_cases verified : S.verify witness.data creditData credit.account = true
      · simp only [if_pos verified]
        exact ⟨_, rfl, rfl, rfl⟩
      · simp [found, verified] at returned
  · rw [if_neg negative]
    exact ⟨_, rfl, rfl, rfl⟩

theorem processCredits_accounts (witnesses : List Witness) (credits : List Credit) (i : Nat)
    (st : Progress) (returned : (processCredits S creditData witnesses credits i st).1 = true) :
    (processCredits S creditData witnesses credits i st).2.accounts =
      st.accounts ++ credits.map Credit.account := by
  induction credits generalizing i st with
  | nil => simp [processCredits]
  | cons credit rest ih =>
    obtain ⟨st', continued, accounts, _⟩ :=
      processCredits_cons_returns_true witnesses credit rest i st returned
    rw [continued] at returned ⊢
    rw [ih _ _ returned, accounts, List.append_assoc]
    rfl

/-- The loop overwrites the amounts from position `i` on. -/
theorem processCredits_amounts (witnesses : List Witness) (credits : List Credit)
    (front back : List Int32) (st : Progress) (split : st.amounts = front ++ back)
    (room : back.length = credits.length)
    (returned : (processCredits S creditData witnesses credits front.length st).1 = true) :
    (processCredits S creditData witnesses credits front.length st).2.amounts =
      front ++ credits.map fun credit => credit.amount.toInt32 := by
  induction credits generalizing front back st with
  | nil =>
    have : back = [] := List.length_eq_zero_iff.mp room
    simp [processCredits, split, this]
  | cons credit rest ih =>
    obtain ⟨st', continued, _, amounts⟩ :=
      processCredits_cons_returns_true witnesses credit rest front.length st returned
    cases back with
    | nil => simp at room
    | cons old back =>
      have written : st'.amounts = (front ++ [credit.amount.toInt32]) ++ back := by
        rw [amounts, split, List.set_append_right _ _ (Nat.le_refl _)]
        simp
      have after := ih (front ++ [credit.amount.toInt32]) back st' written (by simpa using room)
      simp only [List.length_append, List.length_singleton] at after
      rw [continued] at returned ⊢
      rw [after returned, List.append_assoc]
      rfl

variable {creditSets : Codec CreditSet} {transactions : Codec Transaction}

/-- What it means that `process_transaction` accepts, in terms of the message. -/
theorem processTransactionReader_accepts {tx : Transaction} {sigs : Option (List Bytes)}
    {out : Progress}
    (returned : processTransactionReader S creditSets tx [] [] sigs = .ok (true, out)) :
    ∃ cs, creditSets.read tx.creditSet = .ok cs ∧
      Covers (Witnessed S tx.creditSet) (debits cs.credits) tx.signatures ∧
      out.accounts = cs.credits.map Credit.account ∧
      out.amounts = cs.credits.map fun credit => credit.amount.toInt32 := by
  obtain ⟨cs, decoded, ended⟩ := Cpp.bind_eq_ok.mp returned
  have result := Except.ok.inj ended
  have accepted : (processCredits S tx.creditSet tx.signatures cs.credits 0
      ⟨0, [], ([] : List Int32).takeD cs.credits.length 0, sigs⟩).1 = true := by rw [result]
  refine ⟨cs, decoded, ?_, ?_, ?_⟩
  · exact (processCredits_returns_true_iff _ _ _ _).mp accepted
  · have := processCredits_accounts _ _ _ _ accepted
    rwa [result] at this
  · have := processCredits_amounts _ cs.credits [] _ _ rfl (List.takeD_length _ _ _) accepted
    rwa [List.length_nil, result] at this

theorem processTransactionReader_of_covers {tx : Transaction} {cs : CreditSet}
    (decoded : creditSets.read tx.creditSet = .ok cs)
    (covered : Covers (Witnessed S tx.creditSet) (debits cs.credits) tx.signatures)
    (sigs : Option (List Bytes)) :
    ∃ out, processTransactionReader S creditSets tx [] [] sigs = .ok (true, out) := by
  have accepted : (processCredits S tx.creditSet tx.signatures cs.credits 0
      ⟨0, [], ([] : List Int32).takeD cs.credits.length 0, sigs⟩).1 = true :=
    (processCredits_returns_true_iff _ _ _ _).mpr covered
  rw [processTransactionReader, decoded]
  exact ⟨_, congrArg Except.ok (Prod.ext accepted rfl)⟩

end

end Pttp
