import Pttp.Process

/-!
# What an accepted transaction authorises

The verifier reads each `Int64` amount into an `int`. The signs it tests and the
amounts it reports are those of the low 32 bits, so acceptance says what the
credit set says exactly when no amount is cut.
-/

namespace Pttp

open Covering Messages

/-- The amount survives the conversion to `int`. -/
def FitsInt (amount : Int64) : Prop := -2 ^ 31 ≤ amount.toInt ∧ amount.toInt < 2 ^ 31

instance (amount : Int64) : Decidable (FitsInt amount) := inferInstanceAs (Decidable (_ ∧ _))

theorem fitsInt_iff (amount : Int64) : FitsInt amount ↔ amount.toInt32.toInt = amount.toInt := by
  rw [Int64.toInt_toInt32, FitsInt]
  constructor
  · rintro ⟨low, high⟩
    exact Int.bmod_eq_of_le (by omega) (by omega)
  · intro same
    have low := @Int.le_bmod amount.toInt (2 ^ 32) (by decide)
    have high := @Int.bmod_lt amount.toInt (2 ^ 32) (by decide)
    rw [same] at low high
    omega

theorem FitsInt.toInt32_neg_iff {amount : Int64} (fits : FitsInt amount) :
    amount.toInt32 < 0 ↔ amount < 0 := by
  rw [Int32.lt_iff_toInt_lt, Int64.lt_iff_toInt_lt, (fitsInt_iff amount).mp fits]
  rfl

def encodedDebits (credits : List Credit) : List Credit :=
  credits.filter fun credit => credit.amount < 0

theorem debits_eq_encodedDebits {credits : List Credit}
    (fits : ∀ credit ∈ credits, FitsInt credit.amount) : debits credits = encodedDebits credits :=
  List.filter_congr fun credit member => decide_eq_decide.mpr (fits credit member).toInt32_neg_iff

/-- The report agrees with the credit set and every encoded debit has its own
verifying witness. -/
structure Authorised (S : SignScheme) (tx : Transaction) (credits : List Credit)
    (out : Progress) : Prop where
  amounts : out.amounts.map Int32.toInt = credits.map fun credit => credit.amount.toInt
  accounts : out.accounts = credits.map Credit.account
  witnessed : Covers (Witnessed S tx.creditSet) (encodedDebits credits) tx.signatures

variable (S : SignScheme) (creditSets : Codec CreditSet)

def AuthorisationSound (tx : Transaction) (sigs : Option (List Bytes)) : Prop :=
  ∀ cs out, creditSets.read tx.creditSet = .ok cs →
    processTransactionReader S creditSets tx [] [] sigs = .ok (true, out) →
    Authorised S tx cs.credits out

theorem fitsInt_of_reported {credits : List Credit}
    (same : (credits.map fun credit => credit.amount.toInt32).map Int32.toInt =
      credits.map fun credit => credit.amount.toInt) :
    ∀ credit ∈ credits, FitsInt credit.amount := by
  rw [List.map_map, List.map_inj_left] at same
  exact fun credit member => (fitsInt_iff _).mpr (same credit member)

/-- Acceptance is sound exactly for the messages whose amounts all fit an `int`
and those it refuses because a debit it sees lacks its witness. -/
theorem authorisationSound_iff (tx : Transaction) (sigs : Option (List Bytes)) :
    AuthorisationSound S creditSets tx sigs ↔
      ∀ cs, creditSets.read tx.creditSet = .ok cs →
        (∀ credit ∈ cs.credits, FitsInt credit.amount) ∨
        ¬ Covers (Witnessed S tx.creditSet) (debits cs.credits) tx.signatures := by
  constructor
  · intro sound cs decoded
    by_cases covered : Covers (Witnessed S tx.creditSet) (debits cs.credits) tx.signatures
    · obtain ⟨out, returned⟩ := processTransactionReader_of_covers decoded covered sigs
      obtain ⟨cs', decoded', _, _, amounts⟩ := processTransactionReader_accepts returned
      have : cs = cs' := Cpp.ok_unique decoded decoded'
      subst this
      have reported := (sound cs out decoded returned).amounts
      rw [amounts] at reported
      exact .inl (fitsInt_of_reported reported)
    · exact .inr covered
  · intro condition cs out decoded returned
    obtain ⟨cs', decoded', covered, accounts, amounts⟩ :=
      processTransactionReader_accepts returned
    have : cs = cs' := Cpp.ok_unique decoded decoded'
    subst this
    have fits := (condition cs decoded).resolve_right (not_not_intro covered)
    refine ⟨?_, accounts, debits_eq_encodedDebits fits ▸ covered⟩
    rw [amounts, List.map_map, List.map_inj_left]
    exact fun credit member => (fitsInt_iff _).mp (fits credit member)

/-- A message with one debit of 2^32 and no witness. -/
def unwitnessedDebit (account : Bytes) : Transaction :=
  ⟨creditSets.write ⟨[⟨account, -4294967296⟩]⟩, []⟩

theorem unwitnessedDebit_accepted (account : Bytes) :
    processTransactionReader S creditSets (unwitnessedDebit creditSets account) [] [] none =
      .ok (true, ⟨0, [account], [0], none⟩) ∧
    ¬ AuthorisationSound S creditSets (unwitnessedDebit creditSets account) none := by
  have decoded : creditSets.read (unwitnessedDebit creditSets account).creditSet =
      .ok ⟨[⟨account, -4294967296⟩]⟩ := creditSets.read_write _
  have returned : processTransactionReader S creditSets (unwitnessedDebit creditSets account)
      [] [] none = .ok (true, ⟨0, [account], [0], none⟩) := by
    rw [processTransactionReader, decoded]
    rfl
  refine ⟨returned, fun sound => ?_⟩
  have reported : [(0 : Int32)].map Int32.toInt = [(-4294967296 : Int64).toInt] :=
    (sound _ _ decoded returned).amounts
  exact absurd reported (by decide)

theorem unwitnessedDebit_of_two_pow_32 :
    processTransactionReader .prefixing (Codec.ofEncodable CreditSet)
        (unwitnessedDebit (Codec.ofEncodable CreditSet) [1]) [] [] none =
      .ok (true, ⟨0, [[1]], [0], none⟩) ∧
    ¬ AuthorisationSound .prefixing (Codec.ofEncodable CreditSet)
        (unwitnessedDebit (Codec.ofEncodable CreditSet) [1]) none :=
  unwitnessedDebit_accepted .prefixing (Codec.ofEncodable CreditSet) [1]

end Pttp
