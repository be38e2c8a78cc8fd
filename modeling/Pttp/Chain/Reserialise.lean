import Pttp.Chain.Validators
import Pttp.Curve
import Pttp.Process.Soundness

/-!
# Transactions sent on

The constructor cuts the amounts to `int` and drops the bytes the signatures are
over; `bytes` makes new ones of the credits that are left. A transaction is
accepted again when its debits are witnessed over the new bytes too, and then it
comes back as it was.
-/

namespace Pttp.Chain

open Covering Messages

variable {S : SignScheme} {creditSets : Codec CreditSet}
  {transactions : Codec Messages.Transaction}

/-! ## The witnesses of a built transaction -/

/-- The signatures of the debits are taken over in order; the other elements stay. -/
theorem checkCredits_witnesses {creditData : Bytes} (capWitnesses : List Witness)
    (credits : List Messages.Credit) (i nNeg : Nat) (t t' : Transaction)
    (room : nNeg + credits.length ≤ t.witnesses.length)
    (returned : checkCredits S creditData capWitnesses credits i nNeg t = .ok t') :
    t'.witnesses = t.witnesses.take nNeg ++
      (((capWitnesses.drop nNeg).take (debits credits).length).map Witness.data ++
        t.witnesses.drop (nNeg + (debits credits).length)) := by
  induction credits generalizing i nNeg t with
  | nil =>
    rw [checkCredits, Except.ok.injEq] at returned
    simp [returned]
  | cons credit rest ih =>
    rw [List.length_cons] at room
    have notFull : ¬ t.witnesses.length ≤ nNeg := by omega
    by_cases negative : credit.amount.toInt32 < 0
    · rw [debits_cons_of_neg negative]
      simp only [checkCredits, if_pos negative, if_neg notFull] at returned
      cases found : capWitnesses[nNeg]? with
      | none =>
        rw [found] at returned
        cases returned
      | some witness =>
        simp only [found] at returned
        split at returned
        case isFalse => cases returned
        case isTrue =>
          have rest' := ih (i + 1) (nNeg + 1) _ (by rw [List.length_set]; omega) returned
          obtain ⟨inside, eq⟩ := List.getElem?_eq_some_iff.mp found
          have front : (t.witnesses.set nNeg witness.data).take (nNeg + 1) =
              t.witnesses.take nNeg ++ [witness.data] := by
            rw [List.take_succ_eq_append_getElem (by rw [List.length_set]; omega),
              List.take_set_of_le le_rfl, List.getElem_set_self]
          have back : (t.witnesses.set nNeg witness.data).drop
              (nNeg + 1 + (debits rest).length) =
              t.witnesses.drop (nNeg + (debits rest).length.succ) := by
            rw [List.drop_set_of_lt (by omega)]
            congr 1
            omega
          rw [rest', front, back, List.drop_eq_getElem_cons inside, eq, List.length_cons,
            List.take_succ_cons, List.map_cons, List.append_assoc]
          rfl
    · rw [debits_cons_of_not_neg negative]
      simp only [checkCredits, if_neg negative] at returned
      have rest' := ih (i + 1) nNeg _ (by show _ ≤ t.witnesses.length; omega) returned
      exact rest'

section Decoded

variable {b : Bytes} {tx : Messages.Transaction} {cs : CreditSet}
  (decodedTx : transactions.read b = .ok tx) (decodedSet : creditSets.read tx.creditSet = .ok cs)

include decodedTx decodedSet

theorem ofBytes_witnesses {t : Transaction}
    (built : Transaction.ofBytes S creditSets transactions b = .ok t) :
    t.witnesses = (tx.signatures.take (debits cs.credits).length).map Witness.data ++
      List.replicate (cs.credits.length - (debits cs.credits).length) [] := by
  rw [ofBytes_eq decodedTx decodedSet] at built
  have taken := checkCredits_witnesses tx.signatures cs.credits 0 0 _ t (by simp) built
  simpa using taken

end Decoded

/-! ## The rebuilt credit set -/

/-- A credit as the constructor keeps it. -/
def narrow (credit : Messages.Credit) : Messages.Credit :=
  ⟨credit.account, credit.amount.toInt32.toInt64⟩

@[simp] theorem toInt32_narrow (credit : Messages.Credit) :
    (narrow credit).amount.toInt32 = credit.amount.toInt32 :=
  Int32.toInt32_toInt64 _

theorem debits_map_narrow (credits : List Messages.Credit) :
    debits (credits.map narrow) = (debits credits).map narrow := by
  unfold debits
  rw [List.filter_map]
  congr 1
  simp [Function.comp_def]

def rebuilt (creditSets : Codec CreditSet) (credits : List Messages.Credit) : Bytes :=
  creditSets.write ⟨credits.map narrow⟩

theorem narrow_of_fitsInt {credit : Messages.Credit} (fits : FitsInt credit.amount) :
    narrow credit = credit := by
  have same : credit.amount.toInt32.toInt64 = credit.amount := by
    apply Int64.toInt.inj
    rw [Int32.toInt_toInt64]
    exact (fitsInt_iff credit.amount).mp fits
  unfold narrow
  rw [same]

theorem rebuilt_of_fitsInt {credits : List Messages.Credit}
    (fits : ∀ credit ∈ credits, FitsInt credit.amount) :
    rebuilt creditSets credits = creditSets.write ⟨credits⟩ := by
  have same : credits.map narrow = credits.map id :=
    List.map_congr_left fun credit member => narrow_of_fitsInt (fits credit member)
  rw [rebuilt, same, List.map_id]

variable (S creditSets transactions) in
/-- The transaction is accepted again as it is, with the same key. -/
def Survives (G : GenericHash) (t : Transaction) : Prop :=
  ∃ t', Transaction.ofBytes S creditSets transactions (t.bytes creditSets transactions) = .ok t' ∧
    t'.credits = t.credits ∧ t'.witnesses = t.witnesses ∧
    hash G (t'.bytes creditSets transactions) = hash G (t.bytes creditSets transactions)

section Resent

variable {b : Bytes} {tx : Messages.Transaction} {cs : CreditSet} {t : Transaction}
  (decodedTx : transactions.read b = .ok tx) (decodedSet : creditSets.read tx.creditSet = .ok cs)
  (built : Transaction.ofBytes S creditSets transactions b = .ok t)

include decodedTx decodedSet built

theorem debits_le_signatures : (debits cs.credits).length ≤ tx.signatures.length := by
  have covered := (ofBytes_completes_iff decodedTx decodedSet).mp ⟨t, built⟩
  exact ((covers_iff_getElem _ _).mp covered).1

theorem length_witnesses : t.witnesses.length = cs.credits.length := by
  have few : (debits cs.credits).length ≤ cs.credits.length := List.length_filter_le _ _
  have enough := debits_le_signatures decodedTx decodedSet built
  rw [ofBytes_witnesses decodedTx decodedSet built]
  simp only [List.length_append, List.length_map, List.length_take, List.length_replicate]
  omega

theorem getElem_witnesses {k : Nat} (debit : k < (debits cs.credits).length)
    (kept : k < t.witnesses.length) (supplied : k < tx.signatures.length) :
    t.witnesses[k] = tx.signatures[k].data := by
  have inFront : k < ((tx.signatures.take (debits cs.credits).length).map Witness.data).length := by
    rw [List.length_map, List.length_take]
    omega
  rw [List.getElem_of_eq (ofBytes_witnesses decodedTx decodedSet built),
    List.getElem_append_left inFront, List.getElem_map, List.getElem_take]

theorem bytes_of_built : t.bytes creditSets transactions =
    transactions.write ⟨rebuilt creditSets cs.credits, t.witnesses.map fun data => ⟨0, data⟩⟩ := by
  have credits := ofBytes_credits decodedTx decodedSet built
  unfold Transaction.bytes Transaction.creditBytes rebuilt
  rw [credits, List.map_map]
  rfl

/-- The debits find their witnesses in what goes out when they find them among the
signatures that came in. -/
theorem covers_resent_iff {R : Bytes} :
    Covers (Witnessed S R) (debits (cs.credits.map narrow))
        (t.witnesses.map fun data => ⟨0, data⟩) ↔
      Covers (Witnessed S R) (debits cs.credits) tx.signatures := by
  have enough := debits_le_signatures decodedTx decodedSet built
  have few : (debits cs.credits).length ≤ cs.credits.length := List.length_filter_le _ _
  have length := length_witnesses decodedTx decodedSet built
  rw [debits_map_narrow, covers_iff_getElem, covers_iff_getElem]
  simp only [List.length_map, length, few, enough, true_and, List.getElem_map]
  constructor
  · intro all k debit supplied
    have witnessed := all k debit (by omega)
    rw [getElem_witnesses decodedTx decodedSet built debit (by omega) supplied] at witnessed
    exact witnessed
  · intro all k debit kept
    have witnessed := all k debit (by omega)
    rw [getElem_witnesses decodedTx decodedSet built debit (by omega) (by omega)]
    exact witnessed

theorem eq_of_resent {t' : Transaction}
    (again : Transaction.ofBytes S creditSets transactions (t.bytes creditSets transactions) =
      .ok t') : t' = t := by
  rw [bytes_of_built decodedTx decodedSet built] at again
  have decodedTx' := transactions.read_write
    ⟨rebuilt creditSets cs.credits, t.witnesses.map fun data => ⟨0, data⟩⟩
  have decodedSet' := creditSets.read_write ⟨cs.credits.map narrow⟩
  have credits := ofBytes_credits decodedTx decodedSet built
  have credits' := ofBytes_credits decodedTx' decodedSet' again
  have witnesses := ofBytes_witnesses decodedTx decodedSet built
  have witnesses' := ofBytes_witnesses decodedTx' decodedSet' again
  have sameCredits : t'.credits = t.credits := by
    rw [credits', credits, List.map_map]
    simp [Function.comp_def, narrow]
  have front : ((tx.signatures.take (debits cs.credits).length).map Witness.data).length =
      (debits cs.credits).length := by
    rw [List.length_map, List.length_take_of_le (debits_le_signatures decodedTx decodedSet built)]
  have kept : (t.witnesses.map fun data => (⟨0, data⟩ : Witness)).map Witness.data =
      t.witnesses := by
    simp [Function.comp_def]
  have sameWitnesses : t'.witnesses = t.witnesses := by
    rw [witnesses', debits_map_narrow, List.length_map, List.length_map, List.map_take, kept]
    conv_lhs => rw [witnesses]
    rw [List.take_left' front]
    exact witnesses.symm
  cases t
  cases t'
  congr

theorem resent_completes_iff :
    (∃ t', Transaction.ofBytes S creditSets transactions (t.bytes creditSets transactions) =
        .ok t') ↔
      Covers (Witnessed S (rebuilt creditSets cs.credits)) (debits cs.credits) tx.signatures := by
  rw [bytes_of_built decodedTx decodedSet built, ← covers_resent_iff decodedTx decodedSet built]
  exact ofBytes_completes_iff (transactions.read_write _) (creditSets.read_write _)

theorem survives_of_covers (G : GenericHash)
    (covered : Covers (Witnessed S (rebuilt creditSets cs.credits)) (debits cs.credits)
      tx.signatures) : Survives S creditSets transactions G t := by
  obtain ⟨t', again⟩ := (resent_completes_iff decodedTx decodedSet built).mpr covered
  obtain rfl := eq_of_resent decodedTx decodedSet built again
  exact ⟨t', again, rfl, rfl, rfl⟩

theorem survives_of_written (G : GenericHash) (written : tx.creditSet = creditSets.write cs)
    (fits : ∀ credit ∈ cs.credits, FitsInt credit.amount) :
    Survives S creditSets transactions G t := by
  apply survives_of_covers decodedTx decodedSet built
  rw [rebuilt_of_fitsInt fits, ← written]
  exact (ofBytes_completes_iff decodedTx decodedSet).mp ⟨t, built⟩

/-- A transaction survives when the signatures it came with witness its debits over
the rebuilt credit set too. -/
theorem survives_iff (G : GenericHash) :
    Survives S creditSets transactions G t ↔
      Covers (Witnessed S (rebuilt creditSets cs.credits)) (debits cs.credits) tx.signatures := by
  constructor
  · rintro ⟨t', again, -⟩
    exact (resent_completes_iff decodedTx decodedSet built).mp ⟨t', again⟩
  · intro covered
    exact survives_of_covers decodedTx decodedSet built G covered

end Resent

def signedPayment (creditSets : Codec CreditSet) : Messages.Transaction :=
  ⟨creditSets.write ⟨[⟨[1], -3⟩, ⟨[2], 3⟩]⟩,
    [⟨0, [1] ++ creditSets.write ⟨[⟨[1], -3⟩, ⟨[2], 3⟩]⟩⟩]⟩

theorem covers_signedPayment (creditSets : Codec CreditSet) :
    Covers (Witnessed .prefixing (signedPayment creditSets).creditSet)
      (debits [⟨[1], -3⟩, ⟨[2], 3⟩]) (signedPayment creditSets).signatures := by
  have oneDebit : debits [⟨[1], -3⟩, ⟨[2], 3⟩] = [⟨[1], -3⟩] := by decide
  rw [oneDebit]
  exact ⟨decide_eq_true rfl, trivial⟩

theorem survives_payment :
    ∃ t, Transaction.ofBytes .prefixing (Codec.ofEncodable CreditSet)
        (Codec.ofEncodable Messages.Transaction) ((Codec.ofEncodable Messages.Transaction).write
          (signedPayment (Codec.ofEncodable CreditSet))) = .ok t ∧
      Survives .prefixing (Codec.ofEncodable CreditSet) (Codec.ofEncodable Messages.Transaction)
        .polynomial t := by
  have decodedTx := (Codec.ofEncodable Messages.Transaction).read_write
    (signedPayment (Codec.ofEncodable CreditSet))
  have decodedSet := (Codec.ofEncodable CreditSet).read_write ⟨[⟨[1], -3⟩, ⟨[2], 3⟩]⟩
  have covered := covers_signedPayment (Codec.ofEncodable CreditSet)
  have same : rebuilt (Codec.ofEncodable CreditSet) [⟨[1], -3⟩, ⟨[2], 3⟩] =
      (Codec.ofEncodable CreditSet).write ⟨[⟨[1], -3⟩, ⟨[2], 3⟩]⟩ := rebuilt_of_fitsInt (by decide)
  obtain ⟨t, built⟩ := (ofBytes_completes_iff decodedTx decodedSet).mpr covered
  refine ⟨t, built, (survives_iff decodedTx decodedSet built .polynomial).mpr ?_⟩
  rw [same]
  exact covered

theorem write_injective {T : Type} (codec : Codec T) : Function.Injective codec.write := by
  intro a b same
  have decoded := congrArg codec.decode same
  rw [codec.decode_write, codec.decode_write] at decoded
  exact Option.some.inj decoded

theorem not_survives_of_wide (creditSets : Codec CreditSet)
    (transactions : Codec Messages.Transaction) (G : GenericHash) :
    ∃ t, Transaction.ofBytes .prefixing creditSets transactions
        (transactions.write ⟨creditSets.write ⟨[⟨[1], -1⟩, ⟨[2], 2 ^ 32 + 7⟩]⟩,
          [⟨0, [1] ++ creditSets.write ⟨[⟨[1], -1⟩, ⟨[2], 2 ^ 32 + 7⟩]⟩⟩]⟩) = .ok t ∧
      ¬ Survives .prefixing creditSets transactions G t := by
  let credits : List Messages.Credit := [⟨[1], -1⟩, ⟨[2], 2 ^ 32 + 7⟩]
  have decodedTx := transactions.read_write
    ⟨creditSets.write ⟨credits⟩, [⟨0, [1] ++ creditSets.write ⟨credits⟩⟩]⟩
  have decodedSet := creditSets.read_write ⟨credits⟩
  have oneDebit : debits credits = [⟨[1], -1⟩] := by decide
  obtain ⟨t, built⟩ := (ofBytes_completes_iff (S := .prefixing) decodedTx decodedSet).mpr (by
    rw [oneDebit]
    exact ⟨decide_eq_true rfl, trivial⟩)
  refine ⟨t, built, ?_⟩
  rintro ⟨t', again, -⟩
  have covered := (resent_completes_iff decodedTx decodedSet built).mp ⟨t', again⟩
  rw [oneDebit] at covered
  have signed : [1] ++ creditSets.write ⟨credits⟩ = [1] ++ rebuilt creditSets credits :=
    of_decide_eq_true covered.1
  have same := write_injective creditSets (List.append_cancel_left signed)
  have amounts : credits = credits.map narrow := congrArg CreditSet.credits same
  exact absurd amounts (by decide)

theorem not_survives_wide :
    ∃ t, Transaction.ofBytes .prefixing (Codec.ofEncodable CreditSet)
        (Codec.ofEncodable Messages.Transaction)
        ((Codec.ofEncodable Messages.Transaction).write
          ⟨(Codec.ofEncodable CreditSet).write ⟨[⟨[1], -1⟩, ⟨[2], 2 ^ 32 + 7⟩]⟩,
          [⟨0, [1] ++ (Codec.ofEncodable CreditSet).write ⟨[⟨[1], -1⟩, ⟨[2], 2 ^ 32 + 7⟩]⟩⟩]⟩) =
        .ok t ∧
      ¬ Survives .prefixing (Codec.ofEncodable CreditSet) (Codec.ofEncodable Messages.Transaction)
        .polynomial t :=
  not_survives_of_wide _ _ .polynomial

end Pttp.Chain
