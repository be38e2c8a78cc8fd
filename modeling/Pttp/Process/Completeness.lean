import Pttp.Process

/-!
# What create_transaction builds is accepted

The signer's second loop writes the witness of the `c`-th negative amount at `c`,
the verifier reads the witness at `n_neg`. Both walk over the same entries, so the
signature list is the list of the signed debits, in order.
-/

namespace Pttp

open Covering Messages

variable {S : SignScheme}

def entryCredit (entry : SignKeyPair S × Int32) : Credit := ⟨entry.1.pub, entry.2.toInt64⟩

def entryWitness (creditData : Bytes) (entry : SignKeyPair S × Int32) : Witness :=
  ⟨0, S.sign creditData entry.1.priv⟩

def signed (entries : List (SignKeyPair S × Int32)) : List (SignKeyPair S × Int32) :=
  entries.filter fun entry => entry.2 < 0

theorem signed_cons_of_neg {entry : SignKeyPair S × Int32} (h : entry.2 < 0)
    (rest : List (SignKeyPair S × Int32)) : signed (entry :: rest) = entry :: signed rest :=
  List.filter_cons_of_pos (decide_eq_true h)

theorem signed_cons_of_not_neg {entry : SignKeyPair S × Int32} (h : ¬ entry.2 < 0)
    (rest : List (SignKeyPair S × Int32)) : signed (entry :: rest) = signed rest :=
  List.filter_cons_of_neg (by simpa using h)

theorem fillCredits_eq (entries : List (SignKeyPair S × Int32)) (nNegative : Nat) :
    fillCredits S entries nNegative =
      (entries.map entryCredit, nNegative + (signed entries).length) := by
  induction entries generalizing nNegative with
  | nil => rfl
  | cons entry rest ih =>
    by_cases negative : entry.2 < 0
    · rw [signed_cons_of_neg negative]
      simp only [fillCredits, ih, if_pos negative, List.map_cons, List.length_cons]
      exact Prod.ext rfl (by simp only; omega)
    · rw [signed_cons_of_not_neg negative]
      simp only [fillCredits, ih, if_neg negative, List.map_cons]
      rfl

/-- The second loop replaces the empty witnesses from position `c` on. -/
theorem signDebits_eq (creditData : Bytes) (entries : List (SignKeyPair S × Int32))
    (front : List Witness) :
    signDebits S creditData entries front.length
        (front ++ List.replicate (signed entries).length ⟨0, []⟩) =
      .ok (front ++ (signed entries).map (entryWitness creditData)) := by
  induction entries generalizing front with
  | nil => rfl
  | cons entry rest ih =>
    by_cases negative : entry.2 < 0
    · rw [signed_cons_of_neg negative, List.length_cons, List.replicate_succ]
      have written (back : List Witness) : (front ++ ⟨0, []⟩ :: back).set
          front.length (entryWitness creditData entry) =
          (front ++ [entryWitness creditData entry]) ++ back := by
        rw [List.set_append_right _ _ (Nat.le_refl _)]
        simp
      have next := ih (front ++ [entryWitness creditData entry])
      rw [List.length_append, List.length_singleton, ← written, List.append_assoc] at next
      simp only [signDebits, if_pos negative, List.getElem?_append_right (Nat.le_refl _),
        Nat.sub_self, List.getElem?_cons_zero]
      exact next
    · rw [signed_cons_of_not_neg negative]
      simp only [signDebits, if_neg negative]
      exact ih front

theorem debits_map_entryCredit (entries : List (SignKeyPair S × Int32)) :
    debits (entries.map entryCredit) = (signed entries).map entryCredit := by
  rw [debits, List.filter_map, signed]
  congr 1
  apply List.filter_congr
  intro entry _
  simp [entryCredit]

theorem covers_signed (creditData : Bytes) (entries : List (SignKeyPair S × Int32)) :
    Covers (Witnessed S creditData) (debits (entries.map entryCredit))
      ((signed entries).map (entryWitness creditData)) := by
  rw [debits_map_entryCredit]
  exact covers_map _ _ _ fun entry _ =>
    S.verify_sign creditData entry.1.pub entry.1.priv entry.1.paired

theorem length_signed_zip {accounts : List (SignKeyPair S)} {amounts : List Int32}
    (sameLength : amounts.length = accounts.length) :
    (signed (accounts.zip amounts)).length = amounts.countP (· < 0) := by
  have second : (accounts.zip amounts).map Prod.snd = amounts :=
    List.map_snd_zip (Nat.le_of_eq sameLength)
  rw [signed, ← List.countP_eq_length_filter]
  conv_rhs => rw [← second, List.countP_map]
  rfl

variable (creditSets : Codec CreditSet) (transactions : Codec Transaction)

/-- The message `create_transaction` writes. -/
def signedTransaction (entries : List (SignKeyPair S × Int32)) : Transaction :=
  let creditData := creditSets.write ⟨entries.map entryCredit⟩
  ⟨creditData, (signed entries).map (entryWitness creditData)⟩

theorem createTransaction_eq {accounts : List (SignKeyPair S)} {amounts : List Int32}
    (sameLength : amounts.length = accounts.length) :
    createTransaction S creditSets transactions accounts amounts =
      .ok (transactions.write (signedTransaction creditSets (accounts.zip amounts))) := by
  have witnesses := signDebits_eq
    (creditSets.write ⟨(accounts.zip amounts).map entryCredit⟩) (accounts.zip amounts) []
  simp only [List.nil_append, List.length_nil] at witnesses
  simp only [createTransaction, createTransactionBuilder, if_pos sameLength, fillCredits_eq,
    Nat.zero_add, witnesses]
  rfl

theorem process_createTransaction (accounts : List (SignKeyPair S)) (amounts : List Int32)
    (sameLength : amounts.length = accounts.length) :
    ∃ b tx out, createTransaction S creditSets transactions accounts amounts = .ok b ∧
      processTransaction S creditSets transactions b [] [] = .ok (true, out) ∧
      out.accounts = accounts.map SignKeyPair.pub ∧ out.amounts = amounts ∧
      transactions.read b = .ok tx ∧ tx.signatures.length = amounts.countP (· < 0) := by
  have decoded : creditSets.read (signedTransaction creditSets (accounts.zip amounts)).creditSet =
      .ok ⟨(accounts.zip amounts).map entryCredit⟩ := creditSets.read_write _
  obtain ⟨out, accepted⟩ := processTransactionReader_of_covers decoded
    (covers_signed _ (accounts.zip amounts)) none
  obtain ⟨cs, decoded', _, outAccounts, outAmounts⟩ := processTransactionReader_accepts accepted
  have : cs = ⟨(accounts.zip amounts).map entryCredit⟩ :=
    Cpp.ok_unique decoded' decoded
  subst this
  refine ⟨_, signedTransaction creditSets (accounts.zip amounts), out,
    createTransaction_eq creditSets transactions sameLength, ?_, ?_, ?_,
    transactions.read_write _, ?_⟩
  · rw [processTransaction, transactions.read_write]
    exact accepted
  · rw [outAccounts, List.map_map]
    have first : (accounts.zip amounts).map Prod.fst = accounts :=
      List.map_fst_zip (Nat.le_of_eq sameLength.symm)
    conv_rhs => rw [← first, List.map_map]
    rfl
  · have second : (accounts.zip amounts).map Prod.snd = amounts :=
      List.map_snd_zip (Nat.le_of_eq sameLength)
    rw [outAmounts, List.map_map]
    conv_rhs => rw [← second]
    apply List.map_congr_left
    intro entry _
    simp [entryCredit]
  · rw [signedTransaction, List.length_map, length_signed_zip sameLength]

theorem process_createTransaction_three :
    ∃ b tx out,
      createTransaction .prefixing (Codec.ofEncodable CreditSet) (Codec.ofEncodable Transaction)
        [⟨[1], [1], rfl⟩, ⟨[2], [2], rfl⟩, ⟨[3], [3], rfl⟩] [10, -4, 12] = .ok b ∧
      processTransaction .prefixing (Codec.ofEncodable CreditSet)
        (Codec.ofEncodable Transaction) b [] [] = .ok (true, out) ∧
      out.accounts = [[1], [2], [3]] ∧ out.amounts = [10, -4, 12] ∧
      (Codec.ofEncodable Transaction).read b = .ok tx ∧ tx.signatures.length = 1 :=
  process_createTransaction (S := .prefixing) (Codec.ofEncodable CreditSet)
    (Codec.ofEncodable Transaction) [⟨[1], [1], rfl⟩, ⟨[2], [2], rfl⟩, ⟨[3], [3], rfl⟩]
    [10, -4, 12] rfl

end Pttp
