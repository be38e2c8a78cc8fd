import Pttp.Cuckoo
import Pttp.Lib.Calls

/-!
# Coherence of the cache

A key whose first slot is taken goes to its second one, but `get` looks at the second
only when the first is empty. So a value that was stored is found again when its key got
the first slot, or the two slots are one, or the first slot has that very value already.
-/

namespace Pttp.Cuckoo

variable (S : ShortHash)

def deref (c : Cuckoo) : Pointer → Cpp (Option Bytes)
  | .slot p => Cpp.index c.data p
  | _ => .ok none

def fetch (c : Cuckoo) (hash : Bytes) : Cpp (Option Bytes) := c.get S hash >>= c.deref

def storeCall (c : Cuckoo) (call : Bytes × Bytes) : Cpp (Cuckoo × Unit) := do
  let c ← c.store S call.1 call.2
  return (c, ())

def latest (calls : List (Bytes × Bytes)) (hash : Bytes) : Option Bytes :=
  calls.foldl (fun found call => if call.1 = hash then some call.2 else found) none

/-- After every call of the sequence, its key is found with its data, and any key is found
with its latest data or not at all. -/
def Coherent (c : Cuckoo) (calls : List (Bytes × Bytes)) : Prop :=
  ∀ before hash newData rest, calls = before ++ (hash, newData) :: rest →
    ∃ t, Calls.after (storeCall S) c (before ++ [(hash, newData)]) = .ok t ∧
      t.fetch S hash = .ok (some newData) ∧
      ∀ other, ∃ found, t.fetch S other = .ok found ∧
        (found = none ∨ found = latest (before ++ [(hash, newData)]) other)

/-- The first slot of the key is empty, or is its second one, or has the data already. -/
def Fits (c : Cuckoo) (call : Bytes × Bytes) : Prop :=
  c.held (c.place1 S call.1) = none ∨ c.place1 S call.1 = c.place2 S call.1 ∨
    c.held (c.place1 S call.1) = some call.1 ∧ c.value (c.place1 S call.1) = some call.2

/-! ## One call -/

def getPlace (c : Cuckoo) (hash : Bytes) : Nat :=
  if c.held (c.place1 S hash) = none then c.place2 S hash else c.place1 S hash

variable {S} {c : Cuckoo}

theorem deref_compare {p : Nat} (inside : p < c.data.length) (stored hash : Bytes) :
    (c.compare p stored hash >>= c.deref) =
      .ok (if stored = hash then c.value p else none) := by
  unfold compare
  by_cases same : stored = hash
  · rw [if_neg (not_not.mpr same), if_pos same, index_data inside, Cpp.ok_bind]
    cases known : c.value p with
    | none => rfl
    | some found =>
      show Cpp.index c.data p = _
      rw [index_data inside, known]
  · rw [if_pos same, if_neg same]
    rfl

theorem Slotted.fetch_eq (slotted : c.Slotted S) (hash : Bytes) :
    c.fetch S hash = .ok (if c.held (c.getPlace S hash) = some hash
      then c.value (c.getPlace S hash) else none) := by
  obtain ⟨p, hashed, place⟩ := slotted.hash_first hash
  obtain ⟨p', hashed', place'⟩ := slotted.hash_second hash
  unfold fetch get getPlace
  rw [hashed, Cpp.ok_bind, place, index_hashes (slotted.first hash), Cpp.ok_bind]
  cases taken : c.held (c.place1 S hash) with
  | some stored =>
    have compared := deref_compare (slotted.dataSized.symm ▸ slotted.first hash) stored hash
    simpa [taken] using compared
  | none =>
    simp only [hashed', Cpp.ok_bind, place', index_hashes (slotted.second hash), if_true]
    cases taken' : c.held (c.place2 S hash) with
    | none => rfl
    | some stored =>
      have compared := deref_compare (slotted.dataSized.symm ▸ slotted.second hash) stored hash
      simpa [taken'] using compared

theorem Slotted.fetch_put_iff (slotted : c.Slotted S) (hash newData : Bytes) :
    (c.put (c.storePlace S hash) hash newData).fetch S hash = .ok (some newData) ↔
      c.Fits S (hash, newData) := by
  have inside := slotted.storePlace_lt hash
  have inData : c.storePlace S hash < c.data.length := slotted.dataSized ▸ inside
  rw [(slotted.put _ hash newData).fetch_eq]
  unfold Fits getPlace
  rw [place1_put, place2_put]
  simp only [held_put hash newData inside, value_put hash newData inData]
  unfold storePlace
  by_cases empty : c.held (c.place1 S hash) = none
  · simp [empty]
  · by_cases one : c.place1 S hash = c.place2 S hash
    · simp [one]
    · simp [empty, one]

/-- A key that got its first slot is not updated there, when it has another one. -/
theorem Slotted.not_fits_put (slotted : c.Slotted S) {hash newData newData' : Bytes}
    (empty : c.held (c.place1 S hash) = none) (two : c.place1 S hash ≠ c.place2 S hash)
    (updated : newData ≠ newData') :
    ¬ (c.put (c.storePlace S hash) hash newData).Fits S (hash, newData') := by
  have inside := slotted.first hash
  have inData : c.place1 S hash < c.data.length := slotted.dataSized ▸ inside
  have first : c.storePlace S hash = c.place1 S hash := if_pos empty
  unfold Fits
  rw [first, place1_put, place2_put, held_put hash newData inside, value_put hash newData inData,
    if_pos rfl, if_pos rfl]
  rintro (none | one | ⟨-, same⟩)
  · cases none
  · exact two one
  · exact updated (Option.some.inj same)

/-! ## Sequences of calls -/

theorem latest_snoc (calls : List (Bytes × Bytes)) (hash newData other : Bytes) :
    latest (calls ++ [(hash, newData)]) other =
      if hash = other then some newData else latest calls other := by
  unfold latest
  rw [List.foldl_append]
  rfl

/-- After the calls, a key that was stored has a taken first slot; a first slot that holds
its key has the latest data; and what is held was stored. -/
structure Current (S : ShortHash) (calls : List (Bytes × Bytes)) (c : Cuckoo) : Prop
    extends c.Slotted S where
  taken : ∀ hash, latest calls hash ≠ none → c.held (c.place1 S hash) ≠ none
  current : ∀ hash, c.held (c.place1 S hash) = some hash →
    c.value (c.place1 S hash) = latest calls hash
  known : ∀ p hash, c.held p = some hash → latest calls hash ≠ none

theorem Current.fetch {calls : List (Bytes × Bytes)} (current : Current S calls c)
    (hash : Bytes) :
    ∃ found, c.fetch S hash = .ok found ∧ (found = none ∨ found = latest calls hash) := by
  refine ⟨_, current.toSlotted.fetch_eq hash, ?_⟩
  unfold getPlace
  by_cases empty : c.held (c.place1 S hash) = none
  · have never : latest calls hash = none := by
      by_contra stored
      exact current.taken hash stored empty
    rw [if_pos empty, if_neg fun there => current.known _ hash there never]
    exact .inl rfl
  · rw [if_neg empty]
    by_cases there : c.held (c.place1 S hash) = some hash
    · rw [if_pos there, current.current hash there]
      exact .inr rfl
    · rw [if_neg there]
      exact .inl rfl

theorem Current.put {calls : List (Bytes × Bytes)} (current : Current S calls c)
    {hash newData : Bytes} (fits : c.Fits S (hash, newData)) :
    Current S (calls ++ [(hash, newData)]) (c.put (c.storePlace S hash) hash newData) := by
  have inside := current.toSlotted.storePlace_lt hash
  have inData : c.storePlace S hash < c.data.length := current.dataSized ▸ inside
  refine ⟨current.toSlotted.put _ _ _, ?_, ?_, ?_⟩
  · intro other stored
    rw [place1_put, held_put _ _ inside]
    split
    case isTrue => nofun
    case isFalse elsewhere =>
      by_cases same : hash = other
      · subst same
        intro empty
        exact elsewhere (if_pos empty).symm
      · rw [latest_snoc, if_neg same] at stored
        exact current.taken other stored
  · intro other there
    rw [place1_put, held_put _ _ inside] at there
    rw [place1_put, value_put _ _ inData, latest_snoc]
    by_cases here : c.place1 S other = c.storePlace S hash
    · rw [if_pos here] at there
      rw [if_pos here, if_pos (Option.some.inj there)]
    · rw [if_neg here] at there ⊢
      by_cases same : hash = other
      · subst same
        rw [if_pos rfl]
        -- the key is in its first slot, and went to the second
        rcases fits with empty | one | ⟨-, already⟩
        · rw [empty] at there
          cases there
        · refine absurd ?_ here
          unfold storePlace
          split
          · rfl
          · exact one
        · exact already
      · rw [if_neg same]
        exact current.current other there
  · intro p other there
    rw [held_put _ _ inside] at there
    rw [latest_snoc]
    split
    · nofun
    · rename_i different
      split at there
      · exact absurd (Option.some.inj there) different
      · exact current.known p other there

theorem storeCall_eq (slotted : c.Slotted S) (call : Bytes × Bytes) :
    c.storeCall S call = .ok (c.put (c.storePlace S call.1) call.1 call.2, ()) := by
  unfold storeCall
  rw [slotted.store_eq, Cpp.ok_bind]
  rfl

theorem Slotted.after (slotted : c.Slotted S) (calls : List (Bytes × Bytes)) :
    ∃ t, Calls.after (storeCall S) c calls = .ok t ∧ t.Slotted S :=
  Calls.after_induct (fun _ t => t.Slotted S)
    (fun _ _ call slotted => ⟨_, (), storeCall_eq slotted call, slotted.put _ _ _⟩) slotted calls

theorem after_snoc {calls : List (Bytes × Bytes)} {t : Cuckoo}
    (reached : Calls.after (storeCall S) c calls = .ok t) (slotted : t.Slotted S)
    (call : Bytes × Bytes) :
    Calls.after (storeCall S) c (calls ++ [call]) =
      .ok (t.put (t.storePlace S call.1) call.1 call.2) := by
  rw [Calls.after_append, reached]
  exact Calls.after_cons [] (storeCall_eq slotted call)

theorem Coherent.each (slotted : c.Slotted S) {calls : List (Bytes × Bytes)}
    (coherent : c.Coherent S calls) : Calls.Each (storeCall S) (Fits S) c calls := by
  rintro before ⟨hash, newData⟩ rest split t reached
  obtain ⟨t', reached', slotted'⟩ := slotted.after before
  obtain rfl := Cpp.ok_unique reached reached'
  obtain ⟨u, after, found, -⟩ := coherent before hash newData rest split
  obtain rfl := Cpp.ok_unique after (after_snoc reached slotted' (hash, newData))
  exact (slotted'.fetch_put_iff hash newData).mp found

theorem Current.coherent (current : Current S [] c) {calls : List (Bytes × Bytes)}
    (each : Calls.Each (storeCall S) (Fits S) c calls) : c.Coherent S calls := by
  rintro before hash newData rest rfl
  obtain ⟨t, reached, current'⟩ := each.induct (Current S)
    (fun _ _ call kept fits => ⟨_, (), storeCall_eq kept.toSlotted call, kept.put fits⟩)
    current (rfl : _ = before ++ (hash, newData) :: rest)
  have fits := each before (hash, newData) rest rfl t reached
  refine ⟨_, after_snoc reached current'.toSlotted (hash, newData), ?_, ?_⟩
  · exact (current'.toSlotted.fetch_put_iff hash newData).mpr fits
  · exact (current'.put fits).fetch

/-! ## A new cache -/

theorem toUint_zero (h : Bytes) : toUint h 0 = 0 := by
  have zero : UInt64.ofInt (0 : Int32).toInt = 0 := by decide
  unfold toUint
  rw [zero, UInt64.mul_zero]
  decide

theorem toInt_ofNat_le (n : Nat) : (Int32.ofNat n).toInt ≤ n := by
  rw [← Int32.ofInt_eq_ofNat, Int32.toInt_ofInt, Int.bmod_def, Int32.size]
  have := Int.natCast_nonneg n
  split <;> omega

theorem nonneg_of_vectorBool {P : Int32} {hits : List Bool}
    (built : vectorBool (UInt64.ofInt P.toInt) = .ok hits) : 0 ≤ P.toInt := by
  by_contra negative
  have least := P.le_toInt
  have huge : 2 ^ 63 - 64 < (UInt64.ofInt P.toInt).toNat := by
    rw [UInt64.ofInt, UInt64.toNat_ofNat']
    omega
  unfold vectorBool at built
  rw [if_pos huge] at built
  cases built

/-- Whatever becomes of a size as an `int`, the places of a filter are below it. -/
theorem place_lt_of_ofInt {n : Nat} (positive : 0 < n) {key : Bytes} {f : Bloom}
    (made : Bloom.ofInt (Int32.ofNat n) key = .ok f) :
    f.key = key ∧ ∀ hash, S.place f.key f.P hash < n := by
  unfold Bloom.ofInt at made
  obtain ⟨hits, sized, built⟩ := Cpp.bind_eq_ok.mp made
  obtain rfl := Except.ok.inj built
  refine ⟨rfl, ?_⟩
  intro hash
  obtain ⟨places, value⟩ := Int.eq_ofNat_of_zero_le (nonneg_of_vectorBool sized)
  have bound := toInt_ofNat_le n
  unfold ShortHash.place
  rcases Nat.eq_zero_or_pos places with rfl | some
  · have zero : Int32.ofNat n = 0 := Int32.toInt_inj.mp value
    rw [zero, toUint_zero]
    exact positive
  · have inside := toUint_lt (S.digest (key.take 16) hash) value some
    show (toUint (S.digest (key.take 16) hash) (Int32.ofNat n)).toNat < n
    omega

theorem held_replicate {n : Nat} {c : Cuckoo} (empty : c.hashes = List.replicate n none) (p : Nat) :
    c.held p = none := by
  unfold held
  rw [empty, List.getElem?_replicate]
  split <;> rfl

theorem current_sized {N : UInt64} (positive : 1 ≤ N.toNat) {key1 key2 : Bytes}
    (keyed1 : 16 ≤ key1.length) (keyed2 : 16 ≤ key2.length)
    (made : sized N key1 key2 = .ok c) : Current S [] c := by
  unfold sized ofSize at made
  obtain ⟨d, built, extended⟩ := Cpp.bind_eq_ok.mp made
  obtain ⟨filter1, made1, rest⟩ := Cpp.bind_eq_ok.mp built
  obtain ⟨filter2, made2, whole⟩ := Cpp.bind_eq_ok.mp rest
  obtain rfl := Except.ok.inj whole
  obtain rfl := Except.ok.inj extended
  obtain ⟨rfl, below1⟩ := place_lt_of_ofInt (S := S) positive made1
  obtain ⟨rfl, below2⟩ := place_lt_of_ofInt (S := S) positive made2
  refine ⟨⟨keyed1, keyed2, ?_, ?_, by simp⟩, ?_, ?_, ?_⟩
  · intro hash
    rw [List.length_replicate]
    exact below1 hash
  · intro hash
    rw [List.length_replicate]
    exact below2 hash
  · intro hash stored
    exact absurd rfl stored
  · intro hash there
    rw [held_replicate rfl] at there
    cases there
  · intro p hash there
    rw [held_replicate rfl] at there
    cases there

/-- The cache is coherent in a sequence of calls exactly when each of them finds the first
slot of its key empty, or the same as the second, or with that key and data in it. -/
theorem coherent_iff {N : UInt64} (positive : 1 ≤ N.toNat) {key1 key2 : Bytes}
    (keyed1 : 16 ≤ key1.length) (keyed2 : 16 ≤ key2.length)
    (made : sized N key1 key2 = .ok c) (calls : List (Bytes × Bytes)) :
    c.Coherent S calls ↔ Calls.Each (storeCall S) (Fits S) c calls := by
  have current := current_sized (S := S) positive keyed1 keyed2 made
  exact ⟨Coherent.each current.toSlotted, current.coherent⟩

instance (c : Cuckoo) (call : Bytes × Bytes) : Decidable (c.Fits S call) :=
  inferInstanceAs (Decidable (_ ∨ _ ∨ _ ∧ _))

/-- The first key has two of three slots and is stored twice; two others share one of these, and
each of them is the last to come there in turn. -/
theorem coherent_shared_slots :
    ∃ c, sized 3 (List.replicate 16 0) (List.replicate 16 128) = .ok c ∧
      c.place1 .firstBytes [85] ≠ c.place2 .firstBytes [85] ∧
      c.place1 .firstBytes [85] = c.place1 .firstBytes [1] ∧
      c.Coherent .firstBytes [([85], [5]), ([85], [5]), ([1], [6]), ([2], [7]), ([1], [8])] := by
  have made : sized 3 (List.replicate 16 0) (List.replicate 16 128) = .ok _ := rfl
  have keyed1 : 16 ≤ (List.replicate 16 (0 : UInt8)).length := by decide
  have keyed2 : 16 ≤ (List.replicate 16 (128 : UInt8)).length := by decide
  have slotted := (current_sized (S := .firstBytes) (by decide) keyed1 keyed2 made).toSlotted
  refine ⟨_, made, by decide +kernel, by decide +kernel, ?_⟩
  apply (coherent_iff (by decide) keyed1 keyed2 made _).mpr
  rw [Calls.each_cons (storeCall_eq slotted _), Calls.each_cons (storeCall_eq (slotted.put ..) _),
    Calls.each_cons (storeCall_eq ((slotted.put ..).put ..) _),
    Calls.each_cons (storeCall_eq (((slotted.put ..).put ..).put ..) _),
    Calls.each_cons (storeCall_eq ((((slotted.put ..).put ..).put ..).put ..) _)]
  exact ⟨by decide +kernel, by decide +kernel, by decide +kernel, by decide +kernel,
    by decide +kernel, Calls.each_nil _⟩

/-- With five hundred and twelve slots the second value of a key goes to its second slot,
and the first value is found. -/
theorem not_coherent_two_calls :
    ∃ c, sized 512 (List.replicate 16 0) (List.replicate 16 128) = .ok c ∧
      ¬ c.Coherent .firstBytes [([1], [5]), ([1], [6])] := by
  have made : sized 512 (List.replicate 16 0) (List.replicate 16 128) = .ok _ := rfl
  have keyed1 : 16 ≤ (List.replicate 16 (0 : UInt8)).length := by decide
  have keyed2 : 16 ≤ (List.replicate 16 (128 : UInt8)).length := by decide
  refine ⟨_, made, ?_⟩
  intro coherent
  have slotted := (current_sized (S := .firstBytes) (by decide) keyed1 keyed2 made).toSlotted
  have reached : Calls.after (storeCall .firstBytes) _ ([] ++ [([1], [5])]) = .ok _ :=
    after_snoc rfl slotted ([1], [5])
  have fits := coherent.each slotted [([1], [5])] ([1], [6]) [] rfl _ reached
  exact slotted.not_fits_put (held_replicate rfl _) (by decide +kernel) (by decide) fits

end Pttp.Cuckoo
