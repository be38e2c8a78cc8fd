import Pttp.ShortHash

/-!
# The bloom filter

One hash a filter: an element goes to one bit, and a filter stands for its
elements up to the place their hashes share. `Represents` says which places are
on; insertion and lookup are described by it.
-/

namespace Pttp

structure Bloom where
  P : Int32
  hits : List Bool
  key : Bytes
  nOn : Int32
  deriving DecidableEq

/-- `std::vector<bool>(n)`, which refuses more than its `max_size`. -/
def vectorBool (n : UInt64) : Cpp (List Bool) :=
  if 2 ^ 63 - 64 < n.toNat then .error .thrown else .ok (List.replicate n.toNat false)

theorem vectorBool_ofInt {p : Int32} {places : Nat} (sized : p.toInt = places) :
    vectorBool (UInt64.ofInt p.toInt) = .ok (List.replicate places false) := by
  have short := lt_of_toInt_eq sized
  unfold vectorBool
  rw [toNat_ofInt sized, if_neg (by omega)]

namespace Bloom

/-- `Bloom::Bloom(int p)`; `key` is the one `ShortHashKey` draws. -/
def ofInt (p : Int32) (key : Bytes) : Cpp Bloom := do
  let hits ← vectorBool (UInt64.ofInt p.toInt)
  return ⟨p, hits, key, 0⟩

variable (S : ShortHash)

def hash (f : Bloom) (b : Bytes) : Cpp UInt64 := do
  let h ← S.cryptoShorthash f.key b
  return toUint h f.P

def has (f : Bloom) (b : Bytes) : Cpp Bool :=
  if f.P = 0 then .ok false
  else do
    let val ← f.hash S b
    Cpp.index f.hits val.toNat

/-- `Bloom::set`, which ends without the `bool` it announces; no caller looks at
it. -/
def set (f : Bloom) (b : Bytes) : Cpp Bloom := do
  let val ← f.hash S b
  let hit ← Cpp.index f.hits val.toNat
  return { f with
    nOn := if hit then f.nOn else f.nOn + 1
    hits := f.hits.set val.toNat true }

def setAll (f : Bloom) (elements : List Bytes) : Cpp Bloom := elements.foldlM (set S) f

end Bloom

/-! ## Places -/

/-- The bit of an element in a filter of `P` places under a key. -/
def ShortHash.place (S : ShortHash) (key : Bytes) (P : Int32) (b : Bytes) : Nat :=
  (toUint (S.digest (key.take 16) b) P).toNat

namespace Bloom

/-- A filter whose calls all return: a key to read, and as many bits as `P` says. -/
structure Usable (f : Bloom) : Prop where
  keyed : 16 ≤ f.key.length
  sized : f.P.toInt = f.hits.length
  positive : 0 < f.hits.length

variable {S : ShortHash}

theorem hash_of_keyed {f : Bloom} (keyed : 16 ≤ f.key.length) (b : Bytes) :
    f.hash S b = .ok (toUint (S.digest (f.key.take 16) b) f.P) := by
  rw [hash, S.cryptoShorthash_of_le b keyed]
  rfl

theorem Usable.place_lt {f : Bloom} (usable : f.Usable) (b : Bytes) :
    S.place f.key f.P b < f.hits.length :=
  toUint_lt _ usable.sized usable.positive

theorem Usable.P_ne_zero {f : Bloom} (usable : f.Usable) : f.P ≠ 0 := by
  intro zero
  have sized := usable.sized
  have positive := usable.positive
  rw [zero, Int32.toInt_zero] at sized
  omega

theorem Usable.has_eq {f : Bloom} (usable : f.Usable) (b : Bytes) :
    ∃ hit, f.has S b = .ok hit ∧ f.hits[S.place f.key f.P b]? = some hit := by
  refine ⟨_, ?_, List.getElem?_eq_getElem (usable.place_lt b)⟩
  rw [has, if_neg usable.P_ne_zero, hash_of_keyed usable.keyed, Cpp.ok_bind]
  exact Cpp.index_of_lt (usable.place_lt b)

theorem Usable.set_eq {f : Bloom} (usable : f.Usable) (b : Bytes) :
    ∃ n, f.set S b =
      .ok { f with nOn := n, hits := f.hits.set (S.place f.key f.P b) true } := by
  have read : Cpp.index f.hits (toUint (S.digest (f.key.take 16) b) f.P).toNat = .ok _ :=
    Cpp.index_of_lt (usable.place_lt b)
  rw [set, hash_of_keyed usable.keyed, Cpp.ok_bind, read]
  exact ⟨_, rfl⟩

/-! ## What a filter stands for -/

/-- The bits that are on are the places of the elements of `T`. -/
structure Represents (S : ShortHash) (f : Bloom) (T : Set Bytes) : Prop extends f.Usable where
  on_iff : ∀ i, f.hits[i]? = some true ↔ ∃ t ∈ T, S.place f.key f.P t = i

theorem Represents.has_iff {f : Bloom} {T : Set Bytes} (represents : Represents S f T)
    (b : Bytes) :
    f.has S b = .ok true ↔ ∃ t ∈ T, S.place f.key f.P t = S.place f.key f.P b := by
  obtain ⟨hit, answer, there⟩ := represents.toUsable.has_eq (S := S) b
  rw [answer, ← represents.on_iff, there]
  simp

/-- No false negatives. -/
theorem Represents.has_of_mem {f : Bloom} {T : Set Bytes} (represents : Represents S f T)
    {b : Bytes} (member : b ∈ T) : f.has S b = .ok true :=
  (represents.has_iff b).mpr ⟨b, member, rfl⟩

theorem represents_ofInt {p : Int32} {places : Nat} (sized : p.toInt = places)
    (positive : 0 < places) {key : Bytes} (keyed : 16 ≤ key.length) :
    ofInt p key = .ok ⟨p, List.replicate places false, key, 0⟩ ∧
      Represents S ⟨p, List.replicate places false, key, 0⟩ ∅ := by
  constructor
  · unfold ofInt
    rw [vectorBool_ofInt sized]
    rfl
  · refine ⟨⟨keyed, by simpa using sized, by simpa using positive⟩, ?_⟩
    intro i
    simp [List.getElem?_replicate]

theorem Represents.set {f : Bloom} {T : Set Bytes} (represents : Represents S f T) (b : Bytes) :
    ∃ g, f.set S b = .ok g ∧ g.P = f.P ∧ g.key = f.key ∧ Represents S g (insert b T) := by
  have usable := represents.toUsable
  obtain ⟨n, eq⟩ := usable.set_eq (S := S) b
  refine ⟨_, eq, rfl, rfl, ⟨usable.keyed, ?_, ?_⟩, ?_⟩
  · simpa using usable.sized
  · simpa using usable.positive
  · intro i
    simp only [Set.exists_mem_insert, ← represents.on_iff i, List.getElem?_set,
      usable.place_lt b, if_true]
    by_cases here : S.place f.key f.P b = i
    · simp [here]
    · simp [here]

theorem Represents.setAll {f : Bloom} {T : Set Bytes} (represents : Represents S f T)
    (elements : List Bytes) :
    ∃ g, f.setAll S elements = .ok g ∧ g.P = f.P ∧ g.key = f.key ∧
      Represents S g (T ∪ {b | b ∈ elements}) := by
  induction elements generalizing f T with
  | nil =>
    refine ⟨f, rfl, rfl, rfl, ?_⟩
    simpa using represents
  | cons b elements ih =>
    obtain ⟨g, here, sameP, sameKey, marked⟩ := represents.set b
    obtain ⟨g', rest, sameP', sameKey', marked'⟩ := ih marked
    refine ⟨g', ?_, sameP'.trans sameP, sameKey'.trans sameKey, ?_⟩
    · unfold Bloom.setAll
      rw [List.foldlM_cons, here]
      exact rest
    · convert marked' using 1
      ext t
      simp only [Set.mem_union, Set.mem_ofPred_eq, List.mem_cons, Set.mem_insert_iff]
      tauto

end Bloom

end Pttp
