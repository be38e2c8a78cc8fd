import Pttp.BloomFilter.Wire
import Pttp.Messages

/-!
# A filter from a request

The branch of `serve` for REQ_SET builds a filter of three parts whose lengths the
peer chooses: `p` drives the loop over the data, and, as an `int`, the index into
the bits; the key is read for 16 bytes. None of the three is compared with another.
-/

namespace Pttp

open BitPacking

variable (S : ShortHash)

/-- `serve`, REQ_SET: the filter of the request, and `has` on an element of the set. -/
def queryReceived (received : Messages.BloomSet) (s : Bytes) : Cpp Bool := do
  let bloom ← Bloom.ofWire received.data received.p.toUInt64 received.hashKey
  bloom.has S s

def Contained (received : Messages.BloomSet) (s : Bytes) : Prop :=
  queryReceived S received s ≠ .error .pastEnd

variable {S}

theorem vectorBool_toUInt64 (p : UInt32) :
    vectorBool p.toUInt64 = .ok (List.replicate p.toNat false) := by
  have bound := p.toNat_lt
  unfold vectorBool
  rw [UInt32.toNat_toUInt64, if_neg (by omega)]

theorem ofWire_received (data : Bytes) (p : UInt32) (key : Bytes) :
    Bloom.ofWire data p.toUInt64 key =
      if p.toNat ≤ 8 * data.length ∧ p.toNat ≤ 2 ^ 31 then
        .ok ⟨Int32.ofNat p.toNat, (unpack data).take p.toNat, key, 0⟩
      else .error .pastEnd := by
  unfold Bloom.ofWire Bloom.readBits
  rw [vectorBool_toUInt64, Cpp.ok_bind, List.length_replicate, UInt32.toNat_toUInt64]
  by_cases countable : p.toNat ≤ 2 ^ 31
  · rw [if_neg (by omega)]
    by_cases there : p.toNat ≤ 8 * data.length
    · have read : Bloom.unpackLoop data p.toNat 0 0 = .ok ((unpack data).take p.toNat) :=
        Bloom.unpackLoop_eq data p.toNat (by decide) (by omega)
      rw [if_pos ⟨there, countable⟩, read]
      rfl
    · rw [if_neg (fun both => there both.1),
        Bloom.unpackLoop_pastEnd data p.toNat (by decide) (by omega) (by omega)]
      rfl
  · rw [if_pos (by omega), if_neg (fun both => countable both.2)]
    rfl

/-! ## What contains a received filter -/

theorem ofNat_ne_zero {p : Nat} (positive : p ≠ 0) (countable : p ≤ 2 ^ 31) :
    Int32.ofNat p ≠ 0 := by
  rcases Nat.lt_or_ge p (2 ^ 31) with small | large
  · intro zero
    have value := Int32.toInt_ofNat_of_lt small
    rw [zero, Int32.toInt_zero] at value
    omega
  · obtain rfl : p = 2 ^ 31 := Nat.le_antisymm countable large
    decide

theorem has_received (data : Bytes) {p : UInt32} (positive : p ≠ 0)
    (countable : p.toNat ≤ 2 ^ 31) (key s : Bytes) :
    Bloom.has S ⟨Int32.ofNat p.toNat, (unpack data).take p.toNat, key, 0⟩ s =
      if key.length < 16 then .error .pastEnd
      else Cpp.index ((unpack data).take p.toNat)
        (toUint (S.digest (key.take 16) s) (Int32.ofNat p.toNat)).toNat := by
  have nonzero : Int32.ofNat p.toNat ≠ 0 := by
    apply ofNat_ne_zero _ countable
    intro zero
    exact positive (UInt32.toNat.inj zero)
  unfold Bloom.has Bloom.hash ShortHash.cryptoShorthash
  rw [if_neg nonzero]
  split <;> rfl

/-- The index is inside the bits when their number is an `int`, and in one case more. -/
theorem index_received_ne_iff (data : Bytes) {p : UInt32} (positive : p ≠ 0)
    (there : p.toNat ≤ 8 * data.length) (countable : p.toNat ≤ 2 ^ 31) (h : Bytes) :
    Cpp.index ((unpack data).take p.toNat) (toUint h (Int32.ofNat p.toNat)).toNat ≠
        .error .pastEnd ↔
      p.toNat < 2 ^ 31 ∨ p.toNat = 2 ^ 31 ∧ leUInt64 h >>> 32 = 0 := by
  have length : ((unpack data).take p.toNat).length = p.toNat := by
    rw [List.length_take, length_unpack]
    omega
  have inside : Cpp.index ((unpack data).take p.toNat) (toUint h (Int32.ofNat p.toNat)).toNat ≠
      .error .pastEnd ↔ (toUint h (Int32.ofNat p.toNat)).toNat < p.toNat := by
    rw [Cpp.index_ne_pastEnd_iff, length]
  rw [inside]
  rcases Nat.lt_or_eq_of_le countable with small | least
  · have nonzero : 0 < p.toNat := Nat.pos_of_ne_zero fun zero => positive (UInt32.toNat.inj zero)
    exact iff_of_true (toUint_lt h (Int32.toInt_ofNat_of_lt small) nonzero) (.inl small)
  · rw [least, toUint_ofNat_two_pow]
    simp

/-- A received filter stays inside what was received when it has no bits; or when all its
bits are in the data, the whole key is there, and their number is an `int` (or one more,
for the elements whose hash the scale sends to the first bit). -/
theorem contained_iff (received : Messages.BloomSet) (s : Bytes) :
    Contained S received s ↔ received.p = 0 ∨
      received.p.toNat ≤ 8 * received.data.length ∧ 16 ≤ received.hashKey.length ∧
        (received.p.toNat < 2 ^ 31 ∨ received.p.toNat = 2 ^ 31 ∧
          leUInt64 (S.digest (received.hashKey.take 16) s) >>> 32 = 0) := by
  obtain ⟨p, data, key⟩ := received
  unfold Contained queryReceived
  simp only [ofWire_received]
  by_cases none : p = 0
  · subst none
    refine iff_of_true ?_ (.inl rfl)
    rw [if_pos ⟨Nat.zero_le _, by decide⟩, Cpp.ok_bind]
    have zero : Int32.ofNat (UInt32.toNat 0) = 0 := by decide
    unfold Bloom.has
    rw [if_pos zero]
    simp
  · simp only [none, false_or]
    by_cases there : p.toNat ≤ 8 * data.length ∧ p.toNat ≤ 2 ^ 31
    · rw [if_pos there, Cpp.ok_bind, has_received data none there.2]
      by_cases short : key.length < 16
      · rw [if_pos short]
        simp
        omega
      · rw [if_neg short, index_received_ne_iff data none there.1 there.2]
        have whole : 16 ≤ key.length := Nat.le_of_not_lt short
        simp [there.1, whole]
    · rw [if_neg there]
      simp
      omega

theorem not_contained_without_data : ¬ Contained .firstBytes ⟨8, [], []⟩ [] := by
  intro contained
  apply contained
  unfold queryReceived
  have refused : Bloom.ofWire [] (8 : UInt32).toUInt64 [] = .error .pastEnd := by
    rw [ofWire_received, if_neg (by decide)]
  show (Bloom.ofWire [] (8 : UInt32).toUInt64 [] >>= _) = _
  rw [refused, Cpp.error_bind]

end Pttp
