import Pttp.Lib.Scaling
import Pttp.Sodium

/-!
# Short hashes and their multiply-shift index

`ShortHash::to_uint` scales the upper half of the hash to `mod` places. The scale
of a positive `int` never reaches its end, so a table of `mod` places is read
inside its bounds whatever the hash is, and no place has more of the halves than
another, up to one.
-/

namespace Pttp

/-- The eight bytes read as a `uint64_t`, the lowest first. -/
def leUInt64 (b : Bytes) : UInt64 :=
  b.foldr (fun byte rest => rest * 256 + byte.toUInt64) 0

/-- `ShortHash::to_uint`: the product with the `int` is taken in 64 bits. -/
def toUint (h : Bytes) (mod : Int32) : UInt64 :=
  ((leUInt64 h >>> 32) * UInt64.ofInt mod.toInt) >>> 32

/-! ## Sizes

An `int` that is not negative goes through `size_t` and back unchanged. -/

theorem lt_of_toInt_eq {p : Int32} {places : Nat} (sized : p.toInt = places) :
    places < 2 ^ 31 := by
  have := p.toInt_lt
  omega

theorem toNat_ofInt {p : Int32} {places : Nat} (sized : p.toInt = places) :
    (UInt64.ofInt p.toInt).toNat = places := by
  have := lt_of_toInt_eq sized
  rw [sized, UInt64.ofInt, UInt64.toNat_ofNat']
  omega

theorem ofNat_ofInt {p : Int32} {places : Nat} (sized : p.toInt = places) :
    Int32.ofNat (UInt64.ofInt p.toInt).toNat = p := by
  rw [toNat_ofInt sized, ← Int32.ofInt_eq_ofNat, ← sized, Int32.ofInt_toInt]

/-! ## The index -/

theorem toNat_shiftRight_half (v : UInt64) : (v >>> 32).toNat = v.toNat / 2 ^ 32 := by
  simp only [UInt64.toNat_shiftRight, UInt64.reduceToNat, Nat.shiftRight_eq_div_pow]

theorem toNat_shiftRight_half_lt (v : UInt64) : (v >>> 32).toNat < 2 ^ 32 := by
  rw [toNat_shiftRight_half]
  apply Nat.div_lt_of_lt_mul
  exact v.toNat_lt

def upperHalf (h : Bytes) : Nat := (leUInt64 h >>> 32).toNat

/-- 32 by 31 bits: the product does not wrap. -/
theorem toNat_product (h : Bytes) {mod : Int32} {places : Nat} (sized : mod.toInt = places) :
    ((leUInt64 h >>> 32) * UInt64.ofInt mod.toInt).toNat = upperHalf h * places := by
  have short := lt_of_toInt_eq sized
  have half := toNat_shiftRight_half_lt (leUInt64 h)
  have bound : upperHalf h * places < 2 ^ 32 * 2 ^ 31 := Nat.mul_lt_mul'' half short
  rw [UInt64.toNat_mul, toNat_ofInt sized]
  apply Nat.mod_eq_of_lt
  exact bound.trans (by decide)

theorem toUint_eq_scale (h : Bytes) {mod : Int32} {places : Nat} (sized : mod.toInt = places) :
    (toUint h mod).toNat = Scaling.scale (2 ^ 32) places (upperHalf h) := by
  unfold toUint
  rw [toNat_shiftRight_half, toNat_product h sized]
  rfl

theorem toUint_lt (h : Bytes) {mod : Int32} {places : Nat} (sized : mod.toInt = places)
    (positive : 0 < places) : (toUint h mod).toNat < places := by
  rw [toUint_eq_scale h sized]
  exact Scaling.scale_lt positive (toNat_shiftRight_half_lt _)

/-! ## A size that is not an `int` -/

theorem scaled_least_lt_iff {v : Nat} (half : v < 2 ^ 32) :
    v * (2 ^ 64 - 2 ^ 31) % 2 ^ 64 / 2 ^ 32 < 2 ^ 31 ↔ v = 0 := by
  rcases Nat.eq_zero_or_pos v with rfl | positive
  · simp
  · have wraps : v * (2 ^ 64 - 2 ^ 31) = (v - 1) * 2 ^ 64 + (2 ^ 64 - v * 2 ^ 31) := by omega
    have small : 2 ^ 64 - v * 2 ^ 31 < 2 ^ 64 := by omega
    rw [wraps, Nat.mul_add_mod_self_right, Nat.mod_eq_of_lt small]
    omega

/-- At 2^31 the size becomes the least `int`, and the scaled hash is behind the bits
unless it is zero. -/
theorem toUint_ofNat_two_pow (h : Bytes) :
    (toUint h (Int32.ofNat (2 ^ 31))).toNat < 2 ^ 31 ↔ leUInt64 h >>> 32 = 0 := by
  have half := toNat_shiftRight_half_lt (leUInt64 h)
  have least : (UInt64.ofInt (Int32.ofNat (2 ^ 31)).toInt).toNat = 2 ^ 64 - 2 ^ 31 := by
    decide
  unfold toUint
  rw [toNat_shiftRight_half, UInt64.toNat_mul, least]
  generalize leUInt64 h >>> 32 = v at half
  rw [← UInt64.toNat_inj, UInt64.toNat_zero]
  exact scaled_least_lt_iff half

theorem toUint_ofNat_two_pow_eq_zero {h : Bytes}
    (inside : (toUint h (Int32.ofNat (2 ^ 31))).toNat < 2 ^ 31) :
    toUint h (Int32.ofNat (2 ^ 31)) = 0 := by
  have half := (toUint_ofNat_two_pow h).mp inside
  unfold toUint
  rw [half, UInt64.zero_mul]
  rfl

/-! ## Balance -/

theorem leUInt64_eq_ofDigits (b : Bytes) :
    leUInt64 b = UInt64.ofNat (Nat.ofDigits 256 (b.map UInt8.toNat)) := by
  induction b with
  | nil => rfl
  | cons x b ih =>
    have split : Nat.ofDigits 256 ((x :: b).map UInt8.toNat) =
        Nat.ofDigits 256 (b.map UInt8.toNat) * 256 + x.toNat := by
      rw [List.map_cons, Nat.ofDigits_cons]
      ring
    have step : leUInt64 (x :: b) = leUInt64 b * 256 + x.toUInt64 := rfl
    have byte : UInt64.ofNat x.toNat = x.toUInt64 := by
      apply UInt64.toNat.inj
      rw [UInt64.toNat_ofNat', UInt8.toNat_toUInt64]
      have := x.toNat_lt
      omega
    rw [step, ih, split, UInt64.ofNat_add, UInt64.ofNat_mul, byte]
    rfl

theorem exists_upperHalf_eq {v : Nat} (short : v < 2 ^ 32) :
    ∃ h : Bytes, h.length = 8 ∧ upperHalf h = v := by
  refine ⟨[0, 0, 0, 0, UInt8.ofNat v, UInt8.ofNat (v / 256), UInt8.ofNat (v / 65536),
    UInt8.ofNat (v / 16777216)], rfl, ?_⟩
  unfold upperHalf
  rw [toNat_shiftRight_half, leUInt64_eq_ofDigits, UInt64.toNat_ofNat']
  simp [Nat.ofDigits_cons]
  omega

def halvesAt (mod : Int32) (k : Nat) : Set Nat :=
  {v | ∃ h : Bytes, h.length = 8 ∧ upperHalf h = v ∧ (toUint h mod).toNat = k}

theorem halvesAt_eq {mod : Int32} {places : Nat} (sized : mod.toInt = places) (k : Nat) :
    halvesAt mod k =
      ((Finset.range (2 ^ 32)).filter fun v => Scaling.scale (2 ^ 32) places v = k) := by
  ext v
  rw [Finset.mem_coe, Finset.mem_filter, Finset.mem_range]
  constructor
  · rintro ⟨h, -, rfl, place⟩
    rw [toUint_eq_scale h sized] at place
    exact ⟨toNat_shiftRight_half_lt _, place⟩
  · rintro ⟨short, place⟩
    obtain ⟨h, eight, rfl⟩ := exists_upperHalf_eq short
    refine ⟨h, eight, rfl, ?_⟩
    rw [toUint_eq_scale h sized]
    exact place

/-- For a positive `int`, the product of `to_uint` does not wrap and its result is a place;
the greater half has no smaller place; and every place has the same number of halves, up to
rounding. -/
theorem toUint_balanced {mod : Int32} (positive : 1 ≤ mod.toInt) :
    (∀ h : Bytes, h.length = 8 →
      ((leUInt64 h >>> 32) * UInt64.ofInt mod.toInt).toNat = upperHalf h * mod.toInt.toNat ∧
        upperHalf h * mod.toInt.toNat < 2 ^ 64 ∧ ((toUint h mod).toNat : Int) < mod.toInt) ∧
    (∀ h h' : Bytes, upperHalf h ≤ upperHalf h' → toUint h mod ≤ toUint h' mod) ∧
    ∀ k : Nat, (k : Int) < mod.toInt → (halvesAt mod k).ncard = 2 ^ 32 / mod.toInt.toNat ∨
      (halvesAt mod k).ncard = 2 ^ 32 ⌈/⌉ mod.toInt.toNat := by
  have sized : mod.toInt = mod.toInt.toNat := by omega
  refine ⟨?_, ?_, ?_⟩
  · intro h _
    have product := toNat_product h sized
    have inside := toUint_lt h sized (by omega)
    refine ⟨product, ?_, by omega⟩
    rw [← product]
    exact UInt64.toNat_lt _
  · intro h h' le
    rw [UInt64.le_iff_toNat_le, toUint_eq_scale h sized, toUint_eq_scale h' sized]
    exact Scaling.scale_mono le
  · intro k inside
    rw [halvesAt_eq sized, Set.ncard_coe_finset]
    exact Scaling.card_place_eq (by decide) (by omega)

theorem toUint_balanced_three :
    (halvesAt 3 1).ncard = 2 ^ 32 / 3 ∨ (halvesAt 3 1).ncard = 2 ^ 32 ⌈/⌉ 3 := by
  have positive : 1 ≤ (3 : Int32).toInt := by decide
  exact (toUint_balanced positive).2.2 1 (by decide)

end Pttp
