import Mathlib

/-!
# Bits in bytes, the most significant first

`pack` writes a list of bits into bytes and fills the last byte up with zeros;
`unpack` reads all bits of the bytes back. Both are homomorphisms of lists at
byte boundaries, so facts about a whole list come from facts about one byte.
-/

namespace BitPacking

def push (b : UInt8) (bit : Bool) : UInt8 := (b <<< 1) ||| bit.toUInt8

/-- The number the bits spell, the first the highest. -/
def value (l : List Bool) : Nat := l.foldl (fun acc bit => 2 * acc + bit.toNat) 0

@[simp] theorem value_nil : value [] = 0 := rfl

@[simp] theorem value_snoc (l : List Bool) (bit : Bool) :
    value (l ++ [bit]) = 2 * value l + bit.toNat := by
  simp [value]

theorem value_lt (l : List Bool) : value l < 2 ^ l.length := by
  induction l using List.reverseRecOn with
  | nil => simp
  | append_singleton l bit ih =>
    have := bit.toNat_lt
    rw [value_snoc, List.length_append, List.length_singleton, pow_succ]
    omega

theorem toNat_push (b : UInt8) (bit : Bool) :
    (push b bit).toNat = (2 * b.toNat + bit.toNat) % 256 := by
  revert b
  cases bit <;> decide +kernel

theorem toNat_foldl_push {l : List Bool} (short : l.length ≤ 8) :
    (l.foldl push 0).toNat = value l := by
  induction l using List.reverseRecOn with
  | nil => rfl
  | append_singleton l bit ih =>
    rw [List.length_append, List.length_singleton] at short
    have bound : value l < 2 ^ 7 :=
      (value_lt l).trans_le (Nat.pow_le_pow_right (by decide) (by omega))
    have := bit.toNat_lt
    rw [List.foldl_append, List.foldl_cons, List.foldl_nil, toNat_push, ih (by omega), value_snoc]
    apply Nat.mod_eq_of_lt
    omega

theorem testBit_value (l : List Bool) (i : Nat) :
    (value l).testBit i = l.reverse.getD i false := by
  induction l using List.reverseRecOn generalizing i with
  | nil => simp
  | append_singleton l bit ih =>
    rw [value_snoc, List.reverse_append]
    cases i with
    | zero => cases bit <;> simp [Nat.testBit_zero]
    | succ i =>
      have half : (2 * value l + bit.toNat) / 2 = value l := by
        have := bit.toNat_lt
        omega
      rw [Nat.testBit_succ, half, ih]
      simp

/-- The byte that begins with the bits. -/
def byte (l : List Bool) : UInt8 := UInt8.ofNat (value l * 2 ^ (8 - l.length))

def bits (b : UInt8) : List Bool := (List.range 8).map fun n => b.toNat.testBit (7 - n)

@[simp] theorem length_bits (b : UInt8) : (bits b).length = 8 := by
  simp [bits]

theorem toNat_byte {l : List Bool} (short : l.length ≤ 8) :
    (byte l).toNat = value l * 2 ^ (8 - l.length) := by
  have bound : value l * 2 ^ (8 - l.length) < 2 ^ l.length * 2 ^ (8 - l.length) :=
    Nat.mul_lt_mul_of_pos_right (value_lt l) (Nat.two_pow_pos _)
  rw [← pow_add, show l.length + (8 - l.length) = 8 by omega] at bound
  rw [byte, UInt8.toNat_ofNat']
  exact Nat.mod_eq_of_lt bound

theorem byte_eq_shiftLeft {l : List Bool} (short : l.length ≤ 8) :
    byte l = UInt8.ofNat ((l.foldl push 0).toNat <<< (8 - l.length)) := by
  rw [toNat_foldl_push short, Nat.shiftLeft_eq]
  rfl

theorem byte_of_length_eq {l : List Bool} (full : l.length = 8) : byte l = l.foldl push 0 := by
  rw [byte_eq_shiftLeft full.le, full, Nat.sub_self, Nat.shiftLeft_zero, UInt8.ofNat_toNat]

theorem bits_byte {l : List Bool} (short : l.length ≤ 8) :
    bits (byte l) = l ++ List.replicate (8 - l.length) false := by
  apply List.ext_getElem (by simp; omega)
  intro n inBits inList
  have inByte : n < 8 := by simpa using inBits
  have shifted : (value l * 2 ^ (8 - l.length)).testBit (7 - n) =
      (decide (8 - l.length ≤ 7 - n) && l.reverse.getD (7 - n - (8 - l.length)) false) := by
    rw [← Nat.shiftLeft_eq, Nat.testBit_shiftLeft, testBit_value]
  simp only [bits, toNat_byte short, List.getElem_map, List.getElem_range, shifted]
  by_cases inside : n < l.length
  · have low : 8 - l.length ≤ 7 - n := by omega
    have mirrored : l.length - 1 - (7 - n - (8 - l.length)) = n := by omega
    simp [low, List.getElem_append_left inside, List.getD_eq_getElem?_getD,
      List.getElem?_reverse (show 7 - n - (8 - l.length) < l.length by omega), mirrored, inside]
  · have high : ¬ 8 - l.length ≤ 7 - n := by omega
    simp [high, List.getElem_append_right (Nat.le_of_not_lt inside)]

/-- The bytes of the bits, the last one filled up with zeros. -/
def pack (l : List Bool) : List UInt8 :=
  if l = [] then [] else byte (l.take 8) :: pack (l.drop 8)
termination_by l.length
decreasing_by
  have := List.length_pos_iff.mpr ‹¬ l = []›
  rw [List.length_drop]
  omega

def unpack (b : List UInt8) : List Bool := b.flatMap bits

@[simp] theorem pack_nil : pack [] = [] := by
  rw [pack, if_pos rfl]

theorem pack_of_ne_nil {l : List Bool} (nonempty : l ≠ []) :
    pack l = byte (l.take 8) :: pack (l.drop 8) := by
  rw [pack, if_neg nonempty]

theorem pack_of_length_le {l : List Bool} (nonempty : l ≠ []) (short : l.length ≤ 8) :
    pack l = [byte l] := by
  rw [pack_of_ne_nil nonempty, List.take_of_length_le short, List.drop_of_length_le short,
    pack_nil]

theorem pack_append {l l' : List Bool} (whole : l.length % 8 = 0) :
    pack (l ++ l') = pack l ++ pack l' := by
  fun_induction pack l with
  | case1 => rfl
  | case2 l nonempty ih =>
    have long : 8 ≤ l.length := by
      have := List.length_pos_iff.mpr nonempty
      omega
    have rest : (l.drop 8).length % 8 = 0 := by
      rw [List.length_drop]
      omega
    rw [pack_of_ne_nil (List.append_ne_nil_of_left_ne_nil nonempty l'),
      List.take_append_of_le_length long, List.drop_append_of_le_length long, ih rest]
    rfl

theorem pack_append_byte {l chunk : List Bool} (whole : l.length % 8 = 0) (nonempty : chunk ≠ [])
    (short : chunk.length ≤ 8) : pack (l ++ chunk) = pack l ++ [byte chunk] := by
  rw [pack_append whole, pack_of_length_le nonempty short]

@[simp] theorem length_pack (l : List Bool) : (pack l).length = (l.length + 7) / 8 := by
  fun_induction pack l with
  | case1 => rfl
  | case2 l nonempty ih =>
    have := List.length_pos_iff.mpr nonempty
    rw [List.length_cons, ih, List.length_drop]
    omega

@[simp] theorem unpack_nil : unpack [] = [] := rfl

@[simp] theorem unpack_cons (b : UInt8) (bs : List UInt8) :
    unpack (b :: bs) = bits b ++ unpack bs := rfl

@[simp] theorem length_unpack (b : List UInt8) : (unpack b).length = 8 * b.length := by
  induction b with
  | nil => rfl
  | cons x xs ih =>
    rw [unpack_cons, List.length_append, length_bits, ih, List.length_cons]
    omega

theorem getElem?_unpack (b : List UInt8) {i n : Nat} (inByte : n < 8) :
    (unpack b)[8 * i + n]? = (b[i]?).map fun x => x.toNat.testBit (7 - n) := by
  induction b generalizing i with
  | nil => simp
  | cons x xs ih =>
    cases i with
    | zero => simp [List.getElem?_append_left, inByte, bits]
    | succ i =>
      have past : (bits x).length ≤ 8 * (i + 1) + n := by
        rw [length_bits]
        omega
      have back : 8 * (i + 1) + n - (bits x).length = 8 * i + n := by
        rw [length_bits]
        omega
      rw [unpack_cons, List.getElem?_append_right past, back, ih, List.getElem?_cons_succ]

theorem drop_unpack {b : List UInt8} {i n : Nat} (inside : i < b.length) (inByte : n < 8) :
    (unpack b).drop (8 * i + n) =
      b[i].toNat.testBit (7 - n) :: (unpack b).drop (8 * i + n + 1) := by
  have inside' : 8 * i + n < (unpack b).length := by
    rw [length_unpack]
    omega
  have bit := getElem?_unpack b (i := i) inByte
  rw [List.getElem?_eq_getElem inside, List.getElem?_eq_getElem inside'] at bit
  rw [List.drop_eq_getElem_cons inside', Option.some.inj bit]

theorem unpack_pack (l : List Bool) :
    unpack (pack l) = l ++ List.replicate (8 * ((l.length + 7) / 8) - l.length) false := by
  fun_induction pack l with
  | case1 => rfl
  | case2 l nonempty ih =>
    have positive := List.length_pos_iff.mpr nonempty
    rw [unpack_cons, ih, bits_byte (List.length_take_le 8 l), List.length_take, List.length_drop]
    by_cases short : l.length ≤ 8
    · have pad : 8 * ((l.length + 7) / 8) - l.length = 8 - l.length := by omega
      simp [List.take_of_length_le short, List.drop_of_length_le short, pad,
        Nat.min_eq_right short, Nat.sub_eq_zero_of_le short]
    · have full : 8 - min 8 l.length = 0 := by omega
      have pad : 8 * ((l.length - 8 + 7) / 8) - (l.length - 8) =
          8 * ((l.length + 7) / 8) - l.length := by omega
      rw [full, pad, List.replicate_zero, List.append_nil, ← List.append_assoc,
        List.take_append_drop]

theorem take_unpack_pack (l : List Bool) : (unpack (pack l)).take l.length = l := by
  rw [unpack_pack, List.take_left]

end BitPacking
