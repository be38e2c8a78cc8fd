import Pttp.Bech32.Acceptance
import Pttp.Bech32.Regroup

/-!
# Segregated witness addresses

`convert_bits` keeps what it has taken in a register of 32 bits, of which it forgets nothing
that is not written yet. So what it writes spells the number that it read, the highest digit
first, without the bits that are left, and five bits for eight lead back to the eight.
`segwit_addr_decode` gives `bech32_decode` a buffer for the prefix that is too small where a
text of more than 84 characters has no separator.
-/

namespace Pttp

/-! ## The converter -/

structure Converter where
  out : Bytes
  val : BitVec 32
  bits : Nat

def maxv (outbits : Nat) : BitVec 32 := (1#32 <<< outbits) - 1#32

/-- The inner loop of `convert_bits`. -/
def Converter.emit (outbits : Nat) (s : Converter) : Converter :=
  if 0 < outbits ∧ outbits ≤ s.bits then
    let bits := s.bits - outbits
    emit outbits { s with
      out := s.out ++ [UInt8.ofBitVec (((s.val >>> bits) &&& maxv outbits).setWidth 8)]
      bits }
  else s
termination_by s.bits

def Converter.take (outbits inbits : Nat) (s : Converter) (x : UInt8) : Converter :=
  emit outbits { s with
    val := (s.val <<< inbits) ||| x.toBitVec.setWidth 32
    bits := s.bits + inbits }

/-- `(val << (outbits - bits)) & maxv`. -/
def Converter.rest (outbits : Nat) (s : Converter) : BitVec 32 :=
  (s.val <<< (outbits - s.bits)) &&& maxv outbits

/-- `convert_bits`: whether it returns 1, and what it wrote. -/
def convertBits (outbits : Nat) (input : Bytes) (inbits : Nat) (pad : Bool) : Bool × Bytes :=
  let s := input.foldl (Converter.take outbits inbits) ⟨[], 0#32, 0⟩
  if pad then
    (true, if s.bits ≠ 0 then s.out ++ [UInt8.ofBitVec ((s.rest outbits).setWidth 8)] else s.out)
  else if s.rest outbits ≠ 0#32 ∨ inbits ≤ s.bits then (false, s.out)
  else (true, s.out)

/-- The number that digits of so many bits spell, the highest first. -/
def spelled (width : Nat) (digits : Bytes) : Nat := Bytes.inBase (2 ^ width) digits.reverse

@[simp] theorem spelled_nil (width : Nat) : spelled width [] = 0 := rfl

theorem spelled_concat (width : Nat) (digits : Bytes) (x : UInt8) :
    spelled width (digits ++ [x]) = spelled width digits * 2 ^ width + x.toNat := by
  unfold spelled
  rw [List.reverse_append, List.reverse_singleton, List.singleton_append, Bytes.inBase_cons,
    Nat.mul_comm, Nat.add_comm]

/-- The number `n` of `total` bits has been read. -/
structure Converter.Reads (outbits : Nat) (s : Converter) (n total : Nat) : Prop where
  val : s.val.toNat = n % 2 ^ 32
  total : outbits * s.out.length + s.bits = total
  out : spelled outbits s.out = n / 2 ^ s.bits
  digits : ∀ d ∈ s.out, d.toNat < 2 ^ outbits

theorem toNat_maxv {outbits : Nat} (narrow : outbits ≤ 8) :
    (maxv outbits).toNat = 2 ^ outbits - 1 := by
  interval_cases outbits <;> rfl

theorem toNat_digit {outbits place n : Nat} {val : BitVec 32} (narrow : outbits ≤ 8)
    (inside : place + outbits ≤ 32) (read : val.toNat = n % 2 ^ 32) :
    (UInt8.ofBitVec (((val >>> place) &&& maxv outbits).setWidth 8)).toNat =
      n / 2 ^ place % 2 ^ outbits := by
  have digit : ((val >>> place) &&& maxv outbits).toNat = n / 2 ^ place % 2 ^ outbits := by
    rw [BitVec.toNat_and, toNat_maxv narrow, Nat.and_two_pow_sub_one_eq_mod,
      BitVec.toNat_ushiftRight, read, Nat.shiftRight_eq_div_pow]
    have whole : 2 ^ 32 = 2 ^ place * 2 ^ (32 - place) := by
      rw [← pow_add, Nat.add_sub_cancel' (by omega)]
    rw [whole, Nat.mod_mul_right_div_self]
    exact Nat.mod_mod_of_dvd _ (pow_dvd_pow 2 (by omega))
  have small : n / 2 ^ place % 2 ^ outbits < 2 ^ 8 :=
    (Nat.mod_lt _ (Nat.two_pow_pos _)).trans_le (Nat.pow_le_pow_right (by decide) narrow)
  rw [UInt8.toNat_ofBitVec, BitVec.toNat_setWidth, digit, Nat.mod_eq_of_lt small]

theorem Converter.Reads.emit {outbits n total : Nat} {s : Converter} (positive : 0 < outbits)
    (narrow : outbits ≤ 8) (few : s.bits ≤ 32) (reads : s.Reads outbits n total) :
    (s.emit outbits).Reads outbits n total ∧ (s.emit outbits).bits < outbits := by
  fun_induction Converter.emit outbits s with
  | case1 s more bits ih =>
    obtain ⟨val, counted, out, digits⟩ := reads
    obtain ⟨-, enough⟩ := more
    have place : bits + outbits = s.bits := Nat.sub_add_cancel enough
    have digit : (UInt8.ofBitVec (((s.val >>> bits) &&& maxv outbits).setWidth 8)).toNat =
        n / 2 ^ bits % 2 ^ outbits := toNat_digit narrow (by omega) val
    apply ih (show bits ≤ 32 by omega)
    constructor
    · exact val
    · simp only [List.length_append, List.length_singleton]
      rw [Nat.mul_succ]
      omega
    · rw [spelled_concat, digit, out, ← place, pow_add, ← Nat.div_div_eq_div_mul]
      exact Nat.div_add_mod' _ _
    · intro d member
      rcases List.mem_append.mp member with before | last
      · exact digits d before
      · rw [List.mem_singleton.mp last, digit]
        exact Nat.mod_lt _ (Nat.two_pow_pos _)
  | case2 s done => exact ⟨reads, by omega⟩

theorem push_div {inbits n x : Nat} (digit : x < 2 ^ inbits) :
    (n * 2 ^ inbits + x) / 2 ^ inbits = n := by
  rw [Nat.add_comm, Nat.add_mul_div_right _ _ (Nat.two_pow_pos _), Nat.div_eq_of_lt digit,
    Nat.zero_add]

theorem toNat_taken {inbits n : Nat} {val : BitVec 32} {x : UInt8} (inNarrow : inbits ≤ 8)
    (digit : x.toNat < 2 ^ inbits) (read : val.toNat = n % 2 ^ 32) :
    ((val <<< inbits) ||| x.toBitVec.setWidth 32).toNat =
      (n * 2 ^ inbits + x.toNat) % 2 ^ 32 := by
  have whole : 2 ^ 32 = 2 ^ inbits * 2 ^ (32 - inbits) := by
    rw [← pow_add, Nat.add_sub_cancel' (by omega)]
  have wide : (x.toBitVec.setWidth 32).toNat = x.toNat := by
    rw [BitVec.toNat_setWidth, UInt8.toNat_toBitVec]
    exact Nat.mod_eq_of_lt (x.toNat_lt.trans (by decide))
  have moved : (val <<< inbits).toNat = (n % 2 ^ (32 - inbits)) <<< inbits := by
    rw [BitVec.toNat_shiftLeft, Nat.shiftLeft_eq, Nat.shiftLeft_eq, read, whole, Nat.mul_comm,
      Nat.mul_mod_mul_left, Nat.mod_mul_left_mod, Nat.mul_comm]
  rw [BitVec.toNat_or, wide, moved, ← Nat.shiftLeft_add_eq_or_of_lt digit, whole, Nat.mod_mul,
    push_div digit, Nat.shiftLeft_eq, Nat.mul_add_mod_self_right, Nat.mod_eq_of_lt digit,
    Nat.add_comm, Nat.mul_comm]

theorem Converter.Reads.take {outbits inbits n total : Nat} {s : Converter} {x : UInt8}
    (positive : 0 < outbits) (narrow : outbits ≤ 8) (inNarrow : inbits ≤ 8)
    (reads : s.Reads outbits n total) (few : s.bits < outbits) (digit : x.toNat < 2 ^ inbits) :
    (s.take outbits inbits x).Reads outbits (n * 2 ^ inbits + x.toNat) (total + inbits) ∧
      (s.take outbits inbits x).bits < outbits := by
  obtain ⟨val, counted, out, digits⟩ := reads
  apply Converter.Reads.emit positive narrow (show s.bits + inbits ≤ 32 by omega)
  constructor
  · exact toNat_taken inNarrow digit val
  · simp only
    omega
  · simp only
    rw [out, Nat.add_comm s.bits, pow_add, ← Nat.div_div_eq_div_mul, push_div digit]
  · exact digits

theorem converter_reads (outbits inbits : Nat) (input : Bytes) (positive : 0 < outbits)
    (narrow : outbits ≤ 8) (inNarrow : inbits ≤ 8) (digits : ∀ d ∈ input, d.toNat < 2 ^ inbits) :
    (input.foldl (Converter.take outbits inbits) ⟨[], 0#32, 0⟩).Reads outbits
        (spelled inbits input) (inbits * input.length) ∧
      (input.foldl (Converter.take outbits inbits) ⟨[], 0#32, 0⟩).bits < outbits := by
  induction input using List.reverseRecOn with
  | nil => exact ⟨⟨rfl, rfl, by simp, nofun⟩, positive⟩
  | append_singleton input x ih =>
    rw [List.forall_mem_append, List.forall_mem_singleton] at digits
    obtain ⟨reads, few⟩ := ih digits.1
    rw [List.foldl_append, List.foldl_cons, List.foldl_nil, spelled_concat, List.length_append,
      List.length_singleton, Nat.mul_succ]
    exact reads.take positive narrow inNarrow few digits.2

theorem toNat_rest {outbits n : Nat} {s : Converter} (narrow : outbits ≤ 8)
    (few : s.bits < outbits) (read : s.val.toNat = n % 2 ^ 32) :
    (s.rest outbits).toNat = n % 2 ^ s.bits * 2 ^ (outbits - s.bits) := by
  have whole : 2 ^ outbits = 2 ^ s.bits * 2 ^ (outbits - s.bits) := by
    rw [← pow_add, Nat.add_sub_cancel' few.le]
  have divides : 2 ^ outbits ∣ 2 ^ 32 := pow_dvd_pow 2 (by omega)
  unfold Converter.rest
  rw [BitVec.toNat_and, toNat_maxv narrow, Nat.and_two_pow_sub_one_eq_mod, BitVec.toNat_shiftLeft,
    Nat.shiftLeft_eq, read, Nat.mod_mod_of_dvd _ divides, Nat.mul_mod, Nat.mod_mod_of_dvd _ divides,
    ← Nat.mul_mod, whole, Nat.mul_mod_mul_right]

theorem rest_lt {outbits : Nat} (s : Converter) (narrow : outbits ≤ 8) :
    (s.rest outbits).toNat < 2 ^ outbits := by
  unfold Converter.rest
  rw [BitVec.toNat_and, toNat_maxv narrow, Nat.and_two_pow_sub_one_eq_mod]
  exact Nat.mod_lt _ (Nat.two_pow_pos _)

theorem toNat_lastDigit {outbits : Nat} (s : Converter) (narrow : outbits ≤ 8) :
    (UInt8.ofBitVec ((s.rest outbits).setWidth 8)).toNat = (s.rest outbits).toNat := by
  have small := (rest_lt s narrow).trans_le (Nat.pow_le_pow_right (by decide) narrow)
  rw [UInt8.toNat_ofBitVec, BitVec.toNat_setWidth]
  exact Nat.mod_eq_of_lt small

/-! ## There and back -/

/-- Groups of five for bytes: zeros are put behind the last. -/
structure Padded (prog groups : Bytes) : Prop where
  length : groups.length = (8 * prog.length + 4) / 5
  small : ∀ v ∈ groups, v.toNat < 2 ^ 5
  number : spelled 5 groups = spelled 8 prog * 2 ^ (5 * groups.length - 8 * prog.length)

theorem convertBits_pad (prog : Bytes) : Padded prog (convertBits 5 prog 8 true).2 := by
  obtain ⟨⟨val, counted, out, digits⟩, few⟩ := converter_reads 5 8 prog (by decide) (by decide)
    (by decide) fun d _ => d.toNat_lt
  unfold convertBits
  simp only [if_true]
  generalize prog.foldl (Converter.take 5 8) ⟨[], 0#32, 0⟩ = s at val counted out digits few
  by_cases whole : s.bits = 0
  · rw [if_neg (not_not.mpr whole)]
    refine ⟨by omega, digits, ?_⟩
    rw [out, whole, show 5 * s.out.length - 8 * prog.length = 0 by omega, pow_zero, Nat.div_one,
      Nat.mul_one]
  · rw [if_pos whole]
    have last : (UInt8.ofBitVec ((s.rest 5).setWidth 8)).toNat = (s.rest 5).toNat :=
      toNat_lastDigit s (by decide)
    generalize UInt8.ofBitVec ((s.rest 5).setWidth 8) = digit at last
    have length : (s.out ++ [digit]).length = s.out.length + 1 := by simp
    refine ⟨by omega, ?_, ?_⟩
    · rw [List.forall_mem_append, List.forall_mem_singleton, last]
      exact ⟨digits, rest_lt s (by decide)⟩
    · have place : 5 * (s.out.length + 1) - 8 * prog.length = 5 - s.bits := by omega
      rw [spelled_concat, last, toNat_rest (by decide) few val, out, length, place]
      calc spelled 8 prog / 2 ^ s.bits * 2 ^ 5 + spelled 8 prog % 2 ^ s.bits * 2 ^ (5 - s.bits)
          = (spelled 8 prog / 2 ^ s.bits * 2 ^ s.bits + spelled 8 prog % 2 ^ s.bits) *
              2 ^ (5 - s.bits) := by
            rw [Nat.add_mul, Nat.mul_assoc, ← pow_add, Nat.add_sub_cancel' few.le]
        _ = spelled 8 prog * 2 ^ (5 - s.bits) := by rw [Nat.div_add_mod']

theorem spelled_injective {width : Nat} {a b : Bytes} (positive : 0 < width)
    (length : a.length = b.length) (small : ∀ v ∈ a, v.toNat < 2 ^ width)
    (small' : ∀ v ∈ b, v.toNat < 2 ^ width) (same : spelled width a = spelled width b) : a = b := by
  apply List.reverse_injective
  apply Bytes.eq_of_inBase_eq (Nat.one_lt_two_pow positive.ne') (by simpa using length) _ _ same
  · simpa using small
  · simpa using small'

/-- Bytes for groups of five: what is left is less than a group, and zeros. -/
structure Unpadded (groups prog : Bytes) : Prop where
  few : 5 * groups.length % 8 < 5
  zeros : spelled 5 groups % 2 ^ (5 * groups.length % 8) = 0
  length : prog.length = 5 * groups.length / 8
  number : spelled 8 prog = spelled 5 groups / 2 ^ (5 * groups.length % 8)

theorem convertBits_exact {groups prog : Bytes} (small : ∀ v ∈ groups, v.toNat < 2 ^ 5) :
    convertBits 8 groups 5 false = (true, prog) ↔ Unpadded groups prog := by
  obtain ⟨⟨val, counted, out, digits⟩, few⟩ := converter_reads 8 5 groups (by decide) (by decide)
    (by decide) small
  unfold convertBits
  simp only [Bool.false_eq_true, if_false]
  generalize groups.foldl (Converter.take 8 5) ⟨[], 0#32, 0⟩ = s
    at val counted out digits few
  have bits : s.bits = 5 * groups.length % 8 := by omega
  have length : s.out.length = 5 * groups.length / 8 := by omega
  have zeros : s.rest 8 = 0#32 ↔ spelled 5 groups % 2 ^ s.bits = 0 := by
    rw [← BitVec.toNat_inj, toNat_rest (by decide) few val]
    simp
  rw [bits] at zeros out
  constructor
  · intro converted
    split at converted
    case isTrue => cases converted
    case isFalse accepted =>
      rw [not_or, not_not, bits, not_le] at accepted
      obtain rfl := (Prod.mk.inj converted).2
      exact ⟨accepted.2, zeros.mp accepted.1, length, out⟩
  · intro exact
    rw [if_neg]
    · congr 1
      apply spelled_injective (by decide) _ digits fun d _ => d.toNat_lt
      · rw [out, exact.number]
      · rw [length, exact.length]
    · rw [not_or, not_not, bits, not_le]
      exact ⟨zeros.mpr exact.zeros, exact.few⟩

theorem unpadded_iff_padded {prog groups : Bytes} (small : ∀ v ∈ groups, v.toNat < 2 ^ 5) :
    Unpadded groups prog ↔ Padded prog groups := by
  constructor
  · intro exact
    have few := exact.few
    have length := exact.length
    refine ⟨by omega, small, ?_⟩
    have place : 5 * groups.length - 8 * prog.length = 5 * groups.length % 8 := by omega
    rw [place, exact.number, Nat.div_mul_cancel (Nat.dvd_of_mod_eq_zero exact.zeros)]
  · intro padded
    have length := padded.length
    have place : 5 * groups.length - 8 * prog.length = 5 * groups.length % 8 := by omega
    have number := padded.number
    rw [place] at number
    refine ⟨by omega, ?_, by omega, ?_⟩
    · rw [number, Nat.mul_mod_left]
    · rw [number, Nat.mul_div_cancel _ (Nat.two_pow_pos _)]

theorem Padded.unique {prog groups groups' : Bytes} (padded : Padded prog groups)
    (padded' : Padded prog groups') : groups = groups' := by
  have length : groups.length = groups'.length := padded.length.trans padded'.length.symm
  apply spelled_injective (by decide) length padded.small padded'.small
  rw [padded.number, padded'.number, length]

/-- Five bits for eight give the bytes exactly where eight for five give the groups. -/
theorem convertBits_iff {prog groups : Bytes} (small : ∀ v ∈ groups, v.toNat < 2 ^ 5) :
    convertBits 8 groups 5 false = (true, prog) ↔ (convertBits 5 prog 8 true).2 = groups := by
  rw [convertBits_exact small, unpadded_iff_padded small]
  constructor
  · intro padded
    exact (convertBits_pad prog).unique padded
  · rintro rfl
    exact convertBits_pad prog

/-! ## Addresses -/

/-- `segwit_addr_encode`: the return code, and what was written. -/
def segwitAddrEncode (hrp : Bytes) (witver : Int) (witprog : Bytes) : Int × Bytes :=
  if 16 < witver then (0, [])
  else if witver = 0 ∧ witprog.length ≠ 20 ∧ witprog.length ≠ 32 then (0, [])
  else if witprog.length < 2 ∨ 40 < witprog.length then (0, [])
  else bech32Encode hrp (UInt8.ofInt witver :: (convertBits 5 witprog 8 true).2)

/-- `strncmp(a, b, n) != 0`. -/
def strncmpNe (a b : Bytes) (n : Nat) : Bool := (a ++ [0]).take n ≠ (b ++ [0]).take n

/-- What the first loop of `bech32_decode` takes; a `char` from 128 on is negative. -/
def inRange (c : UInt8) : Bool := 33 ≤ c && c ≤ 126

/-- How many bytes `bech32_decode` writes to `hrp`, the NUL included. -/
def hrpWritten (input : Bytes) : Nat :=
  if input.length < 8 ∨ 90 < input.length then 0
  else
    let dataLen := (input.reverse.takeWhile (· ≠ 49)).length
    -- without a separator `hrp_len` wraps, and the loop goes on to a character that it refuses
    if dataLen = input.length then (input.takeWhile inRange).length
    else
      let hrpLen := input.length - (1 + dataLen)
      if hrpLen < 1 ∨ dataLen < 6 then 0
      else
        let written := ((input.take hrpLen).takeWhile inRange).length
        if written = hrpLen then hrpLen + 1 else written

/-- `segwit_addr_decode` after `bech32_decode`: the version and the program, when it returns 1. -/
def decodeAddress (hrp addr : Bytes) : Option (Int × Bytes) := do
  let (hrpActual, data) ← bech32Decode addr
  if data.length = 0 ∨ 65 < data.length then none
  else if strncmpNe hrp hrpActual 84 then none
  else if 16 < data.getD 0 0 then none
  else
    let (converted, witdata) := convertBits 8 (data.drop 1) 5 false
    if ¬ converted then none
    else if witdata.length < 2 ∨ 40 < witdata.length then none
    else if data.getD 0 0 = 0 ∧ witdata.length ≠ 20 ∧ witdata.length ≠ 32 then none
    else some ((data.getD 0 0).toNat, witdata)

/-- `segwit_addr_decode`, with its `char hrp_actual[84]`. -/
def segwitAddrDecode (hrp addr : Bytes) : Cpp (Option (Int × Bytes)) :=
  if 84 < hrpWritten addr then .error .pastEnd else .ok (decodeAddress hrp addr)

theorem strncmpNe_eq_false_iff {a b : Bytes} {n : Nat} (short : b.length < n) (noNul : 0 ∉ a) :
    strncmpNe a b n = false ↔ a = b := by
  have whole : (b ++ [0]).take n = b ++ [0] := List.take_of_length_le (by simpa using short)
  unfold strncmpNe
  rw [decide_eq_false_iff_not, not_not, whole]
  constructor
  · intro same
    by_cases long : n ≤ a.length
    · rw [List.take_append_of_le_length long] at same
      have nul : 0 ∈ a.take n := same ▸ List.mem_append_right _ (List.mem_singleton_self _)
      exact absurd (List.mem_of_mem_take nul) noNul
    · rw [List.take_of_length_le (by simpa using Nat.lt_of_not_le long)] at same
      exact List.append_cancel_right same
  · rintro rfl
    exact whole

theorem highBits_of_printable {hrp : Bytes} (printable : ∀ c ∈ hrp, Printable c) :
    ∀ c ∈ hrp, highBits c ≠ 0 :=
  fun c member => highBits_printable c (printable c member).1 (printable c member).2.1

def addressGroups (v : UInt8) (witprog : Bytes) : Bytes :=
  v :: (convertBits 5 witprog 8 true).2

theorem lt_of_mem_addressGroups {v : UInt8} {witprog : Bytes} (version : v.toNat ≤ 16) :
    ∀ x ∈ addressGroups v witprog, x < 32 := by
  intro x member
  rw [UInt8.lt_iff_toNat_lt]
  rcases List.mem_cons.mp member with rfl | later
  · exact Nat.lt_of_le_of_lt version (by decide)
  · exact (convertBits_pad witprog).small x later

structure WitnessProgram (witver : Int) (witprog : Bytes) : Prop where
  version : witver ≤ 16
  first : witver = 0 → witprog.length = 20 ∨ witprog.length = 32
  least : 2 ≤ witprog.length
  most : witprog.length ≤ 40

theorem toNat_ofInt_version {witver : Int} (positive : 0 ≤ witver) (version : witver ≤ 16) :
    ((UInt8.ofInt witver).toNat : Int) = witver := by
  interval_cases witver <;> rfl

theorem segwitAddrEncode_eq_iff {hrp out : Bytes} {witver : Int} {witprog : Bytes}
    (printable : ∀ c ∈ hrp, Printable c) (positive : 0 ≤ witver) :
    segwitAddrEncode hrp witver witprog = (1, out ++ [0]) ↔
      WitnessProgram witver witprog ∧
        text hrp (addressGroups (UInt8.ofInt witver) witprog) = out := by
  unfold segwitAddrEncode
  constructor
  · intro encoded
    split at encoded
    case isTrue => simp at encoded
    split at encoded
    case isTrue => simp at encoded
    split at encoded
    case isTrue => simp at encoded
    rename_i version first sized
    have small := toNat_ofInt_version positive (by omega)
    have groups : ∀ x ∈ addressGroups (UInt8.ofInt witver) witprog, x < 32 :=
      lt_of_mem_addressGroups (by omega)
    unfold addressGroups at groups
    rw [bech32Encode_eq (highBits_of_printable printable) groups] at encoded
    refine ⟨⟨by omega, ?_, by omega, by omega⟩, ?_⟩
    · intro zero
      by_contra neither
      rw [not_or] at neither
      exact first ⟨zero, neither⟩
    · exact List.append_cancel_right (Prod.mk.inj encoded).2
  · rintro ⟨⟨version, first, least, most⟩, rfl⟩
    have small := toNat_ofInt_version positive version
    have groups : ∀ x ∈ addressGroups (UInt8.ofInt witver) witprog, x < 32 :=
      lt_of_mem_addressGroups (by omega)
    rw [if_neg (by omega), if_neg (by omega), if_neg (by omega)]
    exact bech32Encode_eq (highBits_of_printable printable) groups

theorem decodeAddress_eq {hrp addr groups : Bytes} {v : UInt8} (noNul : 0 ∉ hrp)
    (readable : Readable addr hrp (v :: groups)) (witver : Int) (witprog : Bytes) :
    decodeAddress hrp addr = some (witver, witprog) ↔
      groups.length < 65 ∧ witver = v.toNat ∧ WitnessProgram witver witprog ∧
        convertBits 8 groups 5 false = (true, witprog) := by
  have length := readable.short
  unfold decodeAddress
  rw [bech32Decode_of_readable readable, Option.bind_eq_bind, Option.bind_some]
  simp only [(strncmpNe_eq_false_iff (b := hrp) (n := 84) (by omega) noNul).mpr rfl,
    Bool.false_eq_true, if_false, List.length_cons, List.getD_cons_zero, List.drop_succ_cons,
    List.drop_zero]
  generalize convertBits 8 groups 5 false = result
  obtain ⟨done, witdata⟩ := result
  simp only
  constructor
  · intro decoded
    split at decoded
    case isTrue => cases decoded
    split at decoded
    case isTrue => cases decoded
    split at decoded
    case isTrue => cases decoded
    split at decoded
    case isTrue => cases decoded
    split at decoded
    case isTrue => cases decoded
    rename_i counted version converted sized first
    rw [not_lt, UInt8.le_iff_toNat_le] at version
    rw [not_not] at converted
    obtain ⟨rfl, rfl⟩ := Prod.mk.inj (Option.some.inj decoded)
    refine ⟨by omega, rfl, ⟨Int.ofNat_le.mpr version, ?_, by omega, by omega⟩, by rw [converted]⟩
    intro zero
    by_contra neither
    rw [not_or] at neither
    exact first ⟨UInt8.toNat.inj (Int.ofNat.inj zero), neither⟩
  · rintro ⟨counted, rfl, ⟨version, first, least, most⟩, converted⟩
    obtain ⟨rfl, rfl⟩ := Prod.mk.inj converted
    have known : ¬ 16 < v := by
      rw [not_lt, UInt8.le_iff_toNat_le]
      exact Int.ofNat_le.mp version
    have allowed : ¬ (v = 0 ∧ witdata.length ≠ 20 ∧ witdata.length ≠ 32) := by
      rintro ⟨rfl, neither⟩
      exact absurd (first rfl) (not_or.mpr neither)
    rw [if_neg (by omega), if_neg known, if_neg (by simp), if_neg (by omega), if_neg allowed]

theorem readable_of_decodeAddress {hrp addr : Bytes} {read : Int × Bytes} (noNul : 0 ∉ hrp)
    (decoded : decodeAddress hrp addr = some read) :
    ∃ v groups, Readable addr hrp (v :: groups) := by
  obtain ⟨⟨hrpActual, data⟩, text, rest⟩ := Option.bind_eq_some_iff.mp decoded
  have readable := readable_of_bech32Decode text
  have short := readable.short
  simp only at rest
  split at rest
  case isTrue => cases rest
  split at rest
  case isTrue => cases rest
  rename_i counted same
  rw [Bool.not_eq_true] at same
  obtain rfl := (strncmpNe_eq_false_iff (b := hrpActual) (by omega) noNul).mp same
  cases data with
  | nil => exact absurd (.inl rfl) counted
  | cons v groups => exact ⟨v, groups, readable⟩

theorem decodeAddress_eq_some_iff {hrp : Bytes} (noNul : 0 ∉ hrp) (addr : Bytes) (witver : Int)
    (witprog : Bytes) :
    decodeAddress hrp addr = some (witver, witprog) ↔
      0 ≤ witver ∧ segwitAddrEncode hrp witver witprog = (1, addr.map lowerCase ++ [0]) ∧
        hrp ≠ [] ∧ (∀ c ∈ hrp, Printable c) ∧ addr.length ≤ 90 ∧
        ¬ (addr.any isLower ∧ addr.any isUpper) := by
  constructor
  · intro decoded
    obtain ⟨v, groups, readable⟩ := readable_of_decodeAddress noNul decoded
    obtain ⟨-, rfl, witness, converted⟩ :=
      (decodeAddress_eq noNul readable witver witprog).mp decoded
    have small : ∀ x ∈ groups, x.toNat < 2 ^ 5 := fun x member =>
      UInt8.lt_iff_toNat_lt.mp (readable.small x (List.mem_cons_of_mem v member))
    have back := (convertBits_iff small).mp converted
    have version : UInt8.ofInt v.toNat = v :=
      (ofInt_group v (readable.small v List.mem_cons_self)).2.1
    have length : addr.length ≤ 90 := by
      have short := readable.short
      rw [← List.length_map lowerCase, readable.spelled, length_text]
      exact short
    refine ⟨Int.natCast_nonneg _, ?_, readable.named, readable.printable, length, readable.oneCase⟩
    apply (segwitAddrEncode_eq_iff readable.printable (Int.natCast_nonneg _)).mpr
    refine ⟨witness, ?_⟩
    unfold addressGroups
    rw [version, back, readable.spelled]
  · rintro ⟨positive, encoded, named, printable, short, oneCase⟩
    obtain ⟨witness, spelled⟩ := (segwitAddrEncode_eq_iff printable positive).mp encoded
    have version := toNat_ofInt_version positive witness.version
    have small : ∀ x ∈ addressGroups (UInt8.ofInt witver) witprog, x < 32 :=
      lt_of_mem_addressGroups (by have := witness.version; omega)
    have length : addr.length =
        hrp.length + (addressGroups (UInt8.ofInt witver) witprog).length + 7 := by
      rw [← length_text, spelled, List.length_map]
    have readable : Readable addr hrp (addressGroups (UInt8.ofInt witver) witprog) :=
      ⟨named, printable, small, by omega, spelled.symm, oneCase⟩
    apply (decodeAddress_eq noNul readable witver witprog).mpr
    have padded := (convertBits_pad witprog).length
    have most := witness.most
    refine ⟨by omega, version.symm, witness, ?_⟩
    exact (convertBits_iff (convertBits_pad witprog).small).mpr rfl

/-! ### The buffer for the prefix -/

theorem le_length_takeWhile_iff {α : Type} (p : α → Bool) (n : Nat) (l : List α) :
    n ≤ (l.takeWhile p).length ↔ n ≤ l.length ∧ ∀ c ∈ l.take n, p c := by
  induction l generalizing n with
  | nil => simp
  | cons c l ih =>
    cases n with
    | zero => simp
    | succ n =>
      by_cases taken : p c
      · simp [taken, ih]
      · simp [taken]

theorem length_takeWhile_reverse_eq_iff (input : Bytes) :
    (input.reverse.takeWhile (· ≠ 49)).length = input.length ↔ 49 ∉ input := by
  have whole := le_length_takeWhile_iff (fun c : UInt8 => decide (c ≠ 49)) input.length
    input.reverse
  have most := (List.takeWhile_prefix (l := input.reverse) fun c => decide (c ≠ 49)).length_le
  rw [List.length_reverse] at most whole
  rw [Nat.le_antisymm_iff, and_iff_right most, whole, ← List.length_reverse, List.take_length]
  simp only [le_refl, true_and, List.mem_reverse, decide_eq_true_eq]
  exact ⟨fun all member => all 49 member rfl, fun absent c member same => absent (same ▸ member)⟩

theorem hrpWritten_le {input : Bytes} (separated : 49 ∈ input) : hrpWritten input ≤ 84 := by
  have other := mt (length_takeWhile_reverse_eq_iff input).mp (not_not_intro separated)
  unfold hrpWritten
  simp only [if_neg other]
  split
  case isTrue => exact Nat.zero_le _
  case isFalse sized =>
    split
    case isTrue => exact Nat.zero_le _
    case isFalse named =>
      have most := (List.takeWhile_prefix (l := input.take (input.length -
        (1 + (input.reverse.takeWhile (· ≠ 49)).length))) inRange).length_le
      rw [List.length_take] at most
      split
      · omega
      · omega

theorem hrpWritten_gt_iff (input : Bytes) : 84 < hrpWritten input ↔
    input.length ≤ 90 ∧ 49 ∉ input ∧ 85 ≤ input.length ∧ ∀ c ∈ input.take 85, inRange c := by
  by_cases separated : 49 ∈ input
  · refine iff_of_false (not_lt.mpr (hrpWritten_le separated)) ?_
    rintro ⟨-, absent, -⟩
    exact absent separated
  · unfold hrpWritten
    simp only [(length_takeWhile_reverse_eq_iff input).mpr separated, if_true]
    split
    case isTrue sized =>
      refine iff_of_false (by omega) ?_
      rintro ⟨short, -, long, -⟩
      omega
    case isFalse sized =>
      rw [← Nat.succ_le_iff, le_length_takeWhile_iff]
      have short : input.length ≤ 90 := by omega
      simp [short, separated]

/-- An address is read as a version and a program exactly when, in lower case, it is what the
encoder writes for them under a prefix that can be read, has at most ninety characters and was
in one case; and no version is negative. The buffer for the prefix is overrun exactly by the
texts of 85 to 90 characters that have no separator and begin with 85 characters in range. -/
theorem segwitAddrDecode_iff {hrp : Bytes} (noNul : 0 ∉ hrp) (addr : Bytes) :
    (∀ witver witprog, segwitAddrDecode hrp addr = .ok (some (witver, witprog)) ↔
      0 ≤ witver ∧ segwitAddrEncode hrp witver witprog = (1, addr.map lowerCase ++ [0]) ∧
        hrp ≠ [] ∧ (∀ c ∈ hrp, Printable c) ∧ addr.length ≤ 90 ∧
        ¬ (addr.any isLower ∧ addr.any isUpper)) ∧
      ((∃ e, segwitAddrDecode hrp addr = .error e) ↔
        addr.length ≤ 90 ∧ 49 ∉ addr ∧ 85 ≤ addr.length ∧ ∀ c ∈ addr.take 85, inRange c) := by
  rw [← hrpWritten_gt_iff]
  unfold segwitAddrDecode
  constructor
  · intro witver witprog
    rw [← decodeAddress_eq_some_iff noNul]
    split
    case isFalse => rw [Except.ok.injEq]
    case isTrue overrun =>
      have separated := ((hrpWritten_gt_iff addr).mp overrun).2.1
      have refused : decodeAddress hrp addr = none := by
        unfold decodeAddress
        rw [bech32Decode_of_notMem separated]
        rfl
      rw [refused]
      exact iff_of_false nofun nofun
  · split
    case isTrue overrun => exact iff_of_true ⟨.pastEnd, rfl⟩ overrun
    case isFalse room => exact iff_of_false (by simp) room

theorem isUpper_of_mem_text {hrp data : Bytes} (printable : ∀ c ∈ hrp, Printable c)
    (small : ∀ v ∈ data, v < 32) : ∀ c ∈ text hrp data, isUpper c = false := by
  intro c member
  rcases List.mem_append.mp member with front | coded
  · rcases List.mem_append.mp front with given | separator
    · unfold isUpper
      simpa using (printable c given).2.2
    · rw [List.mem_singleton.mp separator]
      rfl
  · obtain ⟨v, within, rfl⟩ := List.mem_map.mp coded
    exact isUpper_groupChar v (lt_of_mem_textGroups small v within)

theorem segwitAddrDecode_version_zero :
    segwitAddrDecode [98, 99] (text [98, 99] (addressGroups 0 (List.replicate 20 7))) =
        .ok (some (0, List.replicate 20 7)) ∧
      ∃ e, segwitAddrDecode [98, 99] (List.replicate 85 98) = .error e := by
  have printable : ∀ c ∈ ([98, 99] : Bytes), Printable c := by decide +kernel
  have groups : ∀ x ∈ addressGroups 0 (List.replicate 20 7), x < 32 :=
    lt_of_mem_addressGroups (by decide)
  have lower := isUpper_of_mem_text printable groups
  have same : (text [98, 99] (addressGroups 0 (List.replicate 20 7))).map lowerCase =
      text [98, 99] (addressGroups 0 (List.replicate 20 7)) := by
    conv_rhs => rw [← List.map_id (text _ _)]
    exact List.map_congr_left fun c member => if_neg (by simp [lower c member])
  have witness : WitnessProgram 0 (List.replicate 20 7) :=
    ⟨by decide, fun _ => .inl (by simp), by simp, by simp⟩
  have length := (convertBits_pad (List.replicate 20 7)).length
  constructor
  · apply ((segwitAddrDecode_iff (by decide) _).1 _ _).mpr
    refine ⟨le_refl _, ?_, by decide, printable, ?_, ?_⟩
    · exact (segwitAddrEncode_eq_iff printable (le_refl _)).mpr ⟨witness, same.symm⟩
    · rw [length_text]
      unfold addressGroups
      simp only [List.length_cons, List.length_nil, List.length_replicate] at length ⊢
      omega
    · rintro ⟨-, upper⟩
      obtain ⟨c, member, cased⟩ := List.any_eq_true.mp upper
      rw [lower c member] at cased
      cases cased
  · apply (segwitAddrDecode_iff (by decide) _).2.mpr
    simp [inRange]

end Pttp
