import Pttp.Bytes
import Pttp.Lib.BitPacking

/-!
# Bit sets as bytes

`Bytes(std::bitset<N> &)` writes the bits, the most significant first, and leaves the
bits of a last byte where they are. `bitset<N>` reads them back with a mask that knows
of such a byte, and prints what it reads. Both count the bits in an `int`, which is `Nat`
here: the two are the functions of the source for `N` below 2^31.
-/

namespace Pttp.Bytes

open BitPacking

/-- The digits `operator<<` prints of an `int`. -/
def decimal (n : Nat) : Bytes := (Nat.toDigits 10 n).map fun c => UInt8.ofNat c.toNat

/-- `operator<<` of a bit set, the highest bit first. -/
def bitsetText (bits : List Bool) : Bytes := bits.reverse.map fun bit => if bit then 49 else 48

/-- The loop of `Bytes(std::bitset<N> &bits)`: the buffer, the place in it, and the byte
that is begun. -/
def ofBitsetLoop : List Bool → Bytes → Nat → Nat → UInt8 → Cpp (Bytes × Nat × UInt8)
  | [], b, idx, _, u => .ok (b, idx, u)
  | bit :: rest, b, idx, n, u =>
      if n + 1 = 8 then do
        let b ← Cpp.assign b idx (push u bit)
        ofBitsetLoop rest b (idx + 1) 0 0
      else ofBitsetLoop rest b idx (n + 1) (push u bit)

/-- `Bytes(std::bitset<N> &bits)`, for an `N` that `int i` counts to. -/
def ofBitset (bits : List Bool) : Cpp Bytes := do
  let (b, idx, u) ← ofBitsetLoop bits (List.replicate ((bits.length + 1) / 8) 0) 0 0 0
  if idx < b.length then return b.set idx u else return b

def bitLine (byte mask : UInt8) : Bytes :=
  decimal byte.toNat ++ [32] ++ decimal mask.toNat ++ [32] ++
    decimal (byte &&& mask).toNat ++ [10]

/-- The loop of `bitset`: the bits that are left to read, and what is printed of them. -/
def bitsetLoop (b : Bytes) (N : Nat) : Nat → Nat → Nat → Nat → Cpp (List Bool × Bytes)
  | 0, _, _, _ => .ok ([], [])
  | left + 1, i, idx, n => do
      let base := if i / 8 = N / 8 then N % 8 else 8
      let mask := UInt8.ofNat (1 <<< (base - 1 - n))
      let byte ← Cpp.index b idx
      let rest ← bitsetLoop b N left (i + 1) (if n + 1 = 8 then idx + 1 else idx)
        (if n + 1 = 8 then 0 else n + 1)
      return ((byte &&& mask != 0) :: rest.1, bitLine byte mask ++ rest.2)

/-- `Bytes::bitset<N>()`, for an `N` that `int i` counts to: the bits and the output. -/
def bitset (N : Nat) (b : Bytes) : Cpp (List Bool × Bytes) := bitsetLoop b N N 0 0 0

/-! ## Whole bytes -/

theorem ofBitsetLoop_fill {chunk : List Bool} (rest : List Bool) (b : Bytes) (idx : Nat)
    {n : Nat} (u : UInt8) (nonempty : chunk ≠ []) (fills : n + chunk.length = 8) :
    ofBitsetLoop (chunk ++ rest) b idx n u =
      (Cpp.assign b idx (chunk.foldl push u) >>= fun b => ofBitsetLoop rest b (idx + 1) 0 0) := by
  induction chunk generalizing n u with
  | nil => exact absurd rfl nonempty
  | cons bit chunk ih =>
    rw [List.length_cons] at fills
    rw [List.cons_append, ofBitsetLoop, List.foldl_cons]
    by_cases last : chunk = []
    · subst last
      rw [List.length_nil] at fills
      rw [if_pos (by omega)]
      rfl
    · have := List.length_pos_iff.mpr last
      rw [if_neg (by omega)]
      exact ih (push u bit) last (by omega)

theorem ofBitsetLoop_whole {l : List Bool} (rest : List Bool) (front back : Bytes)
    (whole : l.length % 8 = 0) (room : (pack l).length ≤ back.length) :
    ofBitsetLoop (l ++ rest) (front ++ back) front.length 0 0 =
      ofBitsetLoop rest (front ++ pack l ++ back.drop (pack l).length)
        (front ++ pack l).length 0 0 := by
  fun_induction pack l generalizing front back with
  | case1 => simp
  | case2 l nonempty ih =>
    have positive := List.length_pos_iff.mpr nonempty
    have full : (l.take 8).length = 8 := by
      rw [List.length_take]
      omega
    have rest_whole : (l.drop 8).length % 8 = 0 := by
      rw [List.length_drop]
      omega
    obtain _ | ⟨x, back⟩ := back
    · simp at room
    · have split : l ++ rest = l.take 8 ++ (l.drop 8 ++ rest) := by
        rw [← List.append_assoc, List.take_append_drop]
      have room' : (pack (l.drop 8)).length ≤ back.length := Nat.le_of_succ_le_succ room
      rw [split, ofBitsetLoop_fill _ _ _ 0 (List.ne_nil_of_length_pos (by omega)) (by omega),
        Cpp.assign_append, Cpp.ok_bind, ← byte_of_length_eq full]
      have next := ih (front ++ [byte (l.take 8)]) back rest_whole room'
      simpa using next

theorem ofBitsetLoop_begin (rest : List Bool) (b : Bytes) (idx : Nat) {n : Nat} (u : UInt8)
    (short : n + rest.length < 8) :
    ofBitsetLoop rest b idx n u = .ok (b, idx, rest.foldl push u) := by
  induction rest generalizing n u with
  | nil => rfl
  | cons bit rest ih =>
    rw [List.length_cons] at short
    rw [ofBitsetLoop, if_neg (by omega)]
    exact ih (push u bit) (by omega)

def front (bits : List Bool) : List Bool := bits.take (8 * (bits.length / 8))

def back (bits : List Bool) : List Bool := bits.drop (8 * (bits.length / 8))

theorem length_front (bits : List Bool) : (front bits).length = 8 * (bits.length / 8) := by
  rw [front, List.length_take]
  omega

theorem length_back (bits : List Bool) : (back bits).length = bits.length % 8 := by
  rw [back, List.length_drop]
  omega

theorem length_pack_front (bits : List Bool) : (pack (front bits)).length = bits.length / 8 := by
  rw [length_pack, length_front]
  omega

/-- The whole bytes are written as they are packed. There is a byte for the bits behind them
only when it lacks one. -/
theorem ofBitset_eq (bits : List Bool) :
    ofBitset bits = .ok (pack (front bits) ++
      if bits.length % 8 = 7 then [(back bits).foldl push 0] else []) := by
  have packed := length_pack_front bits
  have whole : (front bits).length % 8 = 0 := by
    rw [length_front]
    omega
  have written := ofBitsetLoop_whole (back bits) []
    (List.replicate ((bits.length + 1) / 8) 0) whole (by rw [List.length_replicate]; omega)
  have begun := ofBitsetLoop_begin (back bits) (n := 0)
    (pack (front bits) ++ List.replicate ((bits.length + 1) / 8 - bits.length / 8) 0)
    (bits.length / 8) 0 (by rw [length_back]; omega)
  have split : front bits ++ back bits = bits := List.take_append_drop _ _
  rw [split, List.nil_append, List.nil_append, List.drop_replicate, packed, begun] at written
  unfold ofBitset
  rw [show ([] : Bytes).length = 0 from rfl] at written
  rw [written, Cpp.ok_bind]
  simp only [List.length_append, packed, List.length_replicate]
  by_cases seven : bits.length % 8 = 7
  · have one : (bits.length + 1) / 8 - bits.length / 8 = 1 := by omega
    rw [if_pos (by omega), if_pos seven, one, List.replicate_one,
      List.set_append_right _ _ packed.le, packed, Nat.sub_self]
    rfl
  · have none : (bits.length + 1) / 8 - bits.length / 8 = 0 := by omega
    rw [if_neg (by omega), if_neg seven, none]
    rfl

theorem and_mask_bne_zero : ∀ (byte : UInt8) (k : Fin 8),
    (byte &&& UInt8.ofNat (1 <<< k.val) != 0) = byte.toNat.testBit k.val := by
  decide +kernel

theorem bitsetLoop_front {b : Bytes} {N : Nat} (left rest : Nat) {i n : Nat} (idx : Nat)
    (begun : n < 8) (place : 8 * idx + n = i) (whole : i + left ≤ 8 * (N / 8))
    (there : i + left ≤ 8 * b.length) :
    ∃ printed, bitsetLoop b N (left + rest) i idx n =
      (bitsetLoop b N rest (i + left) ((i + left) / 8) ((i + left) % 8) >>= fun behind =>
        .ok (((unpack b).drop i).take left ++ behind.1, printed ++ behind.2)) := by
  induction left generalizing i idx n with
  | zero =>
    have byte : i / 8 = idx := by omega
    have bit : i % 8 = n := by omega
    refine ⟨[], ?_⟩
    rw [Nat.zero_add, Nat.add_zero, byte, bit, List.take_zero]
    exact (bind_pure _).symm
  | succ left ih =>
    have inside : idx < b.length := by omega
    have bit := drop_unpack inside begun
    rw [place] at bit
    have base : (if i / 8 = N / 8 then N % 8 else 8) = 8 := if_neg (by omega)
    have masked := and_mask_bne_zero b[idx] ⟨7 - n, by omega⟩
    obtain ⟨printed, next⟩ : ∃ printed, bitsetLoop b N (left + rest) (i + 1)
        (if n + 1 = 8 then idx + 1 else idx) (if n + 1 = 8 then 0 else n + 1) =
        (bitsetLoop b N rest (i + 1 + left) ((i + 1 + left) / 8) ((i + 1 + left) % 8) >>=
          fun behind => .ok (((unpack b).drop (i + 1)).take left ++ behind.1,
            printed ++ behind.2)) := by
      apply ih
      · split <;> omega
      · split <;> omega
      · omega
      · omega
    refine ⟨bitLine b[idx] (UInt8.ofNat (1 <<< (7 - n))) ++ printed, ?_⟩
    rw [Nat.add_right_comm i 1 left] at next
    rw [Nat.add_right_comm left 1 rest, bitsetLoop, base, Cpp.index_of_lt inside, Cpp.ok_bind,
      next, bit, ← masked, ← Nat.add_assoc i left 1]
    cases bitsetLoop b N rest (i + left + 1) ((i + left + 1) / 8) ((i + left + 1) % 8) with
    | error e => rfl
    | ok behind =>
      rw [Cpp.ok_bind, Cpp.ok_bind, Cpp.ok_bind, List.append_assoc]
      rfl

theorem bitsetLoop_back {b : Bytes} {N : Nat} {x : UInt8} (there : b[N / 8]? = some x)
    (left : Nat) {n : Nat} (stop : n + left = N % 8) :
    ∃ printed, bitsetLoop b N left (8 * (N / 8) + n) (N / 8) n =
      .ok ((List.range' n left).map fun j => x.toNat.testBit (N % 8 - 1 - j), printed) := by
  induction left generalizing n with
  | zero => exact ⟨[], rfl⟩
  | succ left ih =>
    obtain ⟨printed, next⟩ := ih (n := n + 1) (by omega)
    have base : (if (8 * (N / 8) + n) / 8 = N / 8 then N % 8 else 8) = N % 8 :=
      if_pos (by omega)
    have masked := and_mask_bne_zero x ⟨N % 8 - 1 - n, by omega⟩
    have read : Cpp.index b (N / 8) = .ok x := Cpp.index_eq_ok_iff.mpr there
    refine ⟨bitLine x (UInt8.ofNat (1 <<< (N % 8 - 1 - n))) ++ printed, ?_⟩
    rw [← Nat.add_assoc] at next
    rw [bitsetLoop, base, read, Cpp.ok_bind, if_neg (by omega), if_neg (by omega), next,
      Cpp.ok_bind, List.range'_succ, List.map_cons, ← masked]
    rfl

theorem map_testBit_foldl_push {l : List Bool} (short : l.length ≤ 8) :
    ((List.range' 0 l.length).map fun j =>
      (l.foldl push 0).toNat.testBit (l.length - 1 - j)) = l := by
  apply List.ext_getElem (by simp)
  intro j inRange inside
  rw [List.getElem_map, List.getElem_range', toNat_foldl_push short, testBit_value, Nat.zero_add,
    Nat.one_mul, List.getD_eq_getElem?_getD, List.getElem?_reverse (by omega)]
  have mirrored : l.length - 1 - (l.length - 1 - j) = j := by omega
  rw [mirrored, List.getElem?_eq_getElem inside]
  rfl

/-! ## There and back -/

def RoundTrips (bits : List Bool) : Prop :=
  ∃ b printed, ofBitset bits = .ok b ∧ bitset bits.length b = .ok (bits, printed)

theorem take_unpack_pack_front (bits : List Bool) (behind : Bytes) :
    (unpack (pack (front bits) ++ behind)).take (8 * (bits.length / 8)) = front bits := by
  have inside : 8 * (bits.length / 8) ≤ (unpack (pack (front bits))).length := by
    rw [length_unpack, length_pack_front]
  have kept := take_unpack_pack (front bits)
  rw [length_front] at kept
  unfold unpack at inside kept ⊢
  rw [List.flatMap_append, List.take_append_of_le_length inside, kept]

theorem bitset_front (bits : List Bool) (behind : Bytes) :
    ∃ printed, bitset bits.length (pack (front bits) ++ behind) =
      (bitsetLoop (pack (front bits) ++ behind) bits.length (bits.length % 8)
        (8 * (bits.length / 8) + 0) (bits.length / 8) 0 >>= fun rest =>
        .ok (front bits ++ rest.1, printed ++ rest.2)) := by
  have packed := length_pack_front bits
  obtain ⟨printed, read⟩ := bitsetLoop_front (b := pack (front bits) ++ behind)
    (N := bits.length) (8 * (bits.length / 8)) (bits.length % 8) (i := 0) (n := 0) 0
    (by decide) rfl (by omega) (by rw [List.length_append]; omega)
  have byte : 8 * (bits.length / 8) / 8 = bits.length / 8 := by omega
  have bit : 8 * (bits.length / 8) % 8 = 0 := by omega
  rw [Nat.div_add_mod, Nat.zero_add, byte, bit, List.drop_zero, take_unpack_pack_front] at read
  exact ⟨printed, read⟩

theorem bitset_pack {bits : List Bool} (whole : bits.length % 8 = 0) :
    ∃ printed, bitset bits.length (pack bits) = .ok (bits, printed) := by
  have all : front bits = bits := by
    apply List.take_of_length_le
    omega
  obtain ⟨printed, read⟩ := bitset_front bits []
  rw [all, List.append_nil, whole] at read
  refine ⟨printed ++ [], read.trans ?_⟩
  rw [bitsetLoop, Cpp.ok_bind, List.append_nil]

theorem ofBitset_of_whole {bits : List Bool} (whole : bits.length % 8 = 0) :
    ofBitset bits = .ok (pack bits) := by
  have all : front bits = bits := by
    apply List.take_of_length_le
    omega
  rw [ofBitset_eq, all, if_neg (by omega), List.append_nil]

theorem roundTrips_of_seven {bits : List Bool} (seven : bits.length % 8 = 7) :
    RoundTrips bits := by
  have written := ofBitset_eq bits
  rw [if_pos seven] at written
  obtain ⟨printed, read⟩ := bitset_front bits [(back bits).foldl push 0]
  have there : (pack (front bits) ++ [(back bits).foldl push 0])[bits.length / 8]? =
      some ((back bits).foldl push 0) := by
    rw [← length_pack_front bits, List.getElem?_concat_length]
  obtain ⟨printed', rest⟩ := bitsetLoop_back there (bits.length % 8) (Nat.zero_add _)
  have length := length_back bits
  have begun := map_testBit_foldl_push (l := back bits) (by omega)
  rw [length] at begun
  have all : front bits ++ back bits = bits := List.take_append_drop _ _
  rw [rest, Cpp.ok_bind, begun, all] at read
  exact ⟨_, _, written, read⟩

theorem not_roundTrips {bits : List Bool} (begun : bits.length % 8 ≠ 0)
    (other : bits.length % 8 ≠ 7) :
    ofBitset bits = .ok (pack (front bits)) ∧
      bitset bits.length (pack (front bits)) = .error .pastEnd := by
  have written := ofBitset_eq bits
  rw [if_neg other, List.append_nil] at written
  refine ⟨written, ?_⟩
  obtain ⟨printed, read⟩ := bitset_front bits []
  obtain ⟨left, more⟩ := Nat.exists_eq_succ_of_ne_zero begun
  have outside : (pack (front bits))[bits.length / 8]? = none :=
    List.getElem?_eq_none (length_pack_front bits).le
  rw [List.append_nil, more, Nat.succ_eq_add_one, bitsetLoop, Cpp.index, outside] at read
  exact read

/-- A set comes back from its bytes exactly when its last byte is full or lacks one bit:
only then are there bytes for all of its bits. -/
theorem bitset_roundTrips_iff (bits : List Bool) :
    RoundTrips bits ↔ bits.length % 8 = 0 ∨ bits.length % 8 = 7 := by
  constructor
  · rintro ⟨b, printed, written, read⟩
    by_contra neither
    rw [not_or] at neither
    obtain ⟨written', outside⟩ := not_roundTrips neither.1 neither.2
    obtain rfl := Cpp.ok_unique written written'
    rw [outside] at read
    cases read
  · rintro (whole | seven)
    · obtain ⟨printed, read⟩ := bitset_pack whole
      exact ⟨_, printed, ofBitset_of_whole whole, read⟩
    · exact roundTrips_of_seven seven

theorem bitset_not_roundTrips_one : ¬ RoundTrips [true] := by
  rintro ⟨b, printed, written, read⟩
  obtain ⟨written', outside⟩ := not_roundTrips (show [true].length % 8 ≠ 0 by decide) (by decide)
  obtain rfl := Cpp.ok_unique written written'
  rw [outside] at read
  cases read

end Pttp.Bytes
