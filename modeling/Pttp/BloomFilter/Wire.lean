import Pttp.BloomFilter
import Pttp.Lib.BitPacking

/-!
# The wire form of a filter

`bytes` packs the bits, the most significant first, and at its end moves the last
byte up by the bits it lacks. With no bit begun that shift is a whole byte: a
filter whose size is a multiple of eight goes out with its last eight bits off.
-/

namespace Pttp.Bloom

open BitPacking

/-- The counters of both loops: a byte and the bits begun in it. -/
def advance (i n : Nat) : Nat × Nat := if n + 1 = 8 then (i + 1, 0) else (i, n + 1)

/-- The loop of `Bloom::bytes`: the buffer and the bits begun in its last byte. -/
def packLoop : List Bool → Nat → Nat → Bytes → Cpp (Bytes × Nat)
  | [], _, n, b => .ok (b, n)
  | bit :: rest, i, n, b => do
      let byte ← Cpp.index b i
      packLoop rest (advance i n).1 (advance i n).2 (b.set i (push byte bit))

/-- `Bloom::bytes`. The sum wraps near the end of `int`, and the negative size it
gives is refused; the last byte is shifted as an `int`. -/
def bytes (f : Bloom) : Cpp Bytes := do
  let buffer ← Bytes.ofInt ((f.P + 7) / 8).toInt
  let (b, n) ← packLoop f.hits 0 0 buffer
  let last ← Cpp.index b (b.length - 1)
  return b.set (b.length - 1) (UInt8.ofNat (last.toNat <<< (8 - n)))

def unpackLoop (data : Bytes) : Nat → Nat → Nat → Cpp (List Bool)
  | 0, _, _ => .ok []
  | left + 1, idx, n => do
      let byte ← Cpp.index data idx
      let rest ← unpackLoop data left (advance idx n).1 (advance idx n).2
      return (byte.toNat &&& 1 <<< (7 - n) != 0) :: rest

/-- More bits than `int i` can count take the loop out of the array, if not out
of the data. -/
def readBits (data : Bytes) (bits : Nat) : Cpp (List Bool) :=
  if 2 ^ 31 < bits then .error .pastEnd else unpackLoop data bits 0 0

/-- `Bloom::Bloom(Bytes data, uint64_t p, ShortHashKey key_)`. -/
def ofWire (data : Bytes) (p : UInt64) (key : Bytes) : Cpp Bloom := do
  let hits ← vectorBool p
  let hits ← readBits data hits.length
  return ⟨Int32.ofNat p.toNat, hits, key, 0⟩

theorem advance_eq {i n : Nat} (begun : n < 8) :
    (advance i n).2 < 8 ∧ 8 * (advance i n).1 + (advance i n).2 = 8 * i + n + 1 := by
  unfold advance
  split
  case isTrue full => exact ⟨Nat.zero_lt_succ 7, by simp only; omega⟩
  case isFalse open' => exact ⟨by simp only; omega, by simp only; omega⟩

/-! ## Reading -/

theorem and_shiftLeft_ne_zero (x i : Nat) : (x &&& 1 <<< i != 0) = x.testBit i := by
  rw [Nat.one_shiftLeft, Nat.and_two_pow]
  cases x.testBit i <;> simp

theorem unpackLoop_eq (data : Bytes) (left : Nat) {idx n : Nat} (begun : n < 8)
    (there : 8 * idx + n + left ≤ 8 * data.length) :
    unpackLoop data left idx n = .ok (((unpack data).drop (8 * idx + n)).take left) := by
  induction left generalizing n idx with
  | zero => rfl
  | succ left ih =>
    have inside : idx < data.length := by omega
    obtain ⟨begun', same⟩ := advance_eq (i := idx) begun
    have next : unpackLoop data left (advance idx n).1 (advance idx n).2 = _ :=
      ih begun' (by omega)
    rw [unpackLoop, Cpp.index_of_lt inside, Cpp.ok_bind, next, Cpp.ok_bind, same,
      drop_unpack inside begun, and_shiftLeft_ne_zero]
    rfl

theorem unpackLoop_pastEnd (data : Bytes) (left : Nat) {idx n : Nat} (begun : n < 8)
    (within : 8 * idx + n ≤ 8 * data.length) (short : 8 * data.length < 8 * idx + n + left) :
    unpackLoop data left idx n = .error .pastEnd := by
  induction left generalizing n idx with
  | zero => omega
  | succ left ih =>
    obtain ⟨begun', same⟩ := advance_eq (i := idx) begun
    rcases Nat.lt_or_ge idx data.length with inside | outside
    · rw [unpackLoop, Cpp.index_of_lt inside, Cpp.ok_bind, ih begun' (by omega) (by omega)]
      rfl
    · rw [unpackLoop, Cpp.index, List.getElem?_eq_none outside]
      rfl

theorem ofWire_eq {data : Bytes} {p : Int32} {places : Nat} (sized : p.toInt = places)
    (there : places ≤ 8 * data.length) (key : Bytes) :
    ofWire data (UInt64.ofInt p.toInt) key = .ok ⟨p, (unpack data).take places, key, 0⟩ := by
  have short := lt_of_toInt_eq sized
  have read : unpackLoop data places 0 0 = .ok ((unpack data).take places) :=
    unpackLoop_eq data places (by decide) (by omega)
  unfold ofWire readBits
  rw [vectorBool_ofInt sized, Cpp.ok_bind, List.length_replicate, if_neg (by omega), read,
    Cpp.ok_bind, ofNat_ofInt sized]
  rfl

/-! ## Writing -/

theorem packLoop_append (chunk : List Bool) {i n : Nat} {b : Bytes} {byte : UInt8}
    (rest : List Bool) (here : b[i]? = some byte) (fits : n + chunk.length < 8) :
    packLoop (chunk ++ rest) i n b =
      packLoop rest i (n + chunk.length) (b.set i (chunk.foldl push byte)) := by
  obtain ⟨inside, eq⟩ := List.getElem?_eq_some_iff.mp here
  induction chunk generalizing n b byte with
  | nil =>
    subst eq
    rw [List.foldl_nil, List.set_getElem_self]
    rfl
  | cons bit chunk ih =>
    rw [List.length_cons] at fits
    have stays : advance i n = (i, n + 1) := if_neg (by omega)
    have inside' : i < (b.set i (push byte bit)).length := by simpa using inside
    have next := ih (n := n + 1) (List.getElem?_set_self inside) (by omega) inside' (by simp)
    rw [List.cons_append, packLoop, Cpp.index_of_lt inside, Cpp.ok_bind, stays, eq, next,
      List.set_set, List.length_cons, List.foldl_cons]
    congr 1
    omega

theorem packLoop_append_byte {chunk : List Bool} {i : Nat} {b : Bytes} {byte : UInt8}
    (rest : List Bool) (here : b[i]? = some byte) (full : chunk.length = 8) :
    packLoop (chunk ++ rest) i 0 b =
      packLoop rest (i + 1) 0 (b.set i (chunk.foldl push byte)) := by
  rcases chunk.eq_nil_or_concat' with rfl | ⟨init, bit, rfl⟩
  · simp at full
  · rw [List.length_append, List.length_singleton] at full
    obtain ⟨inside, -⟩ := List.getElem?_eq_some_iff.mp here
    have inside' : i < (b.set i (init.foldl push byte)).length := by simpa using inside
    have ends : advance i (0 + init.length) = (i + 1, 0) := if_pos (by omega)
    rw [List.append_assoc, packLoop_append init _ here (by omega), List.singleton_append, packLoop,
      Cpp.index_of_lt inside', Cpp.ok_bind, ends, List.getElem_set_self, List.set_set,
      List.foldl_append]
    rfl

theorem packLoop_whole {l : List Bool} (rest : List Bool) (done : Bytes) (room : Nat)
    (whole : l.length % 8 = 0) (fits : l.length / 8 ≤ room) :
    packLoop (l ++ rest) done.length 0 (done ++ List.replicate room 0) =
      packLoop rest (done.length + l.length / 8) 0
        (done ++ pack l ++ List.replicate (room - l.length / 8) 0) := by
  fun_induction pack l generalizing done room with
  | case1 => simp
  | case2 l nonempty ih =>
    have long : 8 ≤ l.length := by
      have := List.length_pos_iff.mpr nonempty
      omega
    obtain ⟨room, rfl⟩ : ∃ left, room = left + 1 := ⟨room - 1, by omega⟩
    have full : (l.take 8).length = 8 := List.length_take_of_le long
    have here : (done ++ List.replicate (room + 1) (0 : UInt8))[done.length]? = some 0 := by
      simp
    have filled : (done ++ List.replicate (room + 1) (0 : UInt8)).set done.length
        ((l.take 8).foldl push 0) =
        (done ++ [byte (l.take 8)]) ++ List.replicate room 0 := by
      rw [byte_of_length_eq full, List.set_append_right _ _ le_rfl, Nat.sub_self,
        List.replicate_succ, List.set_cons_zero, List.append_assoc]
      rfl
    have length : (l.drop 8).length = l.length - 8 := List.length_drop
    have next := ih (done ++ [byte (l.take 8)]) room (by omega) (by omega)
    rw [List.length_append, List.length_singleton] at next
    conv_lhs => rw [← List.take_append_drop 8 l]
    rw [List.append_assoc, packLoop_append_byte _ here full, filled, next, length]
    congr 1
    · omega
    · have room' : room - (l.length - 8) / 8 = room + 1 - l.length / 8 := by omega
      rw [room', List.append_assoc, List.append_assoc, List.append_assoc]
      rfl

/-- The bits that go out: the last eight are lost when they fill a byte. -/
def sentBits (l : List Bool) : List Bool :=
  if l.length % 8 = 0 then l.take (l.length - 8) ++ List.replicate 8 false else l

theorem length_sentBits {l : List Bool} (nonempty : l ≠ []) :
    (sentBits l).length = l.length := by
  have := List.length_pos_iff.mpr nonempty
  unfold sentBits
  split
  · rw [List.length_append, List.length_take, List.length_replicate]
    omega
  · rfl

theorem toInt_size (p : Int32) : ((p + 7) / 8).toInt = ((p.toInt + 7).bmod (2 ^ 32)).tdiv 8 := by
  rw [Int32.toInt_div_of_ne_right _ _ (by decide), Int32.toInt_add]
  rfl

theorem toInt_size_of_le {p : Int32} {places : Nat} (sized : p.toInt = places)
    (small : places ≤ 2 ^ 31 - 8) : ((p + 7) / 8).toInt = ((places + 7) / 8 : Nat) := by
  have sum : (p.toInt + 7).bmod (2 ^ 32) = ((places + 7 : Nat) : Int) := by
    rw [Int.bmod_eq_of_le (by omega) (by omega)]
    omega
  rw [toInt_size, sum]
  exact Int.ofNat_tdiv _ _

theorem toInt_size_of_lt {p : Int32} {places : Nat} (sized : p.toInt = places)
    (large : 2 ^ 31 - 8 < places) : ((p + 7) / 8).toInt < 0 := by
  have bound := p.toInt_lt
  have sum : (p.toInt + 7).bmod (2 ^ 32) = -(2 ^ 32 - places - 7 : Nat) := by
    rw [Int.bmod_def]
    omega
  rw [toInt_size, sum, Int.neg_tdiv]
  have quotient : ((2 ^ 32 - places - 7 : Nat) : Int).tdiv 8 =
      ((2 ^ 32 - places - 7) / 8 : Nat) := Int.ofNat_tdiv _ _
  omega

theorem shiftLeft_byte (x : UInt8) : UInt8.ofNat (x.toNat <<< 8) = 0 := by
  apply UInt8.toNat.inj
  rw [UInt8.toNat_ofNat', Nat.shiftLeft_eq]
  exact Nat.mul_mod_left _ _

theorem packLoop_eq (l : List Bool) :
    packLoop l 0 0 (List.replicate ((l.length + 7) / 8) 0) =
      .ok (if l.length % 8 = 0 then pack l
        else pack (l.take (8 * (l.length / 8))) ++
          [(l.drop (8 * (l.length / 8))).foldl push 0], l.length % 8) := by
  set whole := l.take (8 * (l.length / 8)) with wholeDef
  set tail := l.drop (8 * (l.length / 8)) with tailDef
  have split : whole ++ tail = l := List.take_append_drop _ _
  have wholeLength : whole.length = 8 * (l.length / 8) := List.length_take_of_le (by omega)
  have tailLength : tail.length = l.length % 8 := by
    rw [tailDef, List.length_drop]
    omega
  have run := packLoop_whole tail [] ((l.length + 7) / 8)
    (show whole.length % 8 = 0 by omega) (by omega)
  rw [split, List.length_nil, List.nil_append, List.nil_append, Nat.zero_add,
    show whole.length / 8 = l.length / 8 by omega] at run
  rw [run]
  by_cases full : l.length % 8 = 0
  · have nothing : tail = [] := List.length_eq_zero_iff.mp (by omega)
    have all : whole = l := by rw [← split, nothing, List.append_nil]
    have room : (l.length + 7) / 8 - l.length / 8 = 0 := by omega
    rw [nothing, room, all, if_pos full, full, List.replicate_zero, List.append_nil]
    rfl
  · have room : (l.length + 7) / 8 - l.length / 8 = 1 := by omega
    have atEnd : (pack whole).length = l.length / 8 := by
      rw [length_pack]
      omega
    have here : (pack whole ++ List.replicate 1 (0 : UInt8))[l.length / 8]? = some 0 := by
      rw [← atEnd]
      simp
    have last := packLoop_append tail (n := 0) [] here (by omega)
    rw [List.append_nil] at last
    rw [room, if_neg full, last, packLoop, Nat.zero_add, tailLength, List.set_append_right _ _
      atEnd.le, atEnd, Nat.sub_self]
    rfl

theorem index_snoc (front : Bytes) (x : UInt8) :
    Cpp.index (front ++ [x]) ((front ++ [x]).length - 1) = .ok x := by
  rw [List.length_append, List.length_singleton, Nat.add_sub_cancel, Cpp.index_of_lt (by simp)]
  simp

theorem set_snoc (front : Bytes) (x y : UInt8) :
    (front ++ [x]).set ((front ++ [x]).length - 1) y = front ++ [y] := by
  rw [List.length_append, List.length_singleton, Nat.add_sub_cancel,
    List.set_append_right _ _ le_rfl, Nat.sub_self, List.set_cons_zero]

theorem bytes_eq {f : Bloom} (sized : f.P.toInt = f.hits.length) (nonempty : f.hits ≠ [])
    (small : f.hits.length ≤ 2 ^ 31 - 8) : f.bytes = .ok (pack (sentBits f.hits)) := by
  have positive := List.length_pos_iff.mpr nonempty
  unfold bytes sentBits
  rw [toInt_size_of_le sized small, Bytes.ofInt_natCast, Cpp.ok_bind, packLoop_eq, Cpp.ok_bind]
  generalize f.hits = l at positive
  by_cases full : l.length % 8 = 0
  · have init : (l.take (l.length - 8)).length % 8 = 0 := by
      rw [List.length_take]
      omega
    have last : (l.drop (l.length - 8)).length = 8 := by
      rw [List.length_drop]
      omega
    have split : pack l = pack (l.take (l.length - 8)) ++ [byte (l.drop (l.length - 8))] := by
      rw [← pack_append_byte init (List.length_pos_iff.mp (by omega)) last.le,
        List.take_append_drop]
    have zeros : pack (l.take (l.length - 8) ++ List.replicate 8 false) =
        pack (l.take (l.length - 8)) ++ [0] :=
      pack_append_byte init (by decide) (by decide)
    simp only [full, if_true, split, index_snoc, set_snoc, Cpp.ok_bind, Nat.sub_zero,
      shiftLeft_byte, zeros]
    rfl
  · have init : (l.take (8 * (l.length / 8))).length % 8 = 0 := by
      rw [List.length_take]
      omega
    have last : (l.drop (8 * (l.length / 8))).length = l.length % 8 := by
      rw [List.length_drop]
      omega
    have split : pack l = pack (l.take (8 * (l.length / 8))) ++
        [byte (l.drop (8 * (l.length / 8)))] := by
      rw [← pack_append_byte init (List.length_pos_iff.mp (by omega)) (by omega),
        List.take_append_drop]
    have moved := byte_eq_shiftLeft (l := l.drop (8 * (l.length / 8))) (by omega)
    rw [last] at moved
    simp only [if_neg full, index_snoc, set_snoc, Cpp.ok_bind, split, moved]
    rfl

theorem bytes_of_lt {f : Bloom} (sized : f.P.toInt = f.hits.length)
    (large : 2 ^ 31 - 8 < f.hits.length) : f.bytes = .error .thrown := by
  have negative := toInt_size_of_lt sized large
  unfold bytes Bytes.ofInt
  rw [if_pos negative]
  rfl

/-! ## There and back -/

/-- `Bloom(f.bytes(), f.P, f.key)` has the size and the bits of `f`, and answers
as `f` does. -/
def RoundTrips (f : Bloom) : Prop :=
  ∃ data g, f.bytes = .ok data ∧ ofWire data (UInt64.ofInt f.P.toInt) f.key = .ok g ∧
    g.P = f.P ∧ (∀ i : Nat, g.hits[i]? = f.hits[i]?) ∧ ∀ (S : ShortHash) (x : Bytes),
      g.has S x = f.has S x

theorem has_congr {f g : Bloom} (sameP : g.P = f.P) (sameHits : g.hits = f.hits)
    (sameKey : g.key = f.key) (S : ShortHash) (x : Bytes) : g.has S x = f.has S x := by
  unfold has hash
  rw [sameP, sameHits, sameKey]

theorem ofWire_bytes {f : Bloom} (sized : f.P.toInt = f.hits.length) (nonempty : f.hits ≠ [])
    (small : f.hits.length ≤ 2 ^ 31 - 8) :
    ∃ data, f.bytes = .ok data ∧ ofWire data (UInt64.ofInt f.P.toInt) f.key =
      .ok ⟨f.P, sentBits f.hits, f.key, 0⟩ := by
  refine ⟨_, bytes_eq sized nonempty small, ?_⟩
  have length := length_sentBits nonempty
  have there : f.hits.length ≤ 8 * (pack (sentBits f.hits)).length := by
    rw [length_pack, length]
    omega
  have read : (unpack (pack (sentBits f.hits))).take f.hits.length = sentBits f.hits := by
    rw [← length, take_unpack_pack]
  rw [ofWire_eq sized there, read]

theorem sentBits_eq_self_iff {l : List Bool} (nonempty : l ≠ []) :
    sentBits l = l ↔ (l.length % 8 = 0 → ∀ i : Nat, l.length - 8 ≤ i → l[i]? ≠ some true) := by
  have positive := List.length_pos_iff.mpr nonempty
  unfold sentBits
  by_cases full : l.length % 8 = 0
  · have front : (l.take (l.length - 8)).length = l.length - 8 :=
      List.length_take_of_le (Nat.sub_le _ _)
    simp only [full, if_true, true_implies]
    constructor
    · intro same i late on
      rw [← same, List.getElem?_append_right (by omega), List.getElem?_replicate] at on
      split at on <;> simp at on
    · intro off
      have zeros : l.drop (l.length - 8) = List.replicate 8 false := by
        rw [List.eq_replicate_iff, List.length_drop]
        refine ⟨by omega, ?_⟩
        intro bit member
        obtain ⟨i, inside, rfl⟩ := List.mem_iff_getElem.mp member
        have late := off (l.length - 8 + i) (by omega)
        rw [← List.getElem?_drop, List.getElem?_eq_getElem inside] at late
        simpa using late
      rw [← zeros, List.take_append_drop]
  · simp [full]

theorem roundTrips_iff_sentBits {f : Bloom} (sized : f.P.toInt = f.hits.length)
    (nonempty : f.hits ≠ []) :
    RoundTrips f ↔ f.hits.length ≤ 2 ^ 31 - 8 ∧ sentBits f.hits = f.hits := by
  constructor
  · rintro ⟨data, g, sent, rebuilt, -, same, -⟩
    have small : f.hits.length ≤ 2 ^ 31 - 8 := by
      by_contra large
      rw [bytes_of_lt sized (by omega)] at sent
      cases sent
    obtain ⟨data', sent', rebuilt'⟩ := ofWire_bytes sized nonempty small
    obtain rfl := Cpp.ok_unique sent sent'
    obtain rfl := Cpp.ok_unique rebuilt rebuilt'
    exact ⟨small, List.ext_getElem? same⟩
  · rintro ⟨small, same⟩
    obtain ⟨data, sent, rebuilt⟩ := ofWire_bytes sized nonempty small
    refine ⟨data, _, sent, rebuilt, rfl, ?_, ?_⟩
    · intro i
      exact congrArg (fun bits : List Bool => bits[i]?) same
    · exact has_congr rfl same rfl

theorem ne_nil_of_size {f : Bloom} (sized : f.P.toInt = f.hits.length) (size : 1 ≤ f.P.toInt) :
    f.hits ≠ [] := by
  apply List.length_pos_iff.mp
  omega

/-- A filter survives the wire when the size of its buffer is an `int` and its
last eight bits, if they fill a byte, are off. -/
theorem roundTrips_iff {f : Bloom} (sized : f.P.toInt = f.hits.length) (size : 1 ≤ f.P.toInt) :
    RoundTrips f ↔ f.P.toInt ≤ 2 ^ 31 - 8 ∧
      (f.P.toInt % 8 = 0 → ∀ i : Nat, f.P.toInt - 8 ≤ i → f.hits[i]? ≠ some true) := by
  rw [roundTrips_iff_sentBits sized (ne_nil_of_size sized size),
    sentBits_eq_self_iff (ne_nil_of_size sized size), sized]
  have bound : (f.hits.length : Int) ≤ 2 ^ 31 - 8 ↔ f.hits.length ≤ 2 ^ 31 - 8 := by omega
  have whole : (f.hits.length : Int) % 8 = 0 ↔ f.hits.length % 8 = 0 := by omega
  have late : ∀ i : Nat, (f.hits.length : Int) - 8 ≤ i ↔ f.hits.length - 8 ≤ i := by omega
  simp only [bound, whole, late]

theorem roundTrips_nine :
    RoundTrips ⟨9, List.replicate 9 true, List.replicate 16 0, 9⟩ :=
  (roundTrips_iff (by decide) (by decide)).mpr ⟨by decide, fun whole => absurd whole (by decide)⟩

theorem not_roundTrips_eight :
    ¬ RoundTrips ⟨8, List.replicate 7 false ++ [true], List.replicate 16 0, 1⟩ := by
  rw [roundTrips_iff_sentBits (by decide) (by decide)]
  decide

/-- Where the last byte is begun only, a filter stands for the same on both sides. -/
theorem Represents.wire {S : ShortHash} {f : Bloom} {T : Set Bytes}
    (represents : Represents S f T) (begun : f.hits.length % 8 ≠ 0)
    (small : f.hits.length ≤ 2 ^ 31 - 8) :
    ∃ data g, f.bytes = .ok data ∧ ofWire data (UInt64.ofInt f.P.toInt) f.key = .ok g ∧
      g.P = f.P ∧ g.key = f.key ∧ Represents S g T := by
  have nonempty : f.hits ≠ [] := List.length_pos_iff.mp represents.positive
  obtain ⟨data, sent, rebuilt⟩ := ofWire_bytes represents.sized nonempty small
  have same : sentBits f.hits = f.hits := if_neg begun
  rw [same] at rebuilt
  refine ⟨data, _, sent, rebuilt, rfl, rfl, ?_⟩
  exact ⟨⟨represents.keyed, represents.sized, represents.positive⟩, represents.on_iff⟩

/-! ## The filters the program makes -/

variable (S : ShortHash)

def ofSet (key : Bytes) (elements : List Bytes) : Cpp Bloom := do
  let bloom ← ofInt 4999 key
  bloom.setAll S elements

variable {S}

theorem ofSet_eq {key : Bytes} (keyed : 16 ≤ key.length) (elements : List Bytes) :
    ∃ f, ofSet S key elements = .ok f ∧ f.P = 4999 ∧ f.key = key ∧
      Represents S f {b | b ∈ elements} := by
  have sized : (4999 : Int32).toInt = (4999 : Nat) := rfl
  obtain ⟨made, fresh⟩ := represents_ofInt (S := S) sized (by decide) keyed
  obtain ⟨f, filled, sameP, sameKey, represents⟩ := fresh.setAll elements
  refine ⟨f, ?_, sameP, sameKey, ?_⟩
  · rw [ofSet, made]
    exact filled
  · rwa [Set.empty_union] at represents

theorem ofWire_ofSet {key : Bytes} (keyed : 16 ≤ key.length) (elements : List Bytes) :
    ∃ f data g, ofSet S key elements = .ok f ∧ f.P = 4999 ∧ f.key = key ∧ f.bytes = .ok data ∧
      ofWire data 4999 key = .ok g ∧ g.P = 4999 ∧ g.key = key ∧
      Represents S g {b | b ∈ elements} := by
  obtain ⟨f, filled, sameP, sameKey, represents⟩ := ofSet_eq (S := S) keyed elements
  have length : f.hits.length = 4999 := by
    have sized := represents.sized
    rw [sameP] at sized
    have value : (4999 : Int32).toInt = 4999 := rfl
    omega
  obtain ⟨data, g, sent, rebuilt, sameP', sameKey', represents'⟩ :=
    represents.wire (by omega) (by omega)
  rw [sameP, sameKey] at rebuilt
  exact ⟨f, data, g, filled, sameP, sameKey, sent, rebuilt, sameP'.trans sameP,
    sameKey'.trans sameKey, represents'⟩

end Pttp.Bloom
