import Pttp.Bech32.RoundTrip

/-!
# What the decoder takes

The decoder undoes the case of the letters before it looks at anything else. So what it takes
is what the encoder writes, with the case of all letters changed, up to ninety characters: the
six characters at the end are known from those before them.
-/

namespace Pttp

open XorChecksum

/-! ## The register -/

def generators (b : BitVec 8) : BitVec 32 :=
  generator b 0 0x3b6a57b2#32 ^^^ generator b 1 0x26508e6d#32 ^^^ generator b 2 0x1ea119fa#32 ^^^
    generator b 3 0x3d4233dd#32 ^^^ generator b 4 0x2a1462b3#32

theorem polymodStep_eq (c : BitVec 32) :
    polymodStep c = ((c &&& 0x1FFFFFF#32) <<< 5) ^^^ generators ((c >>> 25).setWidth 8) := by
  unfold polymodStep generators
  ac_rfl

theorem shiftLeft_five_lowBits (c : BitVec 32) : (c <<< 5) &&& 0x1f#32 = 0#32 := by
  have mask : 0x1f#32 = BitVec.ofNat 32 (2 ^ 5 - 1) := by decide
  apply BitVec.eq_of_getLsbD_eq
  intro i inside
  rw [mask, BitVec.getLsbD_and, BitVec.getLsbD_shiftLeft, BitVec.getLsbD_ofNat,
    Nat.testBit_two_pow_sub_one]
  by_cases low : i < 5 <;> simp [low]

theorem generators_kernel : ∀ b : BitVec 8, b < 32#8 →
    generators b &&& 0x1f#32 = 0#32 → b = 0#8 := by
  decide +kernel

/-- The upper five bits can be told from the lower five of the next register. -/
theorem polymodStep_kernel {c : BitVec 32} (bounded : c >>> 30 = 0#32)
    (emptied : polymodStep c = 0#32) : c = 0#32 := by
  have bits : (c >>> 25).toNat < 32 := by
    have high := congrArg BitVec.toNat bounded
    simp only [BitVec.toNat_ushiftRight, Nat.shiftRight_eq_div_pow, BitVec.toNat_ofNat] at high ⊢
    omega
  have upper : (c >>> 25).setWidth 8 = 0#8 := by
    apply generators_kernel
    · rw [BitVec.lt_def, BitVec.toNat_setWidth]
      exact Nat.lt_of_le_of_lt (Nat.mod_le _ _) bits
    · have low := congrArg (· &&& 0x1f#32) emptied
      simpa only [polymodStep_eq, and_xor_distrib, shiftLeft_five_lowBits, BitVec.zero_xor,
        BitVec.zero_and] using low
  have small : c >>> 25 = 0#32 := by
    apply BitVec.eq_of_toNat_eq
    have none := congrArg BitVec.toNat upper
    rw [BitVec.toNat_setWidth, Nat.mod_eq_of_lt (bits.trans (by decide))] at none
    exact none
  rw [polymodStep_of_small small] at emptied
  have back := (shiftLeft_xor_shiftRight (d := 5) (v := 0#32) (by decide) small (by decide)).1
  rw [BitVec.xor_zero, emptied] at back
  exact back.symm

theorem polymodStep_register : Register polymodStep 5 25 where
  linear := polymodStep_linear
  fits := by decide
  shifts _ := polymodStep_of_small
  bounded := polymodStep_small
  kernel _ := polymodStep_kernel

/-! ## Case -/

def lowerCase (c : UInt8) : UInt8 := if isUpper c then c - 65 + 97 else c

theorem lowBits_lowerCase : ∀ c : UInt8, lowBits (lowerCase c) = lowBits c := by
  decide +kernel

theorem printable_lowerCase_iff : ∀ c : UInt8,
    Printable (lowerCase c) ↔ ¬ (c < 33 ∨ 126 < c) := by
  decide +kernel

theorem lowerCase_eq_separator : ∀ c : UInt8, lowerCase c = 49 ↔ c = 49 := by
  decide +kernel

def Coded (c : UInt8) : Prop := c &&& 0x80 = 0 ∧ charsetRev.getD c.toNat 0 ≠ -1

instance decidableCoded (c : UInt8) : Decidable (Coded c) :=
  inferInstanceAs (Decidable (c &&& 0x80 = 0 ∧ charsetRev.getD c.toNat 0 ≠ -1))

theorem value_of_not_coded {c : UInt8} (unknown : ¬ Coded c) :
    (if c &&& 0x80 ≠ 0 then -1 else charsetRev.getD c.toNat 0) = -1 := by
  by_cases ascii : c &&& 0x80 = 0
  · rw [if_neg (not_not.mpr ascii)]
    by_contra known
    exact unknown ⟨ascii, known⟩
  · rw [if_pos ascii]

def charGroup (c : UInt8) : UInt8 := UInt8.ofInt (charsetRev.getD c.toNat 0)

theorem charGroup_coded : ∀ c : UInt8, Coded c →
    charGroup c < 32 ∧ groupChar (charGroup c) = lowerCase c ∧
      BitVec.ofInt 32 (charsetRev.getD c.toNat 0) = ofGroup (charGroup c) := by
  decide +kernel

theorem coded_of_lowerCase : ∀ c : UInt8, Coded (lowerCase c) →
    Coded c ∧ charGroup c = charGroup (lowerCase c) := by
  decide +kernel

theorem coded_groupChar : ∀ v : UInt8, v < 32 →
    Coded (groupChar v) ∧ charGroup (groupChar v) = v := by
  decide +kernel

/-! ## The loops -/

theorem decodeHrp_eq_ite (s : Decoder) (chars : Bytes) :
    decodeHrp s chars = if ∀ c ∈ chars, Printable (lowerCase c) then
      some (⟨feed polymodStep s.chk ((chars.map lowerCase).map highBits),
        s.haveLower || chars.any isLower, s.haveUpper || chars.any isUpper⟩, chars.map lowerCase)
      else none := by
  induction chars generalizing s with
  | nil => simp [decodeHrp]
  | cons c chars ih =>
    rw [decodeHrp]
    by_cases visible : Printable (lowerCase c)
    · rw [if_neg ((printable_lowerCase_iff c).mp visible)]
      simp only [ih, List.forall_mem_cons, visible, true_and]
      split
      · simp [lowerCase, Bool.or_assoc]
      · rfl
    · rw [if_pos (not_not.mp (mt (printable_lowerCase_iff c).mpr visible)), if_neg]
      simp [visible]

theorem decodeData_eq_ite (s : Decoder) (chars : Bytes) :
    decodeData s chars = if ∀ c ∈ chars, Coded c then
      some (⟨feed polymodStep s.chk ((chars.map charGroup).map ofGroup),
        s.haveLower || chars.any isLower, s.haveUpper || chars.any isUpper⟩, chars.map charGroup)
      else none := by
  induction chars generalizing s with
  | nil => simp [decodeData]
  | cons c chars ih =>
    rw [decodeData]
    by_cases coded : Coded c
    · obtain ⟨-, -, taken⟩ := charGroup_coded c coded
      simp only [coded.1, ne_eq, not_true_eq_false, if_false, if_neg coded.2, taken, ih,
        List.forall_mem_cons, coded, true_and]
      split
      · simp [charGroup, Bool.or_assoc]
      · rfl
    · simp only [value_of_not_coded coded, if_true]
      rw [if_neg]
      simp [coded]

/-! ## The decoder -/

/-- What is read of the characters before the last separator and those behind it. -/
structure Taken (front back : Bytes) : Prop where
  named : front ≠ []
  checked : 6 ≤ back.length
  short : front.length + back.length + 1 ≤ 90
  printable : ∀ c ∈ front, Printable (lowerCase c)
  coded : ∀ c ∈ back, Coded c
  oneCase : ¬ ((front ++ back).any isLower ∧ (front ++ back).any isUpper)
  closed : feed polymodStep (hrpChecksum (front.map lowerCase))
    ((back.map charGroup).map ofGroup) = 1#32

theorem bech32Decode_split {front back : Bytes} (last : 49 ∉ back) (read : Bytes × Bytes) :
    bech32Decode (front ++ 49 :: back) = some read ↔ Taken front back ∧
      read = (front.map lowerCase, (back.map charGroup).take (back.length - 6)) := by
  have length : (front ++ 49 :: back).length = front.length + back.length + 1 := by
    rw [List.length_append, List.length_cons, Nat.add_assoc]
  have dataLen : ((front ++ 49 :: back).reverse.takeWhile (· ≠ 49)).length = back.length := by
    rw [List.reverse_append, List.reverse_cons, List.append_assoc, List.singleton_append,
      Bytes.takeWhile_ne_append, List.length_reverse]
    intro c member
    rintro rfl
    exact last (List.mem_reverse.mp member)
  have hrpLen : front.length + back.length + 1 - (1 + back.length) = front.length := by omega
  have behind : (front ++ 49 :: back).drop (front.length + 1) = back := by simp
  have lower : front.map lowBits = (front.map lowerCase).map lowBits := by
    rw [List.map_map]
    exact List.map_congr_left fun c _ => (lowBits_lowerCase c).symm
  unfold bech32Decode
  simp only [dataLen, length, hrpLen, List.take_left, behind, lower, decodeHrp_eq_ite,
    decodeData_eq_ite]
  constructor
  · intro decoded
    split at decoded
    case isTrue => cases decoded
    split at decoded
    case isTrue => cases decoded
    split at decoded
    case isTrue => cases decoded
    split at decoded
    case isFalse => cases decoded
    rename_i sized separated parts printable
    simp only [Option.bind_eq_bind, Option.bind_some] at decoded
    split at decoded
    case isFalse => cases decoded
    rename_i coded
    simp only [Option.bind_some, Bool.false_or] at decoded
    split at decoded
    case isTrue => cases decoded
    split at decoded
    case isFalse => cases decoded
    rename_i oneCase closed
    refine ⟨⟨?_, by omega, by omega, printable, coded, ?_, closed⟩, (Option.some.inj decoded).symm⟩
    · exact List.ne_nil_of_length_pos (by omega)
    · simpa only [List.any_append, Bool.and_eq_true] using oneCase
  · rintro ⟨taken, rfl⟩
    have named := List.length_pos_iff.mpr taken.named
    have checked := taken.checked
    have short := taken.short
    have oneCase := taken.oneCase
    rw [List.any_append, List.any_append, ← Bool.and_eq_true] at oneCase
    rw [if_neg (by omega), if_neg (by omega), if_neg (by omega), if_pos taken.printable]
    simp only [Option.bind_eq_bind, Option.bind_some, if_pos taken.coded, Bool.false_or]
    rw [if_neg oneCase]
    exact if_pos taken.closed

theorem bech32Decode_of_notMem {input : Bytes} (none : 49 ∉ input) :
    bech32Decode input = Option.none := by
  have whole : (input.reverse.takeWhile (· ≠ 49)).length = input.length := by
    rw [List.takeWhile_eq_self_iff.mpr, List.length_reverse]
    intro c member
    apply decide_eq_true
    rintro rfl
    exact none (List.mem_reverse.mp member)
  unfold bech32Decode
  simp only [whole, if_true, ite_self]

theorem exists_last_separator {input : Bytes} (separated : 49 ∈ input) :
    ∃ front back, input = front ++ 49 :: back ∧ 49 ∉ back := by
  obtain ⟨back, front, split, first⟩ :=
    List.eq_append_cons_of_mem (List.mem_reverse.mpr separated)
  refine ⟨front.reverse, back.reverse, ?_, mt List.mem_reverse.mp first⟩
  rw [← List.reverse_reverse input, split]
  simp

theorem ofGroup_small : ∀ v : UInt8, v < 32 → ofGroup v >>> 5 = 0#32 := by
  decide +kernel

theorem ofGroup_injective : Function.Injective ofGroup := by
  intro v v' same
  apply UInt8.toNat.inj
  have value := congrArg BitVec.toNat same
  unfold ofGroup at value
  simpa using value

theorem forall_mem_map_ofGroup {groups : Bytes} (small : ∀ v ∈ groups, v < 32) :
    ∀ v ∈ groups.map ofGroup, v >>> 5 = 0#32 := by
  intro v member
  obtain ⟨v, within, rfl⟩ := List.mem_map.mp member
  exact ofGroup_small v (small v within)

theorem textGroups_of_closed {hrp groups : Bytes} (checked : 6 ≤ groups.length)
    (small : ∀ v ∈ groups, v < 32)
    (closed : feed polymodStep (hrpChecksum hrp) (groups.map ofGroup) = 1#32) :
    groups = textGroups hrp (groups.take (groups.length - 6)) := by
  obtain ⟨data, check, rfl, six⟩ : ∃ data check, groups = data ++ check ∧ check.length = 6 :=
    ⟨groups.take (groups.length - 6), groups.drop (groups.length - 6),
      (List.take_append_drop _ _).symm, by rw [List.length_drop]; omega⟩
  have given : (data ++ check).take ((data ++ check).length - 6) = data := by
    rw [List.length_append, six, Nat.add_sub_cancel, List.take_left]
  rw [given]
  unfold textGroups
  congr 1
  apply List.map_injective_iff.mpr ofGroup_injective
  rw [List.forall_mem_append] at small
  have appended := feed_textGroups hrp data
  unfold textGroups at appended
  rw [List.map_append, feed_append] at closed appended
  apply polymodStep_register.feed_injective (s := dataChecksum hrp data)
  · simp [six]
  · simp [six]
  · exact forall_mem_map_ofGroup small.2
  · exact forall_mem_map_ofGroup fun v => lt_of_mem_checksumGroups
  · exact closed.trans appended.symm

theorem coded_of_spelled {back groups : Bytes} (small : ∀ v ∈ groups, v < 32)
    (spelled : back.map lowerCase = groups.map groupChar) :
    49 ∉ back ∧ (∀ c ∈ back, Coded c) ∧ back.map charGroup = groups := by
  have group : ∀ c ∈ back, ∃ v, v < 32 ∧ groupChar v = lowerCase c := by
    intro c member
    have within := List.mem_map_of_mem (f := lowerCase) member
    rw [spelled] at within
    obtain ⟨v, inside, equal⟩ := List.mem_map.mp within
    exact ⟨v, small v inside, equal⟩
  have coded : ∀ c ∈ back, Coded c ∧ charGroup c = charGroup (lowerCase c) := by
    intro c member
    obtain ⟨v, below, equal⟩ := group c member
    apply coded_of_lowerCase
    rw [← equal]
    exact (coded_groupChar v below).1
  refine ⟨fun separator => ?_, fun c member => (coded c member).1, ?_⟩
  · obtain ⟨v, below, equal⟩ := group 49 separator
    exact (groupChar_ne v below).2 equal
  · calc back.map charGroup
        = (back.map lowerCase).map charGroup := by
          rw [List.map_map]
          exact List.map_congr_left fun c member => (coded c member).2
      _ = groups.map (charGroup ∘ groupChar) := by rw [spelled, List.map_map]
      _ = groups := by
          conv_rhs => rw [← List.map_id groups]
          exact List.map_congr_left fun v member => (coded_groupChar v (small v member)).2

/-- In lower case the input is what the encoder writes for a prefix and groups; it has at most
ninety characters and was in one case. -/
structure Readable (input hrp data : Bytes) : Prop where
  named : hrp ≠ []
  printable : ∀ c ∈ hrp, Printable c
  small : ∀ v ∈ data, v < 32
  short : hrp.length + data.length + 7 ≤ 90
  spelled : input.map lowerCase = text hrp data
  oneCase : ¬ (input.any isLower ∧ input.any isUpper)

theorem any_letter (front back : Bytes) {letter : UInt8 → Bool} (separator : letter 49 = false) :
    (front ++ 49 :: back).any letter = (front ++ back).any letter := by
  simp [separator]

theorem readable_of_bech32Decode {input hrp data : Bytes}
    (decoded : bech32Decode input = some (hrp, data)) : Readable input hrp data := by
  by_cases separated : 49 ∈ input
  case neg =>
    rw [bech32Decode_of_notMem separated] at decoded
    cases decoded
  obtain ⟨front, back, rfl, last⟩ := exists_last_separator separated
  obtain ⟨taken, equal⟩ := (bech32Decode_split last _).mp decoded
  obtain ⟨rfl, rfl⟩ := Prod.mk.inj equal
  have small : ∀ v ∈ back.map charGroup, v < 32 := by
    intro v member
    obtain ⟨c, within, rfl⟩ := List.mem_map.mp member
    exact (charGroup_coded c (taken.coded c within)).1
  have spelled : (back.map charGroup).map groupChar = back.map lowerCase := by
    rw [List.map_map]
    exact List.map_congr_left fun c member => (charGroup_coded c (taken.coded c member)).2.1
  have checked := taken.checked
  have short := taken.short
  have groups := textGroups_of_closed (by simpa using checked) small taken.closed
  rw [List.length_map] at groups
  constructor
  case named => simpa using taken.named
  case printable =>
    intro c member
    obtain ⟨c, within, rfl⟩ := List.mem_map.mp member
    exact taken.printable c within
  case small => exact fun v member => small v (List.mem_of_mem_take member)
  case short =>
    rw [List.length_map, List.length_take, List.length_map]
    omega
  case spelled =>
    unfold text
    rw [← groups, spelled, List.map_append, List.map_cons, List.append_assoc]
    rfl
  case oneCase =>
    rw [any_letter front back rfl, any_letter front back rfl]
    exact taken.oneCase

theorem bech32Decode_of_readable {input hrp data : Bytes} (readable : Readable input hrp data) :
    bech32Decode input = some (hrp, data) := by
  obtain ⟨named, printable, small, short, lowered, oneCase⟩ := readable
  unfold text at lowered
  rw [List.append_assoc] at lowered
  obtain ⟨front, rest, rfl, rfl, lowered⟩ := List.map_eq_append_iff.mp lowered
  obtain ⟨separator, back, rfl, separated, spelled⟩ := List.map_eq_cons_iff.mp lowered
  obtain rfl := (lowerCase_eq_separator separator).mp separated
  obtain ⟨last, coded, groups⟩ := coded_of_spelled (lt_of_mem_textGroups small) spelled
  have length : back.length = data.length + 6 := by
    rw [← List.length_map charGroup, groups, textGroups, List.length_append,
      length_checksumGroups]
  rw [any_letter front back rfl, any_letter front back rfl] at oneCase
  rw [List.length_map] at short
  apply (bech32Decode_split last _).mpr
  refine ⟨⟨by simpa using named, by omega, by omega, ?_, coded, oneCase, ?_⟩, ?_⟩
  · exact fun c member => printable _ (List.mem_map_of_mem member)
  · rw [groups]
    exact feed_textGroups _ data
  · rw [groups, length, Nat.add_sub_cancel, textGroups, List.take_left]

/-- A text is read as a prefix and groups exactly when, in lower case, it is what the encoder
writes for them, has at most ninety characters, and was in one case. -/
theorem bech32Decode_eq_some_iff (input hrp data : Bytes) :
    bech32Decode input = some (hrp, data) ↔ Readable input hrp data :=
  ⟨readable_of_bech32Decode, bech32Decode_of_readable⟩

end Pttp
