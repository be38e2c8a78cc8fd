import Pttp.Bech32.Regroup

/-!
# bech32 text read back

The step of the checksum is linear and only moves a small register up, so the six
characters that are appended close it to 1. What keeps a text from being read back is
its length alone.
-/

namespace Pttp

open XorChecksum

/-! ## The checksum -/

theorem generator_eq (b : BitVec 8) (i : Nat) (g : BitVec 32) :
    generator b i g = if b.getLsbD i then g else 0#32 := by
  unfold generator
  rw [BitVec.and_one_eq_setWidth_ofBool_getLsbD, BitVec.getLsbD_ushiftRight, Nat.add_zero]
  cases b.getLsbD i with
  | false => simp
  | true =>
    have ones : -((BitVec.ofBool true).setWidth 8).setWidth 32 = BitVec.allOnes 32 := by decide
    rw [ones, BitVec.allOnes_and]
    rfl

theorem generator_xor (b b' : BitVec 8) (i : Nat) (g : BitVec 32) :
    generator (b ^^^ b') i g = generator b i g ^^^ generator b' i g := by
  rw [generator_eq, generator_eq, generator_eq, BitVec.getLsbD_xor]
  cases b.getLsbD i <;> cases b'.getLsbD i <;> simp

theorem and_xor_distrib (x y mask : BitVec 32) :
    (x ^^^ y) &&& mask = (x &&& mask) ^^^ (y &&& mask) := by
  apply BitVec.eq_of_getLsbD_eq
  intro i _
  simp only [BitVec.getLsbD_and, BitVec.getLsbD_xor, Bool.and_xor_distrib_right]

theorem polymodStep_linear : Linear polymodStep := by
  intro x y
  unfold polymodStep
  simp only [BitVec.ushiftRight_xor_distrib, BitVec.setWidth_xor, and_xor_distrib,
    BitVec.shiftLeft_xor_distrib, generator_xor]
  ac_rfl

theorem getLsbD_mask {i : Nat} (inside : i < 32) :
    (0x1FFFFFF#32).getLsbD i = decide (i < 25) := by
  have mask : 0x1FFFFFF#32 = BitVec.ofNat 32 (2 ^ 25 - 1) := by decide
  rw [mask, BitVec.getLsbD_ofNat, Nat.testBit_two_pow_sub_one]
  simp [inside]

theorem polymodStep_of_small {c : BitVec 32} (small : c >>> 25 = 0#32) :
    polymodStep c = c <<< 5 := by
  have masked : c &&& 0x1FFFFFF#32 = c := by
    apply BitVec.eq_of_getLsbD_eq
    intro i inside
    rw [BitVec.getLsbD_and, getLsbD_mask inside]
    by_cases low : i < 25
    · simp [low]
    · have clear : (c >>> 25).getLsbD (i - 25) = false := by
        rw [small, BitVec.getLsbD_zero]
      rw [BitVec.getLsbD_ushiftRight, Nat.add_sub_cancel' (Nat.le_of_not_lt low)] at clear
      rw [clear, Bool.false_and]
  have none : ∀ i g, generator ((0#32).setWidth 8) i g = 0#32 := by
    intro i g
    rw [generator_eq, if_neg (by simp)]
  unfold polymodStep
  simp only [small, masked, none, BitVec.xor_zero]

theorem polymodStep_small (c : BitVec 32) : polymodStep c >>> 30 = 0#32 := by
  have clear : ∀ (b : BitVec 8) (i : Nat) (g : BitVec 32), g >>> 30 = 0#32 →
      generator b i g >>> 30 = 0#32 := by
    intro b i g small
    rw [generator_eq]
    split
    · exact small
    · simp
  have moved : ((c &&& 0x1FFFFFF#32) <<< 5) >>> 30 = 0#32 := by
    apply BitVec.eq_of_getLsbD_eq
    intro i inside
    rw [BitVec.getLsbD_ushiftRight, BitVec.getLsbD_shiftLeft, BitVec.getLsbD_zero]
    by_cases bit : 30 + i < 32
    · have masked : ¬ 30 + i - 5 < 25 := by omega
      rw [BitVec.getLsbD_and, getLsbD_mask (by omega)]
      simp [masked]
    · simp [bit]
  unfold polymodStep
  simp only [BitVec.ushiftRight_xor_distrib, moved]
  rw [clear _ _ _ (by decide), clear _ _ _ (by decide), clear _ _ _ (by decide),
    clear _ _ _ (by decide), clear _ _ _ (by decide)]
  rfl

/-- The register that `bech32_encode` takes its six characters from. -/
def closing (chk : BitVec 32) : BitVec 32 := polymodStep^[6] chk ^^^ 1#32

theorem feed_closing (chk : BitVec 32) :
    feed polymodStep chk (digits 5 6 (closing chk)) = 1#32 := by
  have upper : closing chk >>> 30 = 0#32 := by
    unfold closing
    rw [BitVec.ushiftRight_xor_distrib, Function.iterate_succ_apply', polymodStep_small]
    rfl
  have spelled : feed polymodStep 0#32 (digits 5 6 (closing chk)) = closing chk := by
    have shifts : ∀ n, n < 6 → polymodStep (closing chk >>> (5 * (n + 1))) =
        (closing chk >>> (5 * (n + 1))) <<< 5 := by
      intro n _
      apply polymodStep_of_small
      have amount : 5 * (n + 1) + 25 = 30 + 5 * n := by omega
      rw [← BitVec.shiftRight_add, amount, BitVec.shiftRight_add, upper, BitVec.zero_ushiftRight]
    have fed := feed_digits shifts
    rwa [upper] at fed
  apply feed_eq_of_feed_zero polymodStep_linear
  rw [spelled, length_digits]
  rfl

/-! ## Groups and characters -/

def groupChar (v : UInt8) : UInt8 := charset.getD v.toNat 0

theorem groupChar_ne : ∀ v : UInt8, v < 32 → groupChar v ≠ 0 ∧ groupChar v ≠ 49 := by
  decide +kernel

theorem charsetRev_groupChar : ∀ v : UInt8, v < 32 →
    groupChar v &&& 0x80 = 0 ∧ charsetRev.getD (groupChar v).toNat 0 = v.toNat := by
  decide +kernel

theorem isUpper_groupChar : ∀ v : UInt8, v < 32 → isUpper (groupChar v) = false := by
  decide +kernel

theorem ofInt_group : ∀ v : UInt8, v < 32 →
    BitVec.ofInt 32 v.toNat = ofGroup v ∧ UInt8.ofInt v.toNat = v ∧ v >>> 5 = 0 := by
  decide +kernel

theorem group_of_digit {c : BitVec 32} {digit : BitVec 32} (member : digit ∈ digits 5 6 c) :
    UInt8.ofBitVec (digit.setWidth 8) < 32 ∧
      ofGroup (UInt8.ofBitVec (digit.setWidth 8)) = digit := by
  obtain ⟨i, -, rfl⟩ := List.mem_map.mp member
  have small : ((c >>> (5 * (6 - 1 - i))) &&& BitVec.ofNat 32 (2 ^ 5 - 1)).toNat < 32 := by
    rw [BitVec.toNat_and]
    exact Nat.lt_of_le_of_lt Nat.and_le_right (by decide)
  generalize (c >>> (5 * (6 - 1 - i))) &&& BitVec.ofNat 32 (2 ^ 5 - 1) = digit at small
  constructor
  · rw [UInt8.lt_iff_toNat_lt]
    simpa using Nat.lt_of_le_of_lt (Nat.mod_le _ _) small
  · apply BitVec.eq_of_toNat_eq
    unfold ofGroup
    simp
    omega

theorem lt_of_mem_checksumGroups {c : BitVec 32} {v : UInt8} (member : v ∈ checksumGroups c) :
    v < 32 := by
  obtain ⟨digit, within, rfl⟩ := List.mem_map.mp member
  exact (group_of_digit within).1

theorem map_ofGroup_checksumGroups (c : BitVec 32) :
    (checksumGroups c).map ofGroup = digits 5 6 c := by
  unfold checksumGroups
  rw [List.map_map]
  conv_rhs => rw [← List.map_id (digits 5 6 c)]
  exact List.map_congr_left fun digit within => (group_of_digit within).2

@[simp] theorem length_checksumGroups (c : BitVec 32) : (checksumGroups c).length = 6 := by
  rw [checksumGroups, List.length_map, length_digits]

/-! ## The text -/

theorem encodeData_eq {data : Bytes} (groups : ∀ v ∈ data, v < 32) (chk : BitVec 32) :
    encodeData chk data =
      (data.map groupChar, some (feed polymodStep chk (data.map ofGroup))) := by
  induction data generalizing chk with
  | nil => rfl
  | cons v data ih =>
    have small := (ofInt_group v (groups v List.mem_cons_self)).2.2
    rw [encodeData, if_neg (fun large => large small),
      ih fun w member => groups w (List.mem_cons_of_mem v member)]
    rfl

def dataChecksum (hrp data : Bytes) : BitVec 32 :=
  feed polymodStep (hrpChecksum hrp) (data.map ofGroup)

def textGroups (hrp data : Bytes) : Bytes :=
  data ++ checksumGroups (closing (dataChecksum hrp data))

def text (hrp data : Bytes) : Bytes := hrp ++ [49] ++ (textGroups hrp data).map groupChar

theorem bech32Encode_eq {hrp data : Bytes} (accepted : ∀ c ∈ hrp, highBits c ≠ 0)
    (groups : ∀ v ∈ data, v < 32) : bech32Encode hrp data = (1, text hrp data ++ [0]) := by
  have taken : ¬ hrp.any (fun c => highBits c = 0) = true := by
    simpa using accepted
  unfold bech32Encode
  rw [if_neg taken, encodeData_eq groups]
  unfold text textGroups
  rw [List.map_append, ← List.append_assoc]
  rfl

theorem length_text (hrp data : Bytes) :
    (text hrp data).length = hrp.length + data.length + 7 := by
  unfold text textGroups
  simp
  omega

theorem length_ofCString_le (pre : Bytes) : (Bytes.ofCString pre).length ≤ pre.length :=
  (List.takeWhile_sublist _).length_le

/-- The text, its NUL, and blanks for what was behind a NUL of the prefix. -/
theorem bytesToBech32_of_accepted {pre b : Bytes} (nonempty : b ≠ [])
    (accepted : ∀ c ∈ Bytes.ofCString pre, highBits c ≠ 0) :
    bytesToBech32 pre b = text (Bytes.ofCString pre) (regroup b) ++ [0] ++
      List.replicate (pre.length - (Bytes.ofCString pre).length) 32 := by
  have written := bech32Encode_eq accepted fun v => lt_of_mem_regroup (b := b) (v := v)
  have shorter := length_ofCString_le pre
  have length := length_text (Bytes.ofCString pre) (regroup b)
  unfold bytesToBech32
  rw [if_neg fun zero => nonempty (List.length_eq_zero_iff.mp zero)]
  simp only [written, List.drop_replicate, List.length_append, List.length_singleton, length]
  congr 2
  omega

def Printable (c : UInt8) : Prop := 33 ≤ c ∧ c ≤ 126 ∧ ¬ (65 ≤ c ∧ c ≤ 90)

instance decidablePrintable (c : UInt8) : Decidable (Printable c) :=
  inferInstanceAs (Decidable (33 ≤ c ∧ c ≤ 126 ∧ ¬ (65 ≤ c ∧ c ≤ 90)))

theorem lt_of_mem_textGroups {hrp data : Bytes} (groups : ∀ v ∈ data, v < 32) :
    ∀ v ∈ textGroups hrp data, v < 32 := by
  intro v member
  rcases List.mem_append.mp member with given | check
  · exact groups v given
  · exact lt_of_mem_checksumGroups check

theorem ofCString_text {hrp data : Bytes} (printable : ∀ c ∈ hrp, Printable c)
    (groups : ∀ v ∈ data, v < 32) (rest : Bytes) :
    Bytes.ofCString (text hrp data ++ 0 :: rest) = text hrp data := by
  apply Bytes.takeWhile_ne_append
  · intro c member
    rcases List.mem_append.mp member with front | coded
    · rcases List.mem_append.mp front with given | separator
      · rintro rfl
        exact absurd (printable 0 given).1 (by decide)
      · rw [List.mem_singleton.mp separator]
        decide
    · obtain ⟨v, within, rfl⟩ := List.mem_map.mp coded
      exact (groupChar_ne v (lt_of_mem_textGroups groups v within)).1

theorem highBits_printable : ∀ c : UInt8, 33 ≤ c → c ≤ 126 → highBits c ≠ 0 := by
  decide +kernel

theorem bytesToBech32_eq {pre b : Bytes} (printable : ∀ c ∈ pre, Printable c)
    (nonempty : b ≠ []) : bytesToBech32 pre b = text pre (regroup b) ++ [0] := by
  have whole : Bytes.ofCString pre = pre := by
    apply List.takeWhile_eq_self_iff.mpr
    intro c member
    apply decide_eq_true
    rintro rfl
    exact absurd (printable 0 member).1 (by decide)
  have accepted : ∀ c ∈ Bytes.ofCString pre, highBits c ≠ 0 := by
    rw [whole]
    intro c member
    exact highBits_printable c (printable c member).1 (printable c member).2.1
  rw [bytesToBech32_of_accepted nonempty accepted, whole, Nat.sub_self, List.replicate_zero,
    List.append_nil]

/-! ## Reading -/

theorem decodeHrp_eq {hrp : Bytes} (printable : ∀ c ∈ hrp, Printable c) (s : Decoder) :
    ∃ lower, decodeHrp s hrp =
      some (⟨feed polymodStep s.chk (hrp.map highBits), lower, s.haveUpper⟩, hrp) := by
  induction hrp generalizing s with
  | nil => exact ⟨s.haveLower, rfl⟩
  | cons c hrp ih =>
    obtain ⟨visible, ascii, other⟩ := printable c List.mem_cons_self
    have taken : ¬ (c < 33 ∨ 126 < c) := by
      rw [not_or, not_lt, not_lt]
      exact ⟨visible, ascii⟩
    have lower : isUpper c = false := by
      unfold isUpper
      simpa using other
    obtain ⟨seen, rest⟩ := ih (fun d member => printable d (List.mem_cons_of_mem c member))
      ⟨polymodStep s.chk ^^^ highBits c, s.haveLower || isLower c, s.haveUpper || isUpper c⟩
    refine ⟨seen, ?_⟩
    rw [lower, Bool.or_false] at rest
    rw [decodeHrp, if_neg taken]
    simp only [lower, Bool.false_eq_true, if_false, Bool.or_false, rest]
    rfl

theorem decodeData_eq {groups : Bytes} (small : ∀ v ∈ groups, v < 32) (s : Decoder) :
    ∃ lower, decodeData s (groups.map groupChar) =
      some (⟨feed polymodStep s.chk (groups.map ofGroup), lower, s.haveUpper⟩, groups) := by
  induction groups generalizing s with
  | nil => exact ⟨s.haveLower, rfl⟩
  | cons v groups ih =>
    have here := small v List.mem_cons_self
    obtain ⟨ascii, value⟩ := charsetRev_groupChar v here
    obtain ⟨taken, stored, -⟩ := ofInt_group v here
    obtain ⟨seen, rest⟩ := ih (fun w member => small w (List.mem_cons_of_mem v member))
      ⟨polymodStep s.chk ^^^ ofGroup v, s.haveLower || isLower (groupChar v), s.haveUpper⟩
    refine ⟨seen, ?_⟩
    have known : ¬ (v.toNat : Int) = -1 := by omega
    rw [List.map_cons, decodeData]
    simp only [ascii, ne_eq, not_true_eq_false, if_false, value, known, taken, stored,
      isUpper_groupChar v here, Bool.or_false, rest]
    rfl

theorem takeWhile_reverse_text {hrp data : Bytes} (groups : ∀ v ∈ data, v < 32) :
    (text hrp data).reverse.takeWhile (· ≠ 49) =
      ((textGroups hrp data).map groupChar).reverse := by
  unfold text
  rw [List.reverse_append, List.reverse_concat]
  apply Bytes.takeWhile_ne_append
  intro c member
  obtain ⟨v, within, rfl⟩ := List.mem_map.mp (List.mem_reverse.mp member)
  exact (groupChar_ne v (lt_of_mem_textGroups groups v within)).2

theorem feed_textGroups (hrp data : Bytes) :
    feed polymodStep (hrpChecksum hrp) ((textGroups hrp data).map ofGroup) = 1#32 := by
  unfold textGroups
  rw [List.map_append, feed_append, map_ofGroup_checksumGroups]
  exact feed_closing (dataChecksum hrp data)

/-- A text of at most ninety characters is read as what it was made of. -/
theorem bech32Decode_text {hrp data : Bytes} (nonempty : hrp ≠ [])
    (printable : ∀ c ∈ hrp, Printable c) (groups : ∀ v ∈ data, v < 32) :
    bech32Decode (text hrp data) =
      if hrp.length + data.length + 7 ≤ 90 then some (hrp, data) else none := by
  have length := length_text hrp data
  have positive := List.length_pos_iff.mpr nonempty
  have dataLen : ((text hrp data).reverse.takeWhile (· ≠ 49)).length = data.length + 6 := by
    rw [takeWhile_reverse_text groups, List.length_reverse, List.length_map, textGroups,
      List.length_append, length_checksumGroups]
  have front : (text hrp data).take hrp.length = hrp := by
    unfold text
    rw [List.append_assoc, List.take_left]
  have behind : (text hrp data).drop (hrp.length + 1) = (textGroups hrp data).map groupChar := by
    unfold text
    rw [← List.length_singleton (a := (49 : UInt8)), ← List.length_append, List.drop_left]
  have hrpLen : hrp.length + data.length + 7 - (1 + (data.length + 6)) = hrp.length := by omega
  unfold bech32Decode
  by_cases fits : hrp.length + data.length + 7 ≤ 90
  · obtain ⟨lower, read⟩ := decodeHrp_eq printable ⟨1#32, false, false⟩
    have small : ∀ v ∈ textGroups hrp data, v < 32 := lt_of_mem_textGroups groups
    obtain ⟨lower', read'⟩ := decodeData_eq small ⟨hrpChecksum hrp, lower, false⟩
    have closed := feed_textGroups hrp data
    have stored : (textGroups hrp data).take data.length = data := by
      unfold textGroups
      rw [List.take_left]
    rw [if_pos fits, if_neg (by omega)]
    simp only [dataLen, length, hrpLen]
    rw [if_neg (by omega), if_neg (by omega), front, behind, read]
    change (decodeData ⟨hrpChecksum hrp, lower, false⟩ _ >>= _) = _
    rw [read']
    simp [closed, stored]
  · rw [if_neg fits, if_pos (by omega)]

theorem bech32Decode_bytesToBech32 {pre b : Bytes} (named : pre ≠ [])
    (printable : ∀ c ∈ pre, Printable c) (nonempty : b ≠ []) :
    bech32Decode (Bytes.ofCString (bytesToBech32 pre b)) =
      if pre.length + (8 * b.length + 4) / 5 + 7 ≤ 90 then some (pre, regroup b) else none := by
  have groups : ∀ v ∈ regroup b, v < 32 := fun v => lt_of_mem_regroup
  rw [bytesToBech32_eq printable nonempty, ofCString_text printable groups,
    bech32Decode_text named printable groups, length_regroup]

/-- What `bytes_to_bech32` makes for a printable prefix is read back by the decoder exactly
when it has at most ninety characters. -/
theorem bytesToBech32_decodes_iff {pre b : Bytes} (named : pre ≠ [])
    (printable : ∀ c ∈ pre, Printable c) (nonempty : b ≠ []) :
    bech32Decode (Bytes.ofCString (bytesToBech32 pre b)) = some (pre, regroup b) ↔
      pre.length + (8 * b.length + 4) / 5 + 7 ≤ 90 := by
  rw [bech32Decode_bytesToBech32 named printable nonempty]
  split
  case isTrue fits => exact iff_of_true rfl fits
  case isFalse long => exact iff_of_false nofun long

theorem bytesToBech32_decodes_salt :
    bech32Decode (Bytes.ofCString (bytesToBech32 [115] (List.replicate 8 7))) =
      some ([115], regroup (List.replicate 8 7)) :=
  (bytesToBech32_decodes_iff (by decide) (by decide +kernel) (by decide)).mpr (by decide)

theorem bytesToBech32_not_decodes_sealed :
    bech32Decode (Bytes.ofCString (bytesToBech32 [109] (List.replicate 52 7))) ≠
      some ([109], regroup (List.replicate 52 7)) := by
  rw [bech32Decode_bytesToBech32 (by decide) (by decide +kernel) (by decide), if_neg (by decide)]
  nofun

end Pttp
