import Pttp.Bech32.Acceptance

/-!
# Errors

Two texts that are read under one prefix, and are as long as one another, are the same or
differ in three characters, the outer ones of which are further apart than the six characters
of the checksum. So a text with errors in two characters, or within six in a row, is refused
or read under another prefix.
-/

namespace Pttp

open XorChecksum

/-- For so many steps an error in one group stays an error in other groups than the last. -/
def outlasts : Nat → BitVec 32 → Bool
  | 0, _ => true
  | k + 1, e => polymodStep e >>> 5 != 0#32 && outlasts k (polymodStep e)

theorem iterate_of_outlasts {count : Nat} {e : BitVec 32} (lasting : outlasts count e) :
    ∀ k < count, polymodStep^[k + 1] e >>> 5 ≠ 0#32 := by
  induction count generalizing e with
  | zero => exact fun k below => absurd below (Nat.not_lt_zero k)
  | succ count ih =>
    unfold outlasts at lasting
    obtain ⟨next, later⟩ := (Bool.and_eq_true _ _).mp lasting
    intro k below
    cases k with
    | zero => exact bne_iff_ne.mp next
    | succ k => exact ih later k (Nat.lt_of_succ_lt_succ below)

theorem outlasts_text : ∀ e : BitVec 5, e ≠ 0#5 → outlasts 88 (e.setWidth 32) := by
  decide +kernel

theorem getElem?_text (hrp data : Bytes) (i : Nat) :
    (text hrp data)[hrp.length + 1 + i]? = (textGroups hrp data)[i]?.map groupChar := by
  unfold text
  rw [List.getElem?_append_right (by simp), List.length_append, List.length_singleton,
    Nat.add_sub_cancel_left, List.getElem?_map]

theorem groupChar_injective {v v' : UInt8} (small : v < 32) (small' : v' < 32)
    (same : groupChar v = groupChar v') : v = v' := by
  rw [← (coded_groupChar v small).2, same, (coded_groupChar v' small').2]

theorem text_differs {hrp data data' : Bytes} (small : ∀ v ∈ data, v < 32)
    (small' : ∀ v ∈ data', v < 32) {i : Nat}
    (differ : ((textGroups hrp data).map ofGroup)[i]? ≠ ((textGroups hrp data').map ofGroup)[i]?) :
    (text hrp data)[hrp.length + 1 + i]? ≠ (text hrp data')[hrp.length + 1 + i]? := by
  intro same
  apply differ
  rw [getElem?_text, getElem?_text] at same
  rw [List.getElem?_map, List.getElem?_map]
  cases here : (textGroups hrp data)[i]? with
  | none =>
    rw [here, Option.map_none, eq_comm, Option.map_eq_none_iff] at same
    rw [same]
  | some v =>
    rw [here, Option.map_some, eq_comm, Option.map_eq_some_iff] at same
    obtain ⟨v', here', equal⟩ := same
    have inside := lt_of_mem_textGroups small v (List.mem_of_getElem? here)
    have inside' := lt_of_mem_textGroups small' v' (List.mem_of_getElem? here')
    rw [here', groupChar_injective inside' inside equal]

theorem hrpChecksum_small (hrp : Bytes) : hrpChecksum hrp >>> 30 = 0#32 := by
  have digit : ∀ c : UInt8, lowBits c >>> 5 = 0#32 := by decide +kernel
  apply polymodStep_register.feed_bounded (polymodStep_small _)
  intro v member
  obtain ⟨c, -, rfl⟩ := List.mem_map.mp member
  exact digit c

theorem polymodStep_unpaired {e : BitVec 32} (nonzero : e ≠ 0#32) (digit : e >>> 5 = 0#32) :
    ∀ k < 88, polymodStep^[k + 1] e >>> 5 ≠ 0#32 := by
  have below : e.toNat < 32 := by
    have high := congrArg BitVec.toNat digit
    simp only [BitVec.toNat_ushiftRight, Nat.shiftRight_eq_div_pow, BitVec.toNat_ofNat] at high
    omega
  have group : (e.setWidth 5).setWidth 32 = e := by
    apply BitVec.eq_of_toNat_eq
    rw [BitVec.toNat_setWidth, BitVec.toNat_setWidth]
    omega
  rw [← group]
  apply iterate_of_outlasts
  apply outlasts_text
  intro empty
  rw [empty] at group
  exact nonzero group.symm

/-- Two different texts that are read under one prefix, with as many groups, differ in three
characters, the first and the last of them with five or more between them. -/
theorem bech32Decode_apart {x y hrp data data' : Bytes} (read : bech32Decode x = some (hrp, data))
    (read' : bech32Decode y = some (hrp, data')) (length : data.length = data'.length)
    (differ : data ≠ data') :
    ∃ i j k, i < j ∧ j < k ∧ i + 6 ≤ k ∧
      (x.map lowerCase)[i]? ≠ (y.map lowerCase)[i]? ∧
      (x.map lowerCase)[j]? ≠ (y.map lowerCase)[j]? ∧
      (x.map lowerCase)[k]? ≠ (y.map lowerCase)[k]? := by
  have readable := readable_of_bech32Decode read
  have readable' := readable_of_bech32Decode read'
  have small : ∀ v ∈ textGroups hrp data, v < 32 := lt_of_mem_textGroups readable.small
  have small' : ∀ v ∈ textGroups hrp data', v < 32 := lt_of_mem_textGroups readable'.small
  have lengths : ((textGroups hrp data).map ofGroup).length =
      ((textGroups hrp data').map ofGroup).length := by
    simp [textGroups, length]
  have short : ((textGroups hrp data).map ofGroup).length ≤ 88 := by
    have := readable.short
    have := List.length_pos_iff.mpr readable.named
    simp only [textGroups, List.length_map, List.length_append, length_checksumGroups]
    omega
  have differ' : (textGroups hrp data).map ofGroup ≠ (textGroups hrp data').map ofGroup := by
    intro same
    have groups := List.map_injective_iff.mpr ofGroup_injective same
    exact differ (List.append_inj_left groups length)
  obtain ⟨i, j, k, ij, jk, long, atI, atJ, atK⟩ := polymodStep_register.apart
    (hrpChecksum_small hrp) lengths (forall_mem_map_ofGroup small) (forall_mem_map_ofGroup small')
    (fun e nonzero digit k below => polymodStep_unpaired nonzero digit k (by omega))
    ((feed_textGroups hrp data).trans (feed_textGroups hrp data').symm) differ'
  rw [readable.spelled, readable'.spelled]
  exact ⟨hrp.length + 1 + i, hrp.length + 1 + j, hrp.length + 1 + k, by omega, by omega,
    by omega, text_differs readable.small readable'.small atI,
    text_differs readable.small readable'.small atJ,
    text_differs readable.small readable'.small atK⟩

theorem bech32Decode_apart_groups : ∃ i j k, i < j ∧ j < k ∧ i + 6 ≤ k ∧
    ((text [115] [1]).map lowerCase)[i]? ≠ ((text [115] [2]).map lowerCase)[i]? ∧
    ((text [115] [1]).map lowerCase)[j]? ≠ ((text [115] [2]).map lowerCase)[j]? ∧
    ((text [115] [1]).map lowerCase)[k]? ≠ ((text [115] [2]).map lowerCase)[k]? := by
  have read (v : UInt8) (small : v < 32) : bech32Decode (text [115] [v]) = some ([115], [v]) := by
    rw [bech32Decode_text (by decide) (by decide +kernel) (by simpa using small), if_pos (by simp)]
  exact bech32Decode_apart (read 1 (by decide)) (read 2 (by decide)) rfl (by decide)

end Pttp
