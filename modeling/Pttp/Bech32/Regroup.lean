import Pttp.Bech32

/-!
# Groups of five bits

`bytes_to_bech32` slides over the bytes by five bits. When a turn begins, what is left in
`n` is the byte that `l` is in, less the bits that were taken from it, and so the groups
spell the number that the bytes spell, both with the lowest digit first.
-/

namespace Pttp

open Nat (ofDigits)

/-! ## The groups -/

theorem lt_of_mem_regroupLoop {b : Bytes} {l r n last : Nat} {v : UInt8}
    (member : v ∈ regroupLoop b l r n last) : v < 32 := by
  fun_induction regroupLoop b l r n last with
  | case1 => cases member
  | case2 l r n last within added n' last' ih =>
    rcases List.mem_cons.mp member with rfl | later
    · rw [UInt8.lt_iff_toNat_lt, UInt8.toNat_ofNat']
      have := Nat.mod_lt n' (show 0 < 2 ^ 5 by decide)
      exact Nat.lt_of_le_of_lt (Nat.mod_le _ _) this
    · exact ih later

theorem length_regroupLoop (b : Bytes) (l r n last : Nat) :
    (regroupLoop b l r n last).length = (8 * b.length - l + 4) / 5 := by
  fun_induction regroupLoop b l r n last with
  | case1 => rw [List.length_nil]; omega
  | case2 l r n last within added n' last' ih => rw [List.length_cons, ih]; omega

theorem lt_of_mem_regroup {b : Bytes} {v : UInt8} (member : v ∈ regroup b) : v < 32 :=
  lt_of_mem_regroupLoop member

theorem length_regroup (b : Bytes) : (regroup b).length = (8 * b.length + 4) / 5 :=
  length_regroupLoop b 0 5 _ 0

/-! ## The number -/

/-- The number that digits spell in a base, the lowest first. -/
def Bytes.inBase (base : Nat) (digits : Bytes) : Nat := ofDigits base (digits.map UInt8.toNat)

namespace Bytes

theorem inBase_cons (base : Nat) (x : UInt8) (digits : Bytes) :
    inBase base (x :: digits) = x.toNat + base * inBase base digits := by
  unfold inBase
  rw [List.map_cons, Nat.ofDigits_cons]

theorem inBase_lt (b : Bytes) : inBase 256 b < 2 ^ (8 * b.length) := by
  have bytes : ∀ d ∈ b.map UInt8.toNat, d < 256 := by
    intro d member
    obtain ⟨x, -, rfl⟩ := List.mem_map.mp member
    exact x.toNat_lt
  have bound := Nat.ofDigits_lt_base_pow_length (by decide) bytes
  rwa [List.length_map, show 256 = 2 ^ 8 from rfl, ← pow_mul] at bound

theorem inBase_drop (b : Bytes) (q : Nat) :
    inBase 256 (b.drop q) = (b.getD q 0).toNat + 256 * inBase 256 (b.drop (q + 1)) := by
  rcases Nat.lt_or_ge q b.length with inside | outside
  · rw [List.drop_eq_getElem_cons inside, inBase_cons, List.getD_eq_getElem _ _ inside]
  · rw [List.drop_of_length_le outside, List.drop_of_length_le (by omega),
      List.getD_eq_default _ _ outside]
    rfl

theorem inBase_div (b : Bytes) (q : Nat) : inBase 256 b / 256 ^ q = inBase 256 (b.drop q) := by
  induction q with
  | zero => simp
  | succ q ih =>
    have small := (b.getD q 0).toNat_lt
    rw [pow_succ, ← Nat.div_div_eq_div_mul, ih, inBase_drop]
    omega

end Bytes

/-! ## The loop -/

/-- At the head of the loop `n` has what is left of the byte that `l` is in. -/
def Left (b : Bytes) (l n last : Nat) : Prop :=
  l / 8 < b.length → last = l / 8 ∧ n = (b.getD (l / 8) 0).toNat / 2 ^ (l % 8)

theorem take_five {s : Nat} (x y : Nat) (few : s ≤ 2) :
    x / 2 ^ s % 32 = (x + 256 * y) / 2 ^ s % 32 ∧ x / 2 ^ s / 32 = x / 2 ^ (s + 5) := by
  interval_cases s <;> omega

theorem take_five_across {s x : Nat} (z t : Nat) (byte : x < 256) (many : 3 ≤ s) (bits : s < 8) :
    (x / 2 ^ s + z <<< (8 - s)) % 32 = (x + 256 * (z + 256 * t)) / 2 ^ s % 32 ∧
      (x / 2 ^ s + z <<< (8 - s)) / 32 = z / 2 ^ (s - 3) := by
  rw [Nat.shiftLeft_eq]
  interval_cases s <;> omega

/-- Where the right place comes to another byte, the subtraction in the shift does not wrap:
the byte is put behind the bits that are left. -/
theorem shift_eq {l : Nat} (entered : (l + 5) / 8 ≠ l / 8) :
    (l + 5) % 8 ≤ 4 ∧ 5 - (l + 5) % 8 = 8 - l % 8 := by
  omega

theorem Left.turn {b : Bytes} {l n last : Nat} (left : Left b l n last) (n' last' : Nat)
    (inside : l / 8 < b.length)
    (next : n' = if (l + 5) / 8 ≠ last ∧ (l + 5) / 8 < b.length
      then n + (b.getD ((l + 5) / 8) 0).toNat <<< (5 - (l + 5) % 8) else n)
    (last_next : last' = if (l + 5) / 8 ≠ last ∧ (l + 5) / 8 < b.length
      then (l + 5) / 8 else last) :
    n' % 32 = Bytes.inBase 256 b / 2 ^ l % 32 ∧ Left b (l + 5) (n' >>> 5) last' := by
  obtain ⟨rfl, rfl⟩ := left inside
  have place : 2 ^ l = 256 ^ (l / 8) * 2 ^ (l % 8) := by
    rw [show 256 = 2 ^ 8 from rfl, ← pow_mul, ← pow_add, Nat.div_add_mod]
  have byte := (b.getD (l / 8) 0).toNat_lt
  rw [place, ← Nat.div_div_eq_div_mul, Bytes.inBase_div, Bytes.inBase_drop,
    Nat.shiftRight_eq_div_pow]
  by_cases entered : (l + 5) / 8 = l / 8
  · -- the byte has five bits or more
    rw [if_neg fun added => added.1 entered] at next last_next
    subst next last_next
    obtain ⟨taken, rest⟩ := take_five (s := l % 8) (b.getD (l / 8) 0).toNat
      (Bytes.inBase 256 (b.drop (l / 8 + 1))) (by omega)
    refine ⟨taken, fun _ => ⟨entered.symm, ?_⟩⟩
    rw [entered, show (l + 5) % 8 = l % 8 + 5 by omega]
    exact rest
  · have following : (l + 5) / 8 = l / 8 + 1 := by omega
    by_cases there : (l + 5) / 8 < b.length
    · rw [if_pos ⟨entered, there⟩] at next last_next
      subst next last_next
      rw [(shift_eq entered).2, following, Bytes.inBase_drop b (l / 8 + 1)]
      obtain ⟨taken, rest⟩ := take_five_across (s := l % 8) (b.getD (l / 8 + 1) 0).toNat
        (Bytes.inBase 256 (b.drop (l / 8 + 1 + 1))) byte (by omega) (by omega)
      refine ⟨taken, fun _ => ⟨following.symm, ?_⟩⟩
      rw [following, show (l + 5) % 8 = l % 8 - 3 by omega]
      exact rest
    · -- the last byte, and zeros behind it
      rw [if_neg fun added => there added.2] at next
      subst next
      rw [List.drop_of_length_le (by omega)]
      exact ⟨rfl, fun inside => absurd inside there⟩

theorem inBase_regroupLoop {b : Bytes} {l n last : Nat} (left : Left b l n last) :
    Bytes.inBase 32 (regroupLoop b l (l + 5) n last) = Bytes.inBase 256 b / 2 ^ l := by
  generalize right : l + 5 = r
  fun_induction regroupLoop b l r n last with
  | case1 l r n last past =>
    have bound : 2 ^ (8 * b.length) ≤ 2 ^ l := Nat.pow_le_pow_right (by decide) (by omega)
    exact (Nat.div_eq_of_lt ((Bytes.inBase_lt b).trans_le bound)).symm
  | case2 l r n last within added n' last' ih =>
    subst right
    obtain ⟨group, left'⟩ := left.turn n' last' (by omega) rfl rfl
    have digit : (UInt8.ofNat (n' % 2 ^ 5)).toNat = n' % 32 := by
      rw [UInt8.toNat_ofNat']
      omega
    rw [Bytes.inBase_cons, digit, group, ih left' rfl, pow_add, ← Nat.div_div_eq_div_mul]
    exact Nat.mod_add_div _ _

theorem inBase_regroup (b : Bytes) : Bytes.inBase 32 (regroup b) = Bytes.inBase 256 b := by
  have begun : Left b 0 (b.getD 0 0).toNat 0 := fun _ => ⟨rfl, (Nat.div_one _).symm⟩
  have whole := inBase_regroupLoop begun
  rwa [pow_zero, Nat.div_one] at whole

theorem Bytes.eq_of_inBase_eq {base : Nat} (large : 1 < base) {b b' : Bytes}
    (sized : b.length = b'.length) (digits : ∀ x ∈ b, x.toNat < base)
    (digits' : ∀ x ∈ b', x.toNat < base) (same : inBase base b = inBase base b') : b = b' := by
  have below : ∀ {c : Bytes}, (∀ x ∈ c, x.toNat < base) → ∀ d ∈ c.map UInt8.toNat, d < base := by
    intro c digits d member
    obtain ⟨x, within, rfl⟩ := List.mem_map.mp member
    exact digits x within
  have lists : b.map UInt8.toNat = b'.map UInt8.toNat :=
    Nat.ofDigits_inj_of_len_eq large (by simpa using sized) (below digits) (below digits') same
  exact List.map_injective_iff.mpr (fun _ _ => UInt8.toNat.inj) lists

/-- The groups of a byte string: as many as there are fives of bits, each below 32, with the
number of the string; and no other string of its length has them. -/
theorem regroup_lossless (b : Bytes) :
    (regroup b).length = 8 * b.length ⌈/⌉ 5 ∧ (∀ v ∈ regroup b, v < 32) ∧
      ofDigits 32 ((regroup b).map UInt8.toNat) = ofDigits 256 (b.map UInt8.toNat) ∧
      ∀ b' : Bytes, b'.length = b.length → regroup b' = regroup b → b' = b := by
  refine ⟨length_regroup b, fun v => lt_of_mem_regroup, inBase_regroup b, ?_⟩
  intro b' sized same
  have number : Bytes.inBase 256 b' = Bytes.inBase 256 b := by
    rw [← inBase_regroup, same, inBase_regroup]
  exact Bytes.eq_of_inBase_eq (by decide) sized (fun x _ => x.toNat_lt) (fun x _ => x.toNat_lt)
    number

end Pttp
