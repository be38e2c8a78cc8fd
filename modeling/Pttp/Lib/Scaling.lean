import Mathlib

/-!
# Scaling numbers down

`scale n m` takes the numbers below `n` to the numbers below `m`, in their order. The
numbers that come to one place are an interval, and its length is that of `n / m`, rounded
up or down.
-/

namespace Scaling

def scale (n m v : Nat) : Nat := v * m / n

theorem scale_lt {n m v : Nat} (positive : 0 < m) (below : v < n) : scale n m v < m := by
  apply Nat.div_lt_of_lt_mul
  exact Nat.mul_lt_mul_of_pos_right below positive

theorem scale_mono {n m v w : Nat} (le : v ≤ w) : scale n m v ≤ scale n m w :=
  Nat.div_le_div_right (Nat.mul_le_mul_right m le)

section Places

variable {n m : Nat} (nonempty : 0 < n) (positive : 0 < m)

include nonempty positive

/-- The numbers that come to place `k` are those from one bound to the next. -/
theorem scale_eq_iff (v k : Nat) :
    scale n m v = k ↔ k * n ⌈/⌉ m ≤ v ∧ v < (k + 1) * n ⌈/⌉ m := by
  rw [ceilDiv_le_iff_le_mul positive, ← not_le, ceilDiv_le_iff_le_mul positive, not_le,
    Nat.mul_comm m]
  unfold scale
  rw [Nat.div_eq_iff nonempty]
  have next : (k + 1) * n = k * n + n := Nat.succ_mul k n
  constructor <;> rintro ⟨above, below⟩ <;> constructor <;> omega

theorem card_place {k : Nat} (inside : k < m) :
    ((Finset.range n).filter fun v => scale n m v = k).card =
      (k + 1) * n ⌈/⌉ m - k * n ⌈/⌉ m := by
  have last : (k + 1) * n ⌈/⌉ m ≤ n := by
    rw [ceilDiv_le_iff_le_mul positive]
    exact Nat.mul_le_mul_right n inside
  have interval : ((Finset.range n).filter fun v => scale n m v = k) =
      Finset.Ico (k * n ⌈/⌉ m) ((k + 1) * n ⌈/⌉ m) := by
    ext v
    rw [Finset.mem_filter, Finset.mem_range, Finset.mem_Ico, scale_eq_iff nonempty positive]
    constructor
    · exact fun both => both.2
    · exact fun both => ⟨both.2.trans_le last, both⟩
  rw [interval, Nat.card_Ico]

end Places

theorem ceilDiv_le_div_succ {n m : Nat} (positive : 0 < m) : n ⌈/⌉ m ≤ n / m + 1 := by
  rw [ceilDiv_le_iff_le_mul positive]
  exact (Nat.lt_mul_div_succ n positive).le

/-- No place is favoured: they all have as many numbers, up to one. -/
theorem card_place_eq {n m k : Nat} (nonempty : 0 < n) (inside : k < m) :
    ((Finset.range n).filter fun v => scale n m v = k).card = n / m ∨
      ((Finset.range n).filter fun v => scale n m v = k).card = n ⌈/⌉ m := by
  have positive : 0 < m := Nat.zero_lt_of_lt inside
  rw [card_place nonempty positive inside]
  generalize low : k * n ⌈/⌉ m = c
  generalize high : (k + 1) * n ⌈/⌉ m = e
  have above : (k + 1) * n ≤ m * e := (ceilDiv_le_iff_le_mul positive).mp high.le
  have most : e ≤ c + n ⌈/⌉ m := by
    rw [← high, ceilDiv_le_iff_le_mul positive, Nat.succ_mul, Nat.mul_add]
    apply Nat.add_le_add
    · exact (ceilDiv_le_iff_le_mul positive).mp low.le
    · exact (ceilDiv_le_iff_le_mul positive).mp le_rfl
  have least : c + n / m ≤ e := by
    have whole : m * (n / m) ≤ n := Nat.mul_div_le n m
    have fits : n / m ≤ e := by
      apply Nat.le_of_mul_le_mul_left _ positive
      exact whole.trans ((Nat.le_mul_of_pos_left n (Nat.succ_pos k)).trans above)
    have below : c ≤ e - n / m := by
      rw [← low, ceilDiv_le_iff_le_mul positive, Nat.mul_sub]
      rw [Nat.succ_mul] at above
      omega
    omega
  have rounding := ceilDiv_le_div_succ (n := n) positive
  omega

end Scaling
