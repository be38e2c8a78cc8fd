import Mathlib

/-!
# Numbers as bits, the lowest first

`low width n` are the `width` low bits of `n`, and `number` reads them back. A table of
such fields, one behind the other, is read back field by field.
-/

namespace LowBits

def low (width n : Nat) : List Bool := (List.range width).map n.testBit

/-- The number the bits spell, the first the lowest. -/
def number (l : List Bool) : Nat := l.foldr (fun bit rest => bit.toNat + 2 * rest) 0

@[simp] theorem length_low (width n : Nat) : (low width n).length = width := by
  rw [low, List.length_map, List.length_range]

@[simp] theorem number_nil : number [] = 0 := rfl

@[simp] theorem number_cons (bit : Bool) (l : List Bool) :
    number (bit :: l) = bit.toNat + 2 * number l := rfl

theorem number_lt (l : List Bool) : number l < 2 ^ l.length := by
  induction l with
  | nil => simp
  | cons bit l ih =>
    have := bit.toNat_lt
    rw [number_cons, List.length_cons, pow_succ]
    omega

@[simp] theorem number_replicate_false (n : Nat) : number (List.replicate n false) = 0 := by
  induction n with
  | zero => rfl
  | succ n ih => rw [List.replicate_succ, number_cons, ih]; rfl

theorem low_succ (width n : Nat) : low (width + 1) n = n.testBit 0 :: low width (n / 2) := by
  unfold low
  rw [List.range_succ_eq_map, List.map_cons, List.map_map]
  congr 1
  apply List.map_congr_left
  intro i _
  exact Nat.testBit_succ n i

theorem number_low (width n : Nat) : number (low width n) = n % 2 ^ width := by
  induction width generalizing n with
  | zero => simp [low, Nat.mod_one]
  | succ width ih =>
    rw [low_succ, number_cons, ih, Nat.testBit_zero, pow_succ', Nat.mod_mul]
    rcases Nat.mod_two_eq_zero_or_one n with even | odd
    · rw [even]
      simp
    · rw [odd]
      simp

theorem number_low_of_lt {width n : Nat} (small : n < 2 ^ width) : number (low width n) = n := by
  rw [number_low, Nat.mod_eq_of_lt small]

theorem or_shiftLeft_toNat {m n : Nat} (below : m < 2 ^ n) (bit : Bool) :
    m ||| bit.toNat <<< n = m + 2 ^ n * bit.toNat := by
  rw [Nat.shiftLeft_eq, Nat.mul_comm, Nat.or_comm, ← Nat.two_pow_add_eq_or_of_lt below,
    Nat.add_comm]

/-! ## Fields one behind the other -/

section Fields

variable (width : Nat)

def field (l : List Bool) (i : Nat) : List Bool := (l.drop (width * i)).take width

theorem length_flatMap_low (values : List Nat) :
    (values.flatMap (low width)).length = width * values.length := by
  induction values with
  | nil => rfl
  | cons n values ih =>
    rw [List.flatMap_cons, List.length_append, ih, length_low, List.length_cons,
      Nat.mul_succ, Nat.add_comm]

theorem field_append_succ {l l' : List Bool} (one : l.length = width) (i : Nat) :
    field width (l ++ l') (i + 1) = field width l' i := by
  have past : width * (i + 1) = l.length + width * i := by
    rw [one, Nat.mul_succ, Nat.add_comm]
  unfold field
  rw [past, List.drop_length_add_append]

/-- Behind the fields of the values come zeros, so a field spells its value or zero. -/
theorem number_field {values : List Nat} (small : ∀ n ∈ values, n < 2 ^ width) (room i : Nat) :
    number (field width (values.flatMap (low width) ++ List.replicate room false) i) =
      values.getD i 0 := by
  induction values generalizing i with
  | nil =>
    unfold field
    rw [List.flatMap_nil, List.nil_append, List.drop_replicate, List.take_replicate,
      number_replicate_false, List.getD_nil]
  | cons n values ih =>
    rw [List.flatMap_cons, List.append_assoc]
    cases i with
    | zero =>
      unfold field
      rw [Nat.mul_zero, List.drop_zero, List.take_left' (length_low width n),
        number_low_of_lt (small n List.mem_cons_self), List.getD_cons_zero]
    | succ i =>
      rw [field_append_succ width (length_low width n),
        ih (fun m member => small m (List.mem_cons_of_mem n member)), List.getD_cons_succ]

end Fields

end LowBits
