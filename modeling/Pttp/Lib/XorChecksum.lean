import Mathlib

/-!
# Checksums that are linear in exclusive or

A checksum register is stepped and takes a value in, one value after the other. When the
step is linear, what a register comes to is the sum of where it goes by itself and of
what the values make of an empty register. So the values to append for a given end are
the digits of one number: the end, less where the register goes without them.
-/

namespace XorChecksum

variable {w : Nat} (step : BitVec w → BitVec w)

def feed (s : BitVec w) (values : List (BitVec w)) : BitVec w :=
  values.foldl (fun s v => step s ^^^ v) s

@[simp] theorem feed_nil (s : BitVec w) : feed step s [] = s := rfl

@[simp] theorem feed_cons (s v : BitVec w) (values : List (BitVec w)) :
    feed step s (v :: values) = feed step (step s ^^^ v) values := rfl

theorem feed_append (s : BitVec w) (values values' : List (BitVec w)) :
    feed step s (values ++ values') = feed step (feed step s values) values' :=
  List.foldl_append

def Linear : Prop := ∀ s t, step (s ^^^ t) = step s ^^^ step t

variable {step}

theorem feed_xor (linear : Linear step) (s t : BitVec w) (values : List (BitVec w)) :
    feed step (s ^^^ t) values = step^[values.length] s ^^^ feed step t values := by
  induction values generalizing s t with
  | nil => rfl
  | cons v values ih =>
    rw [feed_cons, feed_cons, linear, BitVec.xor_assoc, ih, List.length_cons,
      Function.iterate_succ_apply]

/-- Values that lead from an empty register to `c ^^^ e` lead from `s` to `e`, where `c`
is where `s` goes by itself. -/
theorem feed_eq_of_feed_zero (linear : Linear step) {s e : BitVec w} {values : List (BitVec w)}
    (closing : feed step 0#w values = step^[values.length] s ^^^ e) : feed step s values = e := by
  have sum := feed_xor linear s 0#w values
  rw [BitVec.xor_zero] at sum
  rw [sum, closing, ← BitVec.xor_assoc, BitVec.xor_self, BitVec.zero_xor]

/-! ## Digits -/

/-- `count` digits of `d` bits, the highest first. -/
def digits (d count : Nat) (c : BitVec w) : List (BitVec w) :=
  (List.range count).map fun i => (c >>> (d * (count - 1 - i))) &&& BitVec.ofNat w (2 ^ d - 1)

@[simp] theorem length_digits (d count : Nat) (c : BitVec w) :
    (digits d count c).length = count := by
  rw [digits, List.length_map, List.length_range]

theorem digits_succ (d count : Nat) (c : BitVec w) :
    digits d (count + 1) c =
      ((c >>> (d * count)) &&& BitVec.ofNat w (2 ^ d - 1)) :: digits d count c := by
  unfold digits
  rw [List.range_succ_eq_map, List.map_cons, List.map_map]
  congr 1
  apply List.map_congr_left
  intro i _
  have same : count + 1 - 1 - (i + 1) = count - 1 - i := by omega
  show (c >>> (d * (count + 1 - 1 - (i + 1)))) &&& _ = _
  rw [same]

theorem shiftLeft_xor_digit (d n : Nat) (c : BitVec w) :
    ((c >>> (n + d)) <<< d) ^^^ ((c >>> n) &&& BitVec.ofNat w (2 ^ d - 1)) = c >>> n := by
  apply BitVec.eq_of_getLsbD_eq
  intro i inside
  simp only [BitVec.getLsbD_xor, BitVec.getLsbD_shiftLeft, BitVec.getLsbD_ushiftRight,
    BitVec.getLsbD_and, BitVec.getLsbD_ofNat, Nat.testBit_two_pow_sub_one, inside, decide_true,
    Bool.true_and]
  by_cases low : i < d
  · simp [low]
  · have same : n + d + (i - d) = n + i := by omega
    simp [low, same]

/-- While the register has room, a step only moves it up, and the digits spell their
number. -/
theorem feed_digits {d count : Nat} {c : BitVec w}
    (shifts : ∀ n, n < count → step (c >>> (d * (n + 1))) = (c >>> (d * (n + 1))) <<< d) :
    feed step (c >>> (d * count)) (digits d count c) = c := by
  induction count with
  | zero => simp [digits]
  | succ count ih =>
    have up := shifts count (Nat.lt_succ_self count)
    rw [digits_succ, feed_cons, up, Nat.mul_succ, shiftLeft_xor_digit]
    exact ih fun n below => shifts n (Nat.lt_succ_of_lt below)

/-! ## Errors -/

/-- A step that keeps a register of `n + d` bits, moves up what fits `n` bits, and empties no
register that was not empty. -/
structure Register (step : BitVec w → BitVec w) (d n : Nat) : Prop where
  linear : Linear step
  fits : n + d ≤ w
  shifts : ∀ c : BitVec w, c >>> n = 0#w → step c = c <<< d
  bounded : ∀ c : BitVec w, step c >>> (n + d) = 0#w
  kernel : ∀ c : BitVec w, c >>> (n + d) = 0#w → step c = 0#w → c = 0#w

theorem getLsbD_of_shiftRight_eq_zero {c : BitVec w} {n i : Nat} (clear : c >>> n = 0#w)
    (above : n ≤ i) : c.getLsbD i = false := by
  have bit : (c >>> n).getLsbD (i - n) = false := by rw [clear, BitVec.getLsbD_zero]
  rwa [BitVec.getLsbD_ushiftRight, Nat.add_sub_cancel' above] at bit

theorem shiftRight_eq_zero_of_le {c : BitVec w} {m n : Nat} (clear : c >>> m = 0#w)
    (le : m ≤ n) : c >>> n = 0#w := by
  rw [← Nat.add_sub_cancel' le, BitVec.shiftRight_add, clear, BitVec.zero_ushiftRight]

theorem shiftLeft_xor_shiftRight {c v : BitVec w} {d n : Nat} (fits : n + d ≤ w)
    (high : c >>> n = 0#w) (digit : v >>> d = 0#w) :
    ((c <<< d) ^^^ v) >>> d = c ∧ ((c <<< d) ^^^ v) &&& BitVec.ofNat w (2 ^ d - 1) = v := by
  constructor
  · apply BitVec.eq_of_getLsbD_eq
    intro i inside
    rw [BitVec.getLsbD_ushiftRight, BitVec.getLsbD_xor,
      getLsbD_of_shiftRight_eq_zero digit (Nat.le_add_right d i), Bool.xor_false,
      BitVec.getLsbD_shiftLeft]
    by_cases room : d + i < w
    · simp [room]
    · have beyond := getLsbD_of_shiftRight_eq_zero high (i := i) (by omega)
      simp [room, beyond]
  · apply BitVec.eq_of_getLsbD_eq
    intro i inside
    rw [BitVec.getLsbD_and, BitVec.getLsbD_ofNat, Nat.testBit_two_pow_sub_one,
      BitVec.getLsbD_xor, BitVec.getLsbD_shiftLeft]
    by_cases low : i < d
    · simp [low, inside]
    · rw [getLsbD_of_shiftRight_eq_zero digit (Nat.le_of_not_lt low)]
      simp [low]

theorem digits_concat (d count : Nat) (c : BitVec w) :
    digits d (count + 1) c = digits d count (c >>> d) ++ [c &&& BitVec.ofNat w (2 ^ d - 1)] := by
  unfold digits
  rw [List.range_succ, List.map_append, List.map_singleton]
  congr 1
  · apply List.map_congr_left
    intro i member
    have below := List.mem_range.mp member
    have place : d * (count + 1 - 1 - i) = d + d * (count - 1 - i) := by
      rw [show count + 1 - 1 - i = 1 + (count - 1 - i) by omega, Nat.mul_add, Nat.mul_one]
    rw [place, BitVec.shiftRight_add]
  · simp

theorem iterate_xor (linear : Linear step) (k : Nat) (s t : BitVec w) :
    step^[k] (s ^^^ t) = step^[k] s ^^^ step^[k] t := by
  induction k generalizing s t with
  | zero => rfl
  | succ k ih => rw [Function.iterate_succ_apply, linear, ih]; rfl

theorem feed_eq_iterate_xor (linear : Linear step) (s : BitVec w) (values : List (BitVec w)) :
    feed step s values = step^[values.length] s ^^^ feed step 0#w values := by
  have sum := feed_xor linear s 0#w values
  rwa [BitVec.xor_zero] at sum

theorem exists_first_difference {α : Type} {values values' : List α}
    (length : values.length = values'.length) (differ : values ≠ values') :
    ∃ front a a' rest rest', values = front ++ a :: rest ∧ values' = front ++ a' :: rest' ∧
      a ≠ a' ∧ rest.length = rest'.length := by
  induction values generalizing values' with
  | nil => exact absurd (List.length_eq_zero_iff.mp length.symm).symm differ
  | cons v values ih =>
    cases values' with
    | nil => cases length
    | cons v' values' =>
      rw [List.length_cons, List.length_cons, Nat.add_right_cancel_iff] at length
      by_cases head : v = v'
      · subst head
        obtain ⟨front, a, a', rest, rest', rfl, rfl, first, lengths⟩ :=
          ih length fun equal => differ (congrArg (v :: ·) equal)
        exact ⟨v :: front, a, a', rest, rest', rfl, rfl, first, lengths⟩
      · exact ⟨[], v, v', values, values', rfl, rfl, head, length⟩

theorem exists_last_difference {α : Type} {values values' : List α}
    (length : values.length = values'.length) (differ : values ≠ values') :
    ∃ front front' a a' rest, values = front ++ a :: rest ∧ values' = front' ++ a' :: rest ∧
      a ≠ a' ∧ front.length = front'.length := by
  have length' : values.reverse.length = values'.reverse.length := by
    rw [List.length_reverse, List.length_reverse, length]
  obtain ⟨rest, a, a', front, front', split, split', last, lengths⟩ :=
    exists_first_difference length' fun equal => differ (List.reverse_injective equal)
  refine ⟨front.reverse, front'.reverse, a, a', rest.reverse, ?_, ?_, last, ?_⟩
  · rw [← List.reverse_reverse values, split]
    simp
  · rw [← List.reverse_reverse values', split']
    simp
  · rw [List.length_reverse, List.length_reverse, lengths]

namespace Register

variable {d n : Nat}

theorem feed_bounded (register : Register step d n) {s : BitVec w} {values : List (BitVec w)}
    (bounded : s >>> (n + d) = 0#w) (small : ∀ v ∈ values, v >>> d = 0#w) :
    feed step s values >>> (n + d) = 0#w := by
  induction values generalizing s with
  | nil => exact bounded
  | cons v values ih =>
    apply ih
    · have digit := shiftRight_eq_zero_of_le (small v List.mem_cons_self) (Nat.le_add_left d n)
      rw [BitVec.ushiftRight_xor_distrib, register.bounded, digit, BitVec.xor_zero]
    · intro v' member
      exact small v' (List.mem_cons_of_mem v member)

/-- As long as they fit, the values are the digits of what an empty register comes to. -/
theorem digits_feed (register : Register step d n) (values : List (BitVec w))
    (room : d * values.length ≤ n + d) (small : ∀ v ∈ values, v >>> d = 0#w) :
    feed step 0#w values >>> (d * values.length) = 0#w ∧
      digits d values.length (feed step 0#w values) = values := by
  induction values using List.reverseRecOn with
  | nil => simp [digits]
  | append_singleton values v ih =>
    rw [List.length_append, List.length_singleton, Nat.mul_succ] at room
    obtain ⟨high, spelled⟩ := ih (by omega) fun v' member =>
      small v' (List.mem_append_left _ member)
    have digit := small v (List.mem_append_right _ (List.mem_singleton_self v))
    have clear := shiftRight_eq_zero_of_le high (show d * values.length ≤ n by omega)
    obtain ⟨above, below⟩ := shiftLeft_xor_shiftRight register.fits clear digit
    have fed : feed step 0#w (values ++ [v]) = (feed step 0#w values <<< d) ^^^ v := by
      rw [feed_append, feed_cons, feed_nil, register.shifts _ clear]
    rw [fed, List.length_append, List.length_singleton]
    constructor
    · rw [Nat.mul_succ, Nat.add_comm, BitVec.shiftRight_add, above]
      exact high
    · rw [digits_concat, above, below, spelled]

theorem feed_injective (register : Register step d n) {s : BitVec w}
    {values values' : List (BitVec w)} (length : values.length = values'.length)
    (room : d * values.length ≤ n + d) (small : ∀ v ∈ values, v >>> d = 0#w)
    (small' : ∀ v ∈ values', v >>> d = 0#w) (same : feed step s values = feed step s values') :
    values = values' := by
  rw [feed_eq_iterate_xor register.linear s values, feed_eq_iterate_xor register.linear s values',
    length, BitVec.xor_right_inj] at same
  rw [← (register.digits_feed values room small).2,
    ← (register.digits_feed values' (length ▸ room) small').2, length, same]

theorem iterate_kernel (register : Register step d n) (k : Nat) {c : BitVec w}
    (bounded : c >>> (n + d) = 0#w) (emptied : step^[k] c = 0#w) : c = 0#w := by
  induction k generalizing c with
  | zero => exact emptied
  | succ k ih => exact register.kernel c bounded (ih (register.bounded c) emptied)

theorem feed_cancel (register : Register step d n) {s t : BitVec w} (values : List (BitVec w))
    (bounded : s >>> (n + d) = 0#w) (bounded' : t >>> (n + d) = 0#w)
    (same : feed step s values = feed step t values) : s = t := by
  rw [feed_eq_iterate_xor register.linear s, feed_eq_iterate_xor register.linear t,
    BitVec.xor_left_inj] at same
  rw [← BitVec.xor_eq_zero_iff]
  apply register.iterate_kernel values.length
  · rw [BitVec.ushiftRight_xor_distrib, bounded, bounded', BitVec.xor_zero]
  · rw [iterate_xor register.linear, same, BitVec.xor_self]

/-- Two values that differ, with the same values between them, are not made good by one
another when no error is made good by a single one. -/
theorem not_paired (register : Register step d n) {t a a' b b' : BitVec w}
    (mid : List (BitVec w)) (smallA : a >>> d = 0#w) (smallA' : a' >>> d = 0#w)
    (smallB : b >>> d = 0#w) (smallB' : b' >>> d = 0#w)
    (unpaired : ∀ e : BitVec w, e ≠ 0#w → e >>> d = 0#w → step^[mid.length + 1] e >>> d ≠ 0#w)
    (same : feed step t (a :: (mid ++ [b])) = feed step t (a' :: (mid ++ [b']))) : a = a' := by
  by_contra differ
  have moved (a b : BitVec w) : feed step t (a :: (mid ++ [b])) =
      step^[mid.length + 1] a ^^^ b ^^^ (step^[mid.length + 1] (step t) ^^^
        step (feed step 0#w mid)) := by
    rw [feed_cons, feed_append, feed_cons, feed_nil, feed_eq_iterate_xor register.linear,
      register.linear, ← Function.iterate_succ_apply' step, iterate_xor register.linear]
    ac_rfl
  rw [moved, moved, BitVec.xor_left_inj] at same
  have error : step^[mid.length + 1] (a ^^^ a') = b ^^^ b' := by
    rw [iterate_xor register.linear, ← BitVec.xor_eq_zero_iff]
    calc step^[mid.length + 1] a ^^^ step^[mid.length + 1] a' ^^^ (b ^^^ b')
        = step^[mid.length + 1] a ^^^ b ^^^ (step^[mid.length + 1] a' ^^^ b') := by ac_rfl
      _ = 0#w := by rw [same, BitVec.xor_self]
  apply unpaired (a ^^^ a')
  · rwa [Ne, BitVec.xor_eq_zero_iff]
  · rw [BitVec.ushiftRight_xor_distrib, smallA, smallA', BitVec.xor_zero]
  · rw [error, BitVec.ushiftRight_xor_distrib, smallB, smallB', BitVec.xor_zero]

/-- Values that lead from one register to one end, and that differ, differ further apart than
the register is long; and where no error is made good by a single one behind it, they differ
at a third place between. -/
theorem apart (register : Register step d n) {s : BitVec w} {values values' : List (BitVec w)}
    (bounded : s >>> (n + d) = 0#w) (length : values.length = values'.length)
    (small : ∀ v ∈ values, v >>> d = 0#w) (small' : ∀ v ∈ values', v >>> d = 0#w)
    (unpaired : ∀ e : BitVec w, e ≠ 0#w → e >>> d = 0#w → ∀ k < values.length,
      step^[k + 1] e >>> d ≠ 0#w)
    (same : feed step s values = feed step s values') (differ : values ≠ values') :
    ∃ i j k, i < j ∧ j < k ∧ n + d < d * (k + 1 - i) ∧ values[i]? ≠ values'[i]? ∧
      values[j]? ≠ values'[j]? ∧ values[k]? ≠ values'[k]? := by
  obtain ⟨front, a, a', rest, rest', rfl, rfl, first, lengths⟩ :=
    exists_first_difference length differ
  rw [List.forall_mem_append, List.forall_mem_cons] at small small'
  obtain ⟨smallFront, smallA, smallRest⟩ := small
  obtain ⟨-, smallA', smallRest'⟩ := small'
  have begun : feed step s front >>> (n + d) = 0#w := register.feed_bounded bounded smallFront
  rw [feed_append, feed_append] at same
  generalize feed step s front = t at same begun
  have taken (v : BitVec w) (digit : v >>> d = 0#w) : (step t ^^^ v) >>> (n + d) = 0#w := by
    rw [BitVec.ushiftRight_xor_distrib, register.bounded,
      shiftRight_eq_zero_of_le digit (Nat.le_add_left d n), BitVec.xor_zero]
  have more : rest ≠ rest' := by
    rintro rfl
    have ends := register.feed_cancel rest (taken a smallA) (taken a' smallA') same
    exact first (BitVec.xor_right_inj _ |>.mp ends)
  obtain ⟨mid, mid', b, b', back, rfl, rfl, last, mids⟩ := exists_last_difference lengths more
  rw [List.forall_mem_append, List.forall_mem_cons] at smallRest smallRest'
  obtain ⟨smallMid, smallB, -⟩ := smallRest
  obtain ⟨smallMid', smallB', -⟩ := smallRest'
  -- what is behind the last difference is taken off
  have whole (a b : BitVec w) (mid : List (BitVec w)) :
      a :: (mid ++ b :: back) = (a :: (mid ++ [b])) ++ back := by simp
  have smallWindow : ∀ v ∈ a :: (mid ++ [b]), v >>> d = 0#w := by
    rw [List.forall_mem_cons, List.forall_mem_append, List.forall_mem_singleton]
    exact ⟨smallA, smallMid, smallB⟩
  have smallWindow' : ∀ v ∈ a' :: (mid' ++ [b']), v >>> d = 0#w := by
    rw [List.forall_mem_cons, List.forall_mem_append, List.forall_mem_singleton]
    exact ⟨smallA', smallMid', smallB'⟩
  rw [whole, whole, feed_append, feed_append] at same
  have window := register.feed_cancel back (register.feed_bounded begun smallWindow)
    (register.feed_bounded begun smallWindow') same
  have long : n + d < d * (mid.length + 2) := by
    by_contra short
    have equal := register.feed_injective (by simp [mids]) (by simpa using short) smallWindow
      smallWindow' window
    exact first (List.cons.inj equal).1
  have between : mid ≠ mid' := by
    rintro rfl
    apply first
    apply register.not_paired mid smallA smallA' smallB smallB' _ window
    intro e nonzero digit
    exact unpaired e nonzero digit mid.length (by simp; omega)
  obtain ⟨j, inside, differs⟩ : ∃ j < mid.length, mid[j]? ≠ mid'[j]? := by
    by_contra none
    push Not at none
    apply between
    apply List.ext_getElem?
    intro j
    by_cases inside : j < mid.length
    · exact none j inside
    · rw [List.getElem?_eq_none (Nat.le_of_not_lt inside),
        List.getElem?_eq_none (mids ▸ Nat.le_of_not_lt inside)]
  refine ⟨front.length, front.length + (j + 1), front.length + (mid.length + 1), by omega,
    by omega, ?_, ?_, ?_, ?_⟩
  · rwa [show front.length + (mid.length + 1) + 1 - front.length = mid.length + 2 by omega]
  · simpa using first
  · rw [List.getElem?_append_right (by omega), List.getElem?_append_right (by omega)]
    simp only [Nat.add_sub_cancel_left, List.getElem?_cons_succ]
    rwa [List.getElem?_append_left inside, List.getElem?_append_left (mids ▸ inside)]
  · rw [List.getElem?_append_right (by omega), List.getElem?_append_right (by omega)]
    simp only [Nat.add_sub_cancel_left, List.getElem?_cons_succ]
    rw [List.getElem?_append_right (le_refl _), mids,
      List.getElem?_append_right (le_refl _)]
    simpa using last

end Register

end XorChecksum
