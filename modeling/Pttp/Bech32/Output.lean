import Pttp.Bech32.RoundTrip

/-!
# What is returned

`bytes_to_bech32` makes its string as long as the buffer that the encoder asks for, with
room for the NUL, and neither cuts it nor looks at the return code. So the NUL is part of
what it returns, and behind a refused prefix it returns blanks.
-/

namespace Pttp

/-- The text of the bytes: the prefix, the separator, the groups and the checksum. -/
def Spells (pre b s : Bytes) : Prop :=
  (∃ data check, s = pre ++ [49] ++ data ++ check ∧ data.length = 8 * b.length ⌈/⌉ 5 ∧
    check.length = 6 ∧ ∀ c ∈ data ++ check, c ∈ charset) ∧ 0 ∉ s

def WellFormed (pre b : Bytes) : Prop :=
  (bytesToBech32 pre b = [] ∨ Spells pre b (bytesToBech32 pre b)) ∧
    ((bech32Encode (Bytes.ofCString pre) (regroup b)).1 = 0 → bytesToBech32 pre b = [])

theorem Spells.length {pre b s : Bytes} (spells : Spells pre b s) :
    s.length = pre.length + (8 * b.length + 4) / 5 + 7 := by
  obtain ⟨⟨data, check, rfl, groups, six, -⟩, -⟩ := spells
  rw [Nat.ceilDiv_eq_add_pred_div] at groups
  simp only [List.length_append, List.length_singleton, groups, six]
  omega

/-! ## What is behind a refused prefix -/

theorem bytesToBech32_of_refused {pre b : Bytes} (nonempty : b ≠ [])
    (refused : ∃ c ∈ Bytes.ofCString pre, highBits c = 0) :
    bytesToBech32 pre b = List.replicate (pre.length + (regroup b).length + 8) 32 := by
  have stopped : bech32Encode (Bytes.ofCString pre) (regroup b) = (0, []) := by
    unfold bech32Encode
    rw [if_pos (by simpa using refused)]
  unfold bytesToBech32
  rw [if_neg fun zero => nonempty (List.length_eq_zero_iff.mp zero)]
  simp only [stopped]
  rfl

theorem length_bytesToBech32 (pre : Bytes) {b : Bytes} (nonempty : b ≠ []) :
    (bytesToBech32 pre b).length = pre.length + (8 * b.length + 4) / 5 + 8 := by
  by_cases accepted : ∀ c ∈ Bytes.ofCString pre, highBits c ≠ 0
  · have shorter := length_ofCString_le pre
    rw [bytesToBech32_of_accepted nonempty accepted]
    simp only [List.length_append, length_text, length_regroup, List.length_singleton,
      List.length_replicate]
    omega
  · push Not at accepted
    rw [bytesToBech32_of_refused nonempty accepted, List.length_replicate, length_regroup]

theorem not_wellFormed_of_ne_nil (pre : Bytes) {b : Bytes} (nonempty : b ≠ []) :
    ¬ WellFormed pre b := by
  have length := length_bytesToBech32 pre nonempty
  rintro ⟨nothing | spells, -⟩
  · rw [nothing, List.length_nil] at length
    omega
  · have short := spells.length
    omega

/-- What is returned is well formed when there was nothing to write, and only then: it is
longer than the text by its NUL, whatever the prefix is. -/
theorem bytesToBech32_wellFormed_iff (pre b : Bytes) : WellFormed pre b ↔ b = [] := by
  constructor
  · intro formed
    by_contra nonempty
    exact not_wellFormed_of_ne_nil pre nonempty formed
  · rintro rfl
    have nothing : bytesToBech32 pre [] = [] := rfl
    exact ⟨.inl nothing, fun _ => nothing⟩

theorem bytesToBech32_not_wellFormed : ¬ WellFormed [112, 98] [7] :=
  not_wellFormed_of_ne_nil [112, 98] (by decide)

end Pttp
