import Pttp.Sodium

/-!
# Hexadecimal fields

What `operator<<` prints is two digits for every byte, and a NUL. Handed on as a C
string it is the digits, and `from_hex` reads the bytes back from them. Of any other
text the decoder says so, and `from_hex` does not look at what it says.
-/

namespace Pttp

theorem hexValue_hexDigit : ∀ n : UInt8, n < 16 → hexValue (hexDigit n) = some n := by
  decide +kernel

theorem blank_lt_hexDigit : ∀ n : UInt8, n < 16 → 32 < hexDigit n := by
  decide +kernel

theorem shiftRight_four_lt : ∀ x : UInt8, x >>> 4 < 16 := by
  decide +kernel

theorem and_fifteen_lt : ∀ x : UInt8, x &&& 15 < 16 := by
  decide +kernel

theorem halves_or : ∀ x : UInt8, ((x >>> 4) <<< 4) ||| (x &&& 15) = x := by
  decide +kernel

namespace Bytes

def digits (b : Bytes) : Bytes :=
  b.flatMap fun (x : UInt8) => [hexDigit (x >>> 4), hexDigit (x &&& 15)]

theorem put_eq (b : Bytes) : put b = digits b ++ [0] := rfl

theorem digits_cons (x : UInt8) (b : Bytes) :
    digits (x :: b) = hexDigit (x >>> 4) :: hexDigit (x &&& 15) :: digits b := rfl

@[simp] theorem length_digits (b : Bytes) : (digits b).length = 2 * b.length := by
  induction b with
  | nil => rfl
  | cons x b ih =>
    rw [digits_cons, List.length_cons, List.length_cons, ih, List.length_cons]
    omega

theorem blank_lt_of_mem_digits {b : Bytes} {c : UInt8} (member : c ∈ digits b) : 32 < c := by
  obtain ⟨x, -, digit⟩ := List.mem_flatMap.mp member
  rcases List.mem_pair.mp digit with rfl | rfl
  · exact blank_lt_hexDigit _ (shiftRight_four_lt x)
  · exact blank_lt_hexDigit _ (and_fifteen_lt x)

theorem eq_zero_or_blank_lt_of_mem_put {b : Bytes} {c : UInt8} (member : c ∈ put b) :
    c = 0 ∨ 32 < c := by
  rw [put_eq] at member
  rcases List.mem_append.mp member with digit | nul
  · exact .inr (blank_lt_of_mem_digits digit)
  · exact .inl (List.mem_singleton.mp nul)

theorem ne_blank_of_mem_put {b : Bytes} {c : UInt8} (member : c ∈ put b) : c ≠ 32 := by
  rintro rfl
  rcases eq_zero_or_blank_lt_of_mem_put member with nul | digit
  · exact absurd nul (by decide)
  · exact absurd digit (by decide)

theorem ofCString_put (b rest : Bytes) : ofCString (put b ++ rest) = digits b := by
  rw [put_eq, List.append_assoc]
  apply takeWhile_ne_append
  rintro c member rfl
  exact absurd (blank_lt_of_mem_digits member) (by decide)

theorem hex2binLoop_digits_append {maxlen : Nat} (b written rest : Bytes)
    (room : written.length + b.length ≤ maxlen) :
    hex2binLoop maxlen written (digits b ++ rest) = hex2binLoop maxlen (written ++ b) rest := by
  induction b generalizing written with
  | nil => rw [List.append_nil]; rfl
  | cons x b ih =>
    rw [List.length_cons] at room
    have room' : (written ++ [x]).length + b.length ≤ maxlen := by
      rw [List.length_append, List.length_singleton]
      omega
    rw [digits_cons, List.cons_append, List.cons_append, hex2binLoop,
      hexValue_hexDigit _ (shiftRight_four_lt x), hexValue_hexDigit _ (and_fifteen_lt x)]
    simp only [if_pos (show written.length < maxlen by omega), halves_or]
    rw [ih _ room', List.append_assoc, List.singleton_append]

theorem fromHex_digits_append (self b rest : Bytes) (half : rest.length / 2 = 0)
    (stops : (hex2binLoop b.length b rest).1 = b) : fromHex self (digits b ++ rest) = b := by
  have length : (self.takeD ((digits b ++ rest).length / 2) 0).length = b.length := by
    rw [List.takeD_length, List.length_append, length_digits]
    omega
  unfold fromHex hex2bin
  simp only [length]
  rw [hex2binLoop_digits_append b [] rest (by simp), List.nil_append, stops,
    List.drop_of_length_le length.le, List.append_nil]

theorem fromHex_digits (self b : Bytes) : fromHex self (digits b) = b := by
  have read := fromHex_digits_append self b [] rfl rfl
  rwa [List.append_nil] at read

/-- What is printed of a buffer is read back as it: its NUL is no digit. -/
theorem fromHex_put (self b : Bytes) : fromHex self (put b) = b :=
  fromHex_digits_append self b [0] rfl rfl

/-! ## Texts that are no digits -/

def HexText (s : Bytes) : Prop := s.length % 2 = 0 ∧ ∀ c ∈ s, (hexValue c).isSome

theorem hexText_digits (b : Bytes) : HexText (digits b) := by
  constructor
  · rw [length_digits]
    omega
  · intro c member
    obtain ⟨x, -, digit⟩ := List.mem_flatMap.mp member
    rcases List.mem_pair.mp digit with rfl | rfl
    · rw [hexValue_hexDigit _ (shiftRight_four_lt x)]
      rfl
    · rw [hexValue_hexDigit _ (and_fifteen_lt x)]
      rfl

theorem hexText_cons_cons (c₁ c₂ : UInt8) (s : Bytes) :
    HexText (c₁ :: c₂ :: s) ↔
      ((hexValue c₁).isSome ∧ (hexValue c₂).isSome) ∧ HexText s := by
  have even : (c₁ :: c₂ :: s).length % 2 = s.length % 2 := by
    rw [List.length_cons, List.length_cons]
    omega
  unfold HexText
  rw [even, List.forall_mem_cons, List.forall_mem_cons]
  tauto

theorem hex2binLoop_snd_iff (maxlen : Nat) (written s : Bytes)
    (room : written.length + s.length / 2 ≤ maxlen) :
    (hex2binLoop maxlen written s).2 = true ↔ HexText s := by
  fun_induction hex2binLoop maxlen written s with
  | case1 written c₁ c₂ rest high low second first inside ih =>
    have room' : (written ++ [high <<< 4 ||| low]).length + rest.length / 2 ≤ maxlen := by
      rw [List.length_append, List.length_singleton]
      rw [List.length_cons, List.length_cons] at room
      omega
    rw [hexText_cons_cons, first, second, ih room']
    simp
  | case2 written c₁ c₂ rest high low second first full =>
    rw [List.length_cons, List.length_cons] at room
    omega
  | case3 written c₁ c₂ rest other =>
    rw [hexText_cons_cons]
    refine iff_of_false Bool.false_ne_true ?_
    rintro ⟨⟨first, second⟩, -⟩
    obtain ⟨high, first⟩ := Option.isSome_iff_exists.mp first
    obtain ⟨low, second⟩ := Option.isSome_iff_exists.mp second
    exact other high low first second
  | case4 written c => simp [HexText]
  | case5 written => simp [HexText]

theorem hex2bin_fst_eq_iff (s : Bytes) : (hex2bin (s.length / 2) s).1 = -1 ↔ ¬ HexText s := by
  have ends := hex2binLoop_snd_iff (s.length / 2) [] s (by simp)
  unfold hex2bin
  rw [← ends]
  cases ended : (hex2binLoop (s.length / 2) [] s).2 <;> simp [ended]

def PrintsDigits (b : Bytes) : Prop :=
  (put b).length = 2 * b.length ∧ ∀ c ∈ put b, (hexValue c).isSome

/-- A call of `from_hex`, which returns whatever the decoder reported. -/
def callFromHex (self hex : Bytes) : Cpp Bytes := .ok (fromHex self hex)

/-- A text that is not hexadecimal ends the call with an error, or it is at least the text of
the bytes that are left. -/
def Rejects (self s : Bytes) : Prop :=
  ¬ HexText s → (∃ fault, callFromHex self s = .error fault) ∨ digits (fromHex self s) = s

theorem not_printsDigits (b : Bytes) : ¬ PrintsDigits b := by
  rintro ⟨length, -⟩
  rw [put_eq, List.length_append, List.length_singleton, length_digits] at length
  omega

theorem not_rejects (self : Bytes) {s : Bytes} (malformed : ¬ HexText s) : ¬ Rejects self s := by
  intro rejects
  rcases rejects malformed with ⟨fault, failed⟩ | same
  · cases failed
  · apply malformed
    rw [← same]
    exact hexText_digits _

/-- No buffer is printed without its NUL, though it is read back from what is printed; and no
text that is not hexadecimal is rejected, though the decoder reports each of them. -/
theorem hexCodec_never (self : Bytes) :
    (∀ b, ¬ PrintsDigits b ∧ fromHex self (put b) = b) ∧
      ∀ s, ¬ HexText s → (hex2bin (s.length / 2) s).1 = -1 ∧ ¬ Rejects self s :=
  ⟨fun b => ⟨not_printsDigits b, fromHex_put self b⟩,
    fun s malformed => ⟨(hex2bin_fst_eq_iff s).mpr malformed, not_rejects self malformed⟩⟩

theorem hexCodec_fails : ¬ PrintsDigits [1] ∧ ¬ Rejects [] [122, 122] := by
  refine ⟨not_printsDigits [1], not_rejects [] ?_⟩
  rintro ⟨-, digit⟩
  exact absurd (digit 122 List.mem_cons_self) (by decide)

end Bytes

end Pttp
