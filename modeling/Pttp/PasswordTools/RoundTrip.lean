import Pttp.Hex
import Pttp.PasswordTools

/-!
# Password encryption undone: dec and hexdec

The pad of a message is made again from the length of its ciphertext, so it cancels,
also where the hash refuses the length and the pad is zero. The length is handed to
the hash as an `int`, which is where a message can be too long.
-/

namespace Pttp

variable (G : GenericHash) (P : PwHash)

/-- The body of dec and hexdec, up to the line they print. -/
def decrypt (msgHex saltHex passB : Bytes) : Cpp Bytes := do
  let saltB := Bytes.fromHex [] saltHex
  let h ← passwordKey G P passB saltB
  let msgB := Bytes.fromHex [] msgHex
  let hh ← hashSized G h (Bytes.sizeToInt msgB.length)
  msgB.xOr hh

def printDecrypted (shown : Bytes) : Bytes := [109, 115, 103, 58, 32] ++ shown ++ [10]

def dec (argv : List Bytes) : Cpp (Int × Bytes) :=
  match argv with
  | [_, msgHex, saltHex, password] => do
      let msgB ← decrypt G P (Bytes.ofCString msgHex) (Bytes.ofCString saltHex)
        (Bytes.ofCString password)
      return (0, printDecrypted msgB)
  | _ => return (1, [])

/-- hexdec prints the message in hexadecimal digits. -/
def hexdec (argv : List Bytes) : Cpp (Int × Bytes) :=
  match argv with
  | [_, msgHex, saltHex, password] => do
      let msgB ← decrypt G P (Bytes.ofCString msgHex) (Bytes.ofCString saltHex)
        (Bytes.ofCString password)
      return (0, printDecrypted (Bytes.put msgB))
  | _ => return (1, [])

def messageField (line : Bytes) : Bytes := line.takeWhile (· ≠ 32)

def saltField (line : Bytes) : Bytes := (line.dropWhile (· ≠ 32)).drop 1

/-! ## The pad -/

section Pad

variable {G}

/-- The message under the pad of its length, zeros where the hash refuses it. -/
def padded (h message : Bytes) : Bytes :=
  List.zipWith (· ^^^ ·) message (G.cryptoGenerichash (List.replicate message.length 0) h).2

theorem length_pad (h message : Bytes) :
    (G.cryptoGenerichash (List.replicate message.length 0) h).2.length = message.length := by
  rw [G.length_cryptoGenerichash, List.length_replicate]

@[simp] theorem length_padded (h message : Bytes) :
    (padded (G := G) h message).length = message.length := by
  unfold padded
  rw [List.length_zipWith, length_pad, Nat.min_self]

theorem zipWith_xor_cancel {message pad : Bytes} (sized : pad.length = message.length) :
    List.zipWith (· ^^^ ·) (List.zipWith (· ^^^ ·) message pad) pad = message := by
  induction message generalizing pad with
  | nil => rfl
  | cons x message ih =>
    cases pad with
    | nil => cases sized
    | cons y pad =>
      rw [List.zipWith_cons_cons, List.zipWith_cons_cons, ih (Nat.succ.inj sized),
        UInt8.xor_assoc, UInt8.xor_self, UInt8.xor_zero]

theorem padded_padded (h message : Bytes) :
    padded (G := G) h (padded (G := G) h message) = message := by
  have again := length_padded (G := G) h message
  unfold padded at again ⊢
  rw [again]
  exact zipWith_xor_cancel (length_pad h message)

theorem xOr_pad {h message : Bytes} (short : message.length < 2 ^ 31) :
    (hashSized G h (Bytes.sizeToInt message.length) >>= message.xOr) =
      .ok (padded (G := G) h message) := by
  rw [Bytes.sizeToInt_of_lt short, hashSized, Bytes.ofInt_natCast]
  simp only [Cpp.ok_bind]
  exact Bytes.xOr_of_length_eq (length_pad h message)

/-- A length that is no `int` gives a hash of another length, or none. -/
theorem xOr_pad_ne_ok {h message out : Bytes} (long : 2 ^ 31 ≤ message.length) :
    (hashSized G h (Bytes.sizeToInt message.length) >>= message.xOr) ≠ .ok out := by
  intro xored
  obtain ⟨hh, hashed, xored⟩ := Cpp.bind_eq_ok.mp xored
  obtain ⟨buffer, sized, digest⟩ := Cpp.bind_eq_ok.mp hashed
  obtain rfl := Except.ok.inj digest
  have small : Bytes.sizeToInt message.length < 2 ^ 31 :=
    Int.bmod_lt (by decide)
  unfold Bytes.ofInt at sized
  split at sized
  · cases sized
  · obtain rfl := Except.ok.inj sized
    unfold Bytes.xOr at xored
    rw [if_neg] at xored
    · cases xored
    · rw [G.length_cryptoGenerichash, List.length_replicate]
      omega

end Pad

/-! ## The round trip -/

variable {G P}

theorem encrypt_of_lt_int {message : Bytes} (short : message.length < 2 ^ 31)
    (passB saltB : Bytes) :
    encrypt G P message passB saltB =
      .ok (padded (G := G) (passwordHash G P passB saltB) message, saltB) := by
  have xored := xOr_pad (G := G) (h := passwordHash G P passB saltB) short
  unfold encrypt
  rw [passwordKey_eq, Cpp.ok_bind, ← bind_assoc, xored]
  rfl

theorem encrypt_ne_ok {message : Bytes} (long : 2 ^ 31 ≤ message.length) (passB saltB : Bytes)
    (out : Bytes × Bytes) : encrypt G P message passB saltB ≠ .ok out := by
  unfold encrypt
  rw [passwordKey_eq, Cpp.ok_bind, ← bind_assoc]
  intro encrypted
  obtain ⟨msgB, xored, -⟩ := Cpp.bind_eq_ok.mp encrypted
  exact xOr_pad_ne_ok long xored

theorem decrypt_digits {message : Bytes} (short : message.length < 2 ^ 31)
    (passB saltB : Bytes) :
    decrypt G P (Bytes.digits (padded (G := G) (passwordHash G P passB saltB) message))
      (Bytes.digits saltB) passB = .ok message := by
  unfold decrypt
  simp only [Bytes.fromHex_digits]
  rw [passwordKey_eq, Cpp.ok_bind, xOr_pad (by rwa [length_padded]), padded_padded]

theorem ofCString_messageField (a b rest : Bytes) :
    Bytes.ofCString (messageField (Bytes.put a ++ [32] ++ Bytes.put b ++ rest)) =
      Bytes.digits a := by
  have field : messageField (Bytes.put a ++ [32] ++ Bytes.put b ++ rest) = Bytes.put a := by
    unfold messageField
    rw [List.append_assoc, List.append_assoc]
    exact Bytes.takeWhile_ne_append (fun c => Bytes.ne_blank_of_mem_put) _
  have whole := Bytes.ofCString_put a []
  rwa [List.append_nil, ← field] at whole

theorem ofCString_saltField (a b rest : Bytes) :
    Bytes.ofCString (saltField (Bytes.put a ++ [32] ++ Bytes.put b ++ rest)) =
      Bytes.digits b := by
  have field : saltField (Bytes.put a ++ [32] ++ Bytes.put b ++ rest) =
      Bytes.put b ++ rest := by
    unfold saltField
    rw [List.append_assoc, List.append_assoc, List.singleton_append,
      Bytes.dropWhile_ne_append fun c => Bytes.ne_blank_of_mem_put]
    rfl
  rw [field, Bytes.ofCString_put]

/-- What a tool printed was decrypted to `shown` by its counterpart. -/
def Undone (encoded : Cpp (Int × Bytes)) (decode : List Bytes → Cpp (Int × Bytes))
    (name password shown : Bytes) : Prop :=
  ∃ line, encoded = .ok (0, line) ∧
    decode [name, messageField line, saltField line, password] = .ok (0, printDecrypted shown)

theorem undone_iff {message password saltB name shown : Bytes}
    {decode : List Bytes → Cpp (Int × Bytes)}
    (decodes : ∀ line, line = printEncrypted
        (padded (G := G) (passwordHash G P (Bytes.ofCString password) saltB) message, saltB) →
      message.length < 2 ^ 31 →
      decode [name, messageField line, saltField line, password] = .ok (0, printDecrypted shown)) :
    Undone ((fun out => (0, printEncrypted out)) <$>
        encrypt G P message (Bytes.ofCString password) saltB) decode name password shown ↔
      message.length < 2 ^ 31 := by
  rcases Nat.lt_or_ge message.length (2 ^ 31) with short | long
  · refine iff_of_true ⟨_, ?_, decodes _ rfl short⟩ short
    rw [encrypt_of_lt_int short]
    rfl
  · refine iff_of_false ?_ (Nat.not_lt.mpr long)
    rintro ⟨line, printed, -⟩
    obtain ⟨out, encrypted, -⟩ := Cpp.bind_eq_ok.mp printed
    exact encrypt_ne_ok long _ _ _ encrypted

/-- dec undoes enc, and hexdec undoes hexenc, for the messages whose length is an `int`. -/
theorem enc_undone_iff (name name' argument password saltB : Bytes) :
    (Undone (enc G P [name, argument, password] saltB) (dec G P) name' password
        (Bytes.ofCString argument) ↔
      (Bytes.ofCString argument).length < 2 ^ 31) ∧
    (Undone (hexenc G P [name, argument, password] saltB) (hexdec G P) name' password
        (Bytes.put (Bytes.fromHex [] (Bytes.ofCString argument))) ↔
      (Bytes.fromHex [] (Bytes.ofCString argument)).length < 2 ^ 31) := by
  constructor
  · refine undone_iff fun line printed short => ?_
    simp only [dec, printed, printEncrypted, ofCString_messageField, ofCString_saltField,
      decrypt_digits short]
    rfl
  · refine undone_iff fun line printed short => ?_
    simp only [hexdec, printed, printEncrypted, ofCString_messageField, ofCString_saltField,
      decrypt_digits short]
    rfl

theorem enc_not_undone_at_int :
    ¬ Undone (enc .polynomial .concatenation [[101], List.replicate (2 ^ 31) 97, [112, 119]]
        (List.replicate 8 0)) (dec .polynomial .concatenation) [100] [112, 119]
      (Bytes.ofCString (List.replicate (2 ^ 31) 97)) := by
  rintro ⟨line, printed, -⟩
  obtain ⟨out, encrypted, -⟩ := Cpp.bind_eq_ok.mp printed
  have letters : Bytes.ofCString (List.replicate (2 ^ 31) 97) = List.replicate (2 ^ 31) 97 :=
    List.takeWhile_replicate.trans (if_pos (by decide))
  rw [letters] at encrypted
  exact encrypt_ne_ok (List.length_replicate ▸ Nat.le_refl _) _ _ _ encrypted

end Pttp
