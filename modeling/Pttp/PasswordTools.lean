import Pttp.Curve

/-!
# Password encryption: enc and hexenc

The two programs differ in how they read the message. The pad is one call of the
hash with the message length as its output length, so a message longer than the
hash can be is printed as it came in.
-/

namespace Pttp

variable (G : GenericHash) (P : PwHash)

/-- The key both programs derive from the password and the 8-byte salt. -/
def passwordKey (passB saltB : Bytes) : Cpp Bytes := do
  let saltH ← hashSized G saltB 16
  let salt ← hardHashSalt saltH
  return hardestHash P passB salt

/-- The body of the two programs, from `Bytes pass_b` to the printed values. -/
def encrypt (msgB passB saltB : Bytes) : Cpp (Bytes × Bytes) := do
  let h ← passwordKey G P passB saltB
  let hh ← hashSized G h (Bytes.sizeToInt msgB.length)
  let msgB ← msgB.xOr hh
  return (msgB, saltB)

def printEncrypted (out : Bytes × Bytes) : Bytes :=
  Bytes.put out.1 ++ [32] ++ Bytes.put out.2 ++ [10]

/-- The exit code and the standard output of enc. -/
def enc (argv : List Bytes) (saltB : Bytes) : Cpp (Int × Bytes) :=
  match argv with
  | [_, message, password] => do
      let out ← encrypt G P (Bytes.ofCString message) (Bytes.ofCString password) saltB
      return (0, printEncrypted out)
  | _ => return (1, [])

/-- hexenc reads its message from hexadecimal text. -/
def hexenc (argv : List Bytes) (saltB : Bytes) : Cpp (Int × Bytes) :=
  match argv with
  | [_, hexmessage, password] => do
      let out ← encrypt G P (Bytes.fromHex [] (Bytes.ofCString hexmessage))
        (Bytes.ofCString password) saltB
      return (0, printEncrypted out)
  | _ => return (1, [])

def passwordHash (passB saltB : Bytes) : Bytes := hardestHash P passB (G.digest 16 saltB)

theorem passwordKey_eq (passB saltB : Bytes) :
    passwordKey G P passB saltB = .ok (passwordHash G P passB saltB) := by
  have salted : hashSized G saltB 16 = .ok (G.digest 16 saltB) :=
    hashSized_of_le G saltB (n := 16) (by decide) (by decide)
  rw [passwordKey, salted, Cpp.ok_bind, hardHashSalt, if_pos (G.length_digest 16 saltB)]
  rfl

/-- The program prints the message under a pad that a successful hash call of the
message's length made from the password. -/
def Hides (message password saltB : Bytes) (printed : Cpp (Int × Bytes)) : Prop :=
  ∃ pad, G.cryptoGenerichash (List.replicate message.length 0)
      (passwordHash G P password saltB) = (0, pad) ∧
    printed = .ok (0, printEncrypted (List.zipWith (· ^^^ ·) message pad, saltB))

theorem encrypt_of_le {message : Bytes} (positive : 0 < message.length)
    (short : message.length ≤ 64) (passB saltB : Bytes) :
    encrypt G P message passB saltB =
      .ok (List.zipWith (· ^^^ ·) message
        (G.digest message.length (passwordHash G P passB saltB)), saltB) := by
  have size : Bytes.sizeToInt message.length = message.length :=
    Bytes.sizeToInt_of_lt (by omega)
  rw [encrypt, passwordKey_eq, Cpp.ok_bind, size, hashSized_of_le G _ positive short,
    Cpp.ok_bind, Bytes.xOr_of_length_eq (G.length_digest _ _)]
  rfl

theorem encrypt_of_lt {message : Bytes} (long : 64 < message.length)
    (addressable : message.length < 2 ^ 31) (passB saltB : Bytes) :
    encrypt G P message passB saltB = .ok (message, saltB) := by
  rw [encrypt, passwordKey_eq, Cpp.ok_bind, Bytes.sizeToInt_of_lt addressable,
    hashSized_of_lt G _ long, Cpp.ok_bind, Bytes.xOr_replicate_zero]
  rfl

theorem hides_iff (message passB saltB : Bytes) :
    Hides G P message passB saltB
        ((fun out => (0, printEncrypted out)) <$> encrypt G P message passB saltB) ↔
      0 < message.length ∧ message.length ≤ 64 := by
  constructor
  · rintro ⟨pad, hashed, _⟩
    by_contra outside
    have refused : G.cryptoGenerichash (List.replicate message.length 0)
        (passwordHash G P passB saltB) = (-1, List.replicate message.length 0) :=
      if_pos (by rw [List.length_replicate]; omega)
    rw [refused] at hashed
    simp at hashed
  · rintro ⟨positive, short⟩
    refine ⟨G.digest message.length (passwordHash G P passB saltB), ?_, ?_⟩
    · rw [G.cryptoGenerichash_of_le _ (by simpa) (by simpa), List.length_replicate]
    · rw [encrypt_of_le G P positive short]
      rfl

/-- A message is hidden by enc and by hexenc exactly when it is not empty and at
most 64 bytes long. -/
theorem enc_hides_iff (name argument password saltB : Bytes) :
    (Hides G P (Bytes.ofCString argument) (Bytes.ofCString password) saltB
        (enc G P [name, argument, password] saltB) ↔
      0 < (Bytes.ofCString argument).length ∧ (Bytes.ofCString argument).length ≤ 64) ∧
    (Hides G P (Bytes.fromHex [] (Bytes.ofCString argument)) (Bytes.ofCString password) saltB
        (hexenc G P [name, argument, password] saltB) ↔
      0 < (Bytes.fromHex [] (Bytes.ofCString argument)).length ∧
        (Bytes.fromHex [] (Bytes.ofCString argument)).length ≤ 64) :=
  ⟨hides_iff G P _ _ _, hides_iff G P _ _ _⟩

theorem enc_prints_long_message :
    ¬ Hides .polynomial .concatenation (Bytes.ofCString (List.replicate 65 97))
        (Bytes.ofCString [112, 119]) (List.replicate 8 0)
        (enc .polynomial .concatenation [[101], List.replicate 65 97, [112, 119]]
          (List.replicate 8 0)) ∧
    enc .polynomial .concatenation [[101], List.replicate 65 97, [112, 119]]
        (List.replicate 8 0) =
      .ok (0, printEncrypted (List.replicate 65 97, List.replicate 8 0)) := by
  have message : Bytes.ofCString (List.replicate 65 97) = List.replicate 65 97 := by decide
  constructor
  · intro hidden
    have short := ((hides_iff _ _ _ _ _).mp hidden).2
    rw [message, List.length_replicate] at short
    omega
  · simp only [enc, message]
    rw [encrypt_of_lt _ _ (by rw [List.length_replicate]; decide)
      (by rw [List.length_replicate]; decide)]
    rfl

end Pttp
