import Pttp.Bech32
import Pttp.Curve.Closing
import Pttp.PasswordTools.RoundTrip

/-!
# Sealed to a password: fullenc and fulldec

The key that the password gives is the seed of a key pair, and the message is sealed to it.
`fulldec` does not look at what `decrypt` returns: for an empty message that is false, and the
message of the object is empty all the same.
-/

namespace Pttp

structure SeededBoxScheme extends BoxScheme where
  seedKeypair : Bytes → Bytes × Bytes
  pair_seedKeypair : ∀ seed, Pair (seedKeypair seed).1 (seedKeypair seed).2

def SeededBoxScheme.padding : SeededBoxScheme where
  toBoxScheme := BoxScheme.padding
  seedKeypair seed := (seed, seed)
  pair_seedKeypair _ := rfl

variable (G : GenericHash) (P : PwHash) (B : SeededBoxScheme)

/-- `KeyPair pair(hh)`: the public and the private key. -/
def passwordPair (passB saltB : Bytes) : Cpp (Bytes × Bytes) := do
  let h ← passwordKey G P passB saltB
  let hh ← hashSized G h 32
  return B.seedKeypair hh

/-- The two lines of fullenc: in digits, and in groups. -/
def printSealed (sealedMessage saltB : Bytes) : Bytes :=
  printEncrypted (sealedMessage, saltB) ++
    (bytesToBech32 [109] sealedMessage ++ [32] ++ bytesToBech32 [115] saltB ++ [10])

/-- The exit code and the standard output of fullenc; `random` is what sealing draws. -/
def fullenc (argv : List Bytes) (saltB random : Bytes) : Cpp (Int × Bytes) :=
  match argv with
  | [_, message, password] => do
      let (pub, _) ← passwordPair G P B (Bytes.ofCString password) saltB
      let closed ← SealedMessage.ofMessage B.toBoxScheme random (Bytes.ofCString message) pub
      return (0, printSealed closed.sealedMessage saltB)
  | _ => return (1, [])

def fulldec (argv : List Bytes) : Cpp (Int × Bytes) :=
  match argv with
  | [_, msgHex, saltHex, password] => do
      let saltB := Bytes.fromHex [] (Bytes.ofCString saltHex)
      let (pub, priv) ← passwordPair G P B (Bytes.ofCString password) saltB
      let msgB := Bytes.fromHex [] (Bytes.ofCString msgHex)
      let (_, msg) := (SealedMessage.ofSealedMessage msgB).decrypt B.toBoxScheme pub priv
      return (0, printDecrypted msg.message)
  | _ => return (1, [])

variable {G P B}

theorem passwordPair_eq (passB saltB : Bytes) :
    passwordPair G P B passB saltB =
      .ok (B.seedKeypair (G.digest 32 (passwordHash G P passB saltB))) := by
  unfold passwordPair
  rw [passwordKey_eq, Cpp.ok_bind]
  have seeded := hashSized_of_le G (passwordHash G P passB saltB) (n := 32) (by decide) (by decide)
  rw [show ((32 : Nat) : Int) = 32 from rfl] at seeded
  rw [seeded]
  rfl

theorem ofCString_fields_printSealed (sealedMessage saltB : Bytes) :
    Bytes.ofCString (messageField (printSealed sealedMessage saltB)) =
        Bytes.digits sealedMessage ∧
      Bytes.ofCString (saltField (printSealed sealedMessage saltB)) = Bytes.digits saltB := by
  unfold printSealed printEncrypted
  rw [List.append_assoc]
  exact ⟨ofCString_messageField _ _ _, ofCString_saltField _ _ _⟩

/-- A buffer that opens to the message gives it to the object, also where `decrypt` returns
false. -/
theorem decrypt_of_opens {closed message pub priv : Bytes}
    (length : closed.length = message.length + 48)
    (opens : B.sealOpen closed pub priv = some message) :
    (SealedMessage.ofSealedMessage closed).decrypt B.toBoxScheme pub priv =
      (decide (message ≠ []), ⟨message, closed⟩) := by
  have opened : reopen 48 (B.sealOpen · pub priv) closed [] = (decide (message ≠ []), message) :=
    reopen_of_length length opens
  unfold SealedMessage.decrypt SealedMessage.ofSealedMessage
  simp only [opened]

/-- Stated as an equation, so that the call behind it is not run. -/
theorem bind_of_eq_ok {α β : Type} {x : Cpp α} {a : α} (ok : x = .ok a) (f : α → Cpp β) :
    x >>= f = f a := by
  rw [ok, Cpp.ok_bind]

theorem fullenc_eq {password saltB : Bytes} {keys : Bytes × Bytes}
    (derived : passwordPair G P B (Bytes.ofCString password) saltB = .ok keys)
    (name argument random : Bytes) :
    fullenc G P B [name, argument, password] saltB random =
      (SealedMessage.ofMessage B.toBoxScheme random (Bytes.ofCString argument) keys.1 >>=
        fun closed => .ok (0, printSealed closed.sealedMessage saltB)) := by
  unfold fullenc
  dsimp only
  rw [bind_of_eq_ok derived]
  rfl

theorem fulldec_eq {password saltB : Bytes} {keys : Bytes × Bytes}
    (derived : passwordPair G P B (Bytes.ofCString password) saltB = .ok keys)
    (name sealedMessage : Bytes) :
    fulldec G P B [name, messageField (printSealed sealedMessage saltB),
        saltField (printSealed sealedMessage saltB), password] =
      .ok (0, printDecrypted ((SealedMessage.ofSealedMessage sealedMessage).decrypt B.toBoxScheme
        keys.1 keys.2).2.message) := by
  obtain ⟨msgHex, saltHex⟩ := ofCString_fields_printSealed sealedMessage saltB
  unfold fulldec
  dsimp only
  rw [msgHex, saltHex, Bytes.fromHex_digits, Bytes.fromHex_digits, bind_of_eq_ok derived]
  rfl

/-- fulldec undoes fullenc, for the messages that leave room for the seal in an `int`. -/
theorem fullenc_undone_iff (name name' argument password saltB random : Bytes) :
    Undone (fullenc G P B [name, argument, password] saltB random) (fulldec G P B) name' password
        (Bytes.ofCString argument) ↔
      (Bytes.ofCString argument).length + 48 < 2 ^ 31 := by
  have derived := passwordPair_eq (G := G) (P := P) (B := B) (Bytes.ofCString password) saltB
  have paired :=
    B.pair_seedKeypair (G.digest 32 (passwordHash G P (Bytes.ofCString password) saltB))
  obtain ⟨closed, boxSeal, length, opens⟩ :=
    B.sealOpen_boxSeal random (Bytes.ofCString argument) _ _ paired
  unfold Undone
  rw [fullenc_eq derived, SealedMessage.ofMessage, boxSeal]
  rcases Nat.lt_or_ge ((Bytes.ofCString argument).length + 48) (2 ^ 31) with small | large
  · refine iff_of_true ⟨printSealed closed saltB, ?_, ?_⟩ small
    · rw [closeInto_of_lt length small]
      rfl
    · rw [fulldec_eq derived, decrypt_of_opens length opens]
  · obtain ⟨fault, failed⟩ := closeInto_of_le length large
    refine iff_of_false ?_ (Nat.not_lt.mpr large)
    rw [failed]
    rintro ⟨line, made, -⟩
    cases made

end Pttp
