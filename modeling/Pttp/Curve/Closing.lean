import Pttp.Sodium

/-!
# Messages that are closed and opened again

`EncryptedMessage`, `SealedMessage` and `SignedMessage` make a buffer of the length
of the message and the overhead of their primitive, and to open it refuse every
buffer that is not longer than the overhead. That is one byte too many: the empty
message is closed to the overhead alone.
-/

namespace Pttp

def Bytes.writeOver (buffer written : Bytes) : Bytes := written ++ buffer.drop written.length

theorem Bytes.writeOver_of_length_eq {buffer written : Bytes}
    (length : written.length = buffer.length) : buffer.writeOver written = written := by
  rw [writeOver, List.drop_of_length_le length.ge, List.append_nil]

/-- `SafeBytes(int n)` and a primitive that writes to it: whether it did, and the buffer. The
size comes as a `size_t`, and a buffer that is shorter for it is written past its end. -/
def closeInto (size : Nat) (output : Option Bytes) : Cpp (Bool × Bytes) := do
  let buffer ← Bytes.ofInt (Bytes.sizeToInt size)
  match output with
  | none => return (false, buffer)
  | some written =>
      if buffer.length < written.length then .error .pastEnd
      else return (true, buffer.writeOver written)

/-- `decrypt` and `verify`: the guard, `message.resize`, which leaves zero bytes, and the
primitive. -/
def reopen (overhead : Nat) (primitive : Bytes → Option Bytes) (closed message : Bytes) :
    Bool × Bytes :=
  if closed.length ≤ overhead then (false, message)
  else
    let buffer : Bytes := List.replicate (closed.length - overhead) 0
    match primitive closed with
    | none => (false, buffer)
    | some opened => (true, buffer.writeOver opened)

/-! ## The three classes -/

structure EncryptedMessage where
  message : Bytes
  encMessage : Bytes
  nonce : Bytes

structure SealedMessage where
  message : Bytes
  sealedMessage : Bytes

structure SignedMessage where
  message : Bytes
  signedMessage : Bytes

section Classes

variable (B : BoxScheme) (S : CombinedSignScheme)

/-- `EncryptedMessage(Bytes &message_, PublicKey &pub, SecretKey &priv)`; `nonce` is the one that
`Nonce` draws. -/
def EncryptedMessage.ofMessage (nonce message pub priv : Bytes) : Cpp EncryptedMessage := do
  let (done, encMessage) ← closeInto (message.length + 16) (B.easy message nonce pub priv)
  if done then return ⟨message, encMessage, nonce⟩ else .error .thrown

def EncryptedMessage.ofEncMessage (nonce encMessage : Bytes) : EncryptedMessage :=
  ⟨[], encMessage, nonce⟩

def EncryptedMessage.decrypt (self : EncryptedMessage) (pub priv nonce : Bytes) :
    Bool × EncryptedMessage :=
  let (opened, message) :=
    reopen 16 (B.openEasy · nonce pub priv) self.encMessage self.message
  (opened, { self with message })

/-- `SealedMessage(Bytes &message_, PublicKey &pub)`, which ignores the return code. -/
def SealedMessage.ofMessage (random message pub : Bytes) : Cpp SealedMessage := do
  let (_, sealedMessage) ← closeInto (message.length + 48) (B.boxSeal random message pub)
  return ⟨message, sealedMessage⟩

def SealedMessage.ofSealedMessage (sealedMessage : Bytes) : SealedMessage := ⟨[], sealedMessage⟩

def SealedMessage.decrypt (self : SealedMessage) (pub priv : Bytes) : Bool × SealedMessage :=
  let (opened, message) := reopen 48 (B.sealOpen · pub priv) self.sealedMessage self.message
  (opened, { self with message })

def SignedMessage.ofMessage (message sk : Bytes) : Cpp SignedMessage := do
  let (done, signedMessage) ← closeInto (message.length + 64) (some (S.cryptoSign message sk))
  if done then return ⟨message, signedMessage⟩ else .error .thrown

def SignedMessage.ofSignedMessage (signedMessage : Bytes) : SignedMessage := ⟨[], signedMessage⟩

def SignedMessage.verify (self : SignedMessage) (pub : Bytes) : Bool × SignedMessage :=
  let (opened, message) := reopen 64 (S.cryptoSignOpen · pub) self.signedMessage self.message
  (opened, { self with message })

/-! ## There and back -/

/-- Closed by the second pair for the first, and opened by the first with the nonce that the
message was closed with. -/
def EncryptedMessage.Reopens (nonce nonce' message pub₁ priv₁ pub₂ priv₂ : Bytes) : Prop :=
  ∃ enc dec, ofMessage B nonce message pub₁ priv₂ = .ok enc ∧
    (ofEncMessage nonce' enc.encMessage).decrypt B pub₂ priv₁ enc.nonce = (true, dec) ∧
      dec.message = message

def SealedMessage.Reopens (random message pub priv : Bytes) : Prop :=
  ∃ closed unsealed, ofMessage B random message pub = .ok closed ∧
    (ofSealedMessage closed.sealedMessage).decrypt B pub priv = (true, unsealed) ∧
      unsealed.message = message

def SignedMessage.Reopens (message pub sk : Bytes) : Prop :=
  ∃ sign verified, ofMessage S message sk = .ok sign ∧
    (ofSignedMessage sign.signedMessage).verify S pub = (true, verified) ∧
      verified.message = message

end Classes

/-! ## The buffers -/

theorem closeInto_of_lt {closed : Bytes} {size : Nat} (length : closed.length = size)
    (small : size < 2 ^ 31) : closeInto size (some closed) = .ok (true, closed) := by
  have same : closed.length = (List.replicate size (0 : UInt8)).length := by
    rw [List.length_replicate, length]
  unfold closeInto
  rw [Bytes.sizeToInt_of_lt small, Bytes.ofInt_natCast, Cpp.ok_bind]
  simp only [if_neg same.not_gt, Bytes.writeOver_of_length_eq same]
  rfl

theorem closeInto_of_le {closed : Bytes} {size : Nat} (length : closed.length = size)
    (large : 2 ^ 31 ≤ size) : ∃ fault, closeInto size (some closed) = .error fault := by
  have short : Bytes.sizeToInt size < size := by
    unfold Bytes.sizeToInt
    rw [Int.bmod_def]
    omega
  unfold closeInto Bytes.ofInt
  split
  case isTrue => exact ⟨.thrown, rfl⟩
  case isFalse =>
    have few : (List.replicate (Bytes.sizeToInt size).toNat (0 : UInt8)).length <
        closed.length := by
      rw [List.length_replicate]
      omega
    refine ⟨.pastEnd, ?_⟩
    rw [Cpp.ok_bind]
    simp only [if_pos few]

theorem reopen_of_length {overhead : Nat} {primitive : Bytes → Option Bytes}
    {closed message : Bytes} (length : closed.length = message.length + overhead)
    (opens : primitive closed = some message) :
    reopen overhead primitive closed [] = (decide (message ≠ []), message) := by
  unfold reopen
  by_cases empty : message = []
  · have short : closed.length ≤ overhead := by
      rw [length, empty, List.length_nil]
      omega
    rw [if_pos short, empty]
    rfl
  · have long : ¬ closed.length ≤ overhead := by
      have := List.length_pos_iff.mpr empty
      omega
    have same : message.length =
        (List.replicate (closed.length - overhead) (0 : UInt8)).length := by
      rw [List.length_replicate]
      omega
    rw [if_neg long]
    simp only [opens, Bytes.writeOver_of_length_eq same, decide_eq_true empty]

theorem done_of_closeInto {closed buffer : Bytes} {size : Nat} {done : Bool}
    (made : closeInto size (some closed) = .ok (done, buffer)) : done = true := by
  obtain ⟨blank, -, made⟩ := Cpp.bind_eq_ok.mp made
  simp only at made
  split at made
  · cases made
  · exact (Prod.mk.inj (Except.ok.inj made)).1.symm

theorem exists_made_iff {α : Type} {closed : Bytes} {size : Nat} {build : Bool × Bytes → Cpp α}
    (make : Bytes → α) (returns : ∀ buffer, build (true, buffer) = .ok (make buffer))
    (Q : α → Prop) :
    (∃ made, (closeInto size (some closed) >>= build) = .ok made ∧ Q made) ↔
      ∃ buffer, closeInto size (some closed) = .ok (true, buffer) ∧ Q (make buffer) := by
  constructor
  · rintro ⟨made, making, holds⟩
    obtain ⟨⟨done, buffer⟩, closing, making⟩ := Cpp.bind_eq_ok.mp making
    obtain rfl := done_of_closeInto closing
    rw [returns] at making
    obtain rfl := Except.ok.inj making
    exact ⟨buffer, closing, holds⟩
  · rintro ⟨buffer, closing, holds⟩
    refine ⟨make buffer, ?_, holds⟩
    rw [closing]
    exact returns buffer

theorem exists_opened_iff {α : Type} {result : Bool × Bytes} (make : Bytes → α)
    (content : α → Bytes) (reads : ∀ b, content (make b) = b) (message : Bytes) :
    (∃ opened, (result.1, make result.2) = (true, opened) ∧ content opened = message) ↔
      result = (true, message) := by
  constructor
  · rintro ⟨opened, same, holds⟩
    obtain ⟨passed, rfl⟩ := Prod.mk.inj same
    rw [reads] at holds
    exact Prod.ext passed holds
  · rintro rfl
    exact ⟨make message, rfl, reads message⟩

theorem closeInto_reopen_iff {overhead : Nat} (primitive : Bytes → Option Bytes)
    {closed message : Bytes} (length : closed.length = message.length + overhead)
    (opens : primitive closed = some message) :
    (∃ buffer, closeInto (message.length + overhead) (some closed) = .ok (true, buffer) ∧
      reopen overhead primitive buffer [] = (true, message)) ↔
      message ≠ [] ∧ message.length + overhead < 2 ^ 31 := by
  rcases Nat.lt_or_ge (message.length + overhead) (2 ^ 31) with small | large
  · rw [closeInto_of_lt length small]
    have back := reopen_of_length length opens
    constructor
    · rintro ⟨buffer, same, opened⟩
      obtain ⟨-, rfl⟩ := Prod.mk.inj (Except.ok.inj same)
      rw [back] at opened
      exact ⟨of_decide_eq_true (Prod.mk.inj opened).1, small⟩
    · rintro ⟨nonempty, -⟩
      refine ⟨closed, rfl, ?_⟩
      rw [back, decide_eq_true nonempty]
  · obtain ⟨fault, failed⟩ := closeInto_of_le length large
    rw [failed]
    constructor
    · rintro ⟨buffer, made, -⟩
      cases made
    · rintro ⟨-, small⟩
      omega

/-! ## What reopens -/

variable {B : BoxScheme} {S : CombinedSignScheme}

theorem EncryptedMessage.reopens_iff {nonce nonce' message pub₁ priv₁ pub₂ priv₂ : Bytes}
    (first : B.Pair pub₁ priv₁) (second : B.Pair pub₂ priv₂) :
    Reopens B nonce nonce' message pub₁ priv₁ pub₂ priv₂ ↔
      message ≠ [] ∧ message.length + 16 < 2 ^ 31 := by
  obtain ⟨closed, easy, length, opens⟩ :=
    B.openEasy_easy message nonce pub₁ priv₁ pub₂ priv₂ first second
  rw [← closeInto_reopen_iff (B.openEasy · nonce pub₂ priv₁) length opens]
  unfold Reopens ofMessage
  rw [easy]
  simp only [exists_and_left]
  refine (exists_made_iff (fun buffer => ⟨message, buffer, nonce⟩) (fun _ => rfl) _).trans ?_
  apply exists_congr
  intro buffer
  refine and_congr_right fun _ => ?_
  exact exists_opened_iff (fun opened => ⟨opened, buffer, nonce'⟩) EncryptedMessage.message
    (fun _ => rfl) message

theorem SealedMessage.reopens_iff {random message pub priv : Bytes} (paired : B.Pair pub priv) :
    Reopens B random message pub priv ↔ message ≠ [] ∧ message.length + 48 < 2 ^ 31 := by
  obtain ⟨closed, boxSeal, length, opens⟩ := B.sealOpen_boxSeal random message pub priv paired
  rw [← closeInto_reopen_iff (B.sealOpen · pub priv) length opens]
  unfold Reopens ofMessage
  rw [boxSeal]
  simp only [exists_and_left]
  refine (exists_made_iff (fun buffer => ⟨message, buffer⟩) (fun _ => rfl) _).trans ?_
  apply exists_congr
  intro buffer
  refine and_congr_right fun _ => ?_
  exact exists_opened_iff (fun opened => ⟨opened, buffer⟩) SealedMessage.message (fun _ => rfl)
    message

theorem SignedMessage.reopens_iff {message pub sk : Bytes} (paired : S.Pair pub sk) :
    Reopens S message pub sk ↔ message ≠ [] ∧ message.length + 64 < 2 ^ 31 := by
  have length := S.length_cryptoSign message sk
  have opens := S.cryptoSignOpen_cryptoSign message paired
  rw [← closeInto_reopen_iff (S.cryptoSignOpen · pub) length opens]
  unfold Reopens ofMessage
  simp only [exists_and_left]
  refine (exists_made_iff (fun buffer => ⟨message, buffer⟩) (fun _ => rfl) _).trans ?_
  apply exists_congr
  intro buffer
  refine and_congr_right fun _ => ?_
  exact exists_opened_iff (fun opened => ⟨opened, buffer⟩) SignedMessage.message (fun _ => rfl)
    message

/-- Under matching keys the three give a message back when it has a byte, and with the overhead
is no longer than an `int`. -/
theorem closed_reopens_iff {pub₁ priv₁ pub₂ priv₂ pub sk : Bytes} (first : B.Pair pub₁ priv₁)
    (second : B.Pair pub₂ priv₂) (signing : S.Pair pub sk)
    (nonce nonce' random message : Bytes) :
    (EncryptedMessage.Reopens B nonce nonce' message pub₁ priv₁ pub₂ priv₂ ↔
      message ≠ [] ∧ message.length + 16 < 2 ^ 31) ∧
    (SealedMessage.Reopens B random message pub₁ priv₁ ↔
      message ≠ [] ∧ message.length + 48 < 2 ^ 31) ∧
    (SignedMessage.Reopens S message pub sk ↔ message ≠ [] ∧ message.length + 64 < 2 ^ 31) :=
  ⟨EncryptedMessage.reopens_iff first second, SealedMessage.reopens_iff first,
    SignedMessage.reopens_iff signing⟩

theorem closed_reopens_byte :
    EncryptedMessage.Reopens .padding [] [] [7] [1] [1] [2] [2] ∧
      SealedMessage.Reopens .padding [] [7] [1] [1] ∧
      SignedMessage.Reopens .prefixing [7] [3] [3] := by
  have first : BoxScheme.padding.Pair [1] [1] := rfl
  have second : BoxScheme.padding.Pair [2] [2] := rfl
  have signing : CombinedSignScheme.prefixing.Pair [3] [3] := rfl
  have nonempty : ([7] : Bytes) ≠ [] := List.cons_ne_nil _ _
  obtain ⟨encrypted, boxed, signed⟩ := closed_reopens_iff first second signing [] [] [] [7]
  exact ⟨encrypted.mpr ⟨nonempty, by decide⟩, boxed.mpr ⟨nonempty, by decide⟩,
    signed.mpr ⟨nonempty, by decide⟩⟩

theorem not_reopens_empty :
    ¬ EncryptedMessage.Reopens .padding [] [] [] [1] [1] [2] [2] ∧
      ¬ SealedMessage.Reopens .padding [] [] [1] [1] ∧
      ¬ SignedMessage.Reopens .prefixing [] [3] [3] := by
  refine ⟨?_, ?_, ?_⟩
  · rw [EncryptedMessage.reopens_iff rfl rfl]
    simp
  · rw [SealedMessage.reopens_iff rfl]
    simp
  · rw [SignedMessage.reopens_iff rfl]
    simp

end Pttp
