import Pttp.Bytes

/-!
# What the program takes from libsodium

The primitives are parameters. Their interfaces are here as the program sees
them: the output buffer it hands in, the return code it ignores, and the
properties it relies on.
-/

namespace Pttp

/-- `digest n m` is the `n`-byte hash of `m`. -/
structure GenericHash where
  digest : Nat → Bytes → Bytes
  length_digest : ∀ n m, (digest n m).length = n

/-- `crypto_generichash(out, outlen, in, inlen, NULL, 0)`: the return code and
the buffer. An output length of 0 or above 64 is refused and leaves the buffer
as it was. -/
def GenericHash.cryptoGenerichash (G : GenericHash) (out m : Bytes) : Int × Bytes :=
  if out.length = 0 ∨ 64 < out.length then (-1, out) else (0, G.digest out.length m)

theorem GenericHash.cryptoGenerichash_of_le (G : GenericHash) {out : Bytes} (m : Bytes)
    (positive : 0 < out.length) (short : out.length ≤ 64) :
    G.cryptoGenerichash out m = (0, G.digest out.length m) := by
  rw [cryptoGenerichash, if_neg (by omega)]

theorem GenericHash.cryptoGenerichash_of_lt (G : GenericHash) {out : Bytes} (m : Bytes)
    (long : 64 < out.length) : G.cryptoGenerichash out m = (-1, out) :=
  if_pos (.inr long)

theorem GenericHash.length_cryptoGenerichash (G : GenericHash) (out m : Bytes) :
    (G.cryptoGenerichash out m).2.length = out.length := by
  unfold cryptoGenerichash
  split
  · rfl
  · exact G.length_digest _ _

def GenericHash.polynomial : GenericHash where
  digest n m := (m.foldl (fun acc x => 31 * acc + x) 7 :: List.replicate 31 0).takeD n 0
  length_digest n _ := List.takeD_length n _ 0

/-- `digest key m` is the 8-byte hash of `m` under a key of 16 bytes. -/
structure ShortHash where
  digest : Bytes → Bytes → Bytes
  length_digest : ∀ key m, (digest key m).length = 8

/-- `crypto_shorthash(out, in, inlen, key)`, which reads 16 bytes of the key
whatever its length. -/
def ShortHash.cryptoShorthash (S : ShortHash) (key m : Bytes) : Cpp Bytes :=
  if key.length < 16 then .error .pastEnd else .ok (S.digest (key.take 16) m)

theorem ShortHash.cryptoShorthash_of_le (S : ShortHash) {key : Bytes} (m : Bytes)
    (long : 16 ≤ key.length) : S.cryptoShorthash key m = .ok (S.digest (key.take 16) m) :=
  if_neg (by omega)

/-- A small keyed hash to run the program with on given inputs: the first byte of
the key and that of the message, in the half the program looks at. -/
def ShortHash.firstBytes : ShortHash where
  digest key m := List.replicate 6 0 ++ [key.headD 0, m.headD 0]
  length_digest _ _ := rfl

inductive PwLimits where
  | interactive
  | sensitive
  deriving DecidableEq, Repr

/-- `crypto_pwhash`; no output when the memory it asks for is not there. -/
structure PwHash where
  derive : PwLimits → Nat → Bytes → Bytes → Option Bytes
  length_derive : ∀ limits n password salt out,
    derive limits n password salt = some out → out.length = n

def PwHash.concatenation : PwHash where
  derive _ n password salt := some ((password ++ salt).takeD n 0)
  length_derive _ n password salt out h := by
    rw [← Option.some.inj h]
    exact List.takeD_length n _ 0

/-- Detached signatures. `Pair pub priv` says that the two keys were made by one
call of `crypto_sign_keypair` or `crypto_sign_seed_keypair`. -/
structure SignScheme where
  sign : Bytes → Bytes → Bytes
  verify : Bytes → Bytes → Bytes → Bool
  Pair : Bytes → Bytes → Prop
  verify_sign : ∀ message pub priv, Pair pub priv → verify (sign message priv) message pub = true

def SignScheme.prefixing : SignScheme where
  sign message priv := priv ++ message
  verify sig message pub := decide (sig = pub ++ message)
  Pair pub priv := pub = priv
  verify_sign _ _ _ paired := decide_eq_true (congrArg (· ++ _) paired.symm)

/-- Signatures of `crypto_sign_BYTES`. -/
structure CombinedSignScheme extends SignScheme where
  length_sign : ∀ message priv, (sign message priv).length = 64

def CombinedSignScheme.cryptoSign (S : CombinedSignScheme) (message priv : Bytes) : Bytes :=
  S.sign message priv ++ message

def CombinedSignScheme.cryptoSignOpen (S : CombinedSignScheme) (signed pub : Bytes) :
    Option Bytes :=
  if 64 ≤ signed.length ∧ S.verify (signed.take 64) (signed.drop 64) pub then
    some (signed.drop 64)
  else none

theorem CombinedSignScheme.length_cryptoSign (S : CombinedSignScheme) (message priv : Bytes) :
    (S.cryptoSign message priv).length = message.length + 64 := by
  rw [cryptoSign, List.length_append, S.length_sign, Nat.add_comm]

theorem CombinedSignScheme.cryptoSignOpen_cryptoSign (S : CombinedSignScheme) (message : Bytes)
    {pub priv : Bytes} (paired : S.Pair pub priv) :
    S.cryptoSignOpen (S.cryptoSign message priv) pub = some message := by
  have length := S.length_sign message priv
  have long : 64 ≤ (S.cryptoSign message priv).length := by
    rw [S.length_cryptoSign]
    exact Nat.le_add_left _ _
  have front : (S.cryptoSign message priv).take 64 = S.sign message priv :=
    List.take_left' length
  have back : (S.cryptoSign message priv).drop 64 = message := List.drop_left' length
  rw [cryptoSignOpen, front, back, if_pos ⟨long, S.verify_sign message pub priv paired⟩]

def CombinedSignScheme.prefixing : CombinedSignScheme where
  sign message priv := (priv ++ message).takeD 64 0
  verify sig message pub := decide (sig = (pub ++ message).takeD 64 0)
  Pair pub priv := pub = priv
  verify_sign _ _ _ paired := decide_eq_true (by rw [paired])
  length_sign _ _ := List.takeD_length _ _ _

/-- Boxes between two key pairs of `crypto_box_keypair`, and sealed boxes to one of them under
random bytes of their own. Closing fails for public keys that are none. -/
structure BoxScheme where
  easy : (message nonce pub priv : Bytes) → Option Bytes
  openEasy : (closed nonce pub priv : Bytes) → Option Bytes
  boxSeal : (random message pub : Bytes) → Option Bytes
  sealOpen : (closed pub priv : Bytes) → Option Bytes
  Pair : Bytes → Bytes → Prop
  openEasy_easy : ∀ message nonce pub priv pub' priv', Pair pub priv → Pair pub' priv' →
    ∃ closed, easy message nonce pub priv' = some closed ∧
      closed.length = message.length + 16 ∧ openEasy closed nonce pub' priv = some message
  sealOpen_boxSeal : ∀ random message pub priv, Pair pub priv →
    ∃ closed, boxSeal random message pub = some closed ∧
      closed.length = message.length + 48 ∧ sealOpen closed pub priv = some message

def BoxScheme.padding : BoxScheme where
  easy message _ _ _ := some (List.replicate 16 0 ++ message)
  openEasy closed _ _ _ := some (closed.drop 16)
  boxSeal _ message _ := some (List.replicate 48 0 ++ message)
  sealOpen closed _ _ := some (closed.drop 48)
  Pair pub priv := pub = priv
  openEasy_easy message _ _ _ _ _ _ _ :=
    ⟨_, rfl, by rw [List.length_append, List.length_replicate, Nat.add_comm],
      congrArg some (List.drop_left' List.length_replicate)⟩
  sealOpen_boxSeal _ message _ _ _ :=
    ⟨_, rfl, by rw [List.length_append, List.length_replicate, Nat.add_comm],
      congrArg some (List.drop_left' List.length_replicate)⟩

/-! ## Hexadecimal text -/

def hexDigit (n : UInt8) : UInt8 := if n < 10 then 48 + n else 87 + n

def hexValue (c : UInt8) : Option UInt8 :=
  if 48 ≤ c ∧ c ≤ 57 then some (c - 48)
  else if 65 ≤ c ∧ c ≤ 70 then some (c - 55)
  else if 97 ≤ c ∧ c ≤ 102 then some (c - 87)
  else none

/-- `sodium_bin2hex`: two digits for every byte, then a NUL. -/
def bin2hex (b : Bytes) : Bytes :=
  b.flatMap (fun (x : UInt8) => [hexDigit (x >>> 4), hexDigit (x &&& 15)]) ++ [0]

/-- The loop of `sodium_hex2bin`: it stops at a character that is no digit and
when `maxlen` bytes are written. The flag says that all text was consumed, an
odd last digit not counted. -/
def hex2binLoop (maxlen : Nat) : Bytes → Bytes → Bytes × Bool
  | written, c₁ :: c₂ :: rest =>
      match hexValue c₁, hexValue c₂ with
      | some high, some low =>
          if written.length < maxlen then
            hex2binLoop maxlen (written ++ [(high <<< 4) ||| low]) rest
          else (written, false)
      | _, _ => (written, false)
  | written, [_] => (written, false)
  | written, [] => (written, true)

/-- `sodium_hex2bin(bin, bin_maxlen, hex, hex_len, NULL, NULL, NULL)`: the return
code and the bytes it wrote to the front of the buffer. -/
def hex2bin (maxlen : Nat) (hex : Bytes) : Int × Bytes :=
  let result := hex2binLoop maxlen [] hex
  (if result.2 then 0 else -1, result.1)

namespace Bytes

/-- `operator<<`: the whole buffer goes out, its NUL included. -/
def put (b : Bytes) : Bytes := bin2hex b

/-- `Bytes::from_hex`: the return code of the decoder is not looked at. -/
def fromHex (self hex : Bytes) : Bytes :=
  let buffer := self.takeD (hex.length / 2) 0
  let written := (hex2bin buffer.length hex).2
  written ++ buffer.drop written.length

end Bytes

end Pttp
