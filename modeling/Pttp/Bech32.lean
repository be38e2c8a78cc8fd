import Pttp.Bytes
import Pttp.Lib.XorChecksum

/-!
# bech32 text

`bytes_to_bech32` regroups bytes into groups of five bits and hands them to
`bech32_encode`, whose test of the length is commented out. `bech32_decode` kept its
own: ninety characters.
-/

namespace Pttp

open XorChecksum

/-- A term of `bech32_polymod_step`: `-((b >> i) & 1) & g`. -/
def generator (b : BitVec 8) (i : Nat) (g : BitVec 32) : BitVec 32 :=
  -((b >>> i) &&& 1#8).setWidth 32 &&& g

def polymodStep (pre : BitVec 32) : BitVec 32 :=
  let b := (pre >>> 25).setWidth 8
  ((pre &&& 0x1FFFFFF#32) <<< 5) ^^^ generator b 0 0x3b6a57b2#32 ^^^
    generator b 1 0x26508e6d#32 ^^^ generator b 2 0x1ea119fa#32 ^^^
    generator b 3 0x3d4233dd#32 ^^^ generator b 4 0x2a1462b3#32

def charset : Bytes :=
  [113, 112, 122, 114, 121, 57, 120, 56, 103, 102, 50, 116, 118, 100, 119, 48,
    115, 51, 106, 110, 53, 52, 107, 104, 99, 101, 54, 109, 117, 97, 55, 108]

def charsetRev : List Int :=
  [-1, -1, -1, -1, -1, -1, -1, -1, -1, -1, -1, -1, -1, -1, -1, -1,
    -1, -1, -1, -1, -1, -1, -1, -1, -1, -1, -1, -1, -1, -1, -1, -1,
    -1, -1, -1, -1, -1, -1, -1, -1, -1, -1, -1, -1, -1, -1, -1, -1,
    15, -1, 10, 17, 21, 20, 26, 30, 7, 5, -1, -1, -1, -1, -1, -1,
    -1, 29, -1, 24, 13, 25, 9, 8, 23, -1, 18, 22, 31, 27, 19, -1,
    1, 0, 3, 16, 11, 28, 12, 14, 6, 4, 2, -1, -1, -1, -1, -1,
    -1, 29, -1, 24, 13, 25, 9, 8, 23, -1, 18, 22, 31, 27, 19, -1,
    1, 0, 3, 16, 11, 28, 12, 14, 6, 4, 2, -1, -1, -1, -1, -1]

/-- `c >> 5` of a `char`, which is signed. -/
def highBits (c : UInt8) : BitVec 32 := (c.toBitVec.signExtend 32).sshiftRight 5

def lowBits (c : UInt8) : BitVec 32 := c.toBitVec.signExtend 32 &&& 0x1f#32

def ofGroup (v : UInt8) : BitVec 32 := v.toBitVec.setWidth 32

/-- The register after the human-readable part, which is taken in twice. -/
def hrpChecksum (hrp : Bytes) : BitVec 32 :=
  feed polymodStep (polymodStep (feed polymodStep 1#32 (hrp.map highBits))) (hrp.map lowBits)

/-- The loop of `bech32_encode` over the data: what is written, and the register unless a
group is refused. -/
def encodeData : BitVec 32 → Bytes → Bytes × Option (BitVec 32)
  | chk, [] => ([], some chk)
  | chk, v :: rest =>
      if v >>> 5 ≠ 0 then ([], none)
      else
        let (written, chk) := encodeData (polymodStep chk ^^^ ofGroup v) rest
        (charset.getD v.toNat 0 :: written, chk)

def checksumGroups (chk : BitVec 32) : Bytes :=
  (digits 5 6 chk).map fun digit => UInt8.ofBitVec (digit.setWidth 8)

/-- `bech32_encode`: the return code, and what it wrote to the front of the buffer. -/
def bech32Encode (hrp data : Bytes) : Int × Bytes :=
  if hrp.any (fun c => highBits c = 0) then (0, [])
  else
    let (written, chk) := encodeData (hrpChecksum hrp) data
    match chk with
    | none => (0, hrp ++ [49] ++ written)
    | some chk =>
        let chk := polymodStep^[6] chk ^^^ 1#32
        (1, hrp ++ [49] ++ written ++
          (checksumGroups chk).map (fun v => charset.getD v.toNat 0) ++ [0])

/-- The loop of `bytes_to_bech32`. A byte is added where `r` has come to it, and there
`r % 8` is at most 4. -/
def regroupLoop (b : Bytes) (l r n last : Nat) : Bytes :=
  if b.length ≤ l / 8 then []
  else
    let added := r / 8 ≠ last ∧ r / 8 < b.length
    let n := if added then n + (b.getD (r / 8) 0).toNat <<< (5 - r % 8) else n
    let last := if added then r / 8 else last
    UInt8.ofNat (n % 2 ^ 5) :: regroupLoop b (l + 5) (r + 5) (n >>> 5) last
termination_by 8 * b.length - l

/-- `enc5`. -/
def regroup (b : Bytes) : Bytes := regroupLoop b 0 5 (b.getD 0 0).toNat 0

/-- `bytes_to_bech32`: the text in a string that was blank. -/
def bytesToBech32 (pre b : Bytes) : Bytes :=
  if b.length = 0 then []
  else
    let enc5 := regroup b
    let blank := List.replicate (pre.length + enc5.length + 8) 32
    let written := (bech32Encode (Bytes.ofCString pre) enc5).2
    written ++ blank.drop written.length

def isLower (c : UInt8) : Bool := 97 ≤ c && c ≤ 122

def isUpper (c : UInt8) : Bool := 65 ≤ c && c ≤ 90

structure Decoder where
  chk : BitVec 32
  haveLower : Bool
  haveUpper : Bool

/-- The first loop of `bech32_decode`. -/
def decodeHrp : Decoder → Bytes → Option (Decoder × Bytes)
  | s, [] => some (s, [])
  | s, c :: rest => do
      -- a `char` from 128 on is negative
      if c < 33 ∨ 126 < c then none
      else
        let ch := if isUpper c then c - 65 + 97 else c
        let (s, hrp) ← decodeHrp ⟨polymodStep s.chk ^^^ highBits ch, s.haveLower || isLower c,
          s.haveUpper || isUpper c⟩ rest
        return (s, ch :: hrp)

/-- The last loop of `bech32_decode`. -/
def decodeData : Decoder → Bytes → Option (Decoder × Bytes)
  | s, [] => some (s, [])
  | s, c :: rest => do
      let v := if c &&& 0x80 ≠ 0 then -1 else charsetRev.getD c.toNat 0
      if v = -1 then none
      else
        let (s, data) ← decodeData ⟨polymodStep s.chk ^^^ BitVec.ofInt 32 v,
          s.haveLower || isLower c, s.haveUpper || isUpper c⟩ rest
        return (s, UInt8.ofInt v :: data)

/-- `bech32_decode` on a C string: the human-readable part and the data, when it returns 1. -/
def bech32Decode (input : Bytes) : Option (Bytes × Bytes) := do
  if input.length < 8 ∨ 90 < input.length then none
  else
    let dataLen := (input.reverse.takeWhile (· ≠ 49)).length
    -- without a separator the length of the first part wraps, and its loop ends at the NUL
    if dataLen = input.length then none
    else
      let hrpLen := input.length - (1 + dataLen)
      if hrpLen < 1 ∨ dataLen < 6 then none
      else
        let (s, hrp) ← decodeHrp ⟨1#32, false, false⟩ (input.take hrpLen)
        let chk := feed polymodStep (polymodStep s.chk) ((input.take hrpLen).map lowBits)
        let (s, data) ← decodeData { s with chk := chk } (input.drop (hrpLen + 1))
        if s.haveLower && s.haveUpper then none
        else if s.chk = 1#32 then some (hrp, data.take (dataLen - 6)) else none

end Pttp
