import Pttp.Bytes

/-!
# From the socket to the reader

`serve` takes the third frame of what `recv_multi` delivers without looking at
their number, and `kjwp` hands its bytes to the reader as a range of 8-byte words
that counts one word for every two bytes. The reader trusts the range: it accepts
the segment tables that fit in it.
-/

namespace Pttp

/-- `Bytes::kjwp`: the words of the range. -/
def Bytes.kjwp (b : Bytes) : Nat := (b.length + 1) / 2

/-- `serve` up to the reader of the message: the frame and the words handed over. -/
def ingest (frames : List Bytes) : Cpp (Bytes × Nat) := do
  let message ← Cpp.index frames 2
  return (message, message.kjwp)

/-! ## Segment tables -/

/-- The words of a message of these segments: the table, padded to whole words, and
the segments. -/
def tableWords (sizes : List Nat) : Nat := sizes.length / 2 + 1 + sizes.sum

/-- `FlatArrayMessageReader` on a range: what the table announces has to fit. -/
def Accepts (words : Nat) (sizes : List Nat) : Prop := tableWords sizes ≤ words

def leNat (b : Bytes) : Nat := Nat.ofDigits 256 (b.map UInt8.toNat)

def segmentSizes (b : Bytes) : List Nat :=
  (List.range (leNat (b.take 4) + 1)).map fun i => leNat ((b.drop (4 + 4 * i)).take 4)

/-- The frame is there, the range lies in it, and no table that the reader accepts
reaches past it. -/
def StaysInside (frames : List Bytes) : Prop :=
  ∃ message words, ingest frames = .ok (message, words) ∧ 8 * words ≤ message.length ∧
    ∀ sizes, sizes ≠ [] → Accepts words sizes → 8 * tableWords sizes ≤ message.length

theorem ingest_eq_ok_iff {frames : List Bytes} {message : Bytes} {words : Nat} :
    ingest frames = .ok (message, words) ↔
      frames[2]? = some message ∧ words = message.kjwp := by
  unfold ingest
  rw [Cpp.bind_eq_ok]
  constructor
  · rintro ⟨frame, read, handed⟩
    obtain ⟨rfl, rfl⟩ := Prod.mk.inj (Except.ok.inj handed)
    exact ⟨Cpp.index_eq_ok_iff.mp read, rfl⟩
  · rintro ⟨there, rfl⟩
    exact ⟨message, Cpp.index_eq_ok_iff.mpr there, rfl⟩

/-! ## The range and the frame -/

theorem kjwp_le_iff (b : Bytes) : 8 * b.kjwp ≤ b.length ↔ b = [] := by
  rw [← List.length_eq_zero_iff]
  unfold Bytes.kjwp
  omega

theorem tableWords_pos (sizes : List Nat) : 0 < tableWords sizes := by
  unfold tableWords
  omega

theorem not_accepts_zero (sizes : List Nat) : ¬ Accepts 0 sizes :=
  Nat.not_le.mpr (tableWords_pos sizes)

theorem staysInside_iff (frames : List Bytes) :
    StaysInside frames ↔ frames[2]? = some [] := by
  constructor
  · rintro ⟨message, words, taken, inside, -⟩
    obtain ⟨there, rfl⟩ := ingest_eq_ok_iff.mp taken
    rw [(kjwp_le_iff message).mp inside] at there
    exact there
  · intro empty
    refine ⟨[], 0, ingest_eq_ok_iff.mpr ⟨empty, rfl⟩, Nat.le_refl _, ?_⟩
    intro sizes _ accepted
    exact absurd accepted (not_accepts_zero sizes)

theorem not_staysInside_two : ¬ StaysInside [[1], []] := by
  rintro ⟨message, words, taken, -⟩
  have missing : ingest [[1], []] = .error .pastEnd := rfl
  rw [missing] at taken
  cases taken

/-! ## A table that reaches past its frame -/

def leBytes (n : Nat) : Bytes :=
  [n, n / 256, n / 65536, n / 16777216].map UInt8.ofNat

theorem leNat_leBytes {n : Nat} (small : n < 2 ^ 32) : leNat (leBytes n) = n := by
  simp [leNat, leBytes, Nat.ofDigits_cons]
  omega

/-- One segment that takes the rest of the range of a frame of `size` bytes. -/
def overreaching (size : Nat) : Bytes :=
  leBytes 0 ++ leBytes ((size + 1) / 2 - 1) ++ List.replicate (size - 8) 0

theorem length_overreaching {size : Nat} (large : 8 ≤ size) :
    (overreaching size).length = size := by
  simp [overreaching, leBytes]
  omega

theorem segmentSizes_overreaching {size : Nat} (small : size < 2 ^ 33) :
    segmentSizes (overreaching size) = [(size + 1) / 2 - 1] := by
  have number : leNat ((overreaching size).take 4) = 0 := leNat_leBytes (by norm_num)
  have table : leNat (((overreaching size).drop 4).take 4) = (size + 1) / 2 - 1 :=
    leNat_leBytes (by omega)
  rw [segmentSizes, number]
  simpa using table

/-- A peer can write, in a frame of any size that holds a table, one that the reader
accepts and whose segment ends behind the frame. -/
theorem accepts_overreaching {size : Nat} (large : 8 ≤ size) (small : size < 2 ^ 33) :
    (overreaching size).length = size ∧
      Accepts (overreaching size).kjwp (segmentSizes (overreaching size)) ∧
        size < 8 * tableWords (segmentSizes (overreaching size)) := by
  have length := length_overreaching large
  refine ⟨length, ?_, ?_⟩
  · rw [segmentSizes_overreaching small]
    unfold Accepts tableWords Bytes.kjwp
    rw [length]
    simp
    omega
  · rw [segmentSizes_overreaching small]
    simp [tableWords]
    omega

end Pttp
