import Pttp.Chain.BlockHeader
import Pttp.Messages.Reply

/-!
# Mining

`mine` hashes the bare block and wants one zero byte in front. `serve` hashes what it
received and wants two, and it learns that it received a block from the tag of a
`Message`. The first word of a bare block is its time, and the tag is read there.
-/

namespace Pttp

open StructLayout

def blockObject (block : Messages.Block) : Object :=
  .struct [block.time] [.bytes block.prevHash, .bytes block.transactionHash,
    .bytes block.utxoHash, .bytes block.nonce]

def blockOf (s : Struct) : Option Messages.Block := do
  let prevHash ← (s.pointer 0).asBytes
  let transactionHash ← (s.pointer 1).asBytes
  let utxoHash ← (s.pointer 2).asBytes
  let nonce ← (s.pointer 3).asBytes
  return ⟨prevHash, transactionHash, utxoHash, nonce, s.uint64 0⟩

def Wire.blocks (wire : Wire) : Codec Messages.Block where
  write block := wire.pack (blockObject block)
  decode b := (wire.unpack b).bind fun o => o.asStruct.bind blockOf
  decode_write block := by
    rw [wire.unpack_pack]
    rfl

namespace Chain

/-- The builder of a `Block`. A field that was not set stays a null pointer. -/
structure BlockBuilder where
  prevHash : Option Bytes
  transactionHash : Option Bytes
  utxoHash : Option Bytes
  nonce : Option Bytes
  time : UInt64
  deriving DecidableEq

namespace BlockBuilder

def new : BlockBuilder := ⟨none, none, none, none, 0⟩

def pointer : Option Bytes → Object
  | none => .null
  | some b => .bytes b

def object (builder : BlockBuilder) : Object :=
  .struct [builder.time] [pointer builder.prevHash, pointer builder.transactionHash,
    pointer builder.utxoHash, pointer builder.nonce]

def stamp (builder : BlockBuilder) (now : UInt64) (rnd : Bytes) : BlockBuilder :=
  { builder with time := now, nonce := some rnd }

def header (builder : BlockBuilder) : BlockHeader :=
  { BlockHeader.new with
    prevHash := builder.prevHash.getD []
    txHash := builder.transactionHash.getD []
    utxoHash := builder.utxoHash.getD []
    nonce := builder.nonce.getD []
    T := builder.time }

def HashesSet (builder : BlockBuilder) : Prop :=
  builder.prevHash.isSome ∧ builder.transactionHash.isSome ∧ builder.utxoHash.isSome

end BlockBuilder

variable (G : GenericHash) (P : PwHash) (wire : Wire)

/-- One round of `mine`: what it broadcasts, if it does. The hashes that the source has
yet to set come with the builder; today it is `new`. -/
def mineRound (builder : BlockBuilder) (now : UInt64) (rnd : Bytes) : Cpp (Option Bytes) := do
  let b := wire.pack (builder.stamp now rnd).object
  let hardHash ← hardHash G P b
  let first ← Cpp.index hardHash 0
  if first = 0 then return some b else return none

/-- `serve` up to the answer to BLOCK; nothing when the tag is another one. -/
def serveBlock (b : Bytes) : Cpp (Option Reply) := do
  let message ← wire.root b
  if message.uint16 0 = 7 then
    let hardHash ← hardHash G P b
    let first ← Cpp.index hardHash 0
    if first = 0 then
      let second ← Cpp.index hardHash 1
      if second = 0 then return some .ok else return some .reject
    else return some .reject
  else return none

/-- The test that `add_block_if_ok` begins with. -/
def proofOfWorkOk (header : BlockHeader) : Cpp Bool := do
  let hash ← header.calculateHash wire.blocks G P
  let first ← Cpp.index hash 0
  return decide (first = 0)

def hardHashOf (m : Bytes) : Bytes :=
  (P.derive .interactive 32 m (G.digest 16 m)).getD (List.replicate 32 0)

def Agreed (builder : BlockBuilder) (b : Bytes) : Prop :=
  serveBlock G P wire b = .ok (some .ok) ∧ proofOfWorkOk G P wire builder.header = .ok true

section HardHash

variable {G P}

theorem hardHash_eq (m : Bytes) : hardHash G P m = .ok (hardHashOf G P m) := by
  have salted : hashSized G m 16 = .ok (G.digest 16 m) :=
    hashSized_of_le G m (n := 16) (by decide) (by decide)
  unfold hardHash
  rw [salted, Cpp.ok_bind]
  rfl

theorem length_hardHashOf (m : Bytes) : (hardHashOf G P m).length = 32 := by
  unfold hardHashOf
  cases derived : P.derive .interactive 32 m (G.digest 16 m) with
  | none => rfl
  | some out => exact P.length_derive _ _ _ _ _ derived

theorem index_hardHashOf (m : Bytes) {i : Nat} (inside : i < 32) :
    ∃ x, (hardHashOf G P m)[i]? = some x ∧ Cpp.index (hardHashOf G P m) i = .ok x := by
  rw [← length_hardHashOf (G := G) (P := P) m] at inside
  exact ⟨_, List.getElem?_eq_getElem inside, Cpp.index_of_lt inside⟩

end HardHash

variable {G P wire}

theorem mineRound_eq_some_iff {builder : BlockBuilder} {now : UInt64} {rnd b : Bytes} :
    mineRound G P wire builder now rnd = .ok (some b) ↔
      b = wire.pack (builder.stamp now rnd).object ∧ (hardHashOf G P b)[0]? = some 0 := by
  obtain ⟨first, there, read⟩ := index_hardHashOf (G := G) (P := P)
    (wire.pack (builder.stamp now rnd).object) (i := 0) (by decide)
  unfold mineRound
  simp only [hardHash_eq, Cpp.ok_bind, read]
  constructor
  · intro mined
    split at mined
    · obtain rfl := Option.some.inj (Except.ok.inj mined)
      rename_i zero
      exact ⟨rfl, there.trans (congrArg some zero)⟩
    · cases Except.ok.inj mined
  · rintro ⟨rfl, zero⟩
    rw [if_pos (Option.some.inj (there.symm.trans zero))]
    rfl

theorem uint16_time_eq_iff (builder : BlockBuilder) (pointers : List Object) :
    (⟨[builder.time], pointers⟩ : Struct).uint16 0 = 7 ↔ builder.time.toNat % 2 ^ 16 = 7 := by
  rw [Reply.uint16_singleton, ← UInt16.toNat_inj, UInt16.toNat_ofNat']
  rfl

/-- `serve` answers ok to a bare block whose time has the tag of a block in its low half
word and whose hash begins with two zero bytes. -/
theorem serveBlock_eq_ok_iff (builder : BlockBuilder) :
    serveBlock G P wire (wire.pack builder.object) = .ok (some .ok) ↔
      builder.time.toNat % 2 ^ 16 = 7 ∧
        (hardHashOf G P (wire.pack builder.object))[0]? = some 0 ∧
        (hardHashOf G P (wire.pack builder.object))[1]? = some 0 := by
  obtain ⟨first, first_there, first_read⟩ := index_hardHashOf (G := G) (P := P)
    (wire.pack builder.object) (i := 0) (by decide)
  obtain ⟨second, second_there, second_read⟩ := index_hardHashOf (G := G) (P := P)
    (wire.pack builder.object) (i := 1) (by decide)
  have root : wire.root (wire.pack builder.object) = _ := wire.root_pack _ _
  unfold serveBlock
  rw [root, Cpp.ok_bind, first_there, second_there]
  simp only [hardHash_eq, Cpp.ok_bind, first_read, second_read]
  by_cases tag : builder.time.toNat % 2 ^ 16 = 7
  · rw [if_pos ((uint16_time_eq_iff builder _).mpr tag)]
    by_cases zero : first = 0
    · rw [if_pos zero]
      by_cases zero' : second = 0
      · rw [if_pos zero']
        exact iff_of_true rfl ⟨tag, congrArg some zero, congrArg some zero'⟩
      · rw [if_neg zero']
        refine iff_of_false (fun answer => ?_) fun both => zero' (Option.some.inj both.2.2)
        cases Except.ok.inj answer
    · rw [if_neg zero]
      refine iff_of_false (fun answer => ?_) fun both => zero (Option.some.inj both.2.1)
      cases Except.ok.inj answer
  · rw [if_neg (fun is => tag ((uint16_time_eq_iff builder _).mp is))]
    refine iff_of_false (fun answer => ?_) fun both => tag both.1
    cases Except.ok.inj answer

theorem proofOfWorkOk_eq_true_iff (header : BlockHeader) :
    proofOfWorkOk G P wire header = .ok true ↔
      (hardHashOf G P (header.bytes wire.blocks))[0]? = some 0 := by
  obtain ⟨first, there, read⟩ := index_hardHashOf (G := G) (P := P)
    (header.bytes wire.blocks) (i := 0) (by decide)
  unfold proofOfWorkOk BlockHeader.calculateHash
  rw [hardHash_eq, Cpp.ok_bind, read, there]
  simp [pure, Except.pure]

theorem bytes_header_of_set {builder : BlockBuilder} (set : builder.HashesSet) (now : UInt64)
    (rnd : Bytes) :
    (builder.stamp now rnd).header.bytes wire.blocks =
      wire.pack (builder.stamp now rnd).object := by
  obtain ⟨prevHash, transactionHash, utxoHash, nonce, time⟩ := builder
  obtain ⟨prevSet, transactionSet, utxoSet⟩ := set
  obtain ⟨prevHash, rfl⟩ := Option.isSome_iff_exists.mp prevSet
  obtain ⟨transactionHash, rfl⟩ := Option.isSome_iff_exists.mp transactionSet
  obtain ⟨utxoHash, rfl⟩ := Option.isSome_iff_exists.mp utxoSet
  rfl

/-- A mined block is agreed on when its time ends in the tag of a block, its hash has a
second zero byte, and its header hashes to a zero byte as well: with the hashes set, the
header has the bytes that were mined. -/
theorem mined_agreed_iff {builder : BlockBuilder} {now : UInt64} {rnd b : Bytes}
    (mined : mineRound G P wire builder now rnd = .ok (some b)) :
    Agreed G P wire (builder.stamp now rnd) b ↔
      now.toNat % 2 ^ 16 = 7 ∧
        (hardHashOf G P (wire.pack (builder.stamp now rnd).object))[1]? = some 0 ∧
        (builder.HashesSet ∨
          (hardHashOf G P ((builder.stamp now rnd).header.bytes wire.blocks))[0]? = some 0) := by
  obtain ⟨rfl, zero⟩ := mineRound_eq_some_iff.mp mined
  have same : builder.HashesSet →
      (hardHashOf G P ((builder.stamp now rnd).header.bytes wire.blocks))[0]? = some 0 := by
    intro set
    rw [bytes_header_of_set set]
    exact zero
  unfold Agreed
  rw [serveBlock_eq_ok_iff, proofOfWorkOk_eq_true_iff]
  constructor
  · rintro ⟨⟨tag, -, second⟩, passed⟩
    exact ⟨tag, second, .inr passed⟩
  · rintro ⟨tag, second, set | passed⟩
    · exact ⟨⟨tag, zero, second⟩, same set⟩
    · exact ⟨⟨tag, zero, second⟩, passed⟩

def luckyHash : PwHash where
  derive _ n _ _ := some (List.replicate n 0)
  length_derive _ n _ _ out h := by
    rw [← Option.some.inj h, List.length_replicate]

theorem hardHashOf_lucky (m : Bytes) : hardHashOf G luckyHash m = List.replicate 32 0 := rfl

theorem mineRound_lucky (builder : BlockBuilder) (now : UInt64) (rnd : Bytes) :
    mineRound G luckyHash wire builder now rnd =
      .ok (some (wire.pack (builder.stamp now rnd).object)) :=
  mineRound_eq_some_iff.mpr ⟨rfl, by rw [hardHashOf_lucky]; rfl⟩

theorem mined_agreed_at_seven :
    Agreed .polynomial luckyHash .ofEncodable (BlockBuilder.new.stamp 7 (List.replicate 32 1))
      (Wire.ofEncodable.pack (BlockBuilder.new.stamp 7 (List.replicate 32 1)).object) :=
  (mined_agreed_iff (mineRound_lucky .new 7 (List.replicate 32 1))).mpr
    ⟨by decide, by rw [hardHashOf_lucky]; rfl, .inr (by rw [hardHashOf_lucky]; rfl)⟩

theorem mined_not_agreed_at_eight :
    mineRound .polynomial luckyHash .ofEncodable .new 8 (List.replicate 32 1) =
      .ok (some (Wire.ofEncodable.pack (BlockBuilder.new.stamp 8 (List.replicate 32 1)).object)) ∧
    ¬ Agreed .polynomial luckyHash .ofEncodable (BlockBuilder.new.stamp 8 (List.replicate 32 1))
      (Wire.ofEncodable.pack (BlockBuilder.new.stamp 8 (List.replicate 32 1)).object) := by
  refine ⟨mineRound_lucky _ _ _, ?_⟩
  rintro ⟨served, -⟩
  have tag := ((serveBlock_eq_ok_iff _).mp served).1
  exact absurd tag (by decide)

end Chain

end Pttp
