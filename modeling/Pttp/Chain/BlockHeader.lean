import Pttp.Curve
import Pttp.Messages

/-!
# Block headers

`from_bytes` loads the previous hash of the message into `hash`, the field that
`bytes` does not write, and leaves `prev_hash` as it was. A header survives the
wire only when it has no parent to name.
-/

namespace Pttp.Chain

structure BlockHeader where
  hash : Bytes
  prevHash : Bytes
  txHash : Bytes
  utxoHash : Bytes
  nonce : Bytes
  T : UInt64
  height : UInt64
  deriving DecidableEq

namespace BlockHeader

def new : BlockHeader := ⟨[], [], [], [], [], 0, 0⟩

variable (blocks : Codec Messages.Block) (G : GenericHash) (P : PwHash)

def fromBytes (self : BlockHeader) (b : Bytes) : Cpp BlockHeader := do
  let block ← blocks.read b
  return { self with
    -- not `prevHash`
    hash := block.prevHash
    txHash := block.transactionHash
    utxoHash := block.utxoHash
    nonce := block.nonce
    T := block.time }

def bytes (h : BlockHeader) : Bytes :=
  blocks.write ⟨h.prevHash, h.txHash, h.utxoHash, h.nonce, h.T⟩

def calculateHash (h : BlockHeader) : Cpp Bytes := hardHash G P (h.bytes blocks)

/-- The header is loaded back with its fields, and with its serialisation and its
proof-of-work hash. -/
structure Restored (h h' : BlockHeader) : Prop where
  prevHash : h'.prevHash = h.prevHash
  txHash : h'.txHash = h.txHash
  utxoHash : h'.utxoHash = h.utxoHash
  nonce : h'.nonce = h.nonce
  T : h'.T = h.T
  bytes : h'.bytes blocks = h.bytes blocks
  calculateHash : h'.calculateHash blocks G P = h.calculateHash blocks G P

def RoundTrips (h : BlockHeader) : Prop :=
  ∃ h', new.fromBytes blocks (h.bytes blocks) = .ok h' ∧ Restored blocks G P h h'

variable {blocks G P}

theorem fromBytes_bytes (self h : BlockHeader) :
    self.fromBytes blocks (h.bytes blocks) = .ok { self with
      hash := h.prevHash, txHash := h.txHash, utxoHash := h.utxoHash, nonce := h.nonce
      T := h.T } := by
  unfold fromBytes bytes
  rw [Codec.read_write]
  rfl

theorem prevHash_of_fromBytes {self h : BlockHeader} {b : Bytes}
    (loaded : self.fromBytes blocks b = .ok h) : h.prevHash = self.prevHash := by
  obtain ⟨block, -, eq⟩ := Cpp.bind_eq_ok.mp loaded
  rw [← Except.ok.inj eq]

theorem bytes_congr {h h' : BlockHeader} (prevHash : h'.prevHash = h.prevHash)
    (txHash : h'.txHash = h.txHash) (utxoHash : h'.utxoHash = h.utxoHash)
    (nonce : h'.nonce = h.nonce) (T : h'.T = h.T) : h'.bytes blocks = h.bytes blocks := by
  unfold bytes
  rw [prevHash, txHash, utxoHash, nonce, T]

/-- Only a header without a parent survives. -/
theorem roundTrips_iff_prevHash (h : BlockHeader) : RoundTrips blocks G P h ↔ h.prevHash = [] := by
  constructor
  · rintro ⟨h', loaded, restored⟩
    rw [← restored.prevHash]
    exact prevHash_of_fromBytes loaded
  · intro orphan
    have loaded : new.fromBytes blocks (h.bytes blocks) = _ := fromBytes_bytes new h
    set h' : BlockHeader := { new with
      hash := h.prevHash, txHash := h.txHash, utxoHash := h.utxoHash, nonce := h.nonce
      T := h.T }
    have same : h'.bytes blocks = h.bytes blocks :=
      bytes_congr orphan.symm rfl rfl rfl rfl
    refine ⟨h', loaded, ⟨orphan.symm, rfl, rfl, rfl, rfl, same, ?_⟩⟩
    unfold calculateHash
    rw [same]

theorem not_roundTrips_child :
    ¬ RoundTrips (Codec.ofEncodable Messages.Block) .polynomial .concatenation
      { new with prevHash := [1] } := by
  rintro ⟨h', loaded, restored⟩
  have lost := prevHash_of_fromBytes loaded
  rw [restored.prevHash] at lost
  cases lost

end BlockHeader

end Pttp.Chain
