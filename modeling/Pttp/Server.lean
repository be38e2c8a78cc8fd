import Pttp.BloomFilter.Wire
import Pttp.Chain.BlockChain
import Pttp.Messages.Reply

/-!
# Serving sets

The two handlers of `serve` for set reconciliation. The one for filters answers
from `full_set`, the one for elements from `block_chain.hash_sets`, and sends for
each hash the transaction it stands for.
-/

namespace Pttp

/-- What the handlers read: of the chain `txs` and `hash_sets`, and `full_set`. -/
structure Server where
  chain : Chain.BlockChain
  hashSets : Finmap fun _ : Bytes => List Bytes
  fullSet : Finset Bytes

/-- The lines that put a filter into a message. -/
def announce (bloom : Bloom) : Cpp Messages.BloomSet := do
  let data ← bloom.bytes
  return ⟨UInt32.ofInt bloom.P.toInt, data, bloom.key⟩

namespace Server

variable (S : ShortHash) (creditSets : Codec Messages.CreditSet)
  (transactions : Codec Messages.Transaction)

/-- `serve`, REQ_SET_FILTER. Nothing of the request is read; `key` is the one the
filter draws. -/
def reqSetFilter (srv : Server) (key : Bytes) (_req : Messages.Req) : Cpp Reply := do
  let bloom ← Bloom.ofSet S key (srv.fullSet.sort (· ≤ ·))
  let bloomSet ← announce bloom
  return .setFilter ⟨UInt64.ofNat srv.fullSet.card, bloomSet⟩

/-- The loop over `hash_sets[target_hash]`; a hash without a transaction gives a
null pointer. -/
def sendLoop (txs : Finmap fun _ : Bytes => Chain.Transaction) (bloom : Bloom) :
    List Bytes → Cpp (List Bytes)
  | [] => .ok []
  | s :: set => do
      let hit ← bloom.has S s
      if hit then sendLoop txs bloom set
      else
        match txs.lookup s with
        | none => .error .nullPointer
        | some tx => do
            let bs ← sendLoop txs bloom set
            return tx.bytes creditSets transactions :: bs

def reqSet (srv : Server) (request : Messages.ReqSet) : Cpp Reply := do
  let bloom ← Bloom.ofWire request.bloom.data request.bloom.p.toUInt64 request.bloom.hashKey
  match request.req with
  | .txSetHash target =>
      match srv.hashSets.lookup target with
      | none => return .reject
      | some set => do
          let bs ← sendLoop S creditSets transactions srv.chain.txs bloom set
          return .set bs
  | .utxoSetHash _ => return .nothing
  | .blockRange _ => return .nothing

def item (txs : Finmap fun _ : Bytes => Chain.Transaction) (s : Bytes) : Bytes :=
  ((txs.lookup s).map (Chain.Transaction.bytes creditSets transactions)).getD []

variable {S creditSets transactions}

theorem announce_ofSet {key : Bytes} (keyed : 16 ≤ key.length) (elements : List Bytes) :
    ∃ f data g, Bloom.ofSet S key elements = .ok f ∧ announce f = .ok ⟨4999, data, key⟩ ∧
      Bloom.ofWire data (4999 : UInt32).toUInt64 key = .ok g ∧ g.P = 4999 ∧ g.key = key ∧
      Bloom.Represents S g {b | b ∈ elements} := by
  obtain ⟨f, data, g, made, sameP, sameKey, packed, rebuilt, sameP', sameKey', represents⟩ :=
    Bloom.ofWire_ofSet (S := S) keyed elements
  refine ⟨f, data, g, made, ?_, rebuilt, sameP', sameKey', represents⟩
  unfold announce
  rw [packed, sameP, sameKey]
  rfl

/-- Whatever is asked for, the filter stands for `full_set`. -/
theorem reqSetFilter_eq (srv : Server) {key : Bytes} (keyed : 16 ≤ key.length)
    (req : Messages.Req) :
    ∃ data g, srv.reqSetFilter S key req =
        .ok (.setFilter ⟨UInt64.ofNat srv.fullSet.card, ⟨4999, data, key⟩⟩) ∧
      Bloom.ofWire data (4999 : UInt32).toUInt64 key = .ok g ∧ g.P = 4999 ∧ g.key = key ∧
      Bloom.Represents S g srv.fullSet := by
  obtain ⟨f, data, g, made, announced, rebuilt, sameP, sameKey, represents⟩ :=
    announce_ofSet (S := S) keyed (srv.fullSet.sort (· ≤ ·))
  have elements : {b | b ∈ srv.fullSet.sort (· ≤ ·)} = (srv.fullSet : Set Bytes) := by
    ext b
    simp
  refine ⟨data, g, ?_, rebuilt, sameP, sameKey, elements ▸ represents⟩
  unfold reqSetFilter
  rw [made, Cpp.ok_bind, announced]
  rfl

theorem sendLoop_eq {txs : Finmap fun _ : Bytes => Chain.Transaction} {bloom : Bloom}
    (usable : bloom.Usable) {set : List Bytes} (stored : ∀ s ∈ set, s ∈ txs) :
    sendLoop S creditSets transactions txs bloom set =
      .ok ((set.filter fun s => bloom.has S s ≠ .ok true).map
        (item creditSets transactions txs)) := by
  induction set with
  | nil => rfl
  | cons s set ih =>
    have rest := ih fun t member => stored t (List.mem_cons_of_mem s member)
    obtain ⟨hit, answer, -⟩ := usable.has_eq (S := S) s
    obtain ⟨tx, found⟩ := Finmap.mem_iff.mp (stored s List.mem_cons_self)
    rw [sendLoop, answer, Cpp.ok_bind, rest]
    cases hit with
    | true => simp [answer]
    | false => simp [answer, item, found]

theorem reqSet_of_lookup {srv : Server} {target : Bytes} {set : List Bytes}
    (known : srv.hashSets.lookup target = some set) (stored : ∀ s ∈ set, s ∈ srv.chain.txs)
    (bloomSet : Messages.BloomSet) {g : Bloom}
    (rebuilt : Bloom.ofWire bloomSet.data bloomSet.p.toUInt64 bloomSet.hashKey = .ok g)
    (usable : g.Usable) :
    srv.reqSet S creditSets transactions ⟨.txSetHash target, bloomSet⟩ =
      .ok (.set ((set.filter fun s => g.has S s ≠ .ok true).map
        (item creditSets transactions srv.chain.txs))) := by
  simp only [reqSet, rebuilt, Cpp.ok_bind, known, sendLoop_eq usable stored]
  rfl

end Server

end Pttp
