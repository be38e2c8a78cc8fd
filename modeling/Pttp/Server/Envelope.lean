import Pttp.Server

/-!
# What the client reads of a reply

`serve` answers with a `Message`; the branches of `manage_connection` for sets
name `SetFilter` and `Set` as the root, where that for ips names `Message`. By
those layouts the word of the union's tag is `n`, the count of the set is the
size of the filter, and where data is expected there is a struct.
-/

namespace Pttp

open StructLayout

/-- What REQ_HASHSET_FILTER reads: `n` and `p`, and when `p` is not zero the key and
the data. -/
structure FilterRead where
  n : Int32
  p : UInt32
  filter : Option (Bytes × Bytes)
  deriving DecidableEq

/-- `manage_connection`, REQ_HASHSET_FILTER, after the reply came in. -/
def readFilter (wire : Wire) (result : Bytes) : Cpp FilterRead := do
  let filter ← wire.root result
  let n := Int32.ofNat (filter.uint64 0).toNat
  let bloomRead ← Cpp.ofOption (filter.pointer 0).asStruct
  let p := bloomRead.uint32 0
  if p = 0 then return ⟨n, p, none⟩
  else do
    let key ← Cpp.ofOption (bloomRead.pointer 1).asBytes
    let bloomData ← Cpp.ofOption (bloomRead.pointer 0).asBytes
    return ⟨n, p, some (key, bloomData)⟩

/-- `manage_connection`, REQ_HASHSET, after the reply came in. -/
def readSet (wire : Wire) (result : Bytes) : Cpp (List Bytes) := do
  let msgReader ← wire.root result
  Cpp.ofOption (Reply.setOf msgReader)

/-- `manage_connection`, REQ_IPS, after the reply came in: the branch that names the
root that was written. -/
def readIps (wire : Wire) (result : Bytes) : Cpp (List Bytes) := do
  let msgReader ← wire.root result
  if msgReader.uint16 0 ≠ 3 then .error .assertion
  else do
    let newIpList ← Cpp.ofOption (msgReader.pointer 0).asStruct
    let newIps ← Cpp.ofOption (newIpList.pointer 0).asList
    Cpp.ofOption (newIps.mapM Object.asText)

def FilterAgrees (filter : Messages.SetFilter) (read : FilterRead) : Prop :=
  read.n.toInt = filter.n.toNat ∧ read.p = filter.bloom.p ∧
    read.filter = some (filter.bloom.hashKey, filter.bloom.data)

/-- The count of the set stands where a `BloomSet` has its size. No size is an early
end, and with any other the data is asked of a struct pointer. -/
theorem readFilter_reply (wire : Wire) (filter : Messages.SetFilter) :
    readFilter wire (wire.pack (Reply.setFilter filter).object) =
      if UInt32.ofNat filter.n.toNat = 0 then .ok ⟨12, 0, none⟩ else .error .thrown := by
  have size : (⟨[filter.n], [Reply.bloomSetObject filter.bloom]⟩ : Struct).uint32 0 =
      UInt32.ofNat filter.n.toNat := by
    simp [Struct.uint32, Struct.uint64]
  unfold readFilter Reply.object
  rw [wire.root_pack, Cpp.ok_bind]
  show (if (⟨[filter.n], [Reply.bloomSetObject filter.bloom]⟩ : Struct).uint32 0 = 0 then
      Except.ok (⟨12, (⟨[filter.n], [Reply.bloomSetObject filter.bloom]⟩ : Struct).uint32 0,
        none⟩ : FilterRead)
    else Except.error Fault.thrown) = _
  rw [size]
  split
  case isTrue zero => rw [zero]
  case isFalse => rfl

theorem readSet_reply (wire : Wire) (data : List Bytes) :
    readSet wire (wire.pack (Reply.set data).object) = .error .thrown := by
  unfold readSet Reply.object
  rw [wire.root_pack, Cpp.ok_bind]
  rfl

theorem readIps_reply (wire : Wire) (ips : List Bytes) :
    readIps wire (wire.pack (Reply.ipList ips).object) = .ok ips := by
  have texts := Object.mapM_map_eq_some Object.asText_text ips
  have tag : (⟨[3], [.struct [] [.list (ips.map Object.text)]]⟩ : Struct).uint16 0 = 3 := by
    rw [Reply.uint16_singleton]
    decide
  unfold readIps Reply.object
  rw [wire.root_pack, Cpp.ok_bind, if_neg (not_not_intro tag)]
  show Cpp.ofOption ((ips.map Object.text).mapM Object.asText) = .ok ips
  rw [texts]
  rfl

/-- The values read are never those put: with the size the program gives its filters,
the read ends early or throws. -/
theorem not_filterAgrees (wire : Wire) {filter : Messages.SetFilter} (size : filter.bloom.p ≠ 0) :
    ¬ ∃ read, readFilter wire (wire.pack (Reply.setFilter filter).object) = .ok read ∧
      FilterAgrees filter read := by
  rintro ⟨read, readEq, agrees⟩
  rw [readFilter_reply] at readEq
  split at readEq
  · obtain rfl := Except.ok.inj readEq
    exact size agrees.2.1.symm
  · cases readEq

variable (S : ShortHash) in
theorem reqSetFilter_misread (wire : Wire) (srv : Server) {key : Bytes}
    (keyed : key.length = 16) (req : Messages.Req) :
    ∃ filter, srv.reqSetFilter S key req = .ok (.setFilter filter) ∧
      ¬ ∃ read, readFilter wire (wire.pack (Reply.setFilter filter).object) = .ok read ∧
        FilterAgrees filter read := by
  obtain ⟨data, g, replied, -⟩ := srv.reqSetFilter_eq (S := S) keyed.ge req
  refine ⟨_, replied, not_filterAgrees wire ?_⟩
  show (4999 : UInt32) ≠ 0
  decide

theorem replies_never_agree (S : ShortHash) (creditSets : Codec Messages.CreditSet)
    (transactions : Codec Messages.Transaction) (wire : Wire) (srv : Server) :
    (∀ key req, key.length = 16 → ∃ filter, srv.reqSetFilter S key req = .ok (.setFilter filter) ∧
      ¬ ∃ read, readFilter wire (wire.pack (Reply.setFilter filter).object) = .ok read ∧
        FilterAgrees filter read) ∧
    ∀ request bs, srv.reqSet S creditSets transactions request = .ok (.set bs) →
      readSet wire (wire.pack (Reply.set bs).object) ≠ .ok bs := by
  constructor
  · intro key req keyed
    exact reqSetFilter_misread S wire srv keyed req
  · intro request bs replied same
    rw [readSet_reply] at same
    cases same

def twoTxServer : Server :=
  ⟨⟨(Finmap.singleton [1] ⟨[], []⟩).insert [2] ⟨[], []⟩, ∅, [], [], ∅⟩,
    Finmap.singleton [9] [[1], [2]], {[1], [2], [3]}⟩

theorem replies_never_agree_twoTxs :
    (∃ filter, twoTxServer.reqSetFilter .firstBytes (List.replicate 16 0) (.txSetHash [9]) =
        .ok (.setFilter filter) ∧
      ¬ ∃ read, readFilter .ofEncodable (Wire.ofEncodable.pack (Reply.setFilter filter).object) =
        .ok read ∧ FilterAgrees filter read) ∧
    ∃ b, twoTxServer.reqSet .firstBytes (.ofEncodable _) (.ofEncodable _)
        ⟨.txSetHash [9], ⟨0, [], []⟩⟩ = .ok (.set [b, b]) ∧
      readSet .ofEncodable (Wire.ofEncodable.pack (Reply.set [b, b]).object) ≠ .ok [b, b] := by
  have served : twoTxServer.reqSet .firstBytes (.ofEncodable _) (.ofEncodable _)
      ⟨.txSetHash [9], ⟨0, [], []⟩⟩ = .ok (.set [_, _]) := rfl
  obtain ⟨filters, sets⟩ := replies_never_agree .firstBytes (.ofEncodable _) (.ofEncodable _)
    .ofEncodable twoTxServer
  exact ⟨filters _ _ rfl, _, served, sets _ _ served⟩

def emptySetServer : Server :=
  ⟨Chain.BlockChain.fresh ∅, Finmap.singleton [1] [], ∅⟩

theorem not_filterAgrees_emptySet :
    ∃ filter, emptySetServer.reqSetFilter .firstBytes (List.replicate 16 0) (.txSetHash [1]) =
        .ok (.setFilter filter) ∧
      ¬ ∃ read, readFilter .ofEncodable (Wire.ofEncodable.pack (Reply.setFilter filter).object) =
        .ok read ∧ FilterAgrees filter read :=
  reqSetFilter_misread .firstBytes .ofEncodable emptySetServer rfl (.txSetHash [1])

end Pttp
