import Pttp.Lib.StructLayout
import Pttp.Messages

/-!
# Replies on the wire

A reply of `serve` is a `Message`: one data word that begins with the tag of the
union, and one pointer to the value. The layouts are those of messages.capnp.
Packing a tree of structs into bytes and back is left to Cap'n Proto.
-/

namespace Pttp

open StructLayout

structure Wire where
  pack : Object → Bytes
  unpack : Bytes → Option Object
  unpack_pack : ∀ o, unpack (pack o) = some o

noncomputable def Wire.ofEncodable : Wire where
  pack o := List.replicate (Encodable.encode o) 0
  unpack b := Encodable.decode b.length
  unpack_pack o := by rw [List.length_replicate, Encodable.encodek]

def Cpp.ofOption {α : Type} : Option α → Cpp α
  | some a => .ok a
  | none => .error .thrown

/-- `getRoot<T>()`: the root struct, to be read by the layout of `T`. -/
def Wire.root (wire : Wire) (b : Bytes) : Cpp Struct := do
  let o ← Cpp.ofOption (wire.unpack b)
  Cpp.ofOption o.asStruct

@[simp] theorem Wire.root_pack (wire : Wire) (data : List UInt64) (pointers : List Object) :
    wire.root (wire.pack (.struct data pointers)) = .ok ⟨data, pointers⟩ := by
  unfold Wire.root
  rw [wire.unpack_pack]
  rfl

/-- What `serve` answers with; `nothing` when no field of the union was set. -/
inductive Reply where
  | nothing
  | welcome
  | ipList (ips : List Bytes)
  | ok
  | reject
  | set (data : List Bytes)
  | setFilter (setFilter : Messages.SetFilter)
  deriving DecidableEq

namespace Reply

def bloomSetObject (bloom : Messages.BloomSet) : Object :=
  .struct [bloom.p.toUInt64] [.bytes bloom.data, .bytes bloom.hashKey]

def setFilterObject (filter : Messages.SetFilter) : Object :=
  .struct [filter.n] [bloomSetObject filter.bloom]

def setObject (data : List Bytes) : Object := .struct [] [.list (data.map Object.bytes)]

/-- `Message`, by the tag of its union. -/
def object : Reply → Object
  | .nothing => .struct [0] [.null]
  | .welcome => .struct [1] [.struct [] [.null]]
  | .ipList ips => .struct [3] [.struct [] [.list (ips.map Object.text)]]
  | .ok => .struct [4] [.struct [] [.null]]
  | .reject => .struct [5] [.struct [] [.null]]
  | .set data => .struct [10] [setObject data]
  | .setFilter filter => .struct [12] [setFilterObject filter]

def bloomSetOf (s : Struct) : Option Messages.BloomSet := do
  let data ← (s.pointer 0).asBytes
  let hashKey ← (s.pointer 1).asBytes
  return ⟨s.uint32 0, data, hashKey⟩

def setFilterOf (s : Struct) : Option Messages.SetFilter := do
  let bloom ← (s.pointer 0).asStruct
  let bloom ← bloomSetOf bloom
  return ⟨s.uint64 0, bloom⟩

def setOf (s : Struct) : Option (List Bytes) := do
  let data ← (s.pointer 0).asList
  data.mapM Object.asBytes

/-- The reader of `Message`, for the fields a reply may have. -/
def ofStruct (s : Struct) : Option Reply := do
  let value ← (s.pointer 0).asStruct
  match (s.uint16 0).toNat with
  | 0 => return .nothing
  | 1 => return .welcome
  | 3 => do
      let ips ← (value.pointer 0).asList
      let ips ← ips.mapM Object.asText
      return .ipList ips
  | 4 => return .ok
  | 5 => return .reject
  | 10 => do
      let data ← setOf value
      return .set data
  | 12 => do
      let filter ← setFilterOf value
      return .setFilter filter
  | _ => none

theorem bloomSetOf_object (bloom : Messages.BloomSet) :
    (bloomSetObject bloom).asStruct.bind bloomSetOf = some bloom := by
  have size : bloom.p.toUInt64.toNat / 2 ^ (32 * (0 % 2)) = bloom.p.toNat := by
    simp
  have read : (⟨[bloom.p.toUInt64], [.bytes bloom.data, .bytes bloom.hashKey]⟩ : Struct).uint32 0 =
      bloom.p := by
    show UInt32.ofNat (bloom.p.toUInt64.toNat / 2 ^ (32 * (0 % 2))) = bloom.p
    rw [size, UInt32.ofNat_toNat]
  unfold bloomSetObject
  rw [Object.asStruct_struct, Option.bind_some]
  unfold bloomSetOf
  rw [read]
  rfl

theorem setFilterOf_object (filter : Messages.SetFilter) :
    (setFilterObject filter).asStruct.bind setFilterOf = some filter := by
  have bloom := bloomSetOf_object filter.bloom
  unfold setFilterObject
  rw [Object.asStruct_struct, Option.bind_some]
  unfold setFilterOf
  show ((bloomSetObject filter.bloom).asStruct.bind fun s => (bloomSetOf s).bind fun bloom =>
    some ⟨filter.n, bloom⟩) = some filter
  rw [← Option.bind_assoc, bloom]
  rfl

theorem setOf_object (data : List Bytes) : (setObject data).asStruct.bind setOf = some data := by
  show (data.map Object.bytes).mapM Object.asBytes = some data
  exact Object.mapM_map_eq_some Object.asBytes_bytes data

@[simp] theorem uint16_singleton (tag : UInt64) (pointers : List Object) :
    (⟨[tag], pointers⟩ : Struct).uint16 0 = UInt16.ofNat tag.toNat := by
  simp [Struct.uint16, Struct.uint64]

theorem ofStruct_object (r : Reply) : r.object.asStruct.bind ofStruct = some r := by
  cases r with
  | nothing => rfl
  | welcome => rfl
  | ipList ips =>
    have texts := Object.mapM_map_eq_some Object.asText_text ips
    simp [object, ofStruct, Struct.pointer, texts]
  | ok => rfl
  | reject => rfl
  | set data =>
    have read : setOf ⟨[], [.list (data.map Object.bytes)]⟩ = some data := setOf_object data
    simp [object, ofStruct, Struct.pointer, setObject, read]
  | setFilter filter =>
    have read : setFilterOf ⟨[filter.n], [bloomSetObject filter.bloom]⟩ = some filter :=
      setFilterOf_object filter
    simp [object, ofStruct, Struct.pointer, setFilterObject, read]

end Reply

end Pttp
