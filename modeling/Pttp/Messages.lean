import Pttp.Bytes

/-!
# The message schema and its serialisation

The structures of messages.capnp. Cap'n Proto itself is a parameter: a codec for
each root type, whose reader returns what its writer wrote. The reader may do
anything on bytes that no writer made.
-/

namespace Pttp

structure Codec (T : Type) where
  /-- `WriteMessage<T>::bytes`. -/
  write : T → Bytes
  decode : Bytes → Option T
  decode_write : ∀ t, decode (write t) = some t

/-- `ReadMessage::root<T>`, which throws where the reader refuses the bytes. -/
def Codec.read {T : Type} (codec : Codec T) (b : Bytes) : Cpp T :=
  match codec.decode b with
  | some t => .ok t
  | none => .error .thrown

@[simp] theorem Codec.read_write {T : Type} (codec : Codec T) (t : T) :
    codec.read (codec.write t) = .ok t := by
  rw [read, codec.decode_write]

theorem Codec.eq_thrown_of_read_eq_error {T : Type} {codec : Codec T} {b : Bytes} {e : Fault}
    (h : codec.read b = .error e) : e = .thrown := by
  unfold read at h
  split at h
  · cases h
  · exact (Except.error.inj h).symm

/-- A codec to run the program with on given inputs. -/
def Codec.ofEncodable (T : Type) [Encodable T] : Codec T where
  write t := List.replicate (Encodable.encode t) 0
  decode b := Encodable.decode b.length
  decode_write t := by rw [List.length_replicate, Encodable.encodek]

instance encodableUInt8 : Encodable UInt8 :=
  Encodable.ofLeftInverse UInt8.toNat UInt8.ofNat fun _ => UInt8.ofNat_toNat

instance encodableUInt32 : Encodable UInt32 :=
  Encodable.ofLeftInverse UInt32.toNat UInt32.ofNat fun _ => UInt32.ofNat_toNat

instance encodableUInt64 : Encodable UInt64 :=
  Encodable.ofLeftInverse UInt64.toNat UInt64.ofNat fun _ => UInt64.ofNat_toNat

instance encodableInt16 : Encodable Int16 :=
  Encodable.ofLeftInverse Int16.toInt Int16.ofInt fun _ => Int16.ofInt_toInt _

instance encodableInt64 : Encodable Int64 :=
  Encodable.ofLeftInverse Int64.toInt Int64.ofInt fun _ => Int64.ofInt_toInt _

namespace Messages

structure Witness where
  type : UInt32
  data : Bytes
  deriving DecidableEq, Encodable

structure Credit where
  account : Bytes
  amount : Int64
  deriving DecidableEq, Encodable

structure CreditSet where
  credits : List Credit
  deriving DecidableEq, Encodable

structure Transaction where
  creditSet : Bytes
  signatures : List Witness
  deriving DecidableEq, Encodable

structure Block where
  prevHash : Bytes
  transactionHash : Bytes
  utxoHash : Bytes
  nonce : Bytes
  time : UInt64
  deriving DecidableEq, Encodable

structure Hello where
  ip : Bytes
  port : Int16
  deriving DecidableEq, Encodable

structure BloomSet where
  p : UInt32
  data : Bytes
  hashKey : Bytes
  deriving DecidableEq, Encodable

structure BlockRange where
  start : Bytes
  stop : Bytes
  deriving DecidableEq, Encodable

inductive Req where
  | txSetHash (hash : Bytes)
  | utxoSetHash (hash : Bytes)
  | blockRange (range : BlockRange)
  deriving DecidableEq, Encodable

structure ReqSet where
  req : Req
  bloom : BloomSet
  deriving DecidableEq, Encodable

structure SetFilter where
  n : UInt64
  bloom : BloomSet
  deriving DecidableEq, Encodable

inductive Content where
  | hello (hello : Hello)
  | welcome (pub : Bytes)
  | getPeers
  | ipList (ips : List Bytes)
  | ok (message : Bytes)
  | reject (message : Bytes)
  | transaction (transaction : Transaction)
  | block (block : Block)
  | text (text : Bytes)
  | reqSet (reqSet : ReqSet)
  | set (data : List Bytes)
  | reqSetFilter (req : Req)
  | setFilter (setFilter : SetFilter)
  deriving DecidableEq, Encodable

structure Message where
  content : Content
  deriving DecidableEq, Encodable

end Messages

end Pttp
