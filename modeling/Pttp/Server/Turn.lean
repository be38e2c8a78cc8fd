import Pttp.Chain.Mining
import Pttp.Connections
import Pttp.Gossip
import Pttp.Process.Bounds
import Pttp.Server
import Pttp.Server.Untrusted

/-!
# A turn of the server

`serve` takes the frames of a request, answers by the kind of the message in the third and
sends the frames back with the answer in its place. A HELLO adds an address and a TEXT that
is new is printed and passed on; the other kinds change nothing. Between the two steps of
GET_PEERS, and between two requests, come the steps of other threads. Nothing in the program
fills `hash_sets`, so no request for a set is ever answered with one; and nothing catches an
exception, so one that leaves any thread ends the process.
-/

namespace Pttp

open Messages Runs Covering

/-- Where the thread of `serve` is: in `recv_multi`; or behind `initIps` and before the lock, with
the frames and the size. -/
inductive Serving.Thread where
  | receiving
  | listing (msg : List Bytes) (size : ℕ)

/-- What `serve` works on; `printed` are the texts, and `queued` is what it put into the queue of
each connection. With a fault the process has ended, or nothing is determined any more. -/
structure Serving where
  server : Server
  peers : Peers
  expansion : Option Expansion
  seen : Finset Bytes
  printed : List Bytes
  queued : ℕ → Multiset Task
  thread : Serving.Thread
  fault : Option Fault

namespace Serving

section Definitions

variable (G : GenericHash) (P : PwHash) (H : ShortHash) (S : SignScheme)
  (messages : Codec Message) (creditSets : Codec CreditSet)
  (transactions : Codec Messages.Transaction) (wire : Wire) (myIp : Bytes)

/-- `main` up to the threads, with what it filled `full_set` with. -/
def initial (argv : List Bytes) (fullSet : Finset Bytes) : Serving :=
  ⟨⟨.fresh ∅, ∅, fullSet⟩, Peers.none.insertIps argv, none, ∅, [], fun _ => 0, .receiving, none⟩

/-- `serve`, TEXT. A text that is made a `std::string` ends at its first NUL. -/
def hear (s : Serving) (b text : Bytes) : Serving :=
  let msgHash := hash G b
  if msgHash ∉ s.seen then
    { s with
      printed := s.printed ++ [Bytes.ofCString text]
      seen := insert msgHash s.seen
      queued := fun i =>
        if i < s.peers.connections.length then ⟨.send, b⟩ ::ₘ s.queued i else s.queued i }
  else s

/-- The addresses that GET_PEERS fills in. -/
def ips (s : Serving) : List Bytes := (s.peers.ipList.sort (· ≤ ·)).map Bytes.ofCString

/-- `serve`, the switch. `key` is the one a filter draws; GET_PEERS has no reply yet. -/
def respond (s : Serving) (key b : Bytes) : Cpp (Serving × Option Reply) := do
  let message ← messages.read b
  match message.content with
  | .hello hello =>
      return ({ s with peers := s.peers.insertIps [Bytes.ofCString hello.ip] }, some .welcome)
  | .getPeers => return (s, none)
  | .block _ => do
      let hardHash ← hardHash G P b
      let first ← Cpp.index hardHash 0
      if first = 0 then
        let second ← Cpp.index hardHash 1
        if second = 0 then return (s, some .ok) else return (s, some .reject)
      else return (s, some .reject)
  | .transaction tx => do
      let (accepted, _) ← processTransactionSized S creditSets tx [] [] none
      return (s, some (if accepted then .ok else .reject))
  | .text text => return (s.hear G b text, some .ok)
  | .reqSetFilter req => do
      let reply ← s.server.reqSetFilter H key req
      return (s, some reply)
  | .reqSet request => do
      let reply ← s.server.reqSet H creditSets transactions request
      return (s, some reply)
  | _ => return (s, some .nothing)

/-- The reply goes out in the third frame, or the thread comes to the lock of GET_PEERS. -/
def proceed (s : Serving) (msg : List Bytes) : Option Reply → Serving × Option (List Bytes)
  | some reply => (s, some (msg.set 2 (wire.pack reply.object)))
  | none => ({ s with thread := .listing msg s.peers.ipList.card }, none)

def turn (s : Serving) (key : Bytes) (msg : List Bytes) :
    Cpp (Serving × Option (List Bytes)) := do
  let data ← Cpp.index msg 2
  let (s, reply) ← s.respond G P H S messages creditSets transactions key data
  return s.proceed wire msg reply

/-- `serve`, GET_PEERS under the lock, and the end of the turn. -/
def list (s : Serving) (msg : List Bytes) (size : ℕ) : Cpp (Serving × Option (List Bytes)) :=
  if size < s.ips.length then .error .pastEnd
  else .ok ({ s with thread := .receiving }.proceed wire msg
    (some (.ipList (s.ips.takeD size []))))

def connect (s : Serving) (connects : Bool) (e : Expansion) :
    Cpp (Serving × Option (List Bytes)) := do
  let (p, e) ← s.peers.connect connects e
  return ({ s with peers := p, expansion := some e }, none)

/-- A call that a thread makes, and what it sends. A fault ends the process. -/
def after (s : Serving) : Cpp (Serving × Option (List Bytes)) → Serving × Option (List Bytes)
  | .ok result => result
  | .error e => ({ s with fault := some e }, none)

inductive Action where
  | turn (key : Bytes) (msg : List Bytes) (answer : Option (List Bytes))
  | list (answer : Option (List Bytes))
  | learn (newIps : List Bytes)
  | expand (ipsTmp : List Bytes)
  | connect (connects : Bool)
  | expanded
  | receiveSet (hashset : List Bytes)
  | crash (e : Fault)

/-- The steps of `serve`, and what other threads do to its data between them. `crash` is a fault
of another thread, or a call of ZMQ that fails. -/
inductive Step : Serving → Action → Serving → Prop where
  | turn {s t : Serving} {key : Bytes} {msg : List Bytes} {answer : Option (List Bytes)}
      (alive : s.fault = none) (receiving : s.thread = .receiving) (keyed : key.length = 16)
      (taken : s.after (s.turn G P H S messages creditSets transactions wire key msg) =
        (t, answer)) : Step s (.turn key msg answer) t
  | list {s t : Serving} {msg : List Bytes} {size : ℕ} {answer : Option (List Bytes)}
      (alive : s.fault = none) (listing : s.thread = .listing msg size)
      (taken : s.after (s.list wire msg size) = (t, answer)) : Step s (.list answer) t
  | learn (s : Serving) (newIps : List Bytes) (alive : s.fault = none) :
      Step s (.learn newIps) { s with peers := s.peers.insertIps newIps }
  | expand (s : Serving) (ipsTmp : List Bytes) (alive : s.fault = none)
      (free : s.expansion = none) (shuffled : ipsTmp.Perm (s.peers.ipList.sort (· ≤ ·))) :
      Step s (.expand ipsTmp) { s with expansion := some (s.peers.expansion myIp ipsTmp) }
  | connect {s t : Serving} {e : Expansion} {answer : Option (List Bytes)} (connects : Bool)
      (alive : s.fault = none) (expanding : s.expansion = some e) (more : e.rounds ≠ 0)
      (taken : s.after (s.connect connects e) = (t, answer)) : Step s (.connect connects) t
  | expanded (s : Serving) {e : Expansion} (alive : s.fault = none)
      (expanding : s.expansion = some e) (last : e.rounds = 0) :
      Step s .expanded { s with expansion := none }
  | receiveSet (s : Serving) (hashset : List Bytes) (alive : s.fault = none) :
      Step s (.receiveSet hashset)
        { s with server := { s.server with fullSet := s.server.fullSet ∪ hashset.toFinset } }
  | crash (s : Serving) (e : Fault) (alive : s.fault = none) :
      Step s (.crash e) { s with fault := some e }

/-! ### What turns say -/

def Asks (content : Content) : Action → Prop
  | .turn _ msg _ => ∃ data, msg[2]? = some data ∧ messages.decode data = some ⟨content⟩
  | _ => False

/-- A turn or a list that brings the address, up to a NUL. -/
def Brings (ip : Bytes) : Action → Prop
  | .learn newIps => ip ∈ newIps
  | a => ∃ hello : Hello, ip = Bytes.ofCString hello.ip ∧ Asks messages (.hello hello) a

def Tells (h : Bytes) : Action → Prop
  | .turn _ msg _ => ∃ data text, msg[2]? = some data ∧ messages.decode data = some ⟨.text text⟩ ∧
      hash G data = h
  | _ => False

/-- What a turn answers is in the third frame, and not a set; a list is that of the addresses
known when it goes. -/
def Answered (s : Serving) : Action → Prop
  | .turn _ msg (some answer) => ∃ reply : Reply, answer = msg.set 2 (wire.pack reply.object) ∧
      ∀ data, reply ≠ .set data
  | .list (some answer) => ∃ msg size, s.thread = .listing msg size ∧
      answer = msg.set 2 (wire.pack (Reply.ipList s.ips).object)
  | _ => True

/-- The credit set of a transaction can be read, and the signatures and accounts that come to the
library are long enough for it; the bits of a filter are all there. -/
def Readable : Content → Prop
  | .transaction tx => ∃ cs, creditSets.decode tx.creditSet = some cs ∧ CallsSized S tx cs.credits
  | .reqSet request => request.bloom.p.toNat ≤ 8 * request.bloom.data.length ∧
      request.bloom.p.toNat ≤ 2 ^ 31
  | _ => True

def Answerable (msg : List Bytes) : Prop :=
  ∃ data content, msg[2]? = some data ∧ messages.decode data = some ⟨content⟩ ∧
    Readable S creditSets content

/-- The condition on a step that it leaves the process without a fault: a request can be answered,
a list has kept its size, and ZMQ takes the address. -/
def Survives (s : Serving) : Action → Prop
  | .turn _ msg _ => Answerable S messages creditSets msg
  | .list _ => ∀ msg size, s.thread = .listing msg size → s.peers.ipList.card ≤ size
  | .connect connects => ∀ e, s.expansion = some e → ¬ e.Refused connects
  | .crash _ => False
  | _ => True

end Definitions

variable {G : GenericHash} {P : PwHash} {H : ShortHash} {S : SignScheme}
  {messages : Codec Message} {creditSets : Codec CreditSet}
  {transactions : Codec Messages.Transaction} {wire : Wire} {myIp : Bytes} {s t : Serving}

/-! ## One turn -/

variable (G) in
inductive Turned (s : Serving) (data : Bytes) : Content → Serving → Option Reply → Prop where
  | hello (hello : Hello) : Turned s data (.hello hello)
      { s with peers := s.peers.insertIps [Bytes.ofCString hello.ip] } (some .welcome)
  | text (text : Bytes) : Turned s data (.text text) (s.hear G data text) (some .ok)
  | getPeers : Turned s data .getPeers s none
  | other {content : Content} {reply : Reply} (quiet : ∀ hello, content ≠ .hello hello)
      (silent : ∀ text, content ≠ .text text) (noSet : ∀ data, reply ≠ .set data) :
      Turned s data content s (some reply)

variable (H creditSets transactions) in
theorem reqSet_of_empty {srv : Server} (empty : srv.hashSets = ∅) (request : ReqSet) :
    if request.bloom.p.toNat ≤ 8 * request.bloom.data.length ∧
        request.bloom.p.toNat ≤ 2 ^ 31 then
      ∃ reply, srv.reqSet H creditSets transactions request = .ok reply ∧
        ∀ data, reply ≠ .set data
    else srv.reqSet H creditSets transactions request = .error .pastEnd := by
  unfold Server.reqSet
  rw [ofWire_received]
  split
  · rw [Cpp.ok_bind, empty]
    cases request.req with
    | txSetHash target => exact ⟨.reject, rfl, nofun⟩
    | utxoSetHash hash => exact ⟨.nothing, rfl, nofun⟩
    | blockRange range => exact ⟨.nothing, rfl, nofun⟩
  · rfl

theorem read_of_decode {T : Type} {codec : Codec T} {b : Bytes} {value : T}
    (decoded : codec.decode b = some value) : codec.read b = .ok value := by
  unfold Codec.read
  rw [decoded]

theorem read_of_decode_none {T : Type} {codec : Codec T} {b : Bytes}
    (unread : codec.decode b = none) : codec.read b = .error .thrown := by
  unfold Codec.read
  rw [unread]

variable (S creditSets) in
theorem processTransactionSized_spec (tx : Messages.Transaction) :
    (Readable S creditSets (.transaction tx) ∧
      ∃ result, processTransactionSized S creditSets tx [] [] none = .ok result) ∨
    ¬ Readable S creditSets (.transaction tx) ∧
      ∃ e, processTransactionSized S creditSets tx [] [] none = .error e := by
  cases decoded : creditSets.decode tx.creditSet with
  | none =>
    refine .inr ⟨?_, .thrown, ?_⟩
    · rintro ⟨cs, decoded', -⟩
      cases decoded.symm.trans decoded'
    · unfold processTransactionSized
      rw [read_of_decode_none decoded, Cpp.error_bind]
  | some cs =>
    have read := read_of_decode decoded
    by_cases sized : CallsSized S tx cs.credits
    · refine .inl ⟨⟨cs, decoded, sized⟩, ?_⟩
      rw [processTransactionSized_of_callsSized read sized]
      unfold processTransactionReader
      rw [read]
      exact ⟨_, rfl⟩
    · refine .inr ⟨?_, .pastEnd, processTransactionSized_of_not_callsSized read sized ..⟩
      rintro ⟨cs', decoded', sized'⟩
      obtain rfl := Option.some.inj (decoded.symm.trans decoded')
      exact sized sized'

variable (G P H S creditSets transactions) in
theorem respond_spec (empty : s.server.hashSets = ∅) {key data : Bytes} (keyed : key.length = 16)
    {content : Content} (decoded : messages.decode data = some ⟨content⟩) :
    (Readable S creditSets content ∧ ∃ t reply,
        s.respond G P H S messages creditSets transactions key data = .ok (t, reply) ∧
          Turned G s data content t reply) ∨
      ¬ Readable S creditSets content ∧
        ∃ e, s.respond G P H S messages creditSets transactions key data = .error e := by
  unfold respond
  rw [read_of_decode decoded, Cpp.ok_bind]
  cases content with
  | hello hello => exact .inl ⟨trivial, _, _, rfl, .hello hello⟩
  | text text => exact .inl ⟨trivial, _, _, rfl, .text text⟩
  | getPeers => exact .inl ⟨trivial, _, _, rfl, .getPeers⟩
  | welcome => exact .inl ⟨trivial, _, _, rfl, .other nofun nofun nofun⟩
  | ipList => exact .inl ⟨trivial, _, _, rfl, .other nofun nofun nofun⟩
  | ok => exact .inl ⟨trivial, _, _, rfl, .other nofun nofun nofun⟩
  | reject => exact .inl ⟨trivial, _, _, rfl, .other nofun nofun nofun⟩
  | set => exact .inl ⟨trivial, _, _, rfl, .other nofun nofun nofun⟩
  | setFilter => exact .inl ⟨trivial, _, _, rfl, .other nofun nofun nofun⟩
  | block block =>
    obtain ⟨first, -, firstRead⟩ := Chain.index_hardHashOf (G := G) (P := P) data (i := 0)
      (by decide)
    obtain ⟨second, -, secondRead⟩ := Chain.index_hardHashOf (G := G) (P := P) data (i := 1)
      (by decide)
    refine .inl ⟨trivial, s, ?_⟩
    simp only [Chain.hardHash_eq, Cpp.ok_bind, firstRead, secondRead]
    split
    · split
      · exact ⟨some .ok, rfl, .other nofun nofun nofun⟩
      · exact ⟨some .reject, rfl, .other nofun nofun nofun⟩
    · exact ⟨some .reject, rfl, .other nofun nofun nofun⟩
  | transaction tx =>
    rcases processTransactionSized_spec S creditSets tx with
      ⟨readable, result, processed⟩ | ⟨unreadable, e, ended⟩
    · refine .inl ⟨readable, s, ?_⟩
      simp only [processed, Cpp.ok_bind]
      refine ⟨_, rfl, .other nofun nofun ?_⟩
      intro data
      split
      · nofun
      · nofun
    · refine .inr ⟨unreadable, e, ?_⟩
      simp only [ended, Cpp.error_bind]
  | reqSetFilter req =>
    obtain ⟨data, g, filtered, -⟩ := Server.reqSetFilter_eq (S := H) s.server keyed.ge req
    refine .inl ⟨trivial, s, ?_⟩
    simp only [filtered, Cpp.ok_bind]
    exact ⟨_, rfl, .other nofun nofun nofun⟩
  | reqSet request =>
    have served := reqSet_of_empty H creditSets transactions empty request
    split at served
    case isTrue whole =>
      obtain ⟨reply, answered, noSet⟩ := served
      refine .inl ⟨whole, s, some reply, ?_, .other nofun nofun noSet⟩
      simp only [answered, Cpp.ok_bind]
      rfl
    case isFalse short =>
      refine .inr ⟨short, .pastEnd, ?_⟩
      simp only [served, Cpp.error_bind]

variable (G P H S messages creditSets transactions wire) in
/-- A turn for a request that can be answered goes on as its content says; any other ends. -/
theorem turn_spec (empty : s.server.hashSets = ∅) {key : Bytes} (keyed : key.length = 16)
    (msg : List Bytes) :
    (Answerable S messages creditSets msg ∧ ∃ data content u reply, msg[2]? = some data ∧
        messages.decode data = some ⟨content⟩ ∧ Turned G s data content u reply ∧
          s.turn G P H S messages creditSets transactions wire key msg =
            .ok (u.proceed wire msg reply)) ∨
      ¬ Answerable S messages creditSets msg ∧
        ∃ e, s.turn G P H S messages creditSets transactions wire key msg = .error e := by
  unfold turn
  cases third : msg[2]? with
  | none =>
    have past : Cpp.index msg 2 = .error .pastEnd := by
      unfold Cpp.index
      rw [third]
    rw [past]
    refine .inr ⟨?_, .pastEnd, rfl⟩
    rintro ⟨data, content, third', -⟩
    cases third.symm.trans third'
  | some data =>
    rw [Cpp.index_eq_ok_iff.mpr third, Cpp.ok_bind]
    cases decoded : messages.decode data with
    | none =>
      refine .inr ⟨?_, .thrown, ?_⟩
      · rintro ⟨data', content, third', decoded', -⟩
        obtain rfl := Option.some.inj (third.symm.trans third')
        cases decoded.symm.trans decoded'
      · unfold respond
        rw [read_of_decode_none decoded, Cpp.error_bind, Cpp.error_bind]
    | some message =>
      rcases respond_spec G P H S creditSets transactions empty keyed decoded with
        ⟨readable, u, reply, answered, turned⟩ | ⟨unreadable, e, ended⟩
      · rw [answered, Cpp.ok_bind]
        exact .inl ⟨⟨data, message.content, third, decoded, readable⟩, data, message.content, u,
          reply, rfl, decoded, turned, rfl⟩
      · rw [ended, Cpp.error_bind]
        refine .inr ⟨?_, e, rfl⟩
        rintro ⟨data', content, third', decoded', readable⟩
        obtain rfl := Option.some.inj (third.symm.trans third')
        obtain rfl := Option.some.inj (decoded.symm.trans decoded')
        exact unreadable readable

/-! ## Runs of turns -/

theorem length_ips (s : Serving) : s.ips.length = s.peers.ipList.card := by
  rw [ips, List.length_map, Finset.length_sort]

variable (G messages wire) in
/-- The state, by what happened since the start with these arguments. -/
structure Accounts (argv : List Bytes) (history : List (Serving × Action)) (t : Serving) :
    Prop where
  chain : t.server.chain = .fresh ∅
  hashSets : t.server.hashSets = ∅
  ipList : ∀ ip, ip ∈ t.peers.ipList ↔ ip ∈ argv ∨ Visits (fun _ => Brings messages ip) history
  seen : ∀ h, h ∈ t.seen ↔ Visits (fun _ => Tells G messages h) history
  printed : t.printed.length = t.seen.card
  heard : ∀ line ∈ t.printed, ∃ text, line = Bytes.ofCString text ∧
    Visits (fun _ => Asks messages (.text text)) history
  queued : ∀ i, (t.queued i).Nodup
  passed : ∀ i, ∀ task ∈ t.queued i, task.type = .send ∧ hash G task.data ∈ t.seen
  listing : ∀ msg size, t.thread = .listing msg size → size ≤ t.peers.ipList.card
  answered : Meets (Answered wire) history

theorem accounts_initial (argv : List Bytes) (fullSet : Finset Bytes) :
    Accounts G messages wire argv [] (initial argv fullSet) where
  chain := rfl
  hashSets := rfl
  ipList ip := by simp [initial, Peers.insertIps, Peers.none, Visits]
  seen h := by simp [initial, Visits]
  printed := rfl
  heard text member := absurd member List.not_mem_nil
  queued i := Multiset.nodup_zero
  passed i task member := absurd member (Multiset.notMem_zero task)
  listing msg size := nofun
  answered visit member := absurd member List.not_mem_nil

/-- A step after which nothing was said or heard leaves the rest of the account. -/
theorem Accounts.quiet {argv : List Bytes} {history : List (Serving × Action)}
    (accounts : Accounts G messages wire argv history s) {a : Action}
    (server : t.server.chain = s.server.chain ∧ t.server.hashSets = s.server.hashSets)
    (ipList : ∀ ip, ip ∈ t.peers.ipList ↔ ip ∈ s.peers.ipList ∨ Brings messages ip a)
    (said : t.seen = s.seen ∧ t.printed = s.printed ∧ t.queued = s.queued)
    (untold : ∀ h, ¬ Tells G messages h a)
    (listing : ∀ msg size, t.thread = .listing msg size → size ≤ t.peers.ipList.card)
    (answered : Answered wire s a) : Accounts G messages wire argv (history ++ [(s, a)]) t where
  chain := server.1.trans accounts.chain
  hashSets := server.2.trans accounts.hashSets
  ipList ip := by rw [ipList, accounts.ipList, visits_snoc, or_assoc]
  seen h := by
    rw [said.1, accounts.seen, visits_snoc]
    exact (or_iff_left (untold h)).symm
  printed := by rw [said.2.1, said.1, accounts.printed]
  heard line member := by
    obtain ⟨text, same, visits⟩ := accounts.heard line (said.2.1 ▸ member)
    exact ⟨text, same, (visits_snoc ..).mpr (.inl visits)⟩
  queued := said.2.2 ▸ accounts.queued
  passed := by
    rw [said.2.2, said.1]
    exact accounts.passed
  listing := listing
  answered := (meets_snoc ..).mpr ⟨accounts.answered, answered⟩

theorem Accounts.still {argv : List Bytes} {history : List (Serving × Action)}
    (accounts : Accounts G messages wire argv history s) {a : Action}
    (server : t.server.chain = s.server.chain ∧ t.server.hashSets = s.server.hashSets)
    (ipList : t.peers.ipList = s.peers.ipList)
    (said : t.seen = s.seen ∧ t.printed = s.printed ∧ t.queued = s.queued)
    (unbrought : ∀ ip, ¬ Brings messages ip a) (untold : ∀ h, ¬ Tells G messages h a)
    (thread : ∀ msg size, t.thread = .listing msg size → s.thread = .listing msg size ∨
      size = s.peers.ipList.card)
    (answered : Answered wire s a) :
    Accounts G messages wire argv (history ++ [(s, a)]) t := by
  refine accounts.quiet server ?_ said untold ?_ answered
  · intro ip
    rw [ipList]
    exact (or_iff_left (unbrought ip)).symm
  · intro msg size listing
    rw [ipList]
    rcases thread msg size listing with same | sized
    · exact accounts.listing msg size same
    · exact sized.le

theorem hear_of_mem {data : Bytes} (old : hash G data ∈ s.seen) (text : Bytes) :
    s.hear G data text = s := if_neg (not_not_intro old)

theorem hear_of_notMem {data : Bytes} (new : hash G data ∉ s.seen) (text : Bytes) :
    s.hear G data text =
      { s with
        printed := s.printed ++ [Bytes.ofCString text]
        seen := insert (hash G data) s.seen
        queued := fun i =>
          if i < s.peers.connections.length then ⟨.send, data⟩ ::ₘ s.queued i
          else s.queued i } := if_pos new

section Turn

variable {key data : Bytes} {msg : List Bytes} {content : Content} {answer : Option (List Bytes)}

theorem brings_turn (third : msg[2]? = some data) (decoded : messages.decode data = some ⟨content⟩)
    (ip : Bytes) : Brings messages ip (.turn key msg answer) ↔
      ∃ hello : Hello, ip = Bytes.ofCString hello.ip ∧ content = .hello hello := by
  constructor
  · rintro ⟨hello, rfl, data', third', decoded'⟩
    obtain rfl := Option.some.inj (third.symm.trans third')
    obtain rfl := Message.mk.inj (Option.some.inj (decoded.symm.trans decoded'))
    exact ⟨hello, rfl, rfl⟩
  · rintro ⟨hello, rfl, rfl⟩
    exact ⟨hello, rfl, data, third, decoded⟩

theorem tells_turn (third : msg[2]? = some data) (decoded : messages.decode data = some ⟨content⟩)
    (h : Bytes) : Tells G messages h (.turn key msg answer) ↔
      (∃ text, content = .text text) ∧ hash G data = h := by
  constructor
  · rintro ⟨data', text, third', decoded', rfl⟩
    obtain rfl := Option.some.inj (third.symm.trans third')
    obtain rfl := Message.mk.inj (Option.some.inj (decoded.symm.trans decoded'))
    exact ⟨⟨text, rfl⟩, rfl⟩
  · rintro ⟨⟨text, rfl⟩, same⟩
    exact ⟨data, text, third, decoded, same⟩

theorem Accounts.hear {argv : List Bytes} {history : List (Serving × Action)}
    (accounts : Accounts G messages wire argv history s) {text : Bytes}
    (decoded : messages.decode data = some ⟨.text text⟩) (third : msg[2]? = some data)
    (answered : Answered wire s (.turn key msg answer)) :
    Accounts G messages wire argv (history ++ [(s, .turn key msg answer)])
      (s.hear G data text) := by
  have tells (h : Bytes) : Tells G messages h (.turn key msg answer) ↔ hash G data = h := by
    rw [tells_turn third decoded]
    exact and_iff_right ⟨text, rfl⟩
  have asks : Asks messages (.text text) (.turn key msg answer) := ⟨data, third, decoded⟩
  have ipList (ip : Bytes) : ip ∈ s.peers.ipList ↔ ip ∈ argv ∨
      Visits (fun _ => Brings messages ip) (history ++ [(s, .turn key msg answer)]) := by
    have brings : ¬ Brings messages ip (.turn key msg answer) := by
      rw [brings_turn third decoded]
      rintro ⟨hello, -, other⟩
      cases other
    rw [accounts.ipList, visits_snoc, or_iff_left brings]
  have earlier (line : Bytes) (old : line ∈ s.printed) : ∃ text, line = Bytes.ofCString text ∧
      Visits (fun _ => Asks messages (.text text)) (history ++ [(s, .turn key msg answer)]) := by
    obtain ⟨text, same, visits⟩ := accounts.heard line old
    exact ⟨text, same, (visits_snoc ..).mpr (.inl visits)⟩
  by_cases old : hash G data ∈ s.seen
  · rw [hear_of_mem old]
    refine ⟨accounts.chain, accounts.hashSets, ipList, ?_, accounts.printed, earlier,
      accounts.queued, accounts.passed, accounts.listing,
      (meets_snoc ..).mpr ⟨accounts.answered, answered⟩⟩
    intro h
    rw [visits_snoc, tells, ← accounts.seen]
    refine (or_iff_left_of_imp ?_).symm
    rintro rfl
    exact old
  · rw [hear_of_notMem old]
    refine ⟨accounts.chain, accounts.hashSets, ipList, ?_, ?_, ?_, ?_, ?_, accounts.listing,
      (meets_snoc ..).mpr ⟨accounts.answered, answered⟩⟩
    · intro h
      rw [visits_snoc, tells, ← accounts.seen, Finset.mem_insert, or_comm, eq_comm]
    · rw [Finset.card_insert_of_notMem old, List.length_append, accounts.printed]
      rfl
    · intro line member
      rcases List.mem_append.mp member with old | last
      · exact earlier line old
      · exact ⟨text, List.mem_singleton.mp last, (visits_snoc ..).mpr (.inr asks)⟩
    · intro i
      show (if i < s.peers.connections.length then _ else _ : Multiset Task).Nodup
      split
      · refine Multiset.nodup_cons.mpr ⟨fun waiting => old ?_, accounts.queued i⟩
        exact (accounts.passed i _ waiting).2
      · exact accounts.queued i
    · intro i task member
      have there : task ∈ s.queued i ∨ task = ⟨.send, data⟩ := by
        by_cases connected : i < s.peers.connections.length
        · simp only [if_pos connected] at member
          exact (Multiset.mem_cons.mp member).symm
        · simp only [if_neg connected] at member
          exact .inl member
      rcases there with old | rfl
      · have passed := accounts.passed i task old
        exact ⟨passed.1, Finset.mem_insert_of_mem passed.2⟩
      · exact ⟨rfl, Finset.mem_insert_self _ _⟩

theorem Accounts.turned {argv : List Bytes} {history : List (Serving × Action)}
    (accounts : Accounts G messages wire argv history s) (receiving : s.thread = .receiving)
    (third : msg[2]? = some data) (decoded : messages.decode data = some ⟨content⟩)
    {u : Serving} {reply : Option Reply} (turned : Turned G s data content u reply)
    (proceeded : u.proceed wire msg reply = (t, answer)) :
    Accounts G messages wire argv (history ++ [(s, .turn key msg answer)]) t := by
  have unlisted (msg : List Bytes) (size : ℕ) : s.thread ≠ .listing msg size := by
    rw [receiving]
    nofun
  cases turned with
  | hello hello =>
    obtain ⟨rfl, rfl⟩ := Prod.mk.inj proceeded
    refine accounts.quiet ⟨rfl, rfl⟩ ?_ ⟨rfl, rfl, rfl⟩ ?_ ?_ ⟨_, rfl, nofun⟩
    · intro ip
      rw [brings_turn third decoded]
      simp only [Peers.insertIps, Finset.mem_union, List.mem_toFinset, List.mem_singleton,
        Content.hello.injEq, exists_eq_right']
    · intro h
      rw [tells_turn third decoded]
      rintro ⟨⟨text, other⟩, -⟩
      cases other
    · exact fun msg size listing => absurd listing (unlisted msg size)
  | text text =>
    obtain ⟨rfl, rfl⟩ := Prod.mk.inj proceeded
    exact accounts.hear decoded third ⟨_, rfl, nofun⟩
  | getPeers =>
    obtain ⟨rfl, rfl⟩ := Prod.mk.inj proceeded
    refine accounts.still ⟨rfl, rfl⟩ rfl ⟨rfl, rfl, rfl⟩ ?_ ?_ ?_ trivial
    · intro ip
      rw [brings_turn third decoded]
      rintro ⟨hello, -, other⟩
      cases other
    · intro h
      rw [tells_turn third decoded]
      rintro ⟨⟨text, other⟩, -⟩
      cases other
    · rintro _ _ ⟨⟩
      exact .inr rfl
  | other quiet silent noSet =>
    obtain ⟨rfl, rfl⟩ := Prod.mk.inj proceeded
    refine accounts.still ⟨rfl, rfl⟩ rfl ⟨rfl, rfl, rfl⟩ ?_ ?_ (fun _ _ => .inl)
      ⟨_, rfl, noSet⟩
    · intro ip
      rw [brings_turn third decoded]
      rintro ⟨hello, -, rfl⟩
      exact quiet hello rfl
    · intro h
      rw [tells_turn third decoded]
      rintro ⟨⟨text, rfl⟩, -⟩
      exact silent text rfl

end Turn

theorem list_eq {msg : List Bytes} {size : ℕ} (sized : size ≤ s.peers.ipList.card) :
    s.list wire msg size =
      if size < s.peers.ipList.card then .error .pastEnd
      else .ok ({ s with thread := .receiving },
        some (msg.set 2 (wire.pack (Reply.ipList s.ips).object))) := by
  unfold list
  rw [length_ips]
  split
  · rfl
  case isFalse enough =>
    have whole : s.ips.takeD size [] = s.ips := by
      have same : size = s.ips.length := by
        rw [length_ips]
        omega
      rw [List.takeD_eq_take _ same.le, same, List.take_length]
    rw [whole]
    rfl

theorem connect_cases (s : Serving) (connects : Bool) (e : Expansion) :
    (e.Refused connects ∧ s.connect connects e = .error .thrown) ∨
      ¬ e.Refused connects ∧ ∃ connections, s.connect connects e =
        .ok ({ s with peers := ⟨s.peers.ipList, connections⟩, expansion := some e.next },
          none) := by
  unfold Serving.connect
  by_cases refused : e.Refused connects
  · rw [connect_of_refused refused, Cpp.error_bind]
    exact .inl ⟨refused, rfl⟩
  · rw [connect_of_not_refused refused, Cpp.ok_bind]
    exact .inr ⟨refused, _, rfl⟩

theorem answerable_of_brings {key ip : Bytes} {msg : List Bytes} {answer : Option (List Bytes)}
    (brings : Brings messages ip (.turn key msg answer)) :
    Answerable S messages creditSets msg := by
  obtain ⟨hello, -, data, third, decoded⟩ := brings
  exact ⟨data, .hello hello, third, decoded, trivial⟩

theorem answerable_of_tells {key h : Bytes} {msg : List Bytes} {answer : Option (List Bytes)}
    (tells : Tells G messages h (.turn key msg answer)) : Answerable S messages creditSets msg := by
  obtain ⟨data, text, third, decoded, -⟩ := tells
  exact ⟨data, .text text, third, decoded, trivial⟩

theorem Accounts.ended {argv : List Bytes} {history : List (Serving × Action)}
    (accounts : Accounts G messages wire argv history s) {a : Action} (e : Fault)
    (unbrought : ∀ ip, ¬ Brings messages ip a) (untold : ∀ h, ¬ Tells G messages h a)
    (answered : Answered wire s a) :
    Accounts G messages wire argv (history ++ [(s, a)]) { s with fault := some e } :=
  accounts.still ⟨rfl, rfl⟩ rfl ⟨rfl, rfl, rfl⟩ unbrought untold (fun _ _ => .inl) answered

theorem not_brings {a : Action} (other : ∀ newIps, a ≠ .learn newIps)
    (other' : ∀ key msg answer, a ≠ .turn key msg answer) (ip : Bytes) :
    ¬ Brings messages ip a := by
  cases a with
  | learn newIps => exact absurd rfl (other newIps)
  | turn key msg answer => exact absurd rfl (other' key msg answer)
  | _ =>
    rintro ⟨hello, -, asked⟩
    exact asked

theorem Accounts.step {argv : List Bytes} {history : List (Serving × Action)}
    (accounts : Accounts G messages wire argv history s) {a : Action}
    (taken : Step G P H S messages creditSets transactions wire myIp s a t) :
    Accounts G messages wire argv (history ++ [(s, a)]) t := by
  cases taken with
  | @turn _ key msg answer alive receiving keyed taken =>
    rcases turn_spec G P H S messages creditSets transactions wire accounts.hashSets keyed msg with
      ⟨-, data, content, u, reply, third, decoded, turned, went⟩ | ⟨unanswerable, e, ended⟩
    · rw [went] at taken
      exact accounts.turned receiving third decoded turned taken
    · rw [ended] at taken
      obtain ⟨rfl, rfl⟩ := Prod.mk.inj taken
      exact accounts.ended e (fun ip brings => unanswerable (answerable_of_brings brings))
        (fun h tells => unanswerable (answerable_of_tells tells)) trivial
  | @list _ msg size answer alive listing taken =>
    have unbrought (ip : Bytes) : ¬ Brings messages ip (.list answer) :=
      not_brings (a := .list answer) nofun nofun ip
    rw [list_eq (accounts.listing msg size listing)] at taken
    split at taken
    · obtain ⟨rfl, rfl⟩ := Prod.mk.inj taken
      exact accounts.ended .pastEnd unbrought (fun _ => id) trivial
    · obtain ⟨rfl, rfl⟩ := Prod.mk.inj taken
      exact accounts.still ⟨rfl, rfl⟩ rfl ⟨rfl, rfl, rfl⟩ unbrought (fun _ => id) nofun
        ⟨msg, size, listing, rfl⟩
  | learn newIps alive =>
    refine accounts.quiet ⟨rfl, rfl⟩ ?_ ⟨rfl, rfl, rfl⟩ (fun _ => id) ?_ trivial
    · intro ip
      simp only [Peers.insertIps, Finset.mem_union, List.mem_toFinset]
      rfl
    · intro msg size listing
      exact (accounts.listing msg size listing).trans (Finset.card_le_card Finset.subset_union_left)
  | expand ipsTmp alive free shuffled =>
    exact accounts.still ⟨rfl, rfl⟩ rfl ⟨rfl, rfl, rfl⟩ (not_brings nofun nofun) (fun _ => id)
      (fun _ _ => .inl) trivial
  | @connect _ e answer connects alive expanding more taken =>
    have unbrought (ip : Bytes) : ¬ Brings messages ip (.connect connects) :=
      not_brings (a := .connect connects) nofun nofun ip
    rcases connect_cases s connects e with ⟨-, thrown⟩ | ⟨-, connections, connected⟩
    · rw [thrown] at taken
      obtain ⟨rfl, rfl⟩ := Prod.mk.inj taken
      exact accounts.ended .thrown unbrought (fun _ => id) trivial
    · rw [connected] at taken
      obtain ⟨rfl, rfl⟩ := Prod.mk.inj taken
      exact accounts.still ⟨rfl, rfl⟩ rfl ⟨rfl, rfl, rfl⟩ unbrought (fun _ => id)
        (fun _ _ => .inl) trivial
  | expanded alive expanding last =>
    exact accounts.still ⟨rfl, rfl⟩ rfl ⟨rfl, rfl, rfl⟩ (not_brings nofun nofun) (fun _ => id)
      (fun _ _ => .inl) trivial
  | receiveSet hashset alive =>
    exact accounts.still ⟨rfl, rfl⟩ rfl ⟨rfl, rfl, rfl⟩ (not_brings nofun nofun) (fun _ => id)
      (fun _ _ => .inl) trivial
  | crash e alive => exact accounts.ended e (not_brings nofun nofun) (fun _ => id) trivial

variable {argv : List Bytes} {fullSet : Finset Bytes} {history : List (Serving × Action)}

theorem accounts_of_run
    (run : Run (Step G P H S messages creditSets transactions wire myIp) (initial argv fullSet)
      history t) : Accounts G messages wire argv history t := by
  induction run with
  | nil => exact accounts_initial argv fullSet
  | snoc _ taken ih => exact ih.step taken

/-! ## What ends the process -/

theorem Turned.still {data : Bytes} {content : Content} {u : Serving} {reply : Option Reply}
    (turned : Turned G s data content u reply) : u.fault = s.fault ∧ u.thread = s.thread := by
  cases turned with
  | hello => exact ⟨rfl, rfl⟩
  | getPeers => exact ⟨rfl, rfl⟩
  | other => exact ⟨rfl, rfl⟩
  | text text =>
    by_cases old : hash G data ∈ s.seen
    · rw [hear_of_mem old]
      exact ⟨rfl, rfl⟩
    · rw [hear_of_notMem old]
      exact ⟨rfl, rfl⟩

section Conversation

variable {key data : Bytes}

theorem turn_eq (identity : Bytes) {u : Serving} {reply : Option Reply}
    (responded : s.respond G P H S messages creditSets transactions key data = .ok (u, reply)) :
    s.after (s.turn G P H S messages creditSets transactions wire key [identity, [], data]) =
      u.proceed wire [identity, [], data] reply := by
  unfold turn
  have third : Cpp.index [identity, [], data] 2 = .ok data := rfl
  rw [third, Cpp.ok_bind, responded, Cpp.ok_bind]
  rfl

theorem respond_hello (s : Serving) (key : Bytes) (hello : Hello) :
    s.respond G P H S messages creditSets transactions key (messages.write ⟨.hello hello⟩) =
      .ok ({ s with peers := s.peers.insertIps [Bytes.ofCString hello.ip] }, some .welcome) := by
  unfold respond
  rw [messages.read_write]
  rfl

theorem respond_text (s : Serving) (key text : Bytes) :
    s.respond G P H S messages creditSets transactions key (messages.write ⟨.text text⟩) =
      .ok (s.hear G (messages.write ⟨.text text⟩) text, some .ok) := by
  unfold respond
  rw [messages.read_write]
  rfl

theorem respond_getPeers (s : Serving) (key : Bytes) :
    s.respond G P H S messages creditSets transactions key (messages.write ⟨.getPeers⟩) =
      .ok (s, none) := by
  unfold respond
  rw [messages.read_write]
  rfl

theorem after_list (s : Serving) (msg : List Bytes) :
    s.after (s.list wire msg s.peers.ipList.card) = ({ s with thread := .receiving },
      some (msg.set 2 (wire.pack (Reply.ipList s.ips).object))) := by
  rw [list_eq le_rfl, if_neg (lt_irrefl _)]
  rfl

section Undisturbed

variable (G P H S messages creditSets transactions wire myIp)

theorem exists_greeted (alive : s.fault = none) (receiving : s.thread = .receiving)
    (hello : Hello) :
    ∃ history t, Run (Step G P H S messages creditSets transactions wire myIp) s history t ∧
      t = { s with peers := s.peers.insertIps [Bytes.ofCString hello.ip] } :=
  ⟨_, _, Run.nil.snoc (.turn alive receiving (List.length_replicate (n := 16) (a := 0))
    (turn_eq [7] (respond_hello s _ hello))), rfl⟩

theorem exists_told (alive : s.fault = none) (receiving : s.thread = .receiving) (text : Bytes) :
    ∃ history t, Run (Step G P H S messages creditSets transactions wire myIp) s history t ∧
      t = s.hear G (messages.write ⟨.text text⟩) text :=
  ⟨_, _, Run.nil.snoc (.turn alive receiving (List.length_replicate (n := 16) (a := 0))
    (turn_eq [7] (respond_text s _ text))), rfl⟩

theorem exists_listed (alive : s.fault = none) (receiving : s.thread = .receiving) :
    ∃ history t, Run (Step G P H S messages creditSets transactions wire myIp) s history t ∧
      t = s := by
  have asked : Run (Step G P H S messages creditSets transactions wire myIp) s _ _ :=
    Run.nil.snoc (.turn alive receiving (List.length_replicate (n := 16) (a := 0))
      (turn_eq [7] (respond_getPeers s _)))
  have listed := asked.snoc (.list alive rfl (after_list _ _))
  refine ⟨_, _, listed, ?_⟩
  rw [← receiving]

theorem run_conversation (text : Bytes) :
    ∃ history t, Run (Step G P H S messages creditSets transactions wire myIp) (initial [] ∅)
      history t ∧ t.printed = [Bytes.ofCString text] ∧ t.peers.ipList = {[1]} ∧
      t.server.hashSets = ∅ ∧ t.thread = .receiving ∧ t.fault = none := by
  obtain ⟨_, s1, greeted, at1⟩ := exists_greeted G P H S messages creditSets transactions wire myIp
    (s := initial [] ∅) rfl rfl ⟨[1, 0, 2], 0⟩
  obtain ⟨_, s2, told, at2⟩ := exists_told G P H S messages creditSets transactions wire myIp
    (s := s1) (by rw [at1]; rfl) (by rw [at1]; rfl) text
  have fresh : hash G (messages.write ⟨.text text⟩) ∉ s1.seen := by
    rw [at1]
    exact Finset.notMem_empty _
  rw [hear_of_notMem fresh] at at2
  obtain ⟨_, s3, listed, at3⟩ := exists_listed G P H S messages creditSets transactions wire myIp
    (s := s2) (by rw [at2, at1]; rfl) (by rw [at2, at1]; rfl)
  have known : ((Peers.none.insertIps []).insertIps [Bytes.ofCString [1, 0, 2]]).ipList =
      {[1]} := by decide
  refine ⟨_, s3, (greeted.trans told).trans listed, ?_⟩
  rw [at3, at2, at1]
  exact ⟨rfl, known, rfl, rfl, rfl⟩

end Undisturbed

end Conversation

/-- In whatever order requests come to `serve`, and other threads take their steps: the chain and
its sets stay empty; the node knows the addresses of its arguments, of every HELLO up to a NUL and
of every list it read; the hashes it has seen are those of the texts it was sent, one text was
printed for each of them, and none goes over a connection twice; and every answer takes the place
of the third frame, is never a set, and for GET_PEERS holds the addresses known when it goes. -/
theorem run_accounts
    (run : Run (Step G P H S messages creditSets transactions wire myIp) (initial argv fullSet)
      history t) : Accounts G messages wire argv history t := accounts_of_run run

theorem run_accounts_conversation :
    ∃ history t, Accounts .polynomial (.ofEncodable _) .ofEncodable [] history t ∧
      t.printed = [[104, 105]] ∧ t.seen.card = 1 ∧ t.peers.ipList = {[1]} := by
  obtain ⟨history, t, run, printed, known, -⟩ := run_conversation .polynomial .concatenation
    .firstBytes .prefixing (.ofEncodable _) (.ofEncodable _) (.ofEncodable _) .ofEncodable []
    [104, 105, 0, 33]
  have accounts := run_accounts run
  have one := accounts.printed
  rw [printed] at one
  exact ⟨history, t, accounts, printed, one.symm, known⟩

end Serving

end Pttp
