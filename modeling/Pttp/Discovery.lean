import Pttp.Connections
import Pttp.Gossip
import Pttp.Lib.Spreading
import Pttp.Server.Envelope

/-!
# Finding peers

Every node runs `manage`, `serve` and a `manage_connection` for each of its connections.
A connection first says HELLO, which puts the address of its node into the list of the
peer, and REQ_IPS brings the list of the peer home. `serve` sizes the list of a reply
before it takes the lock under which it fills it in, so there are two steps to GET_PEERS,
and other threads may come between. EXPAND_CONNECTION makes its connections one by one, and
an exception that leaves a thread ends the whole node.
-/

namespace Pttp

open Messages Runs

/-- The nodes, what each was started with, and who listens at an address. What is given on
a command line has no NUL. -/
structure World (Node : Type) where
  myIp : Node → Bytes
  argv : Node → List Bytes
  listener : Bytes → Option Node
  cStrings : ∀ u, ∀ ip ∈ myIp u :: argv u, 0 ∉ ip

/-- A connection: its node, and its place in `connections`. -/
abbrev Link (Node : Type) := Node × ℕ

/-- Where the thread of a connection is: not yet at its loop; in `con->gtd()`; or in
`sock.recv()`, with the request on its way or the reply. -/
inductive Exchange where
  | starting
  | idle
  | request (task : Task) (data : Bytes)
  | replied (task : Task) (result : Bytes)
  deriving DecidableEq

/-- Where the thread of `serve` is: in `recv_multi`, or behind `initIps` and before the
lock. -/
inductive ServeThread (Node : Type) where
  | receiving
  | listing (con : Link Node) (size : ℕ)
  deriving DecidableEq

/-- The state of all nodes. A node with a fault has ended, or nothing of it is determined any
more. `expansion` is what `manage` has in hand of EXPAND_CONNECTION. -/
structure Discovery (Node : Type) where
  peers : Node → Peers
  expansion : Node → Option Expansion
  queue : Link Node → Multiset Task
  exchange : Link Node → Exchange
  serving : Node → ServeThread Node
  fault : Node → Option Fault

namespace Discovery

section Definitions

variable {Node : Type} [DecidableEq Node] (wire : Wire) (messages : Codec Message)
  (world : World Node)

def initial : Discovery Node where
  peers u := Peers.none.insertIps (world.argv u)
  expansion _ := none
  queue _ := 0
  exchange _ := .starting
  serving _ := .receiving
  fault _ := none

def setPeers (s : Discovery Node) (u : Node) (p : Peers) : Discovery Node :=
  { s with peers := Function.update s.peers u p }

def insertIps (s : Discovery Node) (u : Node) (ips : List Bytes) : Discovery Node :=
  s.setPeers u ((s.peers u).insertIps ips)

def setExpansion (s : Discovery Node) (u : Node) (e : Option Expansion) : Discovery Node :=
  { s with expansion := Function.update s.expansion u e }

def setExchange (s : Discovery Node) (con : Link Node) (e : Exchange) : Discovery Node :=
  { s with exchange := Function.update s.exchange con e }

def setServing (s : Discovery Node) (v : Node) (thread : ServeThread Node) : Discovery Node :=
  { s with serving := Function.update s.serving v thread }

def add (s : Discovery Node) (con : Link Node) (task : Task) : Discovery Node :=
  { s with queue := Function.update s.queue con (task ::ₘ s.queue con) }

/-- `q.pop()`; the task may be any of the queue. -/
def pop (s : Discovery Node) (con : Link Node) (task : Task) : Discovery Node :=
  { s with queue := Function.update s.queue con ((s.queue con).erase task) }

/-- A call that a thread of the node makes. A fault ends the process. -/
def after (s : Discovery Node) (u : Node) : Cpp (Discovery Node) → Discovery Node
  | .ok t => t
  | .error e => { s with fault := Function.update s.fault u (some e) }

def address (s : Discovery Node) (con : Link Node) : Option Bytes :=
  (s.peers con.1).connections[con.2]?

def target (s : Discovery Node) (con : Link Node) : Option Node :=
  (s.address con).bind world.listener

/-- What `manage_connection` sends for the tasks that concern texts and addresses. -/
def requestFor (myIp : Bytes) (task : Task) : Option Bytes :=
  match task.type with
  | .sendPriority => some task.data
  | .send => some task.data
  | .hello => some (messages.write ⟨.hello ⟨myIp, 0⟩⟩)
  | .reqIps => some (messages.write ⟨.getPeers⟩)
  | _ => none

def connect (connects : Bool) (u : Node) (e : Expansion) (s : Discovery Node) :
    Cpp (Discovery Node) := do
  let (p, e) ← (s.peers u).connect connects e
  return (s.setPeers u p).setExpansion u (some e)

/-- `serve` at node `v`, up to the reply or to the lock of GET_PEERS. What the branches that
leave the addresses alone answer is `other`. -/
def serve (other : Reply) (v : Node) (con : Link Node) (task : Task) (data : Bytes)
    (s : Discovery Node) : Cpp (Discovery Node) := do
  let message ← messages.read data
  match message.content with
  | .hello hello =>
      return (s.insertIps v [Bytes.ofCString hello.ip]).setExchange con
        (.replied task (wire.pack Reply.welcome.object))
  | .getPeers => return s.setServing v (.listing con (s.peers v).ipList.card)
  | _ => return s.setExchange con (.replied task (wire.pack other.object))

/-- `serve`, GET_PEERS under the lock: `iplist.set(n++, ip.c_str())` for the whole of
`ip_list`, in a list of the size it had before. -/
def list (v : Node) (con : Link Node) (size : ℕ) (task : Task) (s : Discovery Node) :
    Cpp (Discovery Node) :=
  let ips := ((s.peers v).ipList.sort (· ≤ ·)).map Bytes.ofCString
  if size < ips.length then .error .pastEnd
  else .ok ((s.setServing v .receiving).setExchange con
    (.replied task (wire.pack (Reply.ipList (ips.takeD size [])).object)))

def finish (con : Link Node) (task : Task) (result : Bytes) (s : Discovery Node) :
    Cpp (Discovery Node) :=
  let s := s.setExchange con .idle
  match task.type with
  | .reqIps => do
      let newIps ← readIps wire result
      return s.insertIps con.1 (newIps.map Bytes.ofCString)
  | _ => return s

inductive Action (Node : Type) where
  | start (con : Link Node)
  | request (con : Link Node) (task : Task)
  | expand (u : Node) (ipsTmp : List Bytes)
  | connect (u : Node) (connects : Bool)
  | expanded (u : Node)
  | send (con : Link Node) (task : Task)
  | receive (con : Link Node)
  | list (v : Node)
  | finish (con : Link Node)
  | socketErr (u : Node)

/-- The tasks that `manage`, `read_lines` and `serve` put on the queues of connections, as long
as no line with "go" is typed. -/
def Queued (task : Task) : Prop :=
  task = ⟨.reqIps, []⟩ ∨ ∃ line, task = ⟨.send, textMessage messages line⟩

/-- The steps of the nodes: tasks are queued at any time and leave a queue in any order, the
list is expanded after any shuffle, ZMQ may take an address or refuse it, and any other call
of it may fail. -/
inductive Step : Discovery Node → Action Node → Discovery Node → Prop where
  | start (s : Discovery Node) (con : Link Node) (alive : s.fault con.1 = none)
      (made : s.address con ≠ none) (starting : s.exchange con = .starting) :
      Step s (.start con) ((s.add con ⟨.hello, []⟩).setExchange con .idle)
  | request (s : Discovery Node) (con : Link Node) (task : Task) (alive : s.fault con.1 = none)
      (made : s.address con ≠ none) (queued : Queued messages task) :
      Step s (.request con task) (s.add con task)
  | expand (s : Discovery Node) (u : Node) (ipsTmp : List Bytes) (alive : s.fault u = none)
      (free : s.expansion u = none)
      (shuffled : ipsTmp.Perm ((s.peers u).ipList.sort (· ≤ ·))) :
      Step s (.expand u ipsTmp)
        (s.setExpansion u (some ((s.peers u).expansion (world.myIp u) ipsTmp)))
  | connect (s : Discovery Node) (u : Node) (e : Expansion) (connects : Bool)
      (alive : s.fault u = none) (expanding : s.expansion u = some e) (more : e.rounds ≠ 0) :
      Step s (.connect u connects) (s.after u (s.connect connects u e))
  | expanded (s : Discovery Node) (u : Node) (e : Expansion) (alive : s.fault u = none)
      (expanding : s.expansion u = some e) (last : e.rounds = 0) :
      Step s (.expanded u) (s.setExpansion u none)
  | send (s : Discovery Node) (con : Link Node) (task : Task) (data : Bytes)
      (alive : s.fault con.1 = none) (idle : s.exchange con = .idle)
      (waiting : task ∈ s.queue con)
      (sent : requestFor messages (world.myIp con.1) task = some data) :
      Step s (.send con task) ((s.pop con task).setExchange con (.request task data))
  | receive (s : Discovery Node) (con : Link Node) (v : Node) (task : Task) (data : Bytes)
      (other : Reply) (alive : s.fault v = none) (receiving : s.serving v = .receiving)
      (requested : s.exchange con = .request task data) (here : s.target world con = some v) :
      Step s (.receive con) (s.after v (s.serve wire messages other v con task data))
  | list (s : Discovery Node) (v : Node) (con : Link Node) (size : ℕ) (task : Task)
      (data : Bytes) (alive : s.fault v = none) (listing : s.serving v = .listing con size)
      (requested : s.exchange con = .request task data) :
      Step s (.list v) (s.after v (s.list wire v con size task))
  | finish (s : Discovery Node) (con : Link Node) (task : Task) (result : Bytes)
      (alive : s.fault con.1 = none) (replied : s.exchange con = .replied task result) :
      Step s (.finish con) (s.after con.1 (s.finish wire con task result))
  | socketErr (s : Discovery Node) (u : Node) (alive : s.fault u = none) :
      Step s (.socketErr u) (s.after u (.error .thrown))

end Definitions

end Discovery

end Pttp
