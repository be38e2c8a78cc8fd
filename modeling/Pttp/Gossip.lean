import Pttp.Curve
import Pttp.Lib.Flooding
import Pttp.Messages

/-!
# Text gossip

Every node runs `read_lines`, `serve` and a `manage_connection` for each of its
connections. A connection has a queue of tasks and a request socket, which waits
for the reply to one message before it sends the next.
-/

namespace Pttp

open Messages Runs

inductive TaskType where
  | sendPriority
  | send
  | hello
  | syncUtxo
  | expandConnection
  | reqIps
  | reqHashsetFilter
  | reqHashset
  | syncHashset
  deriving DecidableEq

/-- The queue of a connection holds tasks of time 0 only. -/
structure Task where
  type : TaskType
  data : Bytes
  deriving DecidableEq

/-- Where a connection is in its exchange: a request on its way to the peer, or
handled by the peer and its reply on the way back. -/
inductive SocketState where
  | idle
  | request (data : Bytes)
  | replied
  deriving DecidableEq

/-- The `connections` of every node; they do not change. -/
structure Network (Node Connection : Type) where
  connections : Node → List Connection
  owner : Connection → Node
  peer : Connection → Node
  nodup : ∀ u, (connections u).Nodup
  mem_connections : ∀ u con, con ∈ connections u ↔ owner con = u

/-- The state of all nodes. `entered` and `queued` record what happened, and `printed` the
texts as they came: what the terminal shows of one ends at a NUL. -/
structure Gossip (Node Connection : Type) where
  seen : Node → Finset Bytes
  printed : Node → List Bytes
  queue : Connection → Multiset Task
  sock : Connection → SocketState
  entered : List (Node × Bytes)
  queued : Connection → Multiset Task

section Definitions

variable {Node Connection : Type} [DecidableEq Node] [DecidableEq Connection]

def Gossip.initial : Gossip Node Connection :=
  ⟨fun _ => ∅, fun _ => [], fun _ => 0, fun _ => .idle, [], fun _ => 0⟩

def Gossip.add (s : Gossip Node Connection) (con : Connection) (task : Task) :
    Gossip Node Connection :=
  { s with
    queue := Function.update s.queue con (task ::ₘ s.queue con)
    queued := Function.update s.queued con (task ::ₘ s.queued con) }

/-- `for (auto con : connections) con->gtd(Task(SEND, b))`. -/
def Gossip.forward (b : Bytes) : List Connection → Gossip Node Connection → Gossip Node Connection
  | [], s => s
  | con :: rest, s => forward b rest (s.add con ⟨.send, b⟩)

/-- `cout << "MESSAGE: " << string(text) << endl; seen.insert(msg_hash)`. -/
def Gossip.mark (v : Node) (text msgHash : Bytes) (s : Gossip Node Connection) :
    Gossip Node Connection :=
  { s with
    printed := Function.update s.printed v (s.printed v ++ [text])
    seen := Function.update s.seen v (insert msgHash (s.seen v)) }

def Gossip.setSock (s : Gossip Node Connection) (con : Connection) (state : SocketState) :
    Gossip Node Connection :=
  { s with sock := Function.update s.sock con state }

/-- `q.pop()`; the task may be any of the queue. -/
def Gossip.pop (s : Gossip Node Connection) (con : Connection) (task : Task) :
    Gossip Node Connection :=
  { s with queue := Function.update s.queue con ((s.queue con).erase task) }

variable (G : GenericHash) (messages : Codec Message) (network : Network Node Connection)

def textMessage (text : Bytes) : Bytes := messages.write ⟨.text text⟩

def Gossip.readLine (u : Node) (line : Bytes) (s : Gossip Node Connection) :
    Gossip Node Connection :=
  { s.forward (textMessage messages line) (network.connections u) with
    entered := s.entered ++ [(u, line)] }

/-- The switch of `serve` at node `v`, as far as it concerns the gossip: only TEXT
uses `seen` or the connections. -/
def Gossip.serve (v : Node) (msg : Bytes) (s : Gossip Node Connection) :
    Cpp (Gossip Node Connection) := do
  let message ← messages.read msg
  match message.content with
  | .text text =>
      let msgHash := hash G msg
      if msgHash ∉ s.seen v then
        return (s.mark v text msgHash).forward msg (network.connections v)
      else return s
  | _ => return s

inductive Outgoing : Task → Bytes → Prop where
  | sendPriority (data : Bytes) : Outgoing ⟨.sendPriority, data⟩ data
  | send (data : Bytes) : Outgoing ⟨.send, data⟩ data
  | hello (data : Bytes) (hello : Hello) :
      Outgoing ⟨.hello, data⟩ (messages.write ⟨.hello hello⟩)
  | reqIps (data : Bytes) : Outgoing ⟨.reqIps, data⟩ (messages.write ⟨.getPeers⟩)
  | reqHashsetFilter (data : Bytes) :
      Outgoing ⟨.reqHashsetFilter, data⟩ (messages.write ⟨.reqSetFilter (.txSetHash data)⟩)
  | reqHashset (data : Bytes) (bloom : BloomSet) :
      Outgoing ⟨.reqHashset, data⟩ (messages.write ⟨.reqSet ⟨.txSetHash data, bloom⟩⟩)

inductive GossipAction (Node Connection : Type) where
  | readLine (u : Node) (line : Bytes)
  | request (con : Connection) (task : Task)
  | send (con : Connection) (task : Task)
  | receive (con : Connection)
  | reply (con : Connection)

def requestTypes : List TaskType := [.hello, .reqIps, .reqHashsetFilter, .reqHashset]

/-- The steps of the nodes. A request is queued at any time, and tasks leave a
queue in any order. -/
inductive GossipStep : Gossip Node Connection → GossipAction Node Connection →
    Gossip Node Connection → Prop where
  | readLine (s : Gossip Node Connection) (u : Node) (line : Bytes) :
      GossipStep s (.readLine u line) (s.readLine messages network u line)
  | request (s : Gossip Node Connection) (con : Connection) (task : Task)
      (request : task.type ∈ requestTypes) :
      GossipStep s (.request con task) (s.add con task)
  | send (s : Gossip Node Connection) (con : Connection) (task : Task) (data : Bytes)
      (idle : s.sock con = .idle) (waiting : task ∈ s.queue con)
      (outgoing : Outgoing messages task data) :
      GossipStep s (.send con task) ((s.pop con task).setSock con (.request data))
  | receive (s s' : Gossip Node Connection) (con : Connection) (data : Bytes)
      (requested : s.sock con = .request data)
      (served : s.serve G messages network (network.peer con) data = .ok s') :
      GossipStep s (.receive con) (s'.setSock con .replied)
  | reply (s : Gossip Node Connection) (con : Connection) (replied : s.sock con = .replied) :
      GossipStep s (.reply con) (s.setSock con .idle)

end Definitions

variable {Node Connection : Type} [DecidableEq Node] [DecidableEq Connection]
  {G : GenericHash} {messages : Codec Message} {network : Network Node Connection}
  {s t : Gossip Node Connection}

/-! ## What one operation does -/

theorem cons_update_eq {first : Connection} {rest : List Connection} (new : first ∉ rest)
    (task : Task) (queue : Connection → Multiset Task) (con : Connection) :
    (if con ∈ rest then task ::ₘ Function.update queue first (task ::ₘ queue first) con
      else Function.update queue first (task ::ₘ queue first) con) =
    if con ∈ first :: rest then task ::ₘ queue con else queue con := by
  by_cases here : con = first
  · subst here
    simp [new]
  · simp [here]

omit [DecidableEq Node] in
theorem forward_eq (b : Bytes) {cons : List Connection} (nodup : cons.Nodup)
    (s : Gossip Node Connection) :
    s.forward b cons =
      { s with
        queue := fun con =>
          if con ∈ cons then ⟨.send, b⟩ ::ₘ s.queue con else s.queue con
        queued := fun con =>
          if con ∈ cons then ⟨.send, b⟩ ::ₘ s.queued con else s.queued con } := by
  induction cons generalizing s with
  | nil => simp [Gossip.forward]
  | cons first rest ih =>
    rw [List.nodup_cons] at nodup
    rw [Gossip.forward, ih nodup.2]
    simp only [Gossip.add, cons_update_eq nodup.1]

theorem forward_connections (b : Bytes) (u : Node) (s : Gossip Node Connection) :
    s.forward b (network.connections u) =
      { s with
        queue := fun con =>
          if network.owner con = u then ⟨.send, b⟩ ::ₘ s.queue con else s.queue con
        queued := fun con =>
          if network.owner con = u then ⟨.send, b⟩ ::ₘ s.queued con else s.queued con } := by
  simp only [forward_eq b (network.nodup u), network.mem_connections]

theorem textMessage_injective (messages : Codec Message) :
    Function.Injective (textMessage messages) := by
  intro line line' same
  have decoded := messages.read_write ⟨.text line⟩
  rw [show messages.write ⟨.text line⟩ = messages.write ⟨.text line'⟩ from same,
    messages.read_write] at decoded
  cases decoded
  rfl

theorem serve_textMessage (v : Node) (line : Bytes) (s : Gossip Node Connection) :
    s.serve G messages network v (textMessage messages line) =
      .ok (if hash G (textMessage messages line) ∈ s.seen v then s
        else (s.mark v line (hash G (textMessage messages line))).forward
          (textMessage messages line) (network.connections v)) := by
  have decoded : messages.read (textMessage messages line) = .ok ⟨.text line⟩ :=
    messages.read_write _
  rw [Gossip.serve, decoded, Cpp.ok_bind]
  by_cases marked : hash G (textMessage messages line) ∈ s.seen v
  · simp only [marked, not_true_eq_false, if_false, if_true]
    rfl
  · simp only [marked, not_false_eq_true, if_false, if_true]
    rfl

def IsRequest (messages : Codec Message) (b : Bytes) : Prop :=
  ∃ message : Message, b = messages.write message ∧ ∀ text, message.content ≠ .text text

theorem serve_request (v : Node) {b : Bytes} (request : IsRequest messages b)
    (s : Gossip Node Connection) : s.serve G messages network v b = .ok s := by
  obtain ⟨message, rfl, noText⟩ := request
  rw [Gossip.serve, messages.read_write, Cpp.ok_bind]
  split
  case h_1 text isText => exact absurd isText (noText text)
  case h_2 => rfl

theorem IsRequest.ne_textMessage {b : Bytes} (request : IsRequest messages b) (line : Bytes) :
    b ≠ textMessage messages line := by
  obtain ⟨message, rfl, noText⟩ := request
  intro same
  have decoded := messages.read_write message
  rw [same, textMessage, messages.read_write] at decoded
  cases decoded
  exact noText line rfl

theorem Outgoing.isRequest {task : Task} {b : Bytes} (outgoing : Outgoing messages task b)
    (request : task.type ∈ requestTypes) : IsRequest messages b := by
  cases outgoing with
  | sendPriority => simp [requestTypes] at request
  | send => simp [requestTypes] at request
  | hello data hello => exact ⟨_, rfl, fun text => Content.noConfusion⟩
  | reqIps => exact ⟨_, rfl, fun text => Content.noConfusion⟩
  | reqHashsetFilter => exact ⟨_, rfl, fun text => Content.noConfusion⟩
  | reqHashset => exact ⟨_, rfl, fun text => Content.noConfusion⟩

end Pttp
