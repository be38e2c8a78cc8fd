import Pttp.Chain.BlockChainReconsiler
import Pttp.Connections
import Pttp.Gtd

/-!
# The manager

`manage` puts two tasks into `manager_gtd`, and each puts itself back when it was handled.
So there is always one of them in the queue or in hand, and since the clock is read again
for the delay, the time between two turns only grows. A line with "go" puts a third task
there. What `check` and `filters` return for it has no value, and what the thread does with
that is not determined: it may go on with any value, or end.
-/

namespace Pttp

open Runs

/-- `get_set_or_filter`, with what came from `filters`. -/
def Chain.BlockChainReconsiler.getSetOrFilterBy (s : BlockChainReconsiler) (hash : Bytes)
    (filters : List Bloom) : Cpp Bool :=
  if filters.length = 0 then .ok false
  else
    match (s.entry hash).1 with
    | none => .error .nullPointer
    | some r => .ok (decide (r.currentSet.length < r.N.toNat))

/-- Where `filters` returns, `get_set_or_filter` does that with what it returned. -/
theorem Chain.BlockChainReconsiler.getSetOrFilter_eq {s s' : BlockChainReconsiler} {hash : Bytes}
    {filters : List Bloom} (returned : s.filters hash = (some filters, s')) :
    s.getSetOrFilter hash = (s'.getSetOrFilterBy hash filters).map some := by
  unfold getSetOrFilter getSetOrFilterBy
  simp only [returned]
  by_cases none : filters.length = 0
  · simp [none, Except.map]
  · simp only [if_neg none]
    cases (s'.entry hash).1 <;> rfl

/-- A call comes back with a value: the one it returned, or any when it returned none. -/
def Returned {α : Type} (call : Cpp (Option α)) (a : α) : Prop :=
  call = .ok (some a) ∨ call = .ok none

/-- `manage`, SYNC_HASHSET, up to the queues: the type of the tasks for the connections, or
nothing when it is done. -/
inductive Synced (G : GenericHash) (reconsiler : Chain.BlockChainReconsiler) (hash : Bytes) :
    Chain.BlockChainReconsiler → Option TaskType → Prop where
  | done (checked : Returned ((reconsiler.initHash hash).check G hash) true) :
      Synced G reconsiler hash (reconsiler.initHash hash) none
  | request {filters : List Bloom} {set : Bool}
      (checked : Returned ((reconsiler.initHash hash).check G hash) false)
      (filtered : Returned (.ok ((reconsiler.initHash hash).filters hash).1) filters)
      (asked : ((reconsiler.initHash hash).filters hash).2.getSetOrFilterBy hash filters =
        .ok set) :
      Synced G reconsiler hash ((reconsiler.initHash hash).filters hash).2
        (some (if set then .reqHashset else .reqHashsetFilter))

/-- Where the thread of `manage` is: before one of its first two lines; in `manager_gtd()`;
with a task that came at some time; or nowhere, as the process has ended. -/
inductive ManageThread where
  | starting
  | started
  | polling
  | handling (x : GTD.Entry) (since : Int)
  | ended
  deriving DecidableEq

/-- `queued` is what was put into the queue of each connection. -/
structure Manager where
  gtd : GTD.State
  thread : ManageThread
  expansion : Option Expansion
  peers : Peers
  queued : ℕ → Multiset Task
  reconsiler : Chain.BlockChainReconsiler

namespace Manager

section Definitions

variable (G : GenericHash) (myIp : Bytes) (start : Int)

def initial (argv : List Bytes) : Manager :=
  ⟨GTD.initial start, .starting, none, Peers.none.insertIps argv, fun _ => 0, .new⟩

def addAll (s : Manager) (task : Task) : Manager :=
  { s with queued := fun i =>
      if i < s.peers.connections.length then task ::ₘ s.queued i else s.queued i }

inductive Action where
  | tick (later : Int)
  | go
  | learn (newIps : List Bytes)
  | addFilter (hash : Bytes) (n : Int32) (bloom : Bloom)
  | begin (type : TaskType)
  | poll
  | handle
  | expand (ipsTmp : List Bytes)
  | connect (connects : Bool)
  | expanded
  | noValue
  | crash

def Action.Own : Action → Prop
  | .tick _ => False
  | .go => False
  | .learn _ => False
  | .addFilter _ _ _ => False
  | .crash => False
  | _ => True

/-- The steps of the manager, and those of other threads that touch what it uses. The clock
is read in a call of `add` after the manager came to the line with it. `noValue` is an end at
a value that was not returned, and `crash` that of another thread. -/
inductive Step : Manager → Action → Manager → Prop where
  | tick (s : Manager) {g : GTD.State} (later : Int)
      (taken : GTD.Step start s.gtd (.tick later) g) : Step s (.tick later) { s with gtd := g }
  | go (s : Manager) (alive : s.thread ≠ .ended) :
      Step s .go { s with gtd := s.gtd.push (GTD.add ⟨.syncHashset, [], 0⟩) }
  | learn (s : Manager) (newIps : List Bytes) (alive : s.thread ≠ .ended) :
      Step s (.learn newIps) { s with peers := s.peers.insertIps newIps }
  | addFilter (s : Manager) (hash : Bytes) (n : Int32) (bloom : Bloom)
      (alive : s.thread ≠ .ended) :
      Step s (.addFilter hash n bloom)
        { s with reconsiler := s.reconsiler.addFilter hash n bloom }
  | beginReqIps (s : Manager) (starting : s.thread = .starting) {called : Int}
      (began : start ≤ called) (read : called ≤ s.gtd.now) :
      Step s (.begin .reqIps)
        { s with
          gtd := s.gtd.push (GTD.addAfter ⟨.reqIps, [], 0⟩ called 4000)
          thread := .started }
  | beginExpand (s : Manager) (started : s.thread = .started) {called : Int}
      (began : start ≤ called) (read : called ≤ s.gtd.now) :
      Step s (.begin .expandConnection)
        { s with
          gtd := s.gtd.push (GTD.addAfter ⟨.expandConnection, [], 0⟩ called 1000)
          thread := .polling }
  | idle (s : Manager) {g : GTD.State} (polling : s.thread = .polling)
      (taken : GTD.Step start s.gtd .idle g) : Step s .poll { s with gtd := g }
  | deliver (s : Manager) {x : GTD.Entry} (polling : s.thread = .polling) (top : s.gtd.IsTop x)
      (due : s.gtd.Due x) :
      Step s .poll { s with gtd := s.gtd.pop x, thread := .handling x s.gtd.now }
  | reqIps (s : Manager) {x : GTD.Entry} {since : Int} (handling : s.thread = .handling x since)
      (type : x.task.type = .reqIps) {called : Int} (after : since ≤ called)
      (read : called ≤ s.gtd.now) :
      Step s .handle
        { s.addAll ⟨.reqIps, []⟩ with
          gtd := s.gtd.push (GTD.addAfter x.task called 10000)
          thread := .polling }
  | expand (s : Manager) {x : GTD.Entry} {since : Int} (handling : s.thread = .handling x since)
      (type : x.task.type = .expandConnection) (free : s.expansion = none) (ipsTmp : List Bytes)
      (shuffled : ipsTmp.Perm (s.peers.ipList.sort (· ≤ ·))) :
      Step s (.expand ipsTmp) { s with expansion := some (s.peers.expansion myIp ipsTmp) }
  | connect (s : Manager) {x : GTD.Entry} {since : Int} (handling : s.thread = .handling x since)
      {e e' : Expansion} {p : Peers} (connects : Bool) (expanding : s.expansion = some e)
      (more : e.rounds ≠ 0) (connected : s.peers.connect connects e = .ok (p, e')) :
      Step s (.connect connects) { s with peers := p, expansion := some e' }
  | refused (s : Manager) {x : GTD.Entry} {since : Int} (handling : s.thread = .handling x since)
      {e : Expansion} {fault : Fault} (connects : Bool) (expanding : s.expansion = some e)
      (more : e.rounds ≠ 0) (thrown : s.peers.connect connects e = .error fault) :
      Step s (.connect connects) { s with thread := .ended }
  | expanded (s : Manager) {x : GTD.Entry} {since : Int} (handling : s.thread = .handling x since)
      {e : Expansion} (expanding : s.expansion = some e) (last : e.rounds = 0) {called : Int}
      (after : since ≤ called) (read : called ≤ s.gtd.now) :
      Step s .expanded
        { s with
          gtd := s.gtd.push (GTD.addAfter x.task called 20000)
          thread := .polling
          expansion := none }
  | done (s : Manager) {x : GTD.Entry} {since : Int} (handling : s.thread = .handling x since)
      (type : x.task.type = .syncHashset) {reconsiler : Chain.BlockChainReconsiler}
      (synced : Synced G s.reconsiler x.task.data reconsiler none) :
      Step s .handle { s with thread := .polling, reconsiler := reconsiler }
  | sync (s : Manager) {x : GTD.Entry} {since : Int} (handling : s.thread = .handling x since)
      (type : x.task.type = .syncHashset) {reconsiler : Chain.BlockChainReconsiler}
      {request : TaskType} (synced : Synced G s.reconsiler x.task.data reconsiler (some request))
      {called : Int} (after : since ≤ called) (read : called ≤ s.gtd.now) :
      Step s .handle
        { s.addAll ⟨request, x.task.data⟩ with
          gtd := s.gtd.push (GTD.addAfter x.task called 1000)
          thread := .polling
          reconsiler := reconsiler }
  | noValue (s : Manager) {x : GTD.Entry} {since : Int} (handling : s.thread = .handling x since)
      (type : x.task.type = .syncHashset)
      (missing : (s.reconsiler.initHash x.task.data).check G x.task.data = .ok none) :
      Step s .noValue { s with thread := .ended }
  | crash (s : Manager) : Step s .crash { s with thread := .ended }

end Definitions

end Manager

end Pttp
