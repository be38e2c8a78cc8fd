import Pttp.Gossip

/-!
# Text gossip delivers

Seen from one text, the nodes flood: the copies of `Lib.Flooding` are the SEND
tasks and the requests with the bytes of the text. Without a collision among the
texts that are entered, `seen` tells them apart.
-/

namespace Pttp

open Messages Runs Flooding

variable {Node Connection : Type} [DecidableEq Node] [DecidableEq Connection]
  {G : GenericHash} {messages : Codec Message} {network : Network Node Connection}
  {s t : Gossip Node Connection} {texts : Set Bytes}

def EnteredIn (texts : Set Bytes) (s : Gossip Node Connection) : Prop :=
  ∀ entry ∈ s.entered, entry.2 ∈ texts

/-- What is queued, sent, printed and marked comes from the texts. -/
structure FromTexts (G : GenericHash) (messages : Codec Message) (texts : Set Bytes)
    (s : Gossip Node Connection) : Prop where
  queue : ∀ con, ∀ task ∈ s.queue con,
    (∃ line ∈ texts, task = ⟨.send, textMessage messages line⟩) ∨ task.type ∈ requestTypes
  sock : ∀ con data, s.sock con = .request data →
    (∃ line ∈ texts, data = textMessage messages line) ∨ IsRequest messages data
  printed : ∀ v, ∀ line ∈ s.printed v, line ∈ texts
  seen : ∀ v h, h ∈ s.seen v ↔ ∃ line ∈ s.printed v, h = hash G (textMessage messages line)

omit [DecidableEq Node] [DecidableEq Connection] in
theorem fromTexts_initial :
    FromTexts G messages texts (Gossip.initial : Gossip Node Connection) where
  queue con task member := absurd member (Multiset.notMem_zero task)
  sock con data requested := by cases requested
  printed v line member := absurd member List.not_mem_nil
  seen v h := by simp [Gossip.initial]

theorem FromTexts.forward (fromTexts : FromTexts G messages texts s) {line : Bytes}
    (entered : line ∈ texts) (u : Node) :
    FromTexts G messages texts
      (s.forward (textMessage messages line) (network.connections u)) := by
  rw [forward_connections]
  refine ⟨fun con task member => ?_, fromTexts.sock, fromTexts.printed, fromTexts.seen⟩
  simp only at member
  split at member
  · rcases Multiset.mem_cons.mp member with rfl | old
    · exact .inl ⟨line, entered, rfl⟩
    · exact fromTexts.queue con task old
  · exact fromTexts.queue con task member

omit [DecidableEq Node] in
theorem FromTexts.add (fromTexts : FromTexts G messages texts s) (con : Connection) {task : Task}
    (request : task.type ∈ requestTypes) : FromTexts G messages texts (s.add con task) := by
  refine ⟨fun other waiting member => ?_, fromTexts.sock, fromTexts.printed, fromTexts.seen⟩
  by_cases here : other = con
  · subst here
    simp only [Gossip.add, Function.update_self] at member
    rcases Multiset.mem_cons.mp member with rfl | old
    · exact .inr request
    · exact fromTexts.queue other waiting old
  · simp only [Gossip.add, Function.update_of_ne here] at member
    exact fromTexts.queue other waiting member

omit [DecidableEq Node] in
theorem FromTexts.pop (fromTexts : FromTexts G messages texts s) (con : Connection)
    (task : Task) : FromTexts G messages texts (s.pop con task) := by
  refine ⟨fun other rest member => ?_, fromTexts.sock, fromTexts.printed, fromTexts.seen⟩
  by_cases here : other = con
  · subst here
    simp only [Gossip.pop, Function.update_self] at member
    exact fromTexts.queue other rest (Multiset.mem_of_mem_erase member)
  · simp only [Gossip.pop, Function.update_of_ne here] at member
    exact fromTexts.queue other rest member

omit [DecidableEq Node] in
theorem FromTexts.setSock (fromTexts : FromTexts G messages texts s) (con : Connection)
    {state : SocketState}
    (sent : ∀ data, state = .request data →
      (∃ line ∈ texts, data = textMessage messages line) ∨ IsRequest messages data) :
    FromTexts G messages texts (s.setSock con state) := by
  refine ⟨fromTexts.queue, fun other data requested => ?_, fromTexts.printed, fromTexts.seen⟩
  by_cases here : other = con
  · subst here
    simp only [Gossip.setSock, Function.update_self] at requested
    exact sent data requested
  · simp only [Gossip.setSock, Function.update_of_ne here] at requested
    exact fromTexts.sock other data requested

omit [DecidableEq Connection] in
theorem FromTexts.mark (fromTexts : FromTexts G messages texts s) {line : Bytes}
    (entered : line ∈ texts) (v : Node) :
    FromTexts G messages texts (s.mark v line (hash G (textMessage messages line))) := by
  refine ⟨fromTexts.queue, fromTexts.sock, fun w other member => ?_, fun w h => ?_⟩
  · by_cases here : w = v
    · subst here
      simp only [Gossip.mark, Function.update_self, List.mem_append, List.mem_singleton] at member
      rcases member with old | rfl
      · exact fromTexts.printed w other old
      · exact entered
    · simp only [Gossip.mark, Function.update_of_ne here] at member
      exact fromTexts.printed w other member
  · by_cases here : w = v
    · subst here
      simp only [Gossip.mark, Function.update_self, Finset.mem_insert, fromTexts.seen,
        List.mem_append, List.mem_singleton]
      constructor
      · rintro (rfl | ⟨other, printed, rfl⟩)
        · exact ⟨line, .inr rfl, rfl⟩
        · exact ⟨other, .inl printed, rfl⟩
      · rintro ⟨other, printed | rfl, rfl⟩
        · exact .inr ⟨other, printed, rfl⟩
        · exact .inl rfl
    · simp only [Gossip.mark, Function.update_of_ne here]
      exact fromTexts.seen w h

theorem FromTexts.serve (fromTexts : FromTexts G messages texts s) {con : Connection}
    {data : Bytes} (requested : s.sock con = .request data) {v : Node}
    {s' : Gossip Node Connection} (served : s.serve G messages network v data = .ok s') :
    FromTexts G messages texts s' := by
  rcases fromTexts.sock con data requested with ⟨line, entered, rfl⟩ | request
  · rw [serve_textMessage, Except.ok.injEq] at served
    subst served
    split
    · exact fromTexts
    · exact (fromTexts.mark entered v).forward entered v
  · rw [serve_request v request, Except.ok.injEq] at served
    exact served ▸ fromTexts

theorem FromTexts.step {action : GossipAction Node Connection}
    (fromTexts : FromTexts G messages texts s) (taken : GossipStep G messages network s action t)
    (within : EnteredIn texts t) : FromTexts G messages texts t := by
  cases taken with
  | readLine u line =>
    have entered : line ∈ texts := within (u, line) (by simp [Gossip.readLine])
    have forwarded : FromTexts G messages texts
        (s.forward (textMessage messages line) (network.connections u)) :=
      fromTexts.forward entered u
    exact ⟨forwarded.queue, forwarded.sock, forwarded.printed, forwarded.seen⟩
  | request con task request => exact fromTexts.add con request
  | send con task data idle waiting outgoing =>
    refine (fromTexts.pop con task).setSock con fun sent same => ?_
    cases same
    rcases fromTexts.queue con task waiting with ⟨line, entered, rfl⟩ | request
    · cases outgoing
      exact .inl ⟨line, entered, rfl⟩
    · exact .inr (outgoing.isRequest request)
  | receive s' con data requested served =>
    exact (fromTexts.serve requested served).setSock con fun sent same => by cases same
  | reply con replied => exact fromTexts.setSock con fun sent same => by cases same

omit [DecidableEq Node] [DecidableEq Connection] in
theorem FromTexts.mem_seen_iff (fromTexts : FromTexts G messages texts s)
    (collisionFree : Set.InjOn (hash G) (textMessage messages '' texts)) {line : Bytes}
    (entered : line ∈ texts) (v : Node) :
    hash G (textMessage messages line) ∈ s.seen v ↔ line ∈ s.printed v := by
  rw [fromTexts.seen]
  constructor
  · rintro ⟨other, printed, same⟩
    have sameBytes := collisionFree ⟨line, entered, rfl⟩
      ⟨other, fromTexts.printed v other printed, rfl⟩ same
    exact textMessage_injective messages sameBytes ▸ printed
  · exact fun printed => ⟨line, printed, rfl⟩

/-! ## One text floods -/

/-- The flood of a text: its SEND tasks and the requests with its bytes. -/
def floodOf (messages : Codec Message) (line : Bytes) (s : Gossip Node Connection) :
    Flood Node Connection where
  injected u := s.entered.count (u, line)
  accepted v := (s.printed v).count line
  waiting con := (s.queue con).count ⟨.send, textMessage messages line⟩ +
    if s.sock con = .request (textMessage messages line) then 1 else 0
  issued con := (s.queued con).count ⟨.send, textMessage messages line⟩

theorem floodOf_forward (messages : Codec Message) (network : Network Node Connection)
    (line : Bytes) (u : Node) (s : Gossip Node Connection) :
    floodOf messages line (s.forward (textMessage messages line) (network.connections u)) =
      { floodOf messages line s with
        waiting := issue network.owner (floodOf messages line s).waiting u
        issued := issue network.owner (floodOf messages line s).issued u } := by
  rw [forward_connections]
  ext con
  · rfl
  · rfl
  · simp only [floodOf, issue]
    split
    · rw [Multiset.count_cons_self]; omega
    · rfl
  · simp only [floodOf, issue]
    split
    · rw [Multiset.count_cons_self]
    · rfl

theorem floodOf_forward_of_ne (messages : Codec Message) (network : Network Node Connection)
    {line other : Bytes} (different : other ≠ line) (u : Node) (s : Gossip Node Connection) :
    floodOf messages line (s.forward (textMessage messages other) (network.connections u)) =
      floodOf messages line s := by
  have foreign : (⟨.send, textMessage messages line⟩ : Task) ≠
      ⟨.send, textMessage messages other⟩ := fun same =>
    different (textMessage_injective messages (congrArg Task.data same)).symm
  rw [forward_connections]
  ext con
  · rfl
  · rfl
  · simp only [floodOf]
    split
    · rw [Multiset.count_cons_of_ne foreign]
    · rfl
  · simp only [floodOf]
    split
    · rw [Multiset.count_cons_of_ne foreign]
    · rfl

theorem floodOf_readLine (line : Bytes) (u : Node) (s : Gossip Node Connection) :
    floodOf messages line (s.readLine messages network u line) =
      (floodOf messages line s).inject network.owner u := by
  have issued := floodOf_forward messages network line u s
  ext x
  · by_cases here : x = u
    · subst here
      simp [floodOf, Gossip.readLine, Flood.inject]
    · simp [floodOf, Gossip.readLine, Flood.inject, here, List.count_singleton, Ne.symm here]
  · exact congrFun (congrArg Flood.accepted issued) x
  · exact congrFun (congrArg Flood.waiting issued) x
  · exact congrFun (congrArg Flood.issued issued) x

theorem floodOf_readLine_of_ne {line other : Bytes} (different : other ≠ line) (u : Node)
    (s : Gossip Node Connection) :
    floodOf messages line (s.readLine messages network u other) = floodOf messages line s := by
  have issued := floodOf_forward_of_ne messages network different u s
  ext x
  · simp [floodOf, Gossip.readLine, different]
  · exact congrFun (congrArg Flood.accepted issued) x
  · exact congrFun (congrArg Flood.waiting issued) x
  · exact congrFun (congrArg Flood.issued issued) x

omit [DecidableEq Connection] in
theorem floodOf_mark (line msgHash : Bytes) (v : Node) (s : Gossip Node Connection) :
    floodOf messages line (s.mark v line msgHash) =
      { floodOf messages line s with
        accepted := Function.update (floodOf messages line s).accepted v
          ((floodOf messages line s).accepted v + 1) } := by
  ext x
  · rfl
  · by_cases here : x = v
    · subst here
      simp [floodOf, Gossip.mark]
    · simp [floodOf, Gossip.mark, here]
  · rfl
  · rfl

omit [DecidableEq Connection] in
theorem floodOf_mark_of_ne {line other : Bytes} (different : other ≠ line) (msgHash : Bytes)
    (v : Node) (s : Gossip Node Connection) :
    floodOf messages line (s.mark v other msgHash) = floodOf messages line s := by
  ext x
  · rfl
  · by_cases here : x = v
    · subst here
      simp [floodOf, Gossip.mark, different]
    · simp [floodOf, Gossip.mark, here]
  · rfl
  · rfl

theorem floodOf_add_request (line : Bytes) (con : Connection) {task : Task}
    (request : task.type ∈ requestTypes) (s : Gossip Node Connection) :
    floodOf messages line (s.add con task) = floodOf messages line s := by
  have foreign : (⟨.send, textMessage messages line⟩ : Task) ≠ task := by
    rintro rfl
    simp [requestTypes] at request
  have same (f : Connection → Multiset Task) (x : Connection) :
      (Function.update f con (task ::ₘ f con) x).count ⟨.send, textMessage messages line⟩ =
        (f x).count ⟨.send, textMessage messages line⟩ := by
    by_cases here : x = con
    · subst here
      rw [Function.update_self, Multiset.count_cons_of_ne foreign]
    · rw [Function.update_of_ne here]
  ext x
  · rfl
  · rfl
  · exact congrArg (· + _) (same s.queue x)
  · exact same s.queued x

theorem floodOf_send {line data : Bytes} {con : Connection} {task : Task}
    (idle : s.sock con = .idle) (waiting : task ∈ s.queue con)
    (same : task = ⟨.send, textMessage messages line⟩ ↔ data = textMessage messages line) :
    floodOf messages line ((s.pop con task).setSock con (.request data)) =
      floodOf messages line s := by
  ext x
  · rfl
  · rfl
  · by_cases here : x = con
    · subst here
      simp only [floodOf, Gossip.setSock, Gossip.pop, Function.update_self, idle,
        SocketState.request.injEq]
      by_cases copy : data = textMessage messages line
      · have isSend := same.mpr copy
        have positive := Multiset.count_pos.mpr waiting
        subst isSend
        rw [Multiset.count_erase_self, if_pos copy, if_neg SocketState.noConfusion]
        omega
      · rw [Multiset.count_erase_of_ne fun isSend => copy (same.mp isSend.symm), if_neg copy,
          if_neg SocketState.noConfusion]
    · simp [floodOf, Gossip.setSock, Gossip.pop, here]
  · rfl

theorem floodOf_setSock {line : Bytes} {con : Connection} {state : SocketState}
    (before : s.sock con ≠ .request (textMessage messages line))
    (after : state ≠ .request (textMessage messages line)) :
    floodOf messages line (s.setSock con state) = floodOf messages line s := by
  ext x
  · rfl
  · rfl
  · by_cases here : x = con
    · subst here
      simp [floodOf, Gossip.setSock, before, after]
    · simp [floodOf, Gossip.setSock, here]
  · rfl

theorem floodOf_replied {line : Bytes} {con : Connection}
    (requested : s.sock con = .request (textMessage messages line)) :
    floodOf messages line (s.setSock con .replied) = (floodOf messages line s).drop con := by
  ext x
  · rfl
  · rfl
  · by_cases here : x = con
    · subst here
      simp [floodOf, Gossip.setSock, Flood.drop, requested]
    · simp [floodOf, Gossip.setSock, Flood.drop, here]
  · rfl

theorem setSock_forward (b : Bytes) (v : Node) (con : Connection) (state : SocketState)
    (s : Gossip Node Connection) :
    (s.forward b (network.connections v)).setSock con state =
      (s.setSock con state).forward b (network.connections v) := by
  rw [forward_connections, forward_connections]
  rfl

theorem floodOf_receive_first {line : Bytes} {con : Connection} (msgHash : Bytes)
    (requested : s.sock con = .request (textMessage messages line)) (v : Node) :
    floodOf messages line
        (((s.mark v line msgHash).forward (textMessage messages line)
          (network.connections v)).setSock con .replied) =
      ((floodOf messages line s).drop con).accept network.owner v := by
  have swapped : (s.mark v line msgHash).setSock con .replied =
      (s.setSock con .replied).mark v line msgHash := rfl
  rw [setSock_forward, floodOf_forward, swapped, floodOf_mark, floodOf_replied requested]
  rfl

theorem request_textMessage_ne {line other : Bytes} (different : other ≠ line) :
    SocketState.request (textMessage messages other) ≠ .request (textMessage messages line) :=
  fun same => different (textMessage_injective messages (SocketState.request.inj same))

theorem floodOf_receive_of_ne {line other : Bytes} {con : Connection} (different : other ≠ line)
    (requested : s.sock con = .request (textMessage messages other)) (msgHash : Bytes)
    (v : Node) :
    floodOf messages line
        (((s.mark v other msgHash).forward (textMessage messages other)
          (network.connections v)).setSock con .replied) = floodOf messages line s := by
  have swapped : (s.mark v other msgHash).setSock con .replied =
      (s.setSock con .replied).mark v other msgHash := rfl
  rw [setSock_forward, floodOf_forward_of_ne messages network different, swapped,
    floodOf_mark_of_ne different]
  exact floodOf_setSock (requested ▸ request_textMessage_ne different) SocketState.noConfusion

/-- A step of the nodes is a step of the flood of each text, or none. -/
theorem floodOf_step {line : Bytes} {action : GossipAction Node Connection}
    (fromTexts : FromTexts G messages texts s)
    (collisionFree : Set.InjOn (hash G) (textMessage messages '' texts))
    (entered : line ∈ texts) (taken : GossipStep G messages network s action t) :
    floodOf messages line t = floodOf messages line s ∨
      ∃ b, Step network.owner network.peer (floodOf messages line s) b
        (floodOf messages line t) := by
  cases taken with
  | readLine u other =>
    by_cases same : other = line
    · subst same
      rw [floodOf_readLine]
      exact .inr ⟨_, .inject _ u⟩
    · exact .inl (floodOf_readLine_of_ne same u s)
  | request con task request => exact .inl (floodOf_add_request line con request s)
  | send con task data idle waiting outgoing =>
    refine .inl (floodOf_send idle waiting ?_)
    rcases fromTexts.queue con task waiting with ⟨other, _, rfl⟩ | request
    · cases outgoing
      simp only [Task.mk.injEq, true_and]
    · refine iff_of_false ?_ ((outgoing.isRequest request).ne_textMessage line)
      rintro rfl
      simp [requestTypes] at request
  | reply con replied =>
    exact .inl (floodOf_setSock (by rw [replied]; exact SocketState.noConfusion)
      SocketState.noConfusion)
  | receive s' con data requested served =>
    rcases fromTexts.sock con data requested with ⟨other, otherEntered, rfl⟩ | request
    · rw [serve_textMessage, Except.ok.injEq] at served
      subst served
      by_cases same : other = line
      · subst same
        have copy : 0 < (floodOf messages other s).waiting con := by simp [floodOf, requested]
        have marked := fromTexts.mem_seen_iff collisionFree entered (network.peer con)
        right
        split
        case isTrue seen =>
          rw [floodOf_replied requested]
          exact ⟨_, .again _ con copy (List.count_pos_iff.mpr (marked.mp seen))⟩
        case isFalse unseen =>
          rw [floodOf_receive_first _ requested]
          exact ⟨_, .first _ con copy (List.count_eq_zero.mpr (mt marked.mpr unseen))⟩
      · left
        split
        case isTrue =>
          exact floodOf_setSock (requested ▸ request_textMessage_ne same) SocketState.noConfusion
        case isFalse => exact floodOf_receive_of_ne same requested _ _
    · rw [serve_request _ request, Except.ok.injEq] at served
      subst served
      refine .inl (floodOf_setSock ?_ SocketState.noConfusion)
      rw [requested]
      exact fun same => request.ne_textMessage line (SocketState.request.inj same)

/-! ## Whole runs -/

theorem serve_entered {v : Node} {data : Bytes} {s' : Gossip Node Connection}
    (served : s.serve G messages network v data = .ok s') : s'.entered = s.entered := by
  obtain ⟨message, -, switched⟩ := Cpp.bind_eq_ok.mp served
  split at switched
  case h_1 text _ =>
    dsimp only at switched
    split at switched
    · rw [← Except.ok.inj switched, forward_connections]
      rfl
    · rw [← Except.ok.inj switched]
  case h_2 => rw [← Except.ok.inj switched]

theorem enteredIn_of_step {action : GossipAction Node Connection}
    (taken : GossipStep G messages network s action t) (within : EnteredIn texts t) :
    EnteredIn texts s := by
  cases taken with
  | readLine u line => exact fun entry member => within entry (List.mem_append_left _ member)
  | request => exact within
  | send => exact within
  | receive s' con data _ served =>
    have same : s'.entered = s.entered := serve_entered served
    exact fun entry member => within entry (same ▸ member)
  | reply => exact within

theorem length_connections [Fintype Connection] (network : Network Node Connection) (u : Node) :
    ∑ con, (if network.owner con = u then 1 else 0) = (network.connections u).length := by
  rw [← List.toFinset_card_of_nodup (network.nodup u), Finset.card_eq_sum_ones,
    ← Finset.sum_filter]
  congr 1
  ext con
  simp [network.mem_connections]

theorem sum_count_entered [Fintype Connection] (network : Network Node Connection)
    (line : Bytes) (entered : List (Node × Bytes)) :
    ∑ con, entered.count (network.owner con, line) =
      ((entered.filter (·.2 = line)).map fun entry =>
        (network.connections entry.1).length).sum := by
  induction entered with
  | nil => simp
  | cons entry rest ih =>
    obtain ⟨u, other⟩ := entry
    by_cases same : other = line
    · subst same
      rw [List.filter_cons_of_pos (by simp), List.map_cons, List.sum_cons, ← ih,
        ← length_connections network u, ← Finset.sum_add_distrib]
      refine Finset.sum_congr rfl fun con _ => ?_
      rw [List.count_cons, add_comm]
      congr 1
      by_cases own : network.owner con = u
      · simp [own]
      · simp [own, Ne.symm own]
    · rw [List.filter_cons_of_neg (by simpa using same), ← ih]
      refine Finset.sum_congr rfl fun con _ => ?_
      simp [same]

/-- A run in which no two texts collide is a run of the flood of each text. -/
theorem run_floods {history : List (Gossip Node Connection × GossipAction Node Connection)}
    (run : Run (GossipStep G messages network) .initial history t) (within : EnteredIn texts t)
    (collisionFree : Set.InjOn (hash G) (textMessage messages '' texts)) {line : Bytes}
    (entered : line ∈ texts) :
    FromTexts G messages texts t ∧
      Flooding.Invariant network.owner network.peer (floodOf messages line t) := by
  have back (s : Gossip Node Connection) (action : GossipAction Node Connection)
      (t : Gossip Node Connection) : GossipStep G messages network s action t →
        EnteredIn texts t → EnteredIn texts s := enteredIn_of_step
  have preserved (s : Gossip Node Connection) (action : GossipAction Node Connection)
      (t : Gossip Node Connection) (fromTexts : FromTexts G messages texts s)
      (taken : GossipStep G messages network s action t ∧ EnteredIn texts t) :
      FromTexts G messages texts t := fromTexts.step taken.1 taken.2
  have run' := run.within back within
  obtain ⟨_, flooded⟩ := run'.simulate (floodOf messages line) fromTexts_initial preserved
    fun s action t fromTexts taken => floodOf_step fromTexts collisionFree entered taken.1
  exact ⟨run'.invariant fromTexts_initial preserved, invariant_of_run flooded⟩

/-- What a text that was entered has come to when a run has reached `t`. -/
structure Delivery [Fintype Connection] (G : GenericHash) (messages : Codec Message)
    (network : Network Node Connection) (line : Bytes) (t : Gossip Node Connection) : Prop where
  printedOnce : ∀ v, (t.printed v).count line ≤ 1
  forwardedOnce : ∀ con, (t.queued con).count ⟨.send, textMessage messages line⟩ =
    t.entered.count (network.owner con, line) + (t.printed (network.owner con)).count line
  copies : ∑ con, (t.queued con).count ⟨.send, textMessage messages line⟩ ≤
    Fintype.card Connection + ((t.entered.filter (·.2 = line)).map fun entry =>
      (network.connections entry.1).length).sum
  onTheWay : ∀ con, hash G (textMessage messages line) ∈ t.seen (network.owner con) →
    hash G (textMessage messages line) ∈ t.seen (network.peer con) ∨
      ⟨.send, textMessage messages line⟩ ∈ t.queue con ∨
      t.sock con = .request (textMessage messages line)
  /-- Of a text queued more often than it is still under way, a copy has been served. -/
  handed : ∀ con, (t.queue con).count ⟨.send, textMessage messages line⟩ +
      (if t.sock con = .request (textMessage messages line) then 1 else 0) <
        (t.queued con).count ⟨.send, textMessage messages line⟩ →
    hash G (textMessage messages line) ∈ t.seen (network.peer con)
  everywhere : (∀ con, ⟨.send, textMessage messages line⟩ ∉ t.queue con ∧
      t.sock con ≠ .request (textMessage messages line)) →
    ∀ u v, Relation.ReflTransGen
        (fun u v => ∃ con, network.owner con = u ∧ network.peer con = v) u v →
      hash G (textMessage messages line) ∈ t.seen u →
        hash G (textMessage messages line) ∈ t.seen v

theorem gossip_delivers [Fintype Connection]
    {history : List (Gossip Node Connection × GossipAction Node Connection)}
    (run : Run (GossipStep G messages network) .initial history t)
    (collisionFree : Set.InjOn (hash G)
      (textMessage messages '' {line | ∃ u, (u, line) ∈ t.entered}))
    {u : Node} {line : Bytes} (entered : (u, line) ∈ t.entered) :
    Delivery G messages network line t := by
  have within : EnteredIn {line | ∃ u, (u, line) ∈ t.entered} t :=
    fun entry member => ⟨entry.1, member⟩
  obtain ⟨fromTexts, flood⟩ := run_floods run within collisionFree ⟨u, entered⟩
  have marked (v : Node) : hash G (textMessage messages line) ∈ t.seen v ↔
      0 < (floodOf messages line t).accepted v := by
    rw [fromTexts.mem_seen_iff collisionFree ⟨u, entered⟩]
    exact List.count_pos_iff.symm
  refine ⟨flood.once, flood.issued_eq, ?_, fun con seen => ?_, fun con fewer => ?_,
    fun noCopy v w path seen => ?_⟩
  · rw [← sum_count_entered]
    exact flood.sum_issued_le
  · rw [marked] at seen ⊢
    refine (flood.reaches con seen).imp id fun copy => ?_
    by_cases requested : t.sock con = .request (textMessage messages line)
    · exact .inr requested
    · left
      simp only [floodOf, if_neg requested, Nat.add_zero] at copy
      exact Multiset.count_pos.mp copy
  · rw [marked]
    exact flood.handed con fewer
  · rw [marked] at seen ⊢
    refine flood.accepted_of_reachable (fun con => ?_) path seen
    simp only [floodOf, if_neg (noCopy con).2, Nat.add_zero]
    exact Multiset.count_eq_zero.mpr (noCopy con).1

def pair : Network Bool Bool where
  connections u := [u]
  owner con := con
  peer con := !con
  nodup u := List.nodup_singleton u
  mem_connections u con := by simp

theorem run_pair (G : GenericHash) (messages : Codec Message) (line : Bytes) :
    ∃ history t, Run (GossipStep G messages pair) .initial history t ∧
      t.entered = [(true, line)] ∧ line ∈ t.printed false := by
  let text := textMessage messages line
  let typed := (Gossip.initial : Gossip Bool Bool).readLine messages pair true line
  let sent := (typed.pop true ⟨.send, text⟩).setSock true (.request text)
  let arrived := (sent.mark false line (hash G text)).forward text (pair.connections false)
  have queued : ⟨.send, text⟩ ∈ typed.queue true := Multiset.mem_cons_self (⟨.send, text⟩ : Task) 0
  have served : sent.serve G messages pair false text = .ok arrived := serve_textMessage _ _ _
  have first : GossipStep G messages pair .initial (.readLine true line) typed :=
    .readLine _ true line
  have second : GossipStep G messages pair typed (.send true ⟨.send, text⟩) sent :=
    .send typed true ⟨.send, text⟩ text rfl queued (.send text)
  have third : GossipStep G messages pair sent (.receive true) (arrived.setSock true .replied) :=
    .receive sent arrived true text rfl served
  exact ⟨_, _, ((Run.nil.snoc first).snoc second).snoc third, rfl, List.mem_singleton_self line⟩

theorem gossip_delivers_pair :
    ∃ t : Gossip Bool Bool, [104, 105] ∈ t.printed false ∧
      Delivery .polynomial (Codec.ofEncodable Message) pair [104, 105] t := by
  obtain ⟨history, t, run, entered, printed⟩ :=
    run_pair .polynomial (Codec.ofEncodable Message) [104, 105]
  have alone : {line | ∃ u, (u, line) ∈ t.entered} = {[104, 105]} := by
    ext line
    simp [entered]
  refine ⟨t, printed, gossip_delivers run ?_ (u := true) (by simp [entered])⟩
  rw [alone, Set.image_singleton]
  exact Set.injOn_singleton _ _

end Pttp
