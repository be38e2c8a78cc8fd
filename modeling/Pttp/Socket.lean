import Pttp.Bytes
import Pttp.Lib.Runs

/-!
# Messages of several parts

`send_multi` sends part by part, and all parts but the last with `ZMQ_SNDMORE`. `recv_multi`
takes parts until one comes without the flag. So the parts of the messages are told apart,
however the sends and the receives are interleaved, and a message without parts is not sent.
-/

namespace Pttp.Socket

open Runs

/-- What a call of `send` hands to the socket. -/
structure Part where
  data : Bytes
  more : Bool
  deriving DecidableEq, Repr

def sendMulti (msgs : List Bytes) : List Part :=
  msgs.mapIdx fun i data => ⟨data, i ≠ msgs.length - 1⟩

/-- Two connected sockets, with a thread that calls `send_multi` and one that calls
`recv_multi`. -/
structure Channel where
  /-- The parts that the call of `send_multi` has not sent. -/
  unsent : List Part
  /-- The parts on their way, the oldest first. -/
  wire : List Part
  /-- The parts that the call of `recv_multi` has received. -/
  msgs : List Bytes
  /-- What `send_multi` was called with. -/
  sent : List (List Bytes)
  /-- What `recv_multi` returned. -/
  received : List (List Bytes)

def Channel.initial : Channel := ⟨[], [], [], [], []⟩

/-- A turn of the loop of `recv_multi`, which waits while there is no part. -/
def Channel.receive (s : Channel) : Option Channel :=
  match s.wire with
  | [] => none
  | part :: wire =>
      let msgs := s.msgs ++ [part.data]
      if part.more then some { s with wire, msgs }
      else some { s with wire, msgs := [], received := s.received ++ [msgs] }

inductive ChannelAction where
  | call (msgs : List Bytes)
  | send
  | receive

inductive Channel.Step : Channel → ChannelAction → Channel → Prop where
  | call (s : Channel) (msgs : List Bytes) (returned : s.unsent = []) :
      Step s (.call msgs) { s with unsent := sendMulti msgs, sent := s.sent ++ [msgs] }
  | send (s : Channel) {part : Part} {unsent : List Part} (next : s.unsent = part :: unsent) :
      Step s .send { s with unsent, wire := s.wire ++ [part] }
  | receive (s : Channel) {t : Channel} (taken : s.receive = some t) : Step s .receive t

/-! ## The parts -/

theorem sendMulti_cons_cons (data next : Bytes) (msgs : List Bytes) :
    sendMulti (data :: next :: msgs) = ⟨data, true⟩ :: sendMulti (next :: msgs) := by
  unfold sendMulti
  rw [List.mapIdx_cons]
  simp

theorem sendMulti_singleton (data : Bytes) : sendMulti [data] = [⟨data, false⟩] := rfl

theorem sendMulti_concat (msgs : List Bytes) (data : Bytes) :
    sendMulti (msgs ++ [data]) = msgs.map (⟨·, true⟩) ++ [⟨data, false⟩] := by
  induction msgs with
  | nil => rfl
  | cons first msgs ih =>
    cases msgs with
    | nil => rfl
    | cons next msgs =>
      rw [List.cons_append, List.cons_append, sendMulti_cons_cons, ← List.cons_append, ih]
      rfl

theorem exists_mem_sendMulti {msgs : List Bytes} (nonempty : msgs ≠ []) :
    ∃ part ∈ sendMulti msgs, part.more = false := by
  obtain empty | ⟨front, data, rfl⟩ := List.eq_nil_or_concat msgs
  · exact absurd empty nonempty
  · rw [List.concat_eq_append, sendMulti_concat]
    exact ⟨⟨data, false⟩, List.mem_append_right _ (List.mem_singleton_self _), rfl⟩

theorem sendMulti_ne_nil {msgs : List Bytes} (nonempty : msgs ≠ []) : sendMulti msgs ≠ [] := by
  obtain ⟨part, member, -⟩ := exists_mem_sendMulti nonempty
  exact List.ne_nil_of_mem member

/-- The first message of a stream is known from its parts. -/
theorem sendMulti_append_injective {m m' : List Bytes} {rest rest' : List Part} (nonempty : m ≠ [])
    (nonempty' : m' ≠ []) (same : sendMulti m ++ rest = sendMulti m' ++ rest') :
    m = m' ∧ rest = rest' := by
  induction m generalizing m' with
  | nil => exact absurd rfl nonempty
  | cons data m ih =>
    cases m' with
    | nil => exact absurd rfl nonempty'
    | cons data' m' =>
      cases m with
      | nil =>
        cases m' with
        | nil => simpa [sendMulti_singleton] using same
        | cons next' m' => simp [sendMulti_singleton, sendMulti_cons_cons] at same
      | cons next m =>
        cases m' with
        | nil => simp [sendMulti_singleton, sendMulti_cons_cons] at same
        | cons next' m' =>
          rw [sendMulti_cons_cons, sendMulti_cons_cons, List.cons_append, List.cons_append] at same
          obtain ⟨head, tail⟩ := List.cons.inj same
          obtain ⟨equal, behind⟩ := ih (List.cons_ne_nil _ _) (List.cons_ne_nil _ _) tail
          rw [equal, (Part.mk.inj head).1]
          exact ⟨rfl, behind⟩

theorem split_of_flatMap_eq {received sent : List (List Bytes)} {rest : List Part}
    (taken : ∀ m ∈ received, m ≠ []) (given : ∀ m ∈ sent, m ≠ [])
    (stream : sent.flatMap sendMulti = received.flatMap sendMulti ++ rest) :
    ∃ later, sent = received ++ later ∧ later.flatMap sendMulti = rest := by
  induction received generalizing sent with
  | nil => exact ⟨sent, rfl, stream⟩
  | cons m received ih =>
    rw [List.forall_mem_cons] at taken
    cases sent with
    | nil =>
      rw [List.flatMap_nil, List.flatMap_cons, List.append_assoc] at stream
      have empty := (List.append_eq_nil_iff.mp stream.symm).1
      exact absurd empty (sendMulti_ne_nil taken.1)
    | cons m' sent =>
      rw [List.forall_mem_cons] at given
      rw [List.flatMap_cons, List.flatMap_cons, List.append_assoc] at stream
      obtain ⟨rfl, behind⟩ := sendMulti_append_injective given.1 taken.1 stream
      obtain ⟨later, rfl, parts⟩ := ih taken.2 given.2 behind
      exact ⟨later, rfl, parts⟩

theorem eq_nil_of_flatMap_eq {later : List (List Bytes)} {msgs : List Bytes}
    (nonempty : ∀ m ∈ later, m ≠ [])
    (flagged : later.flatMap sendMulti = msgs.map (⟨·, true⟩)) : later = [] ∧ msgs = [] := by
  cases later with
  | nil => exact ⟨rfl, List.map_eq_nil_iff.mp flagged.symm⟩
  | cons m later =>
    obtain ⟨part, member, last⟩ := exists_mem_sendMulti (nonempty m List.mem_cons_self)
    have within : part ∈ (m :: later).flatMap sendMulti :=
      List.mem_flatMap.mpr ⟨m, List.mem_cons_self, member⟩
    rw [flagged] at within
    obtain ⟨data, -, rfl⟩ := List.mem_map.mp within
    cases last

theorem flatMap_filter (sent : List (List Bytes)) :
    (sent.filter (· ≠ [])).flatMap sendMulti = sent.flatMap sendMulti := by
  induction sent with
  | nil => rfl
  | cons m sent ih =>
    by_cases empty : m = []
    · subst empty
      exact ih
    · rw [List.filter_cons_of_pos (by simpa using empty), List.flatMap_cons, List.flatMap_cons, ih]

/-! ## Runs -/

/-- The parts of all messages are received, on their way or unsent, in this order. -/
structure Kept (s : Channel) : Prop where
  taken : ∀ m ∈ s.received, m ≠ []
  stream : s.sent.flatMap sendMulti =
    s.received.flatMap sendMulti ++ (s.msgs.map (⟨·, true⟩) ++ (s.wire ++ s.unsent))

theorem kept_initial : Kept .initial := ⟨nofun, rfl⟩

theorem Kept.step {s t : Channel} {a : ChannelAction} (kept : Kept s) (step : s.Step a t) :
    Kept t := by
  obtain ⟨taken, stream⟩ := kept
  cases step with
  | call msgs returned =>
    refine ⟨taken, ?_⟩
    rw [returned, List.append_nil] at stream
    simp [stream]
  | send next =>
    refine ⟨taken, ?_⟩
    rw [stream, next]
    simp
  | receive received =>
    unfold Channel.receive at received
    split at received
    case h_1 => cases received
    case h_2 part wire next =>
      rw [next] at stream
      split at received
      case isTrue more =>
        obtain rfl := Option.some.inj received
        refine ⟨taken, ?_⟩
        rw [stream]
        cases part
        simp_all
      case isFalse last =>
        obtain rfl := Option.some.inj received
        constructor
        · intro m member
          rcases List.mem_append.mp member with earlier | here
          · exact taken m earlier
          · rw [List.mem_singleton.mp here]
            exact List.concat_ne_nil _ _
        · rw [stream, List.flatMap_append, List.flatMap_singleton, sendMulti_concat]
          cases part
          simp_all

/-- In every run, what `recv_multi` has returned is what `send_multi` was first called with, less
the messages without parts; and it is all of it when no part is left. -/
theorem run_framed {history : List (Channel × ChannelAction)} {t : Channel}
    (run : Run Channel.Step .initial history t) :
    t.received <+: t.sent.filter (· ≠ []) ∧
      (t.unsent = [] → t.wire = [] → t.received = t.sent.filter (· ≠ []) ∧ t.msgs = []) := by
  have kept : Kept t := run.invariant kept_initial fun _ _ _ => Kept.step
  have given : ∀ m ∈ t.sent.filter (· ≠ []), m ≠ [] := by
    intro m member
    simpa using (List.mem_filter.mp member).2
  have stream := kept.stream
  rw [← flatMap_filter] at stream
  obtain ⟨later, whole, parts⟩ := split_of_flatMap_eq kept.taken given stream
  refine ⟨⟨later, whole.symm⟩, fun unsent wire => ?_⟩
  rw [unsent, wire, List.append_nil, List.append_nil] at parts
  have nonempty : ∀ m ∈ later, m ≠ [] := by
    intro m member
    apply given
    rw [whole]
    exact List.mem_append_right _ member
  obtain ⟨rfl, msgs⟩ := eq_nil_of_flatMap_eq nonempty parts
  rw [whole, List.append_nil]
  exact ⟨rfl, msgs⟩

theorem run_twoParts (first second : Bytes) : ∃ history,
    Run Channel.Step .initial history
      ⟨[], [], [], [[], [first, second]], [[first, second]]⟩ := by
  have empty := Channel.Step.call .initial [] rfl
  have called := Channel.Step.call ⟨[], [], [], [[]], []⟩ [first, second] rfl
  have sent := Channel.Step.send
    ⟨[⟨first, true⟩, ⟨second, false⟩], [], [], [[], [first, second]], []⟩ rfl
  have begun := Channel.Step.receive
    ⟨[⟨second, false⟩], [⟨first, true⟩], [], [[], [first, second]], []⟩ rfl
  have sent' := Channel.Step.send
    ⟨[⟨second, false⟩], [], [first], [[], [first, second]], []⟩ rfl
  have ended := Channel.Step.receive
    ⟨[], [⟨second, false⟩], [first], [[], [first, second]], []⟩ rfl
  exact ⟨_, (((((Run.nil.snoc empty).snoc called).snoc sent).snoc begun).snoc sent').snoc ended⟩

theorem run_framed_twoParts :
    [[[1], [2]]] <+: [[], [[1], [2]]].filter (· ≠ ([] : List Bytes)) := by
  obtain ⟨history, run⟩ := run_twoParts [1] [2]
  exact (run_framed run).1

end Pttp.Socket
