import Pttp.Manager

/-!
# How often the manager asks

Each of the two tasks is in one place: not yet added, in the queue, or in hand. In the queue
it carries the moment of its next turn, which lies a period after the moment at which it was
in hand last. So the turns of a task can be counted against the clock.
-/

namespace Pttp.Manager

open Runs GTD

/-- A task that puts itself back, with its first delay and the later ones, in milliseconds. -/
structure Schedule where
  type : TaskType
  first : Int
  period : Int

def reqIps : Schedule := ⟨.reqIps, 4000, 10000⟩

def expand : Schedule := ⟨.expandConnection, 1000, 20000⟩

namespace Schedule

variable (c : Schedule) (start : Int)

/-- The turn of a task after so many others is not before this. -/
def turn (n : ℕ) : Int := start + (c.first + n * c.period) * millisecond

def pending (g : GTD.State) : Multiset Entry := g.q.filter (·.task.type = c.type)

def turns (g : GTD.State) : ℕ := g.delivered.countP (·.task.type = c.type)

structure NotYet (g : GTD.State) : Prop where
  pending : c.pending g = 0
  turns : c.turns g = 0

def Waiting (g : GTD.State) : Prop :=
  ∃ x called dur, c.pending g = {x} ∧ x.origin = .delayed called dur ∧
    c.turn start (c.turns g) ≤ called + dur * millisecond

structure InHand (since : Int) (g : GTD.State) : Prop where
  pending : c.pending g = 0
  turn : c.turn start (c.turns g) < since + c.period * millisecond
  before : since ≤ g.now

inductive Place (g : GTD.State) : ManageThread → Prop where
  | starting (notYet : c.NotYet g) : Place g .starting
  | second (other : c.type ≠ .reqIps) (notYet : c.NotYet g) : Place g .started
  | first (own : c.type = .reqIps) (waiting : c.Waiting start g) : Place g .started
  | polling (waiting : c.Waiting start g) : Place g .polling
  | inHand {x : Entry} {since : Int} (own : x.task.type = c.type)
      (inHand : c.InHand start since g) : Place g (.handling x since)
  | waiting {x : Entry} {since : Int} (other : x.task.type ≠ c.type)
      (waiting : c.Waiting start g) : Place g (.handling x since)
  | ended : Place g .ended

/-- A task never had more turns than its delays allow for. -/
def Paced (g : GTD.State) : Prop := ∀ n < c.turns g, c.turn start n < g.now

end Schedule

variable {c : Schedule} {start : Int} {g : GTD.State} {x : Entry}

/-! ## What the queue does to it -/

theorem turn_succ (c : Schedule) (start : Int) (n : ℕ) :
    c.turn start (n + 1) = c.turn start n + c.period * millisecond := by
  unfold Schedule.turn
  push_cast
  ring

theorem pending_push_self (own : x.task.type = c.type) :
    c.pending (g.push x) = x ::ₘ c.pending g := Multiset.filter_cons_of_pos _ own

theorem pending_push_of_ne (other : x.task.type ≠ c.type) :
    c.pending (g.push x) = c.pending g := Multiset.filter_cons_of_neg _ other

theorem pending_pop_self (member : x ∈ g.q) (own : x.task.type = c.type) :
    x ::ₘ c.pending (g.pop x) = c.pending g := by
  have whole : x ::ₘ (g.pop x).q = g.q := Multiset.cons_erase member
  have filtered := Multiset.filter_cons_of_pos (p := fun y => y.task.type = c.type) (g.pop x).q own
  rw [whole] at filtered
  exact filtered.symm

theorem pending_pop_of_ne (member : x ∈ g.q) (other : x.task.type ≠ c.type) :
    c.pending (g.pop x) = c.pending g := by
  have whole : x ::ₘ (g.pop x).q = g.q := Multiset.cons_erase member
  have filtered :=
    Multiset.filter_cons_of_neg (p := fun y => y.task.type = c.type) (g.pop x).q other
  rw [whole] at filtered
  exact filtered.symm

theorem turns_pop_self (own : x.task.type = c.type) : c.turns (g.pop x) = c.turns g + 1 :=
  Multiset.countP_cons_of_pos _ own

theorem turns_pop_of_ne (other : x.task.type ≠ c.type) : c.turns (g.pop x) = c.turns g :=
  Multiset.countP_cons_of_neg _ other

theorem waiting_of_push (own : x.task.type = c.type) (none : c.pending g = 0)
    {called dur : Int} (delayed : x.origin = .delayed called dur)
    (turn : c.turn start (c.turns g) ≤ called + dur * millisecond) :
    c.Waiting start (g.push x) := by
  refine ⟨x, called, dur, ?_, delayed, turn⟩
  rw [pending_push_self own, none]
  rfl

theorem not_early (keeps : Keeps start g) (member : x ∈ g.q) (due : g.Due x) {called dur : Int}
    (delayed : x.origin = .delayed called dur) : called + dur * millisecond < g.now := by
  obtain ⟨-, time⟩ := (keeps.stamped_of_mem member).time_of_delayed delayed
  unfold State.Due at due
  rw [time] at due
  exact lt_of_toTimeT_lt due

theorem inHand_of_pop (keeps : Keeps start g) (waiting : c.Waiting start g) (member : x ∈ g.q)
    (due : g.Due x) (own : x.task.type = c.type) :
    c.InHand start g.now (g.pop x) ∧ c.turn start (c.turns g) < g.now := by
  obtain ⟨y, called, dur, only, delayed, turn⟩ := waiting
  have popped := pending_pop_self member own
  rw [only] at popped
  obtain rfl : x = y := by
    apply Multiset.mem_singleton.mp
    rw [← popped]
    exact Multiset.mem_cons_self _ _
  have early := not_early keeps member due delayed
  have nothing : c.pending (g.pop x) = 0 := by
    apply Multiset.cons_inj_right x |>.mp
    exact popped
  have before : c.turn start (c.turns g) < g.now := turn.trans_lt early
  refine ⟨⟨nothing, ?_, le_rfl⟩, before⟩
  rw [turns_pop_self own, turn_succ]
  exact Int.add_lt_add_right before _

/-! ## What the manager does to it -/

variable {thread : ManageThread} {g' : GTD.State}

theorem Schedule.Place.of_eq (place : c.Place start g thread) (pending : c.pending g' = c.pending g)
    (turns : c.turns g' = c.turns g) (later : g.now ≤ g'.now) : c.Place start g' thread := by
  have waits (waiting : c.Waiting start g) : c.Waiting start g' := by
    obtain ⟨x, called, dur, only, delayed, turn⟩ := waiting
    exact ⟨x, called, dur, pending.trans only, delayed, turns ▸ turn⟩
  cases place with
  | starting notYet => exact .starting ⟨pending.trans notYet.pending, turns.trans notYet.turns⟩
  | second other notYet =>
    exact .second other ⟨pending.trans notYet.pending, turns.trans notYet.turns⟩
  | first own waiting => exact .first own (waits waiting)
  | polling waiting => exact .polling (waits waiting)
  | inHand own inHand =>
    exact .inHand own ⟨pending.trans inHand.pending, turns ▸ inHand.turn, inHand.before.trans later⟩
  | waiting other waiting => exact .waiting other (waits waiting)
  | ended => exact .ended

theorem Schedule.Place.push_of_ne (place : c.Place start g thread) (other : x.task.type ≠ c.type) :
    c.Place start (g.push x) thread := place.of_eq (pending_push_of_ne other) rfl le_rfl

theorem Schedule.Place.pop (keeps : Keeps start g) (place : c.Place start g .polling)
    (member : x ∈ g.q) (due : g.Due x) :
    c.Place start (g.pop x) (.handling x g.now) := by
  cases place with
  | polling waiting =>
    by_cases own : x.task.type = c.type
    · exact .inHand own (inHand_of_pop keeps waiting member due own).1
    · obtain ⟨y, called, dur, only, delayed, turn⟩ := waiting
      refine .waiting own ⟨y, called, dur, ?_, delayed, ?_⟩
      · rw [pending_pop_of_ne member own]
        exact only
      · rw [turns_pop_of_ne own]
        exact turn

theorem Schedule.Place.push {since called dur : Int}
    (place : c.Place start g (.handling x since)) (after : since ≤ called)
    (period : x.task.type = c.type → dur = c.period) :
    c.Place start (g.push (GTD.addAfter x.task called dur)) .polling := by
  cases place with
  | inHand own inHand =>
    refine .polling (waiting_of_push own inHand.pending rfl ?_)
    have turn := inHand.turn
    rw [← period own] at turn
    exact turn.le.trans (Int.add_le_add_right after _)
  | waiting other waiting =>
    have unchanged : c.Place start (g.push (GTD.addAfter x.task called dur)) (.handling x since) :=
      Schedule.Place.push_of_ne (.waiting other waiting) other
    cases unchanged with
    | inHand own => exact absurd own other
    | waiting _ waiting => exact .polling waiting

theorem Schedule.Paced.of_eq (paced : c.Paced start g) (turns : c.turns g' = c.turns g)
    (later : g.now ≤ g'.now) : c.Paced start g' := by
  intro n had
  exact (paced n (turns ▸ had)).trans_le later

theorem Schedule.Paced.pop (keeps : Keeps start g) (paced : c.Paced start g)
    (place : c.Place start g .polling) (member : x ∈ g.q) (due : g.Due x) :
    c.Paced start (g.pop x) := by
  by_cases own : x.task.type = c.type
  · cases place with
    | polling waiting =>
      intro n had
      rw [turns_pop_self own] at had
      rcases Nat.lt_succ_iff_lt_or_eq.mp had with before | rfl
      · exact paced n before
      · exact (inHand_of_pop keeps waiting member due own).2
  · exact paced.of_eq (turns_pop_of_ne own) le_rfl

/-! ## Set reconciliation -/

section Reconciling

variable {reconsiler reconsiler' : Chain.BlockChainReconsiler}

theorem lookup_initHash_of_allNew (allNew : reconsiler.AllNew) (hash : Bytes) :
    (reconsiler.initHash hash).hashReconsilers.lookup hash =
      some (some (SetReconsiler.new Bloom hash)) := by
  have found := Chain.BlockChainReconsiler.lookup_initHash_self reconsiler hash
  rw [found, (allNew.update (.initHash hash)) hash _ found]

/-- The record is there, and so `check` gets to its end. -/
theorem check_initHash (G : GenericHash) (allNew : reconsiler.AllNew) (hash : Bytes) :
    (reconsiler.initHash hash).check G hash = .ok none := by
  have new := lookup_initHash_of_allNew allNew hash
  unfold Chain.BlockChainReconsiler.check Chain.BlockChainReconsiler.entry
  rw [if_neg (not_not_intro (Finmap.mem_iff.mpr ⟨_, new⟩)), new]
  rfl

theorem filters_initHash (allNew : reconsiler.AllNew) (hash : Bytes) :
    ((reconsiler.initHash hash).filters hash).2 = reconsiler.initHash hash := by
  unfold Chain.BlockChainReconsiler.filters Chain.BlockChainReconsiler.entry
  rw [lookup_initHash_of_allNew allNew hash]

/-- A new record has no set and counts none, whatever filters there are. -/
theorem getSetOrFilterBy_initHash (allNew : reconsiler.AllNew) (hash : Bytes)
    (filters : List Bloom) :
    (reconsiler.initHash hash).getSetOrFilterBy hash filters = .ok false := by
  unfold Chain.BlockChainReconsiler.getSetOrFilterBy Chain.BlockChainReconsiler.entry
  rw [lookup_initHash_of_allNew allNew hash]
  split
  · rfl
  · rfl

theorem synced_of_allNew {G : GenericHash} {hash : Bytes} {request : Option TaskType}
    (allNew : reconsiler.AllNew) (synced : Synced G reconsiler hash reconsiler' request) :
    reconsiler' = reconsiler.initHash hash ∧
      (request = none ∨ request = some .reqHashsetFilter) := by
  cases synced with
  | done checked => exact ⟨rfl, .inl rfl⟩
  | @request filters set checked filtered asked =>
    rw [filters_initHash allNew] at asked ⊢
    rw [getSetOrFilterBy_initHash allNew] at asked
    obtain rfl := Except.ok.inj asked
    exact ⟨rfl, .inr rfl⟩

end Reconciling

/-! ## Runs -/

variable {G : GenericHash} {myIp : Bytes} {s t : Manager}

def Schedule.inHand (c : Schedule) : ManageThread → ℕ
  | .handling x _ => if x.task.type = c.type then 1 else 0
  | _ => 0

def taskTypes : List TaskType := [.reqIps, .expandConnection, .syncHashset]

/-- What the manager puts into the queue of a connection, by what it was given. -/
def Passed (added : Multiset Entry) (task : Task) : Prop :=
  task = ⟨.reqIps, []⟩ ∨
    task = ⟨.reqHashsetFilter, []⟩ ∧ ∃ x ∈ added, x.task.type = .syncHashset

theorem Passed.mono {added added' : Multiset Entry} (more : added ⊆ added') {task : Task}
    (passed : Passed added task) : Passed added' task := by
  rcases passed with asks | ⟨asks, x, member, sync⟩
  · exact .inl asks
  · exact .inr ⟨asks, x, more member, sync⟩

structure Inv (start : Int) (s : Manager) : Prop where
  keeps : Keeps start s.gtd
  place : ∀ c ∈ [reqIps, expand], c.Place start s.gtd s.thread
  paced : ∀ c ∈ [reqIps, expand], c.Paced start s.gtd
  types : ∀ x ∈ s.gtd.added, x.task.type ∈ taskTypes ∧ x.task.data = []
  handling : ∀ x since, s.thread = .handling x since → start ≤ since ∧ x ∈ s.gtd.added
  expanding : ∀ e, s.expansion = some e → s.thread = .ended ∨
    ∃ x since, s.thread = .handling x since ∧ x.task.type = .expandConnection
  queued : ∀ i, ∀ task ∈ s.queued i, Passed s.gtd.added task
  asked : ∀ i, (s.queued i).count ⟨.reqIps, []⟩ + reqIps.inHand s.thread ≤ reqIps.turns s.gtd
  few : s.peers.connections.length ≤ nConn
  room : ∀ e, s.expansion = some e → s.peers.connections.length + e.rounds ≤ nConn
  allNew : s.reconsiler.AllNew

theorem inv_initial (start : Int) (argv : List Bytes) : Inv start (initial start argv) where
  keeps := keeps_initial start
  place c _ := .starting ⟨rfl, rfl⟩
  paced c _ n had := absurd had (Nat.not_lt_zero n)
  types x member := absurd member (Multiset.notMem_zero x)
  handling := nofun
  expanding := nofun
  queued i task member := absurd member (Multiset.notMem_zero task)
  asked i := le_rfl
  few := Nat.zero_le _
  room := nofun
  allNew h r found := by cases found

theorem Inv.gtd (inv : Inv start s) (keeps : Keeps start g) (pending : ∀ c ∈ [reqIps, expand],
      c.pending g = c.pending s.gtd) (turns : ∀ c ∈ [reqIps, expand], c.turns g = c.turns s.gtd)
    (later : s.gtd.now ≤ g.now) (more : s.gtd.added ⊆ g.added)
    (types : ∀ x ∈ g.added, x.task.type ∈ taskTypes ∧ x.task.data = []) :
    Inv start { s with gtd := g } where
  keeps := keeps
  place c member := (inv.place c member).of_eq (pending c member) (turns c member) later
  paced c member := (inv.paced c member).of_eq (turns c member) later
  types := types
  handling x since was := (inv.handling x since was).imp_right (more ·)
  expanding := inv.expanding
  queued i task member := (inv.queued i task member).mono more
  asked i := (turns reqIps List.mem_cons_self).symm ▸ inv.asked i
  few := inv.few
  room := inv.room
  allNew := inv.allNew

theorem Inv.expansion_eq_none (inv : Inv start s) (alive : s.thread ≠ .ended)
    (other : ∀ x since, s.thread = .handling x since → x.task.type ≠ .expandConnection) :
    s.expansion = none := by
  cases expansion : s.expansion with
  | none => rfl
  | some e =>
    rcases inv.expanding e expansion with ended | ⟨x, since, handling, type⟩
    · exact absurd ended alive
    · exact absurd type (other x since handling)

theorem Inv.expansion_of_handling (inv : Inv start s) {x : Entry} {since : Int}
    (handling : s.thread = .handling x since) (other : x.task.type ≠ .expandConnection) :
    s.expansion = none := by
  refine inv.expansion_eq_none (by rw [handling]; nofun) fun y since' was => ?_
  obtain ⟨rfl, -⟩ := ManageThread.handling.inj (handling.symm.trans was)
  exact other

theorem Inv.push (inv : Inv start s) {task : GTD.Task} (thread : ManageThread)
    {called dur : Int} (began : start ≤ called) (type : task.type ∈ taskTypes)
    (data : task.data = [])
    (place : ∀ c ∈ [reqIps, expand],
      c.Place start (s.gtd.push (GTD.addAfter task called dur)) thread)
    {queued : ℕ → Multiset Pttp.Task}
    (only : ∀ i, ∀ task ∈ queued i, task ∈ s.queued i ∨ Passed s.gtd.added task)
    (asked : ∀ i, (queued i).count ⟨.reqIps, []⟩ + reqIps.inHand thread ≤
      (s.queued i).count ⟨.reqIps, []⟩ + reqIps.inHand s.thread)
    (free : ∀ x since, thread ≠ .handling x since)
    {reconsiler : Chain.BlockChainReconsiler} (allNew : reconsiler.AllNew) :
    Inv start ⟨s.gtd.push (GTD.addAfter task called dur), thread, none, s.peers, queued,
      reconsiler⟩ where
  keeps := inv.keeps.push ⟨began, rfl⟩
  place := place
  paced c member := (inv.paced c member).of_eq rfl le_rfl
  types z member := by
    rcases Multiset.mem_cons.mp member with rfl | old
    · exact ⟨type, data⟩
    · exact inv.types z old
  handling x since was := absurd was (free x since)
  expanding := nofun
  queued i passed member := by
    have more : s.gtd.added ⊆ (s.gtd.push (GTD.addAfter task called dur)).added :=
      fun _ => Multiset.mem_cons_of_mem
    rcases only i passed member with before | new
    · exact (inv.queued i passed before).mono more
    · exact new.mono more
  asked i := (asked i).trans (inv.asked i)
  few := inv.few
  room := nofun
  allNew := allNew

theorem Inv.mem_added (inv : Inv start s) (member : x ∈ s.gtd.q) : x ∈ s.gtd.added := by
  rw [← inv.keeps.conserved]
  exact Multiset.mem_add.mpr (.inr member)

theorem Inv.deliver (inv : Inv start s) (polling : s.thread = .polling) (member : x ∈ s.gtd.q)
    (due : s.gtd.Due x) :
    Inv start { s with gtd := s.gtd.pop x, thread := .handling x s.gtd.now } where
  keeps := inv.keeps.pop member
  place c listed := Schedule.Place.pop inv.keeps (polling ▸ inv.place c listed) member due
  paced c listed := (inv.paced c listed).pop inv.keeps (polling ▸ inv.place c listed) member due
  types := inv.types
  handling y since was := by
    obtain ⟨rfl, rfl⟩ := ManageThread.handling.inj was
    exact ⟨inv.keeps.began, inv.mem_added member⟩
  expanding e was := by
    have free := inv.expansion_eq_none (by rw [polling]; nofun) (by rw [polling]; nofun)
    cases free.symm.trans was
  queued := inv.queued
  asked i := by
    have before := inv.asked i
    rw [polling] at before
    show _ + (if x.task.type = reqIps.type then 1 else 0) ≤ _
    split
    case isTrue own =>
      rw [turns_pop_self own]
      exact Nat.succ_le_succ before
    case isFalse other =>
      rw [turns_pop_of_ne other]
      exact before
  few := inv.few
  room := inv.room
  allNew := inv.allNew

theorem Inv.ended (inv : Inv start s) : Inv start { s with thread := .ended } where
  keeps := inv.keeps
  place _ _ := .ended
  paced := inv.paced
  types := inv.types
  handling := nofun
  expanding _ _ := .inl rfl
  queued := inv.queued
  asked i := (Nat.le_add_right _ _).trans (inv.asked i)
  few := inv.few
  room := inv.room
  allNew := inv.allNew

theorem Inv.beginExpansion (inv : Inv start s) (myIp : Bytes) {x : Entry} {since : Int}
    (handling : s.thread = .handling x since) (type : x.task.type = .expandConnection)
    (ipsTmp : List Bytes) :
    Inv start { s with expansion := some (s.peers.expansion myIp ipsTmp) } where
  keeps := inv.keeps
  place := inv.place
  paced := inv.paced
  types := inv.types
  handling := inv.handling
  expanding _ _ := .inr ⟨x, since, handling, type⟩
  queued := inv.queued
  asked := inv.asked
  few := inv.few
  room e was := by
    obtain rfl := Option.some.inj was
    have few := inv.few
    show s.peers.connections.length + (min nConn _ - s.peers.connections.length) ≤ nConn
    omega
  allNew := inv.allNew

theorem Inv.connect (inv : Inv start s) {e e' : Expansion} {p : Peers} {connects : Bool}
    (expanding : s.expansion = some e) (more : e.rounds ≠ 0)
    (connected : s.peers.connect connects e = .ok (p, e')) :
    Inv start { s with peers := p, expansion := some e' } := by
  have taken : ¬ e.Refused connects := by
    intro refused
    cases (connect_of_refused refused).symm.trans connected
  obtain ⟨rfl, rfl⟩ := Prod.mk.inj
    (Except.ok.inj ((connect_of_not_refused taken).symm.trans connected))
  have one : ([e.newIp].filter (· ≠ [])).length ≤ 1 := List.length_filter_le ..
  have room := inv.room e expanding
  have left : e.next.rounds = e.rounds - 1 := rfl
  refine ⟨inv.keeps, inv.place, inv.paced, inv.types, inv.handling, ?_, inv.queued, inv.asked, ?_,
    ?_, inv.allNew⟩
  · exact fun _ _ => inv.expanding e expanding
  · rw [List.length_append]
    omega
  · intro _ was
    obtain rfl := Option.some.inj was
    rw [List.length_append]
    omega

theorem first_turn_le (notYet : c.NotYet g) {called : Int} (began : start ≤ called) :
    c.turn start (c.turns g) ≤ called + c.first * millisecond := by
  rw [notYet.turns]
  unfold Schedule.turn
  rw [Nat.cast_zero, zero_mul, add_zero]
  exact Int.add_le_add_right began _

theorem queued_addAll (s : Manager) (task : Task) (i : ℕ) :
    (s.addAll task).queued i =
      if i < s.peers.connections.length then task ::ₘ s.queued i else s.queued i := rfl

theorem mem_addAll {s : Manager} {task added : Task} {i : ℕ}
    (member : task ∈ (s.addAll added).queued i) : task ∈ s.queued i ∨ task = added := by
  rw [queued_addAll] at member
  split at member
  · exact (Multiset.mem_cons.mp member).symm
  · exact .inl member

theorem Inv.place_push (inv : Inv start s) {x : Entry} {since called : Int} (dur : Int)
    (handling : s.thread = .handling x since) (after : since ≤ called)
    (period : ∀ c ∈ [reqIps, expand], x.task.type = c.type → dur = c.period) :
    ∀ c ∈ [reqIps, expand],
      c.Place start (s.gtd.push (GTD.addAfter x.task called dur)) .polling :=
  fun c listed => Schedule.Place.push (handling ▸ inv.place c listed) after (period c listed)

theorem Inv.step {a : Action} (inv : Inv start s) (taken : Step G myIp start s a t) :
    Inv start t := by
  cases taken with
  | tick later taken =>
    have keeps := inv.keeps.step taken
    cases taken with
    | tick le =>
      exact inv.gtd keeps (fun _ _ => rfl) (fun _ _ => rfl) le (fun _ => id) inv.types
  | go =>
    have other : ∀ c ∈ [reqIps, expand], TaskType.syncHashset ≠ c.type := by decide
    refine inv.gtd (inv.keeps.push rfl) (fun c member => pending_push_of_ne (other c member))
      (fun _ _ => rfl) le_rfl (fun _ => Multiset.mem_cons_of_mem) ?_
    intro x member
    rcases Multiset.mem_cons.mp member with rfl | old
    · exact ⟨by decide, rfl⟩
    · exact inv.types x old
  | learn newIps => exact ⟨inv.keeps, inv.place, inv.paced, inv.types, inv.handling,
      inv.expanding, inv.queued, inv.asked, inv.few, inv.room, inv.allNew⟩
  | addFilter hash n bloom => exact ⟨inv.keeps, inv.place, inv.paced, inv.types, inv.handling,
      inv.expanding, inv.queued, inv.asked, inv.few, inv.room,
      inv.allNew.update (.addFilter hash n bloom)⟩
  | @beginReqIps starting called began read =>
    have free := inv.expansion_eq_none (by rw [starting]; nofun) (by rw [starting]; nofun)
    rw [free]
    refine inv.push .started began List.mem_cons_self rfl ?_ (fun i task => .inl) ?_ nofun
      inv.allNew
    · intro c member
      have place := inv.place c member
      rw [starting] at place
      cases place with
      | starting notYet =>
        rcases List.mem_pair.mp member with rfl | rfl
        · refine .first rfl (waiting_of_push rfl notYet.pending rfl ?_)
          exact first_turn_le notYet began
        · have other : TaskType.reqIps ≠ expand.type := by decide
          exact .second (by decide) ⟨(pending_push_of_ne other).trans notYet.pending,
            notYet.turns⟩
    · intro i
      exact Nat.add_le_add_left (Nat.zero_le _) _
  | @beginExpand started called began read =>
    have free := inv.expansion_eq_none (by rw [started]; nofun) (by rw [started]; nofun)
    rw [free]
    refine inv.push .polling began (List.mem_cons_of_mem _ List.mem_cons_self) rfl ?_
      (fun i task => .inl) ?_ nofun inv.allNew
    · intro c member
      have place := inv.place c member
      rw [started] at place
      cases place with
      | second other notYet =>
        rcases List.mem_pair.mp member with rfl | rfl
        · exact absurd rfl other
        · refine .polling (waiting_of_push rfl notYet.pending rfl ?_)
          exact first_turn_le notYet began
      | first own waiting =>
        have kept : c.Place start (s.gtd.push (GTD.addAfter ⟨.expandConnection, [], 0⟩ called 1000))
            .started := by
          refine Schedule.Place.push_of_ne (.first own waiting) ?_
          rw [own]
          exact TaskType.noConfusion
        cases kept with
        | second other => exact absurd own other
        | first _ waiting => exact .polling waiting
    · intro i
      exact Nat.add_le_add_left (Nat.zero_le _) _
  | idle polling taken =>
    cases taken with
    | empty => exact inv
    | wait => exact inv
  | deliver polling top due => exact inv.deliver polling top.1 due
  | @reqIps x since handling type called after read =>
    obtain ⟨began, added⟩ := inv.handling x since handling
    have free := inv.expansion_of_handling handling (by rw [type]; decide)
    have place := inv.place_push 10000 handling after (by
      intro c listed own
      rcases List.mem_pair.mp listed with rfl | rfl
      · rfl
      · cases type.symm.trans own)
    show Inv start ⟨_, _, s.expansion, _, _, _⟩
    rw [free]
    refine inv.push .polling (began.trans after) (inv.types x added).1 (inv.types x added).2 place
      (fun i task member => (mem_addAll member).imp_right .inl) ?_ nofun inv.allNew
    intro i
    have held : reqIps.inHand s.thread = 1 := by
      rw [handling]
      exact if_pos type
    rw [held, queued_addAll]
    split
    · exact (Multiset.count_cons_self _ _).le
    · exact Nat.le_succ _
  | expand handling type free ipsTmp shuffled => exact inv.beginExpansion myIp handling type ipsTmp
  | connect handling connects expanding more connected =>
    exact inv.connect expanding more connected
  | refused => exact inv.ended
  | @expanded x since handling e expanding last called after read =>
    obtain ⟨began, added⟩ := inv.handling x since handling
    have type : x.task.type = .expandConnection := by
      rcases inv.expanding e expanding with ended | ⟨y, since', was, type⟩
      · cases handling.symm.trans ended
      · obtain ⟨rfl, -⟩ := ManageThread.handling.inj (handling.symm.trans was)
        exact type
    have place := inv.place_push 20000 handling after (by
      intro c listed own
      rcases List.mem_pair.mp listed with rfl | rfl
      · cases type.symm.trans own
      · rfl)
    refine inv.push .polling (began.trans after) (inv.types x added).1 (inv.types x added).2 place
      (fun i task => .inl) ?_ nofun inv.allNew
    intro i
    exact Nat.add_le_add_left (Nat.zero_le _) _
  | @done x since handling type reconsiler synced =>
    obtain ⟨rfl, -⟩ := synced_of_allNew inv.allNew synced
    have free := inv.expansion_of_handling handling (by rw [type]; decide)
    refine ⟨inv.keeps, ?_, inv.paced, inv.types, nofun, ?_, inv.queued, ?_, inv.few, inv.room,
      inv.allNew.update (.initHash x.task.data)⟩
    · intro c listed
      have place := inv.place c listed
      rw [handling] at place
      cases place with
      | inHand own =>
        rcases List.mem_pair.mp listed with rfl | rfl
        · cases type.symm.trans own
        · cases type.symm.trans own
      | waiting _ waiting => exact .polling waiting
    · intro e was
      cases free.symm.trans was
    · intro i
      exact (Nat.le_add_right _ _).trans (inv.asked i)
  | @sync x since handling type reconsiler request synced called after read =>
    obtain ⟨rfl, none | asks⟩ := synced_of_allNew inv.allNew synced
    · cases none
    obtain rfl := Option.some.inj asks
    obtain ⟨began, added⟩ := inv.handling x since handling
    have free := inv.expansion_of_handling handling (by rw [type]; decide)
    have place := inv.place_push 1000 handling after (by
      intro c listed own
      rcases List.mem_pair.mp listed with rfl | rfl
      · cases type.symm.trans own
      · cases type.symm.trans own)
    show Inv start ⟨_, _, s.expansion, _, _, _⟩
    rw [free, (inv.types x added).2]
    refine inv.push .polling (began.trans after) (inv.types x added).1 (inv.types x added).2 place
      (fun i task member => (mem_addAll member).imp_right fun asks => .inr ⟨asks, x, added, type⟩)
      ?_ nofun (inv.allNew.update (.initHash []))
    intro i
    refine (Nat.add_le_add_right (le_of_eq ?_) _).trans (Nat.add_le_add_left (Nat.zero_le _) _)
    rw [queued_addAll]
    split
    · exact Multiset.count_cons_of_ne (by decide) _
    · rfl
  | noValue => exact inv.ended
  | crash => exact inv.ended

theorem run_inv {argv : List Bytes} {history : List (Manager × Action)}
    (run : Run (Step G myIp start) (initial start argv) history t) : Inv start t :=
  run.invariant (inv_initial start argv) fun _ _ _ => Inv.step

def firstExpand : Entry := GTD.addAfter ⟨.expandConnection, [], 0⟩ second 1000

def threeSecondsLater : GTD.State :=
  { ((GTD.initial second).push (GTD.addAfter ⟨.reqIps, [], 0⟩ second 4000)).push firstExpand with
    now := 4 * second }

theorem run_firstExpand (G : GenericHash) (myIp : Bytes) (argv : List Bytes) :
    ∃ history t, Run (Step G myIp second) (initial second argv) history t ∧
      t = { initial second argv with
        gtd := threeSecondsLater.pop firstExpand
        thread := .handling firstExpand (4 * second) } := by
  have top : threeSecondsLater.IsTop firstExpand := by decide
  have due : threeSecondsLater.Due firstExpand := by decide
  have later : second ≤ 4 * second := by decide
  have reqIps : Run (Step G myIp second) (initial second argv) _ _ :=
    Run.nil.snoc (.beginReqIps _ rfl le_rfl le_rfl)
  have expand := reqIps.snoc (.beginExpand _ rfl le_rfl le_rfl)
  have waited := expand.snoc (.tick _ (4 * second) (.tick later))
  exact ⟨_, _, waited.snoc (.deliver _ rfl top due), rfl⟩

/-- In every run the turns of the two tasks are kept apart by their delays: the n-th REQ_IPS is
later than four seconds and n periods of ten, and the n-th EXPAND_CONNECTION than one second and
n periods of twenty, after the start. While the manager polls, each of them is in the queue just
once. No connection is asked for addresses more often than REQ_IPS had its turn, and there are
never more than eight connections. -/
theorem run_paced {argv : List Bytes} {history : List (Manager × Action)}
    (run : Run (Step G myIp start) (initial start argv) history t) :
    (∀ n < reqIps.turns t.gtd, start + (4000 + n * 10000) * millisecond < t.gtd.now) ∧
      (∀ n < expand.turns t.gtd, start + (1000 + n * 20000) * millisecond < t.gtd.now) ∧
      (t.thread = .polling → ∀ c ∈ [reqIps, expand], (c.pending t.gtd).card = 1) ∧
      (∀ i, (t.queued i).count ⟨.reqIps, []⟩ ≤ reqIps.turns t.gtd) ∧
      t.peers.connections.length ≤ nConn := by
  have inv := run_inv run
  refine ⟨inv.paced reqIps List.mem_cons_self,
    inv.paced expand (List.mem_cons_of_mem _ List.mem_cons_self), ?_, ?_, inv.few⟩
  · intro polling c listed
    have place := inv.place c listed
    rw [polling] at place
    cases place with
    | polling waiting =>
      obtain ⟨x, called, dur, only, -⟩ := waiting
      rw [only]
      exact Multiset.card_singleton x
  · intro i
    exact (Nat.le_add_right _ _).trans (inv.asked i)

theorem run_paced_firstExpand :
    ∃ t : Manager, expand.turns t.gtd = 1 ∧
      ∀ n < expand.turns t.gtd, second + (1000 + n * 20000) * millisecond < t.gtd.now := by
  obtain ⟨history, t, run, rfl⟩ := run_firstExpand .polynomial [] []
  exact ⟨_, rfl, (run_paced run).2.1⟩

end Pttp.Manager
