import Pttp.Gossip
import Pttp.Lib.PriorityQueue

/-!
# Getting tasks done

A `GTD` holds tasks until their time is over. Several threads add tasks and one
polls; the lock makes each push and each poll a step, but the time of a delayed
task is read before the lock is taken. Times are whole seconds, cut down from
what the clock says, and a task is due when its second is over: this is what
keeps a delayed task from being early, and what makes it up to a second late.
-/

namespace Pttp

def TaskType.value : TaskType → Nat
  | sendPriority => 0
  | send => 1
  | hello => 2
  | syncUtxo => 3
  | expandConnection => 4
  | reqIps => 5
  | reqHashsetFilter => 6
  | reqHashset => 7
  | syncHashset => 8

theorem TaskType.value_eq_zero_iff (type : TaskType) : type.value = 0 ↔ type = sendPriority := by
  cases type <;> simp [value]

namespace GTD

open PriorityQueue Runs

/-! ## Time

The clock counts nanoseconds. -/

def second : Int := 1000000000

def millisecond : Int := 1000000

/-- `std::chrono::system_clock::to_time_t`. -/
def toTimeT (point : Int) : Int := point.tdiv second

theorem toTimeT_mono {a b : Int} (le : a ≤ b) : toTimeT a ≤ toTimeT b :=
  Int.tdiv_le_tdiv (by decide) le

theorem lt_of_toTimeT_lt {a b : Int} (before : toTimeT a < toTimeT b) : a < b := by
  apply lt_of_not_ge
  intro le
  exact absurd (toTimeT_mono le) (not_le.mpr before)

theorem one_le_toTimeT {a : Int} (after : second ≤ a) : 1 ≤ toTimeT a :=
  toTimeT_mono after

theorem lt_add_second {a b : Int} (positive : 1 ≤ toTimeT a) (le : toTimeT a ≤ toTimeT b) :
    a < b + second := by
  have later : ¬ b < 0 := by
    intro negative
    have below : toTimeT b ≤ toTimeT 0 := toTimeT_mono negative.le
    have zero : toTimeT 0 = 0 := by decide
    omega
  have cut : toTimeT b = b / 1000000000 := Int.tdiv_eq_ediv_of_nonneg (by omega)
  rcases lt_or_ge a 0 with negative | nonneg
  · unfold second
    omega
  · have cut' : toTimeT a = a / 1000000000 := Int.tdiv_eq_ediv_of_nonneg nonneg
    unfold second
    omega

/-! ## Tasks -/

structure Task where
  type : TaskType
  data : Bytes
  time : Int
  deriving DecidableEq

def less (l r : Task) : Bool :=
  if l.time = r.time then l.type.value < r.type.value else l.time < r.time

def greater (l r : Task) : Bool :=
  if l.time = r.time then l.type.value > r.type.value else l.time > r.time

def Task.rank (task : Task) : Int ×ₗ Nat := toLex (task.time, task.type.value)

theorem rank_lt_iff (l r : Task) :
    l.rank < r.rank ↔ l.time < r.time ∨ l.time = r.time ∧ l.type.value < r.type.value :=
  Prod.Lex.toLex_lt_toLex

theorem rank_le_iff (l r : Task) :
    l.rank ≤ r.rank ↔ l.time < r.time ∨ l.time = r.time ∧ l.type.value ≤ r.type.value :=
  Prod.Lex.toLex_le_toLex

theorem less_iff (l r : Task) : less l r ↔ l.rank < r.rank := by
  rw [rank_lt_iff]
  unfold less
  split
  case isTrue same => simp [same]
  case isFalse other => simp [other]

theorem greater_eq (l r : Task) : greater l r = less r l := by
  unfold greater less
  by_cases same : l.time = r.time
  · rw [if_pos same, if_pos same.symm]
  · rw [if_neg same, if_neg (Ne.symm same)]

/-! ## The queue -/

/-- The call of `add` that a task came by; `called` is what it read from the clock. -/
inductive Origin where
  | immediate
  | delayed (called dur : Int)
  deriving DecidableEq

structure Entry where
  task : Task
  origin : Origin
  deriving DecidableEq

def add (task : Task) : Entry := ⟨{ task with time := 0 }, .immediate⟩

/-- `add(Task task, std::chrono::milliseconds dur)`. -/
def addAfter (task : Task) (called dur : Int) : Entry :=
  ⟨{ task with time := toTimeT (called + dur * millisecond) }, .delayed called dur⟩

/-- The clock and the queue. `added` and `delivered` record what happened. -/
structure State where
  now : Int
  q : Multiset Entry
  added : Multiset Entry
  delivered : Multiset Entry

def initial (start : Int) : State := ⟨start, 0, 0, 0⟩

def State.push (s : State) (x : Entry) : State :=
  { s with q := x ::ₘ s.q, added := x ::ₘ s.added }

def State.pop (s : State) (x : Entry) : State :=
  { s with q := s.q.erase x, delivered := x ::ₘ s.delivered }

def State.IsTop (s : State) (x : Entry) : Prop :=
  Top (fun x y => greater x.task y.task) s.q x

/-- The test of `operator()`. -/
def State.Due (s : State) (x : Entry) : Prop := x.task.time < toTimeT s.now

instance (s : State) (x : Entry) : Decidable (s.IsTop x) :=
  inferInstanceAs (Decidable (Top _ _ _))

instance (s : State) (x : Entry) : Decidable (s.Due x) :=
  inferInstanceAs (Decidable (x.task.time < toTimeT s.now))

inductive Action where
  | tick (later : Int)
  | add (task : Task)
  | addAfter (task : Task) (called dur : Int)
  | deliver (x : Entry)
  | idle

/-- `deliver` and `idle` are the two ends of a turn of the loop in `operator()`. The clock was
read in a call of `addAfter` at some moment of the run up to now. -/
inductive Step (start : Int) : State → Action → State → Prop where
  | tick {s : State} {later : Int} (le : s.now ≤ later) :
      Step start s (.tick later) { s with now := later }
  | add (s : State) (task : Task) : Step start s (.add task) (s.push (GTD.add task))
  | addAfter {s : State} (task : Task) {called : Int} (dur : Int) (began : start ≤ called)
      (read : called ≤ s.now) :
      Step start s (.addAfter task called dur) (s.push (GTD.addAfter task called dur))
  | deliver {s : State} {x : Entry} (top : s.IsTop x) (due : s.Due x) :
      Step start s (.deliver x) (s.pop x)
  | empty {s : State} (nothing : s.q = 0) : Step start s .idle s
  | wait {s : State} {x : Entry} (top : s.IsTop x) (early : ¬ s.Due x) : Step start s .idle s

variable {start : Int} {s t : State} {a : Action} {x y : Entry}

theorem sortsBy_rank :
    SortsBy (fun x y : Entry => greater x.task y.task) (fun x => x.task.rank) := by
  intro x y
  simp only [greater_eq]
  exact less_iff y.task x.task

theorem exists_poll (start : Int) (s : State) :
    ∃ a t, Step start s a t ∧ (a = .idle ∨ ∃ x, a = .deliver x) := by
  by_cases nothing : s.q = 0
  · exact ⟨.idle, s, .empty nothing, .inl rfl⟩
  · obtain ⟨x, top⟩ := exists_top sortsBy_rank nothing
    by_cases due : s.Due x
    · exact ⟨.deliver x, s.pop x, .deliver top due, .inr ⟨x, rfl⟩⟩
    · exact ⟨.idle, s, .wait top due, .inl rfl⟩

/-! ## The queue of a connection

The gossip leaves out the times, and takes any task of the queue for its top. -/

def Entry.untimed (x : Entry) : Pttp.Task := ⟨x.task.type, x.task.data⟩

section Connections

variable {Node Connection : Type} {g : Gossip Node Connection} {con : Connection}

def Shows (g : Gossip Node Connection) (con : Connection) (s : State) : Prop :=
  g.queue con = s.q.map Entry.untimed

theorem Shows.add [DecidableEq Connection] (shows' : Shows g con s) {task : Task}
    (taken : Step start s (.add task) t) :
    Shows (g.add con ⟨task.type, task.data⟩) con t := by
  cases taken with
  | add =>
    have inserted : (g.add con ⟨task.type, task.data⟩).queue con =
        ⟨task.type, task.data⟩ ::ₘ g.queue con := Function.update_self ..
    unfold Shows
    rw [inserted, shows']
    exact (Multiset.map_cons Entry.untimed (GTD.add task) s.q).symm

theorem Shows.deliver [DecidableEq Connection] (shows' : Shows g con s)
    (taken : Step start s (.deliver x) t) :
    x.untimed ∈ g.queue con ∧ Shows (g.pop con x.untimed) con t := by
  cases taken with
  | deliver top due =>
    constructor
    · rw [shows']
      exact Multiset.mem_map_of_mem _ top.1
    · have taken : (g.pop con x.untimed).queue con = (g.queue con).erase x.untimed :=
        Function.update_self ..
      unfold Shows
      rw [taken, shows']
      exact (Multiset.map_erase_of_mem _ _ top.1).symm

theorem Shows.idle (shows' : Shows g con s) (taken : Step start s .idle t) : Shows g con t := by
  cases taken with
  | empty nothing => exact shows'
  | wait top early => exact shows'

end Connections

/-! ## What is kept -/

/-- The time that a call of `add` gave to a task. -/
def Stamped (start : Int) (x : Entry) : Prop :=
  match x.origin with
  | .immediate => x.task.time = 0
  | .delayed called dur =>
      start ≤ called ∧ x.task.time = toTimeT (called + dur * millisecond)

structure Keeps (start : Int) (s : State) : Prop where
  conserved : s.delivered + s.q = s.added
  began : start ≤ s.now
  stamped : ∀ x ∈ s.added, Stamped start x

theorem keeps_initial (start : Int) : Keeps start (initial start) where
  conserved := rfl
  began := le_rfl
  stamped x member := absurd member (Multiset.notMem_zero x)

theorem Keeps.push (keeps : Keeps start s) (stamped : Stamped start x) :
    Keeps start (s.push x) := by
  refine ⟨?_, keeps.began, ?_⟩
  · show s.delivered + x ::ₘ s.q = x ::ₘ s.added
    rw [Multiset.add_cons, keeps.conserved]
  · intro y member
    rcases Multiset.mem_cons.mp member with rfl | old
    · exact stamped
    · exact keeps.stamped y old

theorem Keeps.pop (keeps : Keeps start s) (member : x ∈ s.q) : Keeps start (s.pop x) := by
  refine ⟨?_, keeps.began, keeps.stamped⟩
  show x ::ₘ s.delivered + s.q.erase x = s.added
  rw [Multiset.cons_add, ← Multiset.add_cons, Multiset.cons_erase member]
  exact keeps.conserved

theorem Keeps.step (keeps : Keeps start s) (taken : Step start s a t) : Keeps start t := by
  cases taken with
  | tick le => exact ⟨keeps.conserved, keeps.began.trans le, keeps.stamped⟩
  | add task => exact keeps.push rfl
  | addAfter task dur began read => exact keeps.push ⟨began, rfl⟩
  | deliver top due => exact keeps.pop top.1
  | empty nothing => exact keeps
  | wait top early => exact keeps

theorem Run.keeps {history : List (State × Action)}
    (run : Run (Step start) (initial start) history t) : Keeps start t := by
  apply run.invariant (keeps_initial start)
  intro s a t keeps taken
  exact keeps.step taken

theorem Keeps.stamped_of_mem (keeps : Keeps start s) (member : x ∈ s.q) : Stamped start x := by
  apply keeps.stamped
  rw [← keeps.conserved]
  exact Multiset.mem_add.mpr (.inr member)

theorem Stamped.time_of_immediate (stamped : Stamped start x) (immediate : x.origin = .immediate) :
    x.task.time = 0 := by
  unfold Stamped at stamped
  rw [immediate] at stamped
  exact stamped

theorem Stamped.time_of_delayed (stamped : Stamped start x) {called dur : Int}
    (delayed : x.origin = .delayed called dur) :
    start ≤ called ∧ x.task.time = toTimeT (called + dur * millisecond) := by
  unfold Stamped at stamped
  rw [delayed] at stamped
  exact stamped

/-! ## The contract -/

def Entry.Forward (x : Entry) : Prop := ∀ called dur, x.origin = .delayed called dur → 0 ≤ dur

/-- Once a second has passed, a delayed task has a later time than an immediate one. -/
theorem Stamped.one_le_time (stamped : Stamped start x) (after : second ≤ start)
    (forward : x.Forward) (delayed : x.origin ≠ .immediate) : 1 ≤ x.task.time := by
  cases origin : x.origin with
  | immediate => exact absurd origin delayed
  | delayed called dur =>
    obtain ⟨began, time⟩ := stamped.time_of_delayed origin
    have nonneg := forward called dur origin
    have added : 0 ≤ dur * millisecond := Int.mul_nonneg nonneg (by decide)
    rw [time]
    apply one_le_toTimeT
    omega

/-- What a delivery owes to the delay of its task and to the tasks that wait. -/
structure Ordered (s : State) (x : Entry) : Prop where
  notEarly : ∀ called dur, x.origin = .delayed called dur → called + dur * millisecond < s.now
  minimal : ∀ y ∈ s.q, x.task.rank ≤ y.task.rank
  immediateFirst : x.Forward → ∀ y ∈ s.q, y.origin = .immediate → x.origin = .immediate
  -- another type goes before a SENDPRIORITY of a later time only
  priorityFirst : ∀ y ∈ s.q, y.task.type = .sendPriority → y.task.time ≤ x.task.time →
    x.task.type = .sendPriority
  immediatePriorityFirst : x.Forward → ∀ y ∈ s.q, y.task.type = .sendPriority →
    y.origin = .immediate → x.task.type = .sendPriority

/-- What a turn of the loop without a delivery says of the tasks that wait. -/
structure Quiet (s : State) : Prop where
  noneDue : ∀ y ∈ s.q, ¬ s.Due y
  noneImmediate : ∀ y ∈ s.q, y.origin ≠ .immediate
  -- no delay has been over for a second
  recent : ∀ y ∈ s.q, ∀ called dur, y.origin = .delayed called dur →
    s.now < called + dur * millisecond + second

theorem Keeps.ordered (keeps : Keeps start s) (after : second ≤ start) (top : s.IsTop x)
    (due : s.Due x) : Ordered s x := by
  have minimal : ∀ y ∈ s.q, x.task.rank ≤ y.task.rank :=
    fun y member => top.rank_le sortsBy_rank member
  have stamped := keeps.stamped_of_mem top.1
  have immediateFirst : x.Forward → ∀ y ∈ s.q, y.origin = .immediate →
      x.origin = .immediate := by
    intro forward y member immediate
    by_contra delayed
    have late := stamped.one_le_time after forward delayed
    have zero := (keeps.stamped_of_mem member).time_of_immediate immediate
    rcases (rank_le_iff _ _).mp (minimal y member) with before | ⟨same, -⟩
    · omega
    · omega
  have priorityFirst : ∀ y ∈ s.q, y.task.type = .sendPriority → y.task.time ≤ x.task.time →
      x.task.type = .sendPriority := by
    intro y member priority notLater
    rcases (rank_le_iff _ _).mp (minimal y member) with before | ⟨-, smaller⟩
    · omega
    · rw [(TaskType.value_eq_zero_iff _).mpr priority] at smaller
      exact (TaskType.value_eq_zero_iff _).mp (Nat.le_zero.mp smaller)
  refine ⟨?_, minimal, immediateFirst, priorityFirst, ?_⟩
  · intro called dur delayed
    obtain ⟨-, time⟩ := stamped.time_of_delayed delayed
    unfold State.Due at due
    rw [time] at due
    exact lt_of_toTimeT_lt due
  · intro forward y member priority immediate
    apply priorityFirst y member priority
    rw [(keeps.stamped_of_mem member).time_of_immediate immediate,
      stamped.time_of_immediate (immediateFirst forward y member immediate)]

theorem none_due_of_idle (taken : Step start s .idle t) : ∀ y ∈ s.q, ¬ s.Due y := by
  cases taken with
  | empty nothing =>
    intro y member
    rw [nothing] at member
    exact absurd member (Multiset.notMem_zero y)
  | wait top early =>
    apply top.none_due sortsBy_rank _ early
    intro x y le due
    unfold State.Due at due ⊢
    rcases (rank_le_iff _ _).mp le with before | ⟨same, -⟩
    · exact before.trans due
    · exact same.trans_lt due

theorem Keeps.quiet (keeps : Keeps start s) (after : second ≤ start)
    (noneDue : ∀ y ∈ s.q, ¬ s.Due y) : Quiet s := by
  have positive : 1 ≤ toTimeT s.now := one_le_toTimeT (after.trans keeps.began)
  refine ⟨noneDue, ?_, ?_⟩
  · intro y member immediate
    apply noneDue y member
    unfold State.Due
    rw [(keeps.stamped_of_mem member).time_of_immediate immediate]
    exact positive
  · intro y member called dur delayed
    obtain ⟨-, time⟩ := (keeps.stamped_of_mem member).time_of_delayed delayed
    apply lt_add_second positive
    rw [← time]
    exact not_lt.mp (noneDue y member)

/-- In every run whose clock began after the first second: what was delivered and what is
queued is what was added, every delivery is in order, and a turn without one leaves nothing
that is due. -/
theorem run_contract {history : List (State × Action)} (after : second ≤ start)
    (run : Run (Step start) (initial start) history t) :
    t.delivered + t.q = t.added ∧ (∀ s x, (s, .deliver x) ∈ history → Ordered s x) ∧
      ∀ s, (s, .idle) ∈ history → Quiet s := by
  refine ⟨(Run.keeps run).conserved, ?_, ?_⟩
  · intro s x visit
    obtain ⟨before, u, beginning, taken⟩ := run.of_mem visit
    cases taken with
    | deliver top due => exact (Run.keeps beginning).ordered after top due
  · intro s visit
    obtain ⟨before, u, beginning, taken⟩ := run.of_mem visit
    exact (Run.keeps beginning).quiet after (none_due_of_idle taken)

def twoDelayed : State :=
  ((initial second).push (addAfter ⟨.sendPriority, [], 0⟩ second 5000)).push
    (addAfter ⟨.hello, [], 0⟩ second 2000)

def bothDue : State := { twoDelayed with now := 10 * second }

theorem run_bothDue : ∃ history, Run (Step second) (initial second) history bothDue := by
  have priority : Step second (initial second) (.addAfter ⟨.sendPriority, [], 0⟩ second 5000)
      ((initial second).push (addAfter ⟨.sendPriority, [], 0⟩ second 5000)) :=
    .addAfter _ _ le_rfl le_rfl
  have hello : Step second _ (.addAfter ⟨.hello, [], 0⟩ second 2000) twoDelayed :=
    .addAfter _ _ le_rfl le_rfl
  have later : Step second twoDelayed (.tick (10 * second)) bothDue := .tick (by decide)
  exact ⟨_, ((Run.nil.snoc priority).snoc hello).snoc later⟩

theorem step_bothDue :
    Step second bothDue (.deliver (addAfter ⟨.hello, [], 0⟩ second 2000))
      (bothDue.pop (addAfter ⟨.hello, [], 0⟩ second 2000)) :=
  .deliver (by decide) (by decide)

theorem run_contract_bothDue :
    bothDue.delivered + bothDue.q = bothDue.added ∧
      Ordered bothDue (addAfter ⟨.hello, [], 0⟩ second 2000) := by
  obtain ⟨history, run⟩ := run_bothDue
  refine ⟨(run_contract le_rfl run).1, ?_⟩
  apply (run_contract le_rfl (run.snoc step_bothDue)).2.1
  exact List.mem_append.mpr (.inr List.mem_cons_self)

def oneDelayed : State := (initial second).push (addAfter ⟨.hello, [], 0⟩ second 1000)

def overHalf : State := { oneDelayed with now := 2500000000 }

/-- The HELLO is delivered while the SENDPRIORITY is due and waits; and a turn of the loop
leaves a task whose delay was over half a second ago. -/
theorem run_overtakes :
    (∃ history t s x y, Run (Step second) (initial second) history t ∧
      (s, .deliver x) ∈ history ∧ y ∈ s.q ∧ s.Due y ∧ y.task.type = .sendPriority ∧
        x.task.type ≠ .sendPriority) ∧
    ∃ history t s y called dur, Run (Step second) (initial second) history t ∧
      (s, .idle) ∈ history ∧ y ∈ s.q ∧ y.origin = .delayed called dur ∧
        called + dur * millisecond < s.now := by
  constructor
  · obtain ⟨history, run⟩ := run_bothDue
    refine ⟨_, _, bothDue, _, addAfter ⟨.sendPriority, [], 0⟩ second 5000,
      run.snoc step_bothDue, List.mem_append.mpr (.inr List.mem_cons_self), ?_⟩
    decide
  · have added : Step second (initial second) (.addAfter ⟨.hello, [], 0⟩ second 1000) oneDelayed :=
      .addAfter _ _ le_rfl le_rfl
    have later : Step second oneDelayed (.tick 2500000000) overHalf := .tick (by decide)
    have idle : Step second overHalf .idle overHalf :=
      .wait (x := addAfter ⟨.hello, [], 0⟩ second 1000) (by decide) (by decide)
    refine ⟨_, _, overHalf, addAfter ⟨.hello, [], 0⟩ second 1000, second, 1000,
      ((Run.nil.snoc added).snoc later).snoc idle, List.mem_append.mpr (.inr List.mem_cons_self),
      ?_⟩
    decide

end GTD

end Pttp
