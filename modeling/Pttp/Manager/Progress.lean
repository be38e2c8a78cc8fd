import Pttp.Manager.Pacing

/-!
# What the manager can do

The thread can always go on while the process lasts. It ends at an address that ZMQ refuses,
or, with a SYNC_HASHSET in hand, at a value that was not returned. When it goes on with such a
value, it asks for a filter: the record of the hash is new, whatever it is asked for.
-/

namespace Pttp.Manager

open Runs GTD

variable {G : GenericHash} {myIp : Bytes} {start : Int} {s t : Manager}

theorem Inv.since_le (inv : Inv start s) {x : Entry} {since : Int}
    (handling : s.thread = .handling x since) (c : Schedule) (listed : c ∈ [reqIps, expand])
    (own : x.task.type = c.type) : since ≤ s.gtd.now := by
  have place := inv.place c listed
  rw [handling] at place
  cases place with
  | inHand _ inHand => exact inHand.before
  | waiting other => exact absurd own other

/-- As long as the process has not ended, the thread can go on. -/
theorem Inv.exists_step (G : GenericHash) (myIp : Bytes) (inv : Inv start s)
    (alive : s.thread ≠ .ended) :
    ∃ a t, Step G myIp start s a t ∧ a.Own ∧ t.thread ≠ .ended := by
  have began := inv.keeps.began
  cases thread : s.thread with
  | ended => exact absurd thread alive
  | starting => exact ⟨_, _, .beginReqIps s thread began le_rfl, trivial, nofun⟩
  | started => exact ⟨_, _, .beginExpand s thread began le_rfl, trivial, nofun⟩
  | polling =>
    obtain ⟨a, g, taken, rfl | ⟨x, rfl⟩⟩ := exists_poll start s.gtd
    · exact ⟨_, _, .idle s thread taken, trivial, alive⟩
    · cases taken with
      | deliver top due => exact ⟨_, _, .deliver s thread top due, trivial, nofun⟩
  | handling x since =>
    have types := (inv.types x (inv.handling x since thread).2).1
    simp only [taskTypes, List.mem_cons, List.not_mem_nil, or_false] at types
    rcases types with type | type | type
    · have past := inv.since_le thread reqIps List.mem_cons_self type
      exact ⟨_, _, .reqIps s thread type past le_rfl, trivial, nofun⟩
    · have past := inv.since_le thread expand (List.mem_cons_of_mem _ List.mem_cons_self) type
      cases expanding : s.expansion with
      | none => exact ⟨_, _, .expand s thread type expanding _ (.refl _), trivial, alive⟩
      | some e =>
        by_cases last : e.rounds = 0
        · exact ⟨_, _, .expanded s thread expanding last past le_rfl, trivial, nofun⟩
        · have taken : ¬ e.Refused true := fun refused => nomatch refused.2
          exact ⟨_, _, .connect s thread true expanding last (connect_of_not_refused taken),
            trivial, alive⟩
    · have checked := check_initHash G inv.allNew x.task.data
      exact ⟨_, _, .done s thread type (.done (.inr checked)), trivial, nofun⟩

/-- The steps that end the process. -/
inductive Ends (s : Manager) : Action → Prop where
  | refused {e : Expansion} {connects : Bool} (expanding : s.expansion = some e)
      (refused : e.Refused connects) : Ends s (.connect connects)
  | noValue {x : Entry} {since : Int} (handling : s.thread = .handling x since)
      (type : x.task.type = .syncHashset) : Ends s .noValue
  | crash : Ends s .crash

theorem ended_step {a : Action} (taken : Step G myIp start s a t) :
    t.thread = .ended ↔ s.thread = .ended ∨ Ends s a := by
  cases taken with
  | tick => exact (or_iff_left nofun).symm
  | go => exact (or_iff_left nofun).symm
  | learn => exact (or_iff_left nofun).symm
  | addFilter => exact (or_iff_left nofun).symm
  | idle => exact (or_iff_left nofun).symm
  | expand => exact (or_iff_left nofun).symm
  | beginReqIps starting => exact iff_of_false nofun (by rw [starting]; nofun)
  | beginExpand started => exact iff_of_false nofun (by rw [started]; nofun)
  | deliver polling => exact iff_of_false nofun (by rw [polling]; nofun)
  | reqIps handling => exact iff_of_false nofun (by rw [handling]; nofun)
  | expanded handling => exact iff_of_false nofun (by rw [handling]; nofun)
  | done handling => exact iff_of_false nofun (by rw [handling]; nofun)
  | sync handling => exact iff_of_false nofun (by rw [handling]; nofun)
  | connect handling connects expanding more connected =>
    refine (or_iff_left ?_).symm
    rintro ⟨⟩
    case refused e expanding' refused =>
      obtain rfl := Option.some.inj (expanding.symm.trans expanding')
      cases (connect_of_refused refused).symm.trans connected
  | @refused x since handling e fault connects expanding more thrown =>
    refine iff_of_true rfl (.inr (.refused expanding ?_))
    by_contra taken
    cases (connect_of_not_refused taken).symm.trans thrown
  | noValue handling type => exact iff_of_true rfl (.inr (.noValue handling type))
  | crash => exact iff_of_true rfl (.inr .crash)

theorem Inv.synced_step {a : Action} (inv : Inv start s) (taken : Step G myIp start s a t)
    (synced : ∃ x ∈ t.gtd.added, x.task.type = .syncHashset) :
    (∃ x ∈ s.gtd.added, x.task.type = .syncHashset) ∨ a = .go := by
  have other {task : GTD.Task} {called dur : Int} (type : task.type ≠ .syncHashset)
      (pushed : ∃ y ∈ (s.gtd.push (addAfter task called dur)).added,
        y.task.type = .syncHashset) :
      ∃ y ∈ s.gtd.added, y.task.type = .syncHashset := by
    obtain ⟨y, member, sync⟩ := pushed
    rcases Multiset.mem_cons.mp member with rfl | old
    · exact absurd sync type
    · exact ⟨y, old, sync⟩
  cases taken with
  | tick later taken =>
    cases taken with
    | tick => exact .inl synced
  | go => exact .inr rfl
  | learn => exact .inl synced
  | addFilter => exact .inl synced
  | idle polling taken =>
    cases taken with
    | empty => exact .inl synced
    | wait => exact .inl synced
  | deliver => exact .inl synced
  | expand => exact .inl synced
  | connect => exact .inl synced
  | refused => exact .inl synced
  | done => exact .inl synced
  | noValue => exact .inl synced
  | crash => exact .inl synced
  | beginReqIps => exact .inl (other (by decide) synced)
  | beginExpand => exact .inl (other (by decide) synced)
  | reqIps handling type => exact .inl (other (by rw [type]; decide) synced)
  | @expanded x since handling e expanding =>
    refine .inl (other ?_ synced)
    rcases inv.expanding e expanding with ended | ⟨y, since', was, type⟩
    · cases handling.symm.trans ended
    · obtain ⟨rfl, -⟩ := ManageThread.handling.inj (handling.symm.trans was)
      rw [type]
      decide
  | @sync x since handling type => exact .inl ⟨x, (inv.handling x since handling).2, type⟩

theorem run_synced {argv : List Bytes} {history : List (Manager × Action)}
    (run : Run (Step G myIp start) (initial start argv) history t)
    (synced : ∃ x ∈ t.gtd.added, x.task.type = .syncHashset) :
    Visits (fun _ a => a = .go) history := by
  induction run with
  | nil =>
    obtain ⟨x, member, -⟩ := synced
    exact absurd member (Multiset.notMem_zero x)
  | snoc before taken ih =>
    exact (visits_snoc ..).mpr (((run_inv before).synced_step taken synced).imp_left ih)

theorem run_ended_iff {argv : List Bytes} {history : List (Manager × Action)}
    (run : Run (Step G myIp start) (initial start argv) history t) :
    t.thread = .ended ↔ Visits Ends history := by
  induction run with
  | nil => exact iff_of_false nofun (by rintro ⟨visit, member, -⟩; cases member)
  | snoc before taken ih => rw [ended_step taken, visits_snoc, ih]

theorem run_noValue {argv : List Bytes} {history : List (Manager × Action)}
    (run : Run (Step G myIp start) (initial start argv) history t)
    (stopped : Visits (fun _ a => a = .noValue) history) :
    Visits (fun _ a => a = .go) history := by
  induction run with
  | nil =>
    obtain ⟨visit, member, -⟩ := stopped
    cases member
  | snoc before taken ih =>
    refine (visits_snoc ..).mpr (.inl ?_)
    rcases (visits_snoc ..).mp stopped with earlier | rfl
    · exact ih earlier
    · cases taken with
      | noValue handling type =>
        exact run_synced before ⟨_, ((run_inv before).handling _ _ handling).2, type⟩

theorem mem_queued_addAll (s : Manager) (task : Task) {i : ℕ}
    (inside : i < s.peers.connections.length) : task ∈ (s.addAll task).queued i := by
  rw [queued_addAll, if_pos inside]
  exact Multiset.mem_cons_self task _

theorem run_go (G : GenericHash) (myIp ip : Bytes) (nonempty : ip ≠ []) (other : ip ≠ myIp) :
    ∃ history t, Run (Step G myIp second) (initial second [ip]) history t ∧
      t.thread = .polling ∧ ⟨.reqHashsetFilter, []⟩ ∈ t.queued 0 := by
  obtain ⟨_, _, first, rfl⟩ := run_firstExpand G myIp [ip]
  have known : (Peers.none.insertIps [ip]).ipList = {ip} := by
    simp [Peers.insertIps, Peers.none]
  have one : ((Peers.none.insertIps [ip]).expansion myIp [ip]).rounds = 1 := by
    show min nConn (Peers.none.insertIps [ip]).ipList.card - 0 = 1
    rw [known]
    rfl
  have picked : ((Peers.none.insertIps [ip]).expansion myIp [ip]).newIp = ip := by
    unfold Expansion.newIp
    rw [Peers.expansion, selectIp]
    simp [Peers.insertIps, Peers.none, other]
  have taken : ¬ ((Peers.none.insertIps [ip]).expansion myIp [ip]).Refused true :=
    fun refused => absurd refused.2 (by decide)
  have more : ((Peers.none.insertIps [ip]).expansion myIp [ip]).rounds ≠ 0 := by
    rw [one]
    decide
  have last : ((Peers.none.insertIps [ip]).expansion myIp [ip]).next.rounds = 0 := by
    show ((Peers.none.insertIps [ip]).expansion myIp [ip]).rounds - 1 = 0
    rw [one]
  have top : (((threeSecondsLater.pop firstExpand).push (GTD.addAfter firstExpand.task (4 * second)
      20000)).push (GTD.add ⟨.syncHashset, [], 0⟩)).IsTop (GTD.add ⟨.syncHashset, [], 0⟩) := by
    decide
  have due : (((threeSecondsLater.pop firstExpand).push (GTD.addAfter firstExpand.task (4 * second)
      20000)).push (GTD.add ⟨.syncHashset, [], 0⟩)).Due (GTD.add ⟨.syncHashset, [], 0⟩) := by
    decide
  have begun := first.snoc (.expand _ rfl rfl rfl [ip] (by
    show [ip].Perm ((Peers.none.insertIps [ip]).ipList.sort (· ≤ ·))
    rw [known, Finset.sort_singleton]))
  have connected := begun.snoc (.connect _ rfl true rfl more (connect_of_not_refused taken))
  have expanded := connected.snoc (.expanded _ rfl rfl last le_rfl le_rfl)
  have went := expanded.snoc (.go _ ManageThread.noConfusion)
  have delivered := went.snoc (.deliver _ rfl top due)
  have allNew : Chain.BlockChainReconsiler.new.AllNew := (inv_initial second [ip]).allNew
  have noFilters : Returned
      (Except.ok ((Chain.BlockChainReconsiler.new.initHash []).filters []).1) ([] : List Bloom) :=
    .inr rfl
  have synced := Synced.request (.inr (check_initHash G allNew [])) noFilters
    (by rw [filters_initHash allNew]; exact getSetOrFilterBy_initHash allNew [] [])
  have asked := delivered.snoc (.sync _ rfl rfl synced le_rfl le_rfl)
  refine ⟨_, _, asked, rfl, ?_⟩
  have made : 0 < ((Peers.none.insertIps [ip]).connections ++
      [((Peers.none.insertIps [ip]).expansion myIp [ip]).newIp].filter (· ≠ [])).length := by
    rw [picked]
    simp [nonempty]
  exact mem_queued_addAll _ _ made

/-- In whatever order the threads take their steps, whatever ZMQ answers, and whatever the values
are taken for that `check` and `filters` do not return: no REQ_HASHSET is ever put into the queue
of a connection, and a REQ_HASHSET_FILTER only after a line with "go" was typed; as long as the
process has not ended, the thread of the manager can go on; and it has ended just when the thread
came to an address that was refused, or to a value that was not returned, after a "go", or when
another thread ended it. -/
theorem run_goes_on {argv : List Bytes} {history : List (Manager × Action)}
    (run : Run (Step G myIp start) (initial start argv) history t) :
    (∀ i, ∀ task ∈ t.queued i, task = ⟨.reqIps, []⟩ ∨
        task = ⟨.reqHashsetFilter, []⟩ ∧ Visits (fun _ a => a = .go) history) ∧
      (t.thread ≠ .ended → ∃ a u, Step G myIp start t a u ∧ a.Own ∧ u.thread ≠ .ended) ∧
      (t.thread = .ended ↔ Visits Ends history) ∧
      (Visits (fun _ a => a = .noValue) history → Visits (fun _ a => a = .go) history) := by
  have inv := run_inv run
  refine ⟨fun i task member => ?_, inv.exists_step G myIp, run_ended_iff run, ?_⟩
  · exact (inv.queued i task member).imp_right (And.imp_right (run_synced run))
  · exact run_noValue run

theorem run_goes_on_filter :
    ∃ history, ∃ t : Manager, Run (Step .polynomial [9] second) (initial second [[1]]) history t ∧
      ⟨.reqHashsetFilter, []⟩ ∈ t.queued 0 ∧ Visits (fun _ a => a = .go) history ∧
      ∃ a u, Step .polynomial [9] second t a u ∧ a.Own ∧ u.thread ≠ .ended := by
  obtain ⟨history, t, run, polling, asked⟩ := run_go .polynomial [9] [1] (by decide) (by decide)
  obtain ⟨passed, goesOn, -⟩ := run_goes_on run
  have went := ((passed 0 _ asked).resolve_left (by decide)).2
  exact ⟨history, t, run, asked, went, goesOn (by rw [polling]; nofun)⟩

end Pttp.Manager
