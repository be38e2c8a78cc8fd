import Pttp.Discovery.Knowledge

/-!
# Rounds of asking

A REQ_IPS that was sent and came home after some moment brought what its peer knew at that
moment. When every connection asks once in a round, an address comes one connection nearer
each round, and when every HELLO has arrived and no connection is made, after as many rounds
as the connections are long the nodes know exactly what they can know.
-/

namespace Pttp.Discovery

open Messages Runs Spreading

variable {Node : Type} [DecidableEq Node] {wire : Wire} {messages : Codec Message}
  {world : World Node} {s t : Discovery Node}

section Definitions

variable (wire messages world)

def SendsReqIps (con : Link Node) (_ : Discovery Node) (a : Action Node) : Prop :=
  ∃ task, a = .send con task ∧ task.type = .reqIps

def Finishes (con : Link Node) (_ : Discovery Node) (a : Action Node) : Prop := a = .finish con

/-- A part of a run in which every connection that someone listens on asks, and is done with
it. -/
def Round (s t : Discovery Node) : Prop :=
  ∃ history, Run (Step wire messages world) s history t ∧
    ∀ con, s.target world con ≠ none → VisitsThen (SendsReqIps con) (Finishes con) history

variable (s) in
def Greeted : Prop :=
  ∀ con v, s.target world con = some v → world.myIp con.1 ∈ (s.peers v).ipList

/-- The question is out after these addresses were known, or they have come. -/
def Asking (con : Link Node) (ips : Finset Bytes) (s : Discovery Node) : Prop :=
  (∃ task data, s.exchange con = .request task data ∧ task.type = .reqIps) ∨
    (∃ task list, s.exchange con = .replied task (wire.pack (Reply.ipList list).object) ∧
      task.type = .reqIps ∧ ∀ ip ∈ ips, ip ∈ list) ∨
    ips ⊆ (s.peers con.1).ipList

end Definitions

/-! ## What a step leaves as it was -/

theorem Grows.step {a : Action Node} (inv : Inv wire messages world s)
    (taken : Step wire messages world s a t) : Grows s t := by
  cases taken with
  | start con alive made starting => exact .of_peers_eq rfl
  | request con task alive made queued => exact .of_peers_eq rfl
  | expand u ipsTmp alive free shuffled => exact .of_peers_eq rfl
  | expanded u e alive expanding last => exact .of_peers_eq rfl
  | connect u e connects alive expanding more =>
    rcases connect_cases connects u e s with ⟨-, thrown⟩ | ⟨-, connected⟩
    · rw [thrown]
      exact .of_peers_eq rfl
    · rw [connected]
      exact grows_append s u _ _
  | socketErr u alive => exact .of_peers_eq rfl
  | send con task data alive idle waiting sent => exact .of_peers_eq rfl
  | receive con v task data other alive receiving requested here =>
    rcases (inv.link con).serve_eq requested other v with
      ⟨-, served⟩ | ⟨-, served⟩ | ⟨-, served⟩
    · rw [served]
      exact (grows_insertIps s v _).trans (.of_peers_eq rfl)
    · rw [served]
      exact .of_peers_eq rfl
    · rw [served]
      exact .of_peers_eq rfl
  | list v con size task data alive listing requested =>
    rw [inv.list_eq listing]
    split
    · exact .of_peers_eq rfl
    · exact .of_peers_eq rfl
  | finish con task result alive replied =>
    obtain ⟨ips, -, ended, -⟩ := inv.finish_eq replied
    rw [ended]
    have read : Grows s (s.setExchange con .idle) := .of_peers_eq rfl
    exact read.trans (grows_insertIps _ con.1 ips)

theorem Grows.run {history : List (Discovery Node × Action Node)}
    (inv : Inv wire messages world s) (run : Run (Step wire messages world) s history t) :
    Inv wire messages world t ∧ Grows s t := by
  have preserved (t : Discovery Node) (a : Action Node) (t' : Discovery Node)
      (good : Inv wire messages world t ∧ Grows s t) (taken : Step wire messages world t a t') :
      Inv wire messages world t' ∧ Grows s t' :=
    ⟨good.1.step taken, good.2.trans (.step good.1 taken)⟩
  refine run.invariant ?_ preserved
  exact ⟨inv, .of_peers_eq rfl⟩

variable (wire world) in
/-- What a step makes of the exchange of a connection. -/
inductive ExchangeStep (con : Link Node) (s t : Discovery Node) : Action Node → Prop where
  | kept {a : Action Node} (same : t.exchange con = s.exchange con) (unfinished : a ≠ .finish con)
      (unsent : ∀ task, a ≠ .send con task) : ExchangeStep con s t a
  | started (starting : s.exchange con = .starting) (idle : t.exchange con = .idle) :
      ExchangeStep con s t (.start con)
  | sent {task : Task} {data : Bytes} (idle : s.exchange con = .idle)
      (requested : t.exchange con = .request task data) : ExchangeStep con s t (.send con task)
  | answered {a : Action Node} {task : Task} {data result : Bytes}
      (requested : s.exchange con = .request task data)
      (replied : t.exchange con = .replied task result)
      (ips : task.type = .reqIps → ∃ v, s.target world con = some v ∧
        result = wire.pack (Reply.ipList ((s.peers v).ipList.sort (· ≤ ·))).object) :
      ExchangeStep con s t a
  | finished {task : Task} {result : Bytes} (replied : s.exchange con = .replied task result)
      (idle : t.exchange con = .idle)
      (ips : task.type = .reqIps → ∃ ips, result = wire.pack (Reply.ipList ips).object ∧
        ∀ ip ∈ ips, ip ∈ (t.peers con.1).ipList) : ExchangeStep con s t (.finish con)

theorem exchangeStep {a : Action Node} (inv : Inv wire messages world s)
    (taken : Step wire messages world s a t) (con : Link Node) :
    ExchangeStep wire world con s t a := by
  cases taken with
  | start other alive made starting =>
    by_cases here : con = other
    · subst here
      exact .started starting (setExchange_self _ con _)
    · exact .kept (setExchange_of_ne _ here _) nofun nofun
  | request other task alive made queued => exact .kept rfl nofun nofun
  | expand u ipsTmp alive free shuffled => exact .kept rfl nofun nofun
  | expanded u e alive expanding last => exact .kept rfl nofun nofun
  | connect u e connects alive expanding more =>
    rcases connect_cases connects u e s with ⟨-, thrown⟩ | ⟨-, connected⟩
    · rw [thrown]
      exact .kept rfl nofun nofun
    · rw [connected]
      exact .kept rfl nofun nofun
  | socketErr u alive => exact .kept rfl nofun nofun
  | send other task data alive idle waiting sent =>
    by_cases here : con = other
    · subst here
      exact .sent idle (setExchange_self _ con _)
    · refine .kept (setExchange_of_ne _ here _) nofun fun task same => here ?_
      exact (Action.send.inj same).1.symm
  | receive other v task data answer alive receiving requested there =>
    rcases (inv.link other).serve_eq requested answer v with
      ⟨rfl, served⟩ | ⟨-, served⟩ | ⟨text, served⟩
    · rw [served]
      by_cases here : con = other
      · subst here
        exact .answered requested (setExchange_self _ con _) nofun
      · exact .kept (setExchange_of_ne _ here _) nofun nofun
    · rw [served]
      exact .kept rfl nofun nofun
    · rw [served]
      by_cases here : con = other
      · subst here
        exact .answered requested (setExchange_self _ con _)
          fun asked => absurd (text.symm.trans asked) nofun
      · exact .kept (setExchange_of_ne _ here _) nofun nofun
  | list v other size task data alive listing requested =>
    rw [inv.list_eq listing]
    split
    · exact .kept rfl nofun nofun
    · by_cases here : con = other
      · subst here
        exact .answered requested (setExchange_self _ con _)
          fun _ => ⟨v, ((inv.node v).listing con size listing).1, rfl⟩
      · exact .kept (setExchange_of_ne _ here _) nofun nofun
  | finish other task result alive replied =>
    obtain ⟨ips, -, ended, same, -⟩ := inv.finish_eq replied
    rw [ended]
    by_cases here : con = other
    · subst here
      refine .finished replied (setExchange_self s con _) fun asked => ⟨ips, same asked, ?_⟩
      intro ip member
      exact mem_insertIps.mpr (.inr ⟨rfl, member⟩)
    · refine .kept (setExchange_of_ne s here _) (fun same => here ?_) nofun
      exact (Action.finish.inj same).symm

/-! ## One question -/

/-- A question that is out stays out until a list with the addresses comes back, and when
the connection is done with it, they are known. -/
theorem Asking.step {con : Link Node} {ips : Finset Bytes} {v : Node} {a : Action Node}
    (inv : Inv wire messages world s) (here : s.target world con = some v)
    (known : ips ⊆ (s.peers v).ipList) (asking : Asking wire con ips s)
    (taken : Step wire messages world s a t) :
    Asking wire con ips t ∧ (a = .finish con → ips ⊆ (t.peers con.1).ipList) := by
  have grows := Grows.step inv taken
  by_cases there : ips ⊆ (s.peers con.1).ipList
  · have stays := there.trans (grows.ipList con.1)
    exact ⟨.inr (.inr stays), fun _ => stays⟩
  have waits := asking.imp_right fun rest => rest.resolve_right there
  cases exchangeStep inv taken con with
  | kept same unfinished =>
    refine ⟨?_, fun finish => absurd finish unfinished⟩
    unfold Asking
    rw [same]
    exact waits.imp_right .inl
  | started starting =>
    rcases waits with ⟨task, data, was, -⟩ | ⟨task, list, was, -⟩
    · cases starting.symm.trans was
    · cases starting.symm.trans was
  | sent idle =>
    rcases waits with ⟨task, data, was, -⟩ | ⟨task, list, was, -⟩
    · cases idle.symm.trans was
    · cases idle.symm.trans was
  | @answered _ task data result requested replied list =>
    rcases waits with ⟨task', data', was, asked⟩ | ⟨task', list', was, -⟩
    · obtain ⟨rfl, rfl⟩ := Exchange.request.inj (requested.symm.trans was)
      obtain ⟨w, there', rfl⟩ := list asked
      obtain rfl := Option.some.inj (here.symm.trans there')
      have whole : ∀ ip ∈ ips, ip ∈ (s.peers v).ipList.sort (· ≤ ·) :=
        fun ip member => (Finset.mem_sort _).mpr (known member)
      refine ⟨.inr (.inl ⟨_, _, replied, asked, whole⟩), ?_⟩
      rintro rfl
      cases taken with
      | finish _ task result alive back => cases requested.symm.trans back
    · cases requested.symm.trans was
  | @finished task result replied idle list =>
    rcases waits with ⟨task', data', was, asked⟩ | ⟨task', list', was, asked, all⟩
    · cases replied.symm.trans was
    · obtain ⟨rfl, rfl⟩ := Exchange.replied.inj (replied.symm.trans was)
      obtain ⟨read, same, inserted⟩ := list asked
      obtain rfl : list' = read := by
        apply Cpp.ok_unique (readIps_reply wire list')
        rw [same, readIps_reply]
      have came : ips ⊆ (t.peers con.1).ipList := fun ip member => inserted ip (all ip member)
      exact ⟨.inr (.inr came), fun _ => came⟩

/-- What the peer knew when the question left is known when the answer was read. -/
theorem asked_knows {history : List (Discovery Node × Action Node)}
    (inv : Inv wire messages world s) (run : Run (Step wire messages world) s history t)
    {con : Link Node} {v : Node} (here : s.target world con = some v)
    (asked : VisitsThen (SendsReqIps con) (Finishes con) history) :
    (s.peers v).ipList ⊆ (t.peers con.1).ipList := by
  apply run.of_visitsThen (fun t => Inv wire messages world t ∧ Grows s t)
    (Asking wire con (s.peers v).ipList) ⟨inv, .of_peers_eq rfl⟩ _ _ _ _ _ asked
  · rintro t a t' ⟨good, grown⟩ taken
    exact ⟨good.step taken, grown.trans (.step good taken)⟩
  · rintro t a t' ⟨good, grown⟩ ⟨task, rfl, type⟩ taken
    cases taken with
    | send _ _ data => exact .inl ⟨task, data, setExchange_self _ con _, type⟩
  · rintro t a t' ⟨good, grown⟩ asking taken
    exact (asking.step good (grown.target here) (grown.ipList v) taken).1
  · rintro t a t' ⟨good, grown⟩ asking rfl taken
    exact (asking.step good (grown.target here) (grown.ipList v) taken).2 rfl
  · rintro t a t' ⟨good, grown⟩ came taken
    exact came.trans ((Grows.step good taken).ipList con.1)

/-! ## Rounds -/

theorem Round.inv (inv : Inv wire messages world s) (round : Round wire messages world s t) :
    Inv wire messages world t ∧ Grows s t := by
  obtain ⟨history, run, -⟩ := round
  exact Grows.run inv run

theorem known_of_within {k : ℕ} (inv : Inv wire messages world s)
    (rounds : Rounds (Round wire messages world) s k t) {u v : Node}
    (near : Within (s.Asks world) k u v) : s.known v ⊆ t.known u := by
  refine rounds.spread known (fun s => s.Asks world) (Inv wire messages world) inv ?_ ?_ ?_ ?_ near
  · exact fun s t good round => (round.inv good).1
  · exact fun s t good round u => (round.inv good).2.ipList u
  · exact fun s t good round u v => (round.inv good).2.asks
  · rintro s t good ⟨history, run, all⟩ u v ⟨i, here⟩
    exact asked_knows good run here (all (u, i) (by rw [here]; exact Option.some_ne_none v))

theorem run_argv {history : List (Discovery Node × Action Node)}
    (run : Run (Step wire messages world) (initial world) history t) (u : Node) :
    ∀ ip ∈ world.argv u, ip ∈ t.known u := by
  intro ip argument
  apply (Grows.run (inv_initial wire messages world) run).2.ipList u
  simpa [initial, Peers.insertIps, Peers.none] using argument

theorem canKnow_of_greeted {history : List (Discovery Node × Action Node)}
    (run : Run (Step wire messages world) (initial world) history s)
    (greeted : s.Greeted world) {u : Node} {ip : Bytes} (canKnow : s.CanKnow world u ip) :
    ∃ v, Relation.ReflTransGen (s.Asks world) u v ∧ ip ∈ s.known v := by
  obtain ⟨v, reached, argument | ⟨w, ⟨i, made⟩, rfl⟩⟩ := learned_iff_reachable.mp canKnow
  · exact ⟨v, reached, run_argv run v ip argument⟩
  · exact ⟨v, reached, greeted (w, i) v made⟩

theorem exists_asked (inv : Inv wire messages world s) (con : Link Node) {v : Node}
    (alive : s.fault con.1 = none) (alive' : s.fault v = none)
    (receiving : s.serving v = .receiving) (here : s.target world con = some v)
    (idle : s.exchange con = .idle) :
    ∃ history t, Run (Step wire messages world) s history t ∧
      t = s.insertIps con.1 ((s.peers v).ipList.sort (· ≤ ·)) ∧
      VisitsThen (SendsReqIps con) (Finishes con) history := by
  obtain ⟨before, _, run1, rfl, visit, member, sent⟩ :=
    exists_requested wire messages alive here idle
  have good := (Grows.run inv run1).1
  obtain ⟨between, _, run2, rfl⟩ := good.exists_listed alive' receiving here
    (setExchange_self s con _)
  have noNul : ∀ ip ∈ (s.peers v).ipList.sort (· ≤ ·), 0 ∉ ip := fun ip member =>
    zero_notMem_of_canKnow ((inv.node v).sound ip ((Finset.mem_sort _).mp member))
  have run3 := (run1.trans run2).snoc (.finish _ con _ _ alive (setExchange_self _ con _))
  rw [finish_reply, after_ok] at run3
  case noNul => exact noNul
  refine ⟨_, _, run3, ?_, before ++ between, [_], rfl, ?_, ?_⟩
  · simp only [setExchange, Function.update_idem, ← idle, Function.update_eq_self]
  · exact ⟨visit, List.mem_append_left _ member, _, sent, rfl⟩
  · exact ⟨_, List.mem_singleton_self _, rfl⟩

theorem target_pair {s : Discovery Bool} (first : (s.peers false).connections = [[2]])
    (second : (s.peers true).connections = [[1]]) {con : Link Bool} {v : Bool} :
    s.target pair con = some v ↔ con.2 = 0 ∧ v = !con.1 := by
  obtain ⟨u, i⟩ := con
  have listens : s.target pair (u, i) = ([(if u then [1] else [2] : Bytes)][i]?).bind
      pair.listener := by
    cases u
    · rw [target, address, first]
      rfl
    · rw [target, address, second]
      rfl
  rw [listens]
  cases i with
  | zero => cases u <;> cases v <;> decide
  | succ i => simp

theorem round_pair {s : Discovery Bool} (inv : Inv wire messages pair s)
    (peers : s.peers false = ⟨{[2]}, [[2]]⟩) (peers' : s.peers true = ⟨{[1]}, [[1]]⟩)
    (idle : ∀ u, s.exchange (u, 0) = .idle)
    (calm : ∀ u, s.serving u = .receiving ∧ s.fault u = none) :
    ∃ t, Round wire messages pair s t ∧ t.peers false = ⟨{[2], [1]}, [[2]]⟩ ∧
      (t.peers true).connections = [[1]] := by
  have target (u : Bool) : s.target pair (u, 0) = some (!u) :=
    (target_pair (by rw [peers]) (by rw [peers'])).mpr ⟨rfl, rfl⟩
  obtain ⟨asked, _, run1, rfl, visits⟩ := exists_asked inv (false, 0) (calm false).2 (calm true).2
    (calm true).1 (target false) (idle false)
  have grows := grows_insertIps s false ((s.peers true).ipList.sort (· ≤ ·))
  obtain ⟨asked', t, run2, rfl, visits'⟩ := exists_asked (Grows.run inv run1).1 (true, 0)
    (calm true).2 (calm false).2 (calm false).1 (grows.target (target true)) (idle true)
  refine ⟨_, ⟨_, run1.trans run2, ?_⟩, ?_, ?_⟩
  · intro con made
    obtain ⟨v, here⟩ := Option.ne_none_iff_exists'.mp made
    obtain ⟨u, i⟩ := con
    obtain ⟨rfl, -⟩ := (target_pair (by rw [peers]) (by rw [peers'])).mp here
    cases u
    · exact visits.append [] asked'
    · simpa using visits'.append asked []
  · rw [peers_insertIps_of_ne _ Bool.false_ne_true, peers_insertIps_self, peers, peers',
      Finset.sort_singleton]
    rfl
  · rw [peers_insertIps_self, peers_insertIps_of_ne _ Bool.false_ne_true.symm, peers']
    rfl

/-- From a moment at which every HELLO has arrived, when every path over connections has a
path of `k` connections beside it: after `k` rounds in which no new peer was connected to,
the nodes know exactly the addresses they can know. -/
theorem rounds_converge {history : List (Discovery Node × Action Node)} {k : ℕ}
    (run : Run (Step wire messages world) (initial world) history s)
    (greeted : s.Greeted world)
    (near : ∀ u v, Relation.ReflTransGen (s.Asks world) u v → Within (s.Asks world) k u v)
    (rounds : Rounds (Round wire messages world) s k t)
    (same : ∀ u v, t.Asks world u v → s.Asks world u v) (u : Node) (ip : Bytes) :
    ip ∈ t.known u ↔ t.CanKnow world u ip := by
  have inv := run_inv run
  have inv' : Inv wire messages world t :=
    rounds.invariant inv fun _ _ good round => (round.inv good).1
  constructor
  · exact (inv'.node u).sound ip
  · intro canKnow
    have before : s.CanKnow world u ip := by
      apply canKnow.mono
      · rintro u ip (argument | ⟨w, asks, rfl⟩)
        · exact .inl argument
        · exact .inr ⟨w, same w u asks, rfl⟩
      · exact same
    obtain ⟨v, reached, there⟩ := canKnow_of_greeted run greeted before
    exact known_of_within inv rounds (near u v reached) there

theorem rounds_converge_pair :
    ∃ s t : Discovery Bool, s.known false = {[2]} ∧
      Rounds (Round .ofEncodable (.ofEncodable _) pair) s 1 t ∧ t.known false = {[2], [1]} ∧
      ∀ u ip, ip ∈ t.known u ↔ t.CanKnow pair u ip := by
  obtain ⟨history, s, run, peers, peers', idle, calm⟩ := run_pair .ofEncodable (.ofEncodable _)
  obtain ⟨t, round, learned, kept⟩ := round_pair (run_inv run) peers peers' idle calm
  have rounds : Rounds _ s 1 t := Rounds.zero.succ round
  have before {con : Link Bool} {v : Bool} :
      s.target pair con = some v ↔ con.2 = 0 ∧ v = !con.1 :=
    target_pair (by rw [peers]) (by rw [peers'])
  have asks (u : Bool) : s.Asks pair u (!u) := ⟨0, before.mpr ⟨rfl, rfl⟩⟩
  refine ⟨s, t, ?_, rounds, ?_, rounds_converge run ?_ ?_ rounds ?_⟩
  · ext ip
    simp [known, peers]
  · ext ip
    simp [known, learned]
  · intro con v here
    obtain ⟨-, rfl⟩ := before.mp here
    obtain ⟨u, i⟩ := con
    cases u
    · simp [peers', pair]
    · simp [peers, pair]
  · intro u v _
    by_cases here : v = u
    · subst here
      exact .here 1 v
    · obtain rfl : v = !u := by
        cases u <;> cases v <;> simp_all
      exact .edge (asks u) (.here 0 _)
  · rintro u v ⟨i, made⟩
    obtain ⟨-, rfl⟩ := (target_pair (by rw [learned]) kept).mp made
    exact asks u

end Pttp.Discovery
