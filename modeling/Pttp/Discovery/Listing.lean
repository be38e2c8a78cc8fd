import Pttp.Discovery.Knowledge

/-!
# A list that outgrows its size

GET_PEERS reads the size of the list, and takes the lock after that. HELLO is answered by
the same thread and cannot come between, but the thread of a connection can: a reply to
REQ_IPS that brings a new address there makes the list longer than its room.
-/

namespace Pttp.Discovery

open Messages Runs Spreading

variable {Node : Type} {wire : Wire} {messages : Codec Message} {world : World Node}
  {s t : Discovery Node}

/-- No node has written behind a list, and every list that is to be filled in has room for all
addresses. -/
def ListsFit (s : Discovery Node) : Prop :=
  ∀ v, s.fault v ≠ some .pastEnd ∧
    ∀ con size, s.serving v = .listing con size → (s.peers v).ipList.card ≤ size

variable (wire) in
/-- The condition on a step: a list of addresses that is read while the node is about to fill
in its own holds none that the node does not know. -/
def Uncrossed (s : Discovery Node) : Action Node → Prop
  | .finish con => ∀ task result ips, s.exchange con = .replied task result →
      task.type = .reqIps → readIps wire result = .ok ips →
      s.serving con.1 = .receiving ∨ ∀ ip ∈ ips, ip ∈ (s.peers con.1).ipList
  | _ => True

theorem ListsFit.of_eq (fit : s.ListsFit) (ipList : ∀ v, (t.peers v).ipList = (s.peers v).ipList)
    (serving : ∀ v, t.serving v = s.serving v ∨ t.serving v = .receiving)
    (fault : ∀ v, t.fault v = s.fault v ∨ t.fault v = some .thrown) : t.ListsFit := by
  intro v
  refine ⟨?_, ?_⟩
  · rcases fault v with same | thrown
    · exact same ▸ (fit v).1
    · rw [thrown]
      decide
  intro con size listing
  rw [ipList]
  rcases serving v with same | receiving
  · exact (fit v).2 con size (same ▸ listing)
  · cases receiving.symm.trans listing

variable [DecidableEq Node]

theorem ListsFit.ended (fit : s.ListsFit) (u : Node) : (s.after u (.error .thrown)).ListsFit := by
  refine fit.of_eq (fun _ => rfl) (fun _ => .inl rfl) fun v => ?_
  by_cases here : v = u
  · subst here
    exact .inr (Function.update_self ..)
  · exact .inl (Function.update_of_ne here ..)

theorem Inv.insertIps_fit_iff (inv : Inv wire messages world s) (fit : s.ListsFit) (u : Node)
    (ips : List Bytes) :
    (s.insertIps u ips).ListsFit ↔
      s.serving u = .receiving ∨ ∀ ip ∈ ips, ip ∈ (s.peers u).ipList := by
  cases serving : s.serving u with
  | receiving =>
    refine iff_of_true ?_ (.inl rfl)
    intro v
    refine ⟨(fit v).1, ?_⟩
    intro con size listing
    have other : v ≠ u := by
      rintro rfl
      cases serving.symm.trans listing
    rw [peers_insertIps_of_ne s other]
    exact (fit v).2 con size listing
  | listing con size =>
    have sized : (s.peers u).ipList.card = size :=
      le_antisymm ((fit u).2 con size serving) ((inv.node u).listing con size serving).2.2
    have known : (∀ ip ∈ ips, ip ∈ (s.peers u).ipList) ↔ ips.toFinset ⊆ (s.peers u).ipList := by
      simp only [Finset.subset_iff, List.mem_toFinset]
    simp only [reduceCtorEq, false_or, known]
    constructor
    · intro fits
      have room := (fits u).2 con size serving
      rw [peers_insertIps_self, Peers.insertIps, ← sized] at room
      exact Finset.union_eq_left.mp
        (Finset.eq_of_subset_of_card_le Finset.subset_union_left room).symm
    · intro nothing
      refine fit.of_eq ?_ (fun _ => .inl rfl) fun _ => .inl rfl
      intro v
      by_cases here : v = u
      · subst here
        rw [peers_insertIps_self, Peers.insertIps]
        exact Finset.union_eq_left.mpr nothing
      · rw [peers_insertIps_of_ne s here]

theorem Inv.finish_fit_iff (inv : Inv wire messages world s) (fit : s.ListsFit) {con : Link Node}
    {task : Task} {result : Bytes} (replied : s.exchange con = .replied task result) :
    (s.after con.1 (s.finish wire con task result)).ListsFit ↔ Uncrossed wire s (.finish con) := by
  obtain ⟨ips, -, ended, same, other⟩ := inv.finish_eq replied
  -- the exchange plays no part in whether lists fit
  have exchanged : ((s.setExchange con .idle).insertIps con.1 ips).ListsFit ↔
      (s.insertIps con.1 ips).ListsFit := Iff.rfl
  rw [ended, exchanged, inv.insertIps_fit_iff fit]
  constructor
  · intro fits task' result' ips' replied' asked read
    obtain ⟨rfl, rfl⟩ := Exchange.replied.inj (replied.symm.trans replied')
    rw [same asked, readIps_reply] at read
    exact Except.ok.inj read ▸ fits
  · intro uncrossed
    by_cases asked : task.type = .reqIps
    · refine uncrossed task result ips replied asked ?_
      rw [same asked, readIps_reply]
    · rw [other asked]
      exact .inr (List.forall_mem_nil _)

theorem Inv.listsFit_step {a : Action Node} (inv : Inv wire messages world s) (fit : s.ListsFit)
    (taken : Step wire messages world s a t) : t.ListsFit ↔ Uncrossed wire s a := by
  cases taken with
  | start con alive made starting =>
    exact iff_of_true (fit.of_eq (fun _ => rfl) (fun _ => .inl rfl) fun _ => .inl rfl) trivial
  | request con task alive made queued =>
    exact iff_of_true (fit.of_eq (fun _ => rfl) (fun _ => .inl rfl) fun _ => .inl rfl) trivial
  | expand u ipsTmp alive free shuffled =>
    exact iff_of_true (fit.of_eq (fun _ => rfl) (fun _ => .inl rfl) fun _ => .inl rfl) trivial
  | expanded u e alive expanding last =>
    exact iff_of_true (fit.of_eq (fun _ => rfl) (fun _ => .inl rfl) fun _ => .inl rfl) trivial
  | connect u e connects alive expanding more =>
    refine iff_of_true ?_ trivial
    rcases connect_cases connects u e s with ⟨-, thrown⟩ | ⟨-, connected⟩
    · rw [thrown]
      exact fit.ended u
    · rw [connected]
      exact fit.of_eq (ipList_append s u _ _) (fun _ => .inl rfl) fun _ => .inl rfl
  | socketErr u alive => exact iff_of_true (fit.ended u) trivial
  | send con task data alive idle waiting sent =>
    exact iff_of_true (fit.of_eq (fun _ => rfl) (fun _ => .inl rfl) fun _ => .inl rfl) trivial
  | receive con v task data other alive receiving requested here =>
    refine iff_of_true ?_ trivial
    rcases (inv.link con).serve_eq requested other v with
      ⟨-, served⟩ | ⟨-, served⟩ | ⟨-, served⟩
    · rw [served]
      exact (inv.insertIps_fit_iff fit v _).mpr (.inl receiving)
    · rw [served]
      intro w
      refine ⟨(fit w).1, ?_⟩
      intro con' size listing
      by_cases same : w = v
      · subst same
        have sized : (s.setServing w (.listing con (s.peers w).ipList.card)).serving w =
            .listing con (s.peers w).ipList.card := Function.update_self ..
        exact (ServeThread.listing.inj (sized.symm.trans listing)).2.le
      · exact (fit w).2 con' size ((Function.update_of_ne same ..).symm.trans listing)
    · rw [served]
      exact fit.of_eq (fun _ => rfl) (fun _ => .inl rfl) fun _ => .inl rfl
  | list v con size task data alive listing requested =>
    refine iff_of_true ?_ trivial
    rw [inv.list_eq listing, if_neg (not_lt.mpr ((fit v).2 con size listing))]
    refine fit.of_eq (fun _ => rfl) (fun w => ?_) fun _ => .inl rfl
    by_cases same : w = v
    · subst same
      exact .inr (Function.update_self ..)
    · exact .inl (Function.update_of_ne same ..)
  | finish con task result alive replied => exact inv.finish_fit_iff fit replied

theorem run_pair_replied (wire : Wire) (messages : Codec Message) :
    ∃ history s, Run (Step wire messages pair) (initial pair) history s ∧
      s.peers false = ⟨{[2]}, [[2]]⟩ ∧ s.peers true = ⟨{[1]}, [[1]]⟩ ∧
      s.exchange (false, 0) = .replied ⟨.reqIps, []⟩ (wire.pack (Reply.ipList [[1]]).object) ∧
      s.exchange (true, 0) = .idle ∧ ∀ u, s.serving u = .receiving ∧ s.fault u = none := by
  obtain ⟨_, s, run, peers, peers', idle, calm⟩ := run_pair wire messages
  have target : s.target pair (false, 0) = some true := by
    rw [Discovery.target, address, peers]
    rfl
  have apart : ((true, 0) : Link Bool) ≠ (false, 0) := by decide
  obtain ⟨_, s1, run1, at1, -⟩ := exists_requested wire messages (s := s) (calm false).2 target
    (idle false)
  have requested : s1.exchange (false, 0) = _ := at1 ▸ setExchange_self ..
  have waiting : s1.exchange (true, 0) = .idle :=
    at1 ▸ (setExchange_of_ne _ apart _).trans (idle true)
  obtain ⟨_, s2, run2, at2⟩ := (run_inv (run.trans run1)).exists_listed (v := true)
    (by rw [at1]; exact (calm true).2) (by rw [at1]; exact (calm true).1)
    (by rw [at1]; exact target) requested
  refine ⟨_, s2, (run.trans run1).trans run2, ?_, ?_, ?_, ?_, ?_⟩
  · rw [at2, at1]
    exact peers
  · rw [at2, at1]
    exact peers'
  · have list : (s1.peers true).ipList.sort (· ≤ ·) = [[1]] := by
      rw [at1]
      show (s.peers true).ipList.sort (· ≤ ·) = [[1]]
      rw [peers', Finset.sort_singleton]
    rw [at2, setExchange_self, list]
  · rw [at2, setExchange_of_ne _ apart]
    exact waiting
  · rw [at2, at1]
    exact calm

/-- A node sizes its list for the other, and reads a reply of its own before it fills the list. -/
theorem run_crossed (wire : Wire) (messages : Codec Message) :
    ∃ history t, Run (Step wire messages pair) (initial pair) history t ∧
      t.fault false = some .pastEnd := by
  obtain ⟨_, s, run, peers, peers', replied, idle, calm⟩ := run_pair_replied wire messages
  have target : s.target pair (true, 0) = some false := by
    rw [Discovery.target, address, peers']
    rfl
  have apart : ((false, 0) : Link Bool) ≠ (true, 0) := by decide
  obtain ⟨_, s1, run1, at1, -⟩ := exists_requested wire messages (s := s) (calm true).2 target idle
  have requested : s1.exchange (true, 0) = _ := at1 ▸ setExchange_self ..
  have replied1 := at1 ▸ (setExchange_of_ne s apart _).trans replied
  have sized := (run.trans run1).snoc (.receive s1 (true, 0) false _ _ .welcome
    (by rw [at1]; exact (calm false).2) (by rw [at1]; exact (calm false).1) requested
    (by rw [at1]; exact target))
  rw [serve_getPeers, after_ok] at sized
  have crossed := sized.snoc (.finish _ (false, 0) _ _ (by rw [at1]; exact (calm false).2) replied1)
  rw [finish_reply _ (by decide), after_ok] at crossed
  have listing : (((s1.setServing false
      (.listing (true, 0) (s1.peers false).ipList.card)).setExchange
        (false, 0) .idle).insertIps false [[1]]).serving false =
        .listing (true, 0) (s1.peers false).ipList.card := rfl
  have listed := crossed.snoc (.list _ false (true, 0) _ _ _ (by rw [at1]; exact (calm false).2)
    listing requested)
  have known : (s1.peers false).ipList = {[2]} := by
    rw [at1]
    exact congrArg Peers.ipList peers
  have short : (s1.peers false).ipList.card < (((s1.setServing false (.listing (true, 0)
      (s1.peers false).ipList.card)).setExchange (false, 0) .idle |>.insertIps false
        [[1]]).peers false).ipList.card := by
    rw [peers_insertIps_self]
    show (s1.peers false).ipList.card < ((s1.peers false).ipList ∪ {[1]}).card
    rw [known]
    decide
  rw [(run_inv crossed).list_eq listing, if_pos short] at listed
  exact ⟨_, _, listed, rfl⟩

/-- In whatever order the threads take their steps: no node has written behind a list and every
list that is being filled in has its room, all along a run, exactly when no node reads a new
address from a reply between the size of its own list and the lock. -/
theorem run_listsFit_iff {history : List (Discovery Node × Action Node)}
    (run : Run (Step wire messages world) (initial world) history t) :
    Holds ListsFit history t ↔ Meets (Uncrossed wire) history := by
  have sharp (s : Discovery Node) (a : Action Node) (t : Discovery Node)
      (good : Inv wire messages world s ∧ s.ListsFit) (taken : Step wire messages world s a t) :
      Inv wire messages world t ∧ t.ListsFit ↔ Uncrossed wire s a := by
    rw [and_iff_right (good.1.step taken)]
    exact good.1.listsFit_step good.2 taken
  have initially : (initial world).ListsFit := fun v => ⟨nofun, nofun⟩
  have always (history : List (Discovery Node × Action Node)) (t : Discovery Node)
      (run : Run (Step wire messages world) (initial world) history t) :
      Inv wire messages world t := run_inv run
  rw [← run.holds_and_iff always]
  exact run.holds_iff ⟨inv_initial wire messages world, initially⟩ sharp

theorem run_listsFit_iff_crossed :
    ∃ history, ∃ t : Discovery Bool, Run (Step .ofEncodable (.ofEncodable _) pair) (initial pair)
      history t ∧ t.fault false = some .pastEnd ∧ ¬ Meets (Uncrossed .ofEncodable) history := by
  obtain ⟨history, t, run, written⟩ := run_crossed .ofEncodable (.ofEncodable _)
  refine ⟨history, t, run, written, fun uncrossed => ?_⟩
  have fit := ((run_listsFit_iff run).mpr uncrossed).2
  exact (fit false).1 written

end Pttp.Discovery
