import Pttp.Discovery.Invariant

/-!
# What a node knows, and what ends it

Every reply is of the kind that the other side expects, so a node ends by one of three things
only: a list of addresses that was sized too early, an address that ZMQ refuses in
EXPAND_CONNECTION, or another call of ZMQ that fails. Undisturbed, an expansion connects as
`Peers.expandConnection` says, and a HELLO and a REQ_IPS can be carried through.
-/

namespace Pttp.Discovery

open Messages Runs Spreading

variable {Node : Type} [DecidableEq Node] {wire : Wire} {messages : Codec Message}
  {world : World Node} {s t : Discovery Node}

/-! ## What ends a node -/

omit [DecidableEq Node] in
/-- The steps that end a node. -/
inductive Ends (u : Node) (s : Discovery Node) : Action Node → Prop where
  | listed {con : Link Node} {size : ℕ} (listing : s.serving u = .listing con size)
      (short : size < (s.peers u).ipList.card) : Ends u s (.list u)
  | refused {e : Expansion} {connects : Bool} (expanding : s.expansion u = some e)
      (refused : e.Refused connects) : Ends u s (.connect u connects)
  | socketErr : Ends u s (.socketErr u)

theorem exists_connected (wire : Wire) (messages : Codec Message) (world : World Node) {u : Node}
    {e : Expansion} (alive : s.fault u = none) (expanding : s.expansion u = some e) :
    ∃ history t, Run (Step wire messages world) s history t ∧
      t = (s.setPeers u { s.peers u with
        connections := expandLoop e.ipsTmp e.currentIps e.rounds e.ipIdx
          (s.peers u).connections }).setExpansion u none := by
  generalize left : e.rounds = n
  induction n generalizing s e with
  | zero =>
    have same : s.setPeers u { s.peers u with connections := (s.peers u).connections } = s := by
      simp only [setPeers, Function.update_eq_self]
    rw [expandLoop, same]
    exact ⟨_, _, Run.nil.snoc (.expanded s u e alive expanding left), rfl⟩
  | succ n ih =>
    have connected : Run (Step wire messages world) s _ (s.after u (s.connect true u e)) :=
      Run.nil.snoc (.connect s u e true alive expanding (by omega))
    rcases connect_cases true u e s with ⟨⟨-, no⟩, -⟩ | ⟨-, made⟩
    · cases no
    rw [made, after_ok] at connected
    generalize reached : (s.setPeers u _).setExpansion u (some e.next) = t at connected
    have expanding' : t.expansion u = some e.next := by
      rw [← reached]
      exact Function.update_self ..
    have rounds : e.next.rounds = n := by
      show e.rounds - 1 = n
      omega
    obtain ⟨history, t', rest, rfl⟩ := ih (s := t) (by rw [← reached]; exact alive) expanding'
      rounds
    refine ⟨_, _, connected.trans rest, ?_⟩
    have loop := expandLoop_next left (s.peers u).connections
    rw [left, rounds] at loop
    rw [loop, ← reached]
    simp only [setPeers, setExpansion, Function.update_self, Function.update_idem]

variable (world s) in
/-- Undisturbed, EXPAND_CONNECTION does what `Peers.expandConnection` says. -/
theorem exists_expanded (wire : Wire) (messages : Codec Message) (u : Node)
    (ipsTmp : List Bytes) (alive : s.fault u = none) (free : s.expansion u = none)
    (shuffled : ipsTmp.Perm ((s.peers u).ipList.sort (· ≤ ·))) :
    ∃ history t, Run (Step wire messages world) s history t ∧
      t = s.setPeers u ((s.peers u).expandConnection (world.myIp u) ipsTmp) := by
  have begun : Run (Step wire messages world) s _ _ :=
    Run.nil.snoc (.expand s u ipsTmp alive free shuffled)
  obtain ⟨history, t, rest, rfl⟩ := exists_connected wire messages world
    (s := s.setExpansion u (some ((s.peers u).expansion (world.myIp u) ipsTmp))) alive
    (Function.update_self ..)
  refine ⟨_, _, begun.trans rest, ?_⟩
  have same : Function.update s.expansion u none = s.expansion := by
    rw [← free, Function.update_eq_self]
  simp only [setPeers, setExpansion, Function.update_idem, same]
  rfl

omit [DecidableEq Node] in
theorem address_ne_none_of_target {con : Link Node} {v : Node}
    (here : s.target world con = some v) : s.address con ≠ none := by
  obtain ⟨ip, there, -⟩ := Option.bind_eq_some_iff.mp here
  rw [there]
  exact Option.some_ne_none ip

variable (world s) in
theorem exists_greeted (wire : Wire) (messages : Codec Message) (con : Link Node) (v : Node)
    (alive : s.fault con.1 = none) (alive' : s.fault v = none)
    (receiving : s.serving v = .receiving) (here : s.target world con = some v)
    (starting : s.exchange con = .starting) :
    ∃ history t, Run (Step wire messages world) s history t ∧
      t = (s.insertIps v [world.myIp con.1]).setExchange con .idle := by
  have started : Run (Step wire messages world) s _ _ :=
    Run.nil.snoc (.start s con alive (address_ne_none_of_target here) starting)
  have sent := started.snoc (.send _ con ⟨.hello, []⟩ _ alive (setExchange_self _ con _)
    (by simp [Discovery.add, setExchange]) rfl)
  have received := sent.snoc (.receive _ con v _ _ .welcome alive' receiving
    (setExchange_self _ con _) here)
  rw [serve_hello, after_ok] at received
  have finished := received.snoc (.finish _ con _ _ alive (setExchange_self _ con _))
  refine ⟨_, _, finished, ?_⟩
  have whole := Bytes.ofCString_of_notMem (world.cStrings con.1 _ List.mem_cons_self)
  simp only [Discovery.finish, whole, Discovery.add, pop, setExchange, insertIps, setPeers,
    Function.update_self, Function.update_idem, Multiset.erase_cons_head, Function.update_eq_self]
  rfl

theorem exists_requested (wire : Wire) (messages : Codec Message) {con : Link Node} {v : Node}
    (alive : s.fault con.1 = none) (here : s.target world con = some v)
    (idle : s.exchange con = .idle) :
    ∃ history t, Run (Step wire messages world) s history t ∧
      t = s.setExchange con (.request ⟨.reqIps, []⟩ (messages.write ⟨.getPeers⟩)) ∧
      ∃ visit ∈ history, visit.2 = .send con ⟨.reqIps, []⟩ := by
  have asked : Run (Step wire messages world) s _ _ :=
    Run.nil.snoc (.request s con ⟨.reqIps, []⟩ alive (address_ne_none_of_target here) (.inl rfl))
  have sent := asked.snoc (.send _ con ⟨.reqIps, []⟩ _ alive idle (by simp [Discovery.add]) rfl)
  refine ⟨_, _, sent, ?_, _, List.mem_append_right _ (List.mem_singleton_self _), rfl⟩
  simp only [Discovery.add, pop, setExchange, Function.update_self, Function.update_idem,
    Multiset.erase_cons_head, Function.update_eq_self]

theorem Inv.exists_listed (inv : Inv wire messages world s) {con : Link Node} {v : Node}
    (alive : s.fault v = none) (receiving : s.serving v = .receiving)
    (here : s.target world con = some v)
    (requested : s.exchange con = .request ⟨.reqIps, []⟩ (messages.write ⟨.getPeers⟩)) :
    ∃ history t, Run (Step wire messages world) s history t ∧
      t = s.setExchange con (.replied ⟨.reqIps, []⟩
        (wire.pack (Reply.ipList ((s.peers v).ipList.sort (· ≤ ·))).object)) := by
  have received : Run (Step wire messages world) s _ _ :=
    Run.nil.snoc (.receive s con v _ _ .welcome alive receiving requested here)
  rw [serve_getPeers, after_ok] at received
  have good := received.invariant inv fun _ _ _ => Inv.step
  have listing : (s.setServing v (.listing con (s.peers v).ipList.card)).serving v =
      .listing con (s.peers v).ipList.card := Function.update_self ..
  have listed := received.snoc (.list _ v con _ _ _ alive listing requested)
  rw [good.list_eq listing] at listed
  split at listed
  case isTrue short => exact absurd short (lt_irrefl _)
  refine ⟨_, _, listed, ?_⟩
  simp only [setServing, setExchange, Function.update_idem, ← receiving, Function.update_eq_self]

theorem finish_reply (con : Link Node) {ips : List Bytes} (noNul : ∀ ip ∈ ips, 0 ∉ ip)
    (s : Discovery Node) :
    s.finish wire con ⟨.reqIps, []⟩ (wire.pack (Reply.ipList ips).object) =
      .ok ((s.setExchange con .idle).insertIps con.1 ips) := by
  unfold Discovery.finish
  simp only [readIps_reply, Cpp.ok_bind, map_ofCString noNul]
  rfl

/-! ### Two nodes -/

/-- The one was given the address at which the other listens. -/
def pair : World Bool where
  myIp u := if u then [2] else [1]
  argv u := if u then [] else [[2]]
  listener ip := if ip = [1] then some false else if ip = [2] then some true else none
  cStrings := by decide

theorem run_pair (wire : Wire) (messages : Codec Message) :
    ∃ history s, Run (Step wire messages pair) (initial pair) history s ∧
      s.peers false = ⟨{[2]}, [[2]]⟩ ∧ s.peers true = ⟨{[1]}, [[1]]⟩ ∧
      (∀ u, s.exchange (u, 0) = .idle) ∧ ∀ u, s.serving u = .receiving ∧ s.fault u = none := by
  have connected (ip other : Bytes) (nonempty : ip ≠ []) (apart : ip ≠ other) :
      Peers.expandConnection other ⟨{ip}, []⟩ [ip] = ⟨{ip}, [ip]⟩ := by
    rw [expandConnection_eq]
    simp [picks, Peers.nNew, nConn, nonempty, apart]
  have sorted (ip : Bytes) : [ip].Perm (({ip} : Finset Bytes).sort (· ≤ ·)) := by
    rw [Finset.sort_singleton]
  have ip0 : pair.myIp false = [1] := rfl
  have ip1 : pair.myIp true = [2] := rfl
  have listener0 : pair.listener [1] = some false := rfl
  have listener1 : pair.listener [2] = some true := rfl
  have peers0 : (initial pair).peers = fun u => if u then ⟨∅, []⟩ else ⟨{[2]}, []⟩ := by
    funext u
    cases u
    · simp [initial, pair, Peers.insertIps, Peers.none]
    · simp [initial, pair, Peers.insertIps, Peers.none]
  obtain ⟨_, s1, run1, at1⟩ := exists_expanded pair (initial pair) wire messages false
    [[2]] rfl rfl (by simpa only [peers0, Bool.false_eq_true, if_false] using sorted [2])
  have peers1 : s1.peers = fun u => if u then ⟨∅, []⟩ else ⟨{[2]}, [[2]]⟩ := by
    rw [at1]
    funext u
    cases u
    · simp [setPeers, peers0, ip0, connected]
    · simp [setPeers, peers0]
  obtain ⟨_, s2, run2, at2⟩ := exists_greeted pair s1 wire messages (false, 0) true
    (by rw [at1]; rfl) (by rw [at1]; rfl) (by rw [at1]; rfl)
    (by simp [target, address, peers1, listener1]) (by rw [at1]; rfl)
  have peers2 : s2.peers = fun u => if u then ⟨{[1]}, []⟩ else ⟨{[2]}, [[2]]⟩ := by
    rw [at2]
    funext u
    cases u
    · simp [setExchange, insertIps, setPeers, peers1]
    · simp [setExchange, insertIps, setPeers, peers1, Peers.insertIps, ip0]
  obtain ⟨_, s3, run3, at3⟩ := exists_expanded pair s2 wire messages
    true [[1]] (by rw [at2, at1]; rfl) (by rw [at2, at1]; rfl)
    (by simpa only [peers2, if_true] using sorted [1])
  have peers3 : s3.peers = fun u => if u then ⟨{[1]}, [[1]]⟩ else ⟨{[2]}, [[2]]⟩ := by
    rw [at3]
    funext u
    cases u
    · simp [setPeers, peers2]
    · simp [setPeers, peers2, ip1, connected]
  obtain ⟨_, s4, run4, at4⟩ := exists_greeted pair s3 wire messages (true, 0) false
    (by rw [at3, at2, at1]; rfl) (by rw [at3, at2, at1]; rfl)
    (by rw [at3, at2, at1]; rfl) (by simp [target, address, peers3, listener0])
    (by rw [at3, at2, at1]; rfl)
  refine ⟨_, s4, ((run1.trans run2).trans run3).trans run4, ?_, ?_, ?_, ?_⟩
  · rw [at4]
    simp [setExchange, insertIps, setPeers, peers3, Peers.insertIps, ip1]
  · rw [at4]
    simp [setExchange, insertIps, setPeers, peers3]
  · rw [at4, at3, at2, at1]
    intro u
    cases u
    · rfl
    · rfl
  · rw [at4, at3, at2, at1]
    exact fun u => ⟨rfl, rfl⟩

end Pttp.Discovery
