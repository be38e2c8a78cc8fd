import Pttp.Discovery

/-!
# What a node can know

The addresses of a node stem from its arguments, from the HELLO of a node that connected
to it, or from the list of a node it connected to: `CanKnow` is the closure of that over
the connections there are. The invariant says so of every list, those on their way
included, and that every request and every reply is of the kind that the other side
expects.
-/

namespace Pttp.Discovery

open Messages Runs Spreading

variable {Node : Type} {wire : Wire} {messages : Codec Message}
  {world : World Node} {s t : Discovery Node}

section Definitions

variable (world) (s)

def Asks (u w : Node) : Prop := ∃ i, s.target world (u, i) = some w

def given (u : Node) : Set Bytes :=
  {ip | ip ∈ world.argv u ∨ ∃ w, s.Asks world w u ∧ ip = world.myIp w}

def known (u : Node) : Set Bytes := {ip | ip ∈ (s.peers u).ipList}

def CanKnow (u : Node) (ip : Bytes) : Prop := Learned (s.given world) (s.Asks world) u ip

/-- The HELLO of a connection waits for its thread, in the queue or at the peer; or the peer
has the address of the node. -/
def Announced (con : Link Node) : Prop :=
  s.exchange con = .starting ∨ ⟨.hello, []⟩ ∈ s.queue con ∨
    (∃ data, s.exchange con = .request ⟨.hello, []⟩ data) ∨
    ∃ v, s.target world con = some v ∧ world.myIp con.1 ∈ (s.peers v).ipList

end Definitions

variable (messages) in
def Proper (task : Task) : Prop := task = ⟨.hello, []⟩ ∨ Queued messages task

variable (wire messages world) in
structure LinkInv (s : Discovery Node) (con : Link Node) : Prop where
  made : s.exchange con ≠ .starting → s.address con ≠ none
  proper : ∀ task ∈ s.queue con, Proper messages task
  requested : ∀ task data, s.exchange con = .request task data →
    Proper messages task ∧ requestFor messages (world.myIp con.1) task = some data
  replied : ∀ task result, s.exchange con = .replied task result → task.type = .reqIps →
    ∃ ips, result = wire.pack (Reply.ipList ips).object ∧ ∀ ip ∈ ips, s.CanKnow world con.1 ip
  announced : s.address con ≠ none → s.Announced world con

variable (world) in
structure NodeInv (s : Discovery Node) (v : Node) : Prop where
  sound : ∀ ip ∈ (s.peers v).ipList, s.CanKnow world v ip
  listing : ∀ con size, s.serving v = .listing con size → s.target world con = some v ∧
    (∃ task data, s.exchange con = .request task data ∧ task.type = .reqIps) ∧
    size ≤ (s.peers v).ipList.card

variable (wire messages world) in
structure Inv (s : Discovery Node) : Prop where
  link : ∀ con, LinkInv wire messages world s con
  node : ∀ v, NodeInv world s v

/-! ## Growth -/

structure Grows (s t : Discovery Node) : Prop where
  connections : ∀ u, (s.peers u).connections <+: (t.peers u).connections
  ipList : ∀ u, (s.peers u).ipList ⊆ (t.peers u).ipList

theorem Grows.of_peers_eq (same : t.peers = s.peers) : Grows s t :=
  ⟨fun u => by rw [same], fun u => by rw [same]⟩

theorem Grows.trans {s' : Discovery Node} (first : Grows s s') (second : Grows s' t) :
    Grows s t :=
  ⟨fun u => (first.connections u).trans (second.connections u),
    fun u => (first.ipList u).trans (second.ipList u)⟩

theorem Grows.address (grows : Grows s t) {con : Link Node} {ip : Bytes}
    (made : s.address con = some ip) : t.address con = some ip := by
  obtain ⟨more, whole⟩ := grows.connections con.1
  obtain ⟨inside, -⟩ := List.getElem?_eq_some_iff.mp made
  unfold Discovery.address
  rw [← whole, List.getElem?_append_left inside]
  exact made

theorem Grows.address_ne_none (grows : Grows s t) {con : Link Node} (made : s.address con ≠ none) :
    t.address con ≠ none := by
  obtain ⟨ip, there⟩ := Option.ne_none_iff_exists'.mp made
  rw [grows.address there]
  exact Option.some_ne_none ip

theorem Grows.target (grows : Grows s t) {con : Link Node} {v : Node}
    (made : s.target world con = some v) : t.target world con = some v := by
  obtain ⟨ip, there, listens⟩ := Option.bind_eq_some_iff.mp made
  unfold Discovery.target
  rw [grows.address there]
  exact listens

theorem Grows.asks (grows : Grows s t) {u w : Node} (asks : s.Asks world u w) :
    t.Asks world u w := by
  obtain ⟨i, made⟩ := asks
  exact ⟨i, grows.target made⟩

theorem Grows.canKnow (grows : Grows s t) {u : Node} {ip : Bytes} (canKnow : s.CanKnow world u ip) :
    t.CanKnow world u ip := by
  apply canKnow.mono
  · rintro u ip (argument | ⟨w, asks, rfl⟩)
    · exact .inl argument
    · exact .inr ⟨w, grows.asks asks, rfl⟩
  · exact fun u w => grows.asks

theorem map_ofCString {ips : List Bytes} (noNul : ∀ ip ∈ ips, 0 ∉ ip) :
    ips.map Bytes.ofCString = ips := by
  conv_rhs => rw [← List.map_id ips]
  apply List.map_congr_left
  intro ip member
  exact Bytes.ofCString_of_notMem (noNul ip member)

theorem zero_notMem_of_canKnow {u : Node} {ip : Bytes} (canKnow : s.CanKnow world u ip) :
    0 ∉ ip := by
  obtain ⟨w, -, argument | ⟨x, -, rfl⟩⟩ := learned_iff_reachable.mp canKnow
  · exact world.cStrings w ip (List.mem_cons_of_mem _ argument)
  · exact world.cStrings x _ List.mem_cons_self

theorem Announced.mono {con : Link Node} (announced : s.Announced world con) (grows : Grows s t)
    (queue : t.queue con = s.queue con) (exchange : t.exchange con = s.exchange con) :
    t.Announced world con := by
  unfold Announced
  rw [queue, exchange]
  rcases announced with starting | waiting | sent | ⟨v, made, there⟩
  · exact .inl starting
  · exact .inr (.inl waiting)
  · exact .inr (.inr (.inl sent))
  · exact .inr (.inr (.inr ⟨v, grows.target made, grows.ipList v there⟩))

theorem LinkInv.mono {con : Link Node} (inv : LinkInv wire messages world s con)
    (grows : Grows s t) (queue : t.queue con = s.queue con)
    (exchange : t.exchange con = s.exchange con) : LinkInv wire messages world t con where
  made moved := grows.address_ne_none (inv.made (exchange ▸ moved))
  proper := queue ▸ inv.proper
  requested := exchange ▸ inv.requested
  replied task result was ips := by
    rw [exchange] at was
    obtain ⟨list, same, all⟩ := inv.replied task result was ips
    exact ⟨list, same, fun ip member => grows.canKnow (all ip member)⟩
  announced _ := by
    by_cases made : s.address con = none
    · refine .inl ?_
      rw [exchange]
      by_contra moved
      exact inv.made moved made
    · exact (inv.announced made).mono grows queue exchange

theorem NodeInv.mono {v : Node} (inv : NodeInv world s v) (grows : Grows s t)
    (ipList : (t.peers v).ipList = (s.peers v).ipList) (serving : t.serving v = s.serving v)
    (exchange : ∀ con size, s.serving v = .listing con size → t.exchange con = s.exchange con) :
    NodeInv world t v where
  sound ip member := grows.canKnow (inv.sound ip (ipList ▸ member))
  listing con size was := by
    rw [serving] at was
    obtain ⟨made, requested, room⟩ := inv.listing con size was
    rw [exchange con size was, ipList]
    exact ⟨grows.target made, requested, room⟩

/-- A connection whose peer is filling in a list waits for it. -/
theorem Inv.not_listed (inv : Inv wire messages world s) {con : Link Node}
    (between : ∀ task data, s.exchange con ≠ .request task data) (v : Node) (size : ℕ) :
    s.serving v ≠ .listing con size := by
  intro was
  obtain ⟨-, ⟨task, data, requested, -⟩, -⟩ := (inv.node v).listing con size was
  exact between task data requested

/-- A step that concerns one connection, whose peer is not filling in a list for it. -/
theorem Inv.of_link (inv : Inv wire messages world s) (con : Link Node) (grows : Grows s t)
    (queue : ∀ other, other ≠ con → t.queue other = s.queue other)
    (exchange : ∀ other, other ≠ con → t.exchange other = s.exchange other)
    (serving : ∀ v, t.serving v = s.serving v ∨ t.serving v = .receiving)
    (unlisted : t.exchange con = s.exchange con ∨ ∀ v size, t.serving v ≠ .listing con size)
    (link : LinkInv wire messages world t con)
    (sound : ∀ v, ∀ ip ∈ (t.peers v).ipList, t.CanKnow world v ip) :
    Inv wire messages world t := by
  constructor
  · intro other
    by_cases here : other = con
    · exact here ▸ link
    · exact (inv.link other).mono grows (queue other here) (exchange other here)
  · intro v
    refine ⟨sound v, ?_⟩
    intro other size was
    have before : s.serving v = .listing other size := by
      rcases serving v with same | receiving
      · exact same ▸ was
      · cases receiving.symm.trans was
    have kept : t.exchange other = s.exchange other := by
      by_cases here : other = con
      · subst here
        exact unlisted.resolve_right fun none => none v size was
      · exact exchange other here
    obtain ⟨made, requested, room⟩ := (inv.node v).listing other size before
    rw [kept]
    exact ⟨grows.target made, requested, room.trans (Finset.card_le_card (grows.ipList v))⟩

theorem Inv.not_listed_elsewhere (inv : Inv wire messages world s) {con : Link Node} {v : Node}
    (here : s.target world con = some v) {w : Node} {size : ℕ}
    (listing : s.serving w = .listing con size) : w = v := by
  have there := ((inv.node w).listing con size listing).1
  exact Option.some.inj (there.symm.trans here)

/-! ## The steps of a connection -/

variable [DecidableEq Node]

@[simp] theorem after_ok (s : Discovery Node) (u : Node) (t : Discovery Node) :
    s.after u (.ok t) = t := rfl

theorem setExchange_self (s : Discovery Node) (con : Link Node) (e : Exchange) :
    (s.setExchange con e).exchange con = e := Function.update_self ..

theorem setExchange_of_ne (s : Discovery Node) {con other : Link Node} (apart : con ≠ other)
    (e : Exchange) : (s.setExchange other e).exchange con = s.exchange con :=
  Function.update_of_ne apart ..

theorem peers_insertIps_self (s : Discovery Node) (u : Node) (ips : List Bytes) :
    (s.insertIps u ips).peers u = (s.peers u).insertIps ips := Function.update_self ..

theorem peers_insertIps_of_ne (s : Discovery Node) {u w : Node} (other : w ≠ u)
    (ips : List Bytes) : (s.insertIps u ips).peers w = s.peers w := Function.update_of_ne other ..

theorem mem_insertIps {u w : Node} {ips : List Bytes} {ip : Bytes} :
    ip ∈ ((s.insertIps u ips).peers w).ipList ↔ ip ∈ (s.peers w).ipList ∨ w = u ∧ ip ∈ ips := by
  by_cases here : w = u
  · subst here
    rw [peers_insertIps_self, Peers.insertIps, Finset.mem_union, List.mem_toFinset]
    simp
  · rw [peers_insertIps_of_ne s here]
    simp [here]

theorem grows_insertIps (s : Discovery Node) (u : Node) (ips : List Bytes) :
    Grows s (s.insertIps u ips) := by
  constructor
  · intro w
    by_cases here : w = u
    · subst here
      rw [peers_insertIps_self]
      exact List.prefix_rfl
    · rw [peers_insertIps_of_ne s here]
  · intro w ip member
    exact mem_insertIps.mpr (.inl member)

theorem connect_cases (connects : Bool) (u : Node) (e : Expansion) (s : Discovery Node) :
    (e.Refused connects ∧ s.connect connects u e = .error .thrown) ∨
      ¬ e.Refused connects ∧ s.connect connects u e =
        .ok ((s.setPeers u { s.peers u with
          connections := (s.peers u).connections ++ [e.newIp].filter (· ≠ []) }).setExpansion u
            (some e.next)) := by
  unfold connect
  by_cases refused : e.Refused connects
  · rw [connect_of_refused refused]
    exact .inl ⟨refused, rfl⟩
  · rw [connect_of_not_refused refused]
    exact .inr ⟨refused, rfl⟩

theorem ipList_append (s : Discovery Node) (u : Node) (added : List Bytes)
    (e : Option Expansion) (v : Node) :
    (((s.setPeers u { s.peers u with
      connections := (s.peers u).connections ++ added }).setExpansion u e).peers v).ipList =
        (s.peers v).ipList := by
  by_cases here : v = u
  · subst here
    simp [setPeers, setExpansion]
  · simp [setPeers, setExpansion, here]

theorem grows_append (s : Discovery Node) (u : Node) (added : List Bytes) (e : Option Expansion) :
    Grows s ((s.setPeers u { s.peers u with
      connections := (s.peers u).connections ++ added }).setExpansion u e) := by
  constructor
  · intro w
    by_cases here : w = u
    · subst here
      simp only [setPeers, setExpansion, Function.update_self]
      exact List.prefix_append _ _
    · simp [setPeers, setExpansion, here]
  · exact fun w => (ipList_append s u added e w).ge

theorem Inv.start (inv : Inv wire messages world s) {con : Link Node} (made : s.address con ≠ none)
    (starting : s.exchange con = .starting) :
    Inv wire messages world ((s.add con ⟨.hello, []⟩).setExchange con .idle) := by
  have queued : ((s.add con ⟨.hello, []⟩).setExchange con .idle).queue con =
      ⟨.hello, []⟩ ::ₘ s.queue con := Function.update_self ..
  have idle : ((s.add con ⟨.hello, []⟩).setExchange con .idle).exchange con = .idle :=
    Function.update_self ..
  have link : LinkInv wire messages world ((s.add con ⟨.hello, []⟩).setExchange con .idle) con := by
    refine ⟨fun _ => made, ?_, fun task data was => ?_, fun task result was => ?_, fun _ => ?_⟩
    · intro task member
      rw [queued] at member
      rcases Multiset.mem_cons.mp member with rfl | old
      · exact .inl rfl
      · exact (inv.link con).proper task old
    · cases idle.symm.trans was
    · cases idle.symm.trans was
    · refine .inr (.inl ?_)
      rw [queued]
      exact Multiset.mem_cons_self _ _
  have between (task : Task) (data : Bytes) : s.exchange con ≠ .request task data := by
    rw [starting]
    nofun
  exact inv.of_link con (.of_peers_eq rfl) (fun _ apart => Function.update_of_ne apart ..)
    (fun _ apart => Function.update_of_ne apart ..) (fun _ => .inl rfl)
    (.inr (inv.not_listed between)) link fun v => (inv.node v).sound

theorem Inv.request (inv : Inv wire messages world s) {con : Link Node} {task : Task}
    (queued : Queued messages task) : Inv wire messages world (s.add con task) := by
  have after : (s.add con task).queue con = task ::ₘ s.queue con := Function.update_self ..
  have link : LinkInv wire messages world (s.add con task) con := by
    obtain ⟨made, proper, requested, replied, announced⟩ := inv.link con
    refine ⟨made, ?_, requested, replied, ?_⟩
    · intro other member
      rw [after] at member
      rcases Multiset.mem_cons.mp member with rfl | old
      · exact .inr queued
      · exact proper other old
    · intro there
      refine (announced there).imp_right (Or.imp_left ?_)
      rw [after]
      exact Multiset.mem_cons_of_mem
  exact inv.of_link con (.of_peers_eq rfl) (fun _ apart => Function.update_of_ne apart ..)
    (fun _ _ => rfl) (fun _ => .inl rfl) (.inl rfl) link fun v => (inv.node v).sound

theorem Inv.setExpansion (inv : Inv wire messages world s) (u : Node) (e : Option Expansion) :
    Inv wire messages world (s.setExpansion u e) :=
  ⟨fun con => (inv.link con).mono (.of_peers_eq rfl) rfl rfl,
    fun v => (inv.node v).mono (.of_peers_eq rfl) rfl rfl fun _ _ _ => rfl⟩

theorem Inv.ended (inv : Inv wire messages world s) (u : Node) (e : Fault) :
    Inv wire messages world (s.after u (.error e)) :=
  ⟨fun con => (inv.link con).mono (.of_peers_eq rfl) rfl rfl,
    fun v => (inv.node v).mono (.of_peers_eq rfl) rfl rfl fun _ _ _ => rfl⟩

theorem Inv.connect (inv : Inv wire messages world s) (connects : Bool) (u : Node)
    (e : Expansion) :
    Inv wire messages world (s.after u (s.connect connects u e)) := by
  rcases connect_cases connects u e s with ⟨-, thrown⟩ | ⟨-, connected⟩
  · rw [thrown]
    exact inv.ended u .thrown
  · rw [connected]
    have grows := grows_append s u ([e.newIp].filter (· ≠ [])) (some e.next)
    refine inv.of_link (u, 0) grows (fun _ _ => rfl) (fun _ _ => rfl) (fun _ => .inl rfl)
      (.inl rfl) ((inv.link (u, 0)).mono grows rfl rfl) ?_
    intro v ip member
    apply grows.canKnow
    apply (inv.node v).sound
    rwa [after_ok, ipList_append] at member

theorem Inv.send (inv : Inv wire messages world s) {con : Link Node} {task : Task} {data : Bytes}
    (idle : s.exchange con = .idle) (waiting : task ∈ s.queue con)
    (sent : requestFor messages (world.myIp con.1) task = some data) :
    Inv wire messages world ((s.pop con task).setExchange con (.request task data)) := by
  have popped : ((s.pop con task).setExchange con (.request task data)).queue con =
      (s.queue con).erase task := Function.update_self ..
  have requested : ((s.pop con task).setExchange con (.request task data)).exchange con =
      .request task data := Function.update_self ..
  have made := (inv.link con).made (by rw [idle]; nofun)
  have link : LinkInv wire messages world
      ((s.pop con task).setExchange con (.request task data)) con := by
    refine ⟨fun _ => made, ?_, ?_, fun task result was => ?_, fun there => ?_⟩
    · intro other member
      rw [popped] at member
      exact (inv.link con).proper other (Multiset.mem_of_mem_erase member)
    · intro task' data' was
      obtain ⟨rfl, rfl⟩ := Exchange.request.inj (requested.symm.trans was)
      exact ⟨(inv.link con).proper task waiting, sent⟩
    · cases requested.symm.trans was
    · rcases (inv.link con).announced made with starting | queued | ⟨data', was⟩ | known
      · cases idle.symm.trans starting
      · by_cases hello : task = ⟨.hello, []⟩
        · exact .inr (.inr (.inl ⟨data, hello ▸ requested⟩))
        · refine .inr (.inl ?_)
          rw [popped]
          exact (Multiset.mem_erase_of_ne (Ne.symm hello)).mpr queued
      · cases idle.symm.trans was
      · exact .inr (.inr (.inr known))
  have between (task : Task) (data : Bytes) : s.exchange con ≠ .request task data := by
    rw [idle]
    nofun
  exact inv.of_link con (.of_peers_eq rfl) (fun _ apart => Function.update_of_ne apart ..)
    (fun _ apart => Function.update_of_ne apart ..) (fun _ => .inl rfl)
    (.inr (inv.not_listed between)) link fun v => (inv.node v).sound

/-- What comes home to a connection that asked for addresses is a list of them. -/
theorem Inv.finish_eq (inv : Inv wire messages world s) {con : Link Node} {task : Task}
    {result : Bytes} (replied : s.exchange con = .replied task result) :
    ∃ ips, (∀ ip ∈ ips, s.CanKnow world con.1 ip) ∧
      s.after con.1 (s.finish wire con task result) =
        (s.setExchange con .idle).insertIps con.1 ips ∧
      (task.type = .reqIps → result = wire.pack (Reply.ipList ips).object) ∧
      (task.type ≠ .reqIps → ips = []) := by
  by_cases asked : task.type = .reqIps
  · obtain ⟨ips, rfl, all⟩ := (inv.link con).replied task result replied asked
    refine ⟨ips, all, ?_, fun _ => rfl, fun no => absurd asked no⟩
    have whole := map_ofCString fun ip member => zero_notMem_of_canKnow (all ip member)
    unfold finish
    simp only [asked, readIps_reply, Cpp.ok_bind, whole]
    rfl
  · refine ⟨[], List.forall_mem_nil _, ?_, fun yes => absurd yes asked, fun _ => rfl⟩
    have nothing : (s.setExchange con .idle).insertIps con.1 [] = s.setExchange con .idle := by
      simp [insertIps, setPeers, Peers.insertIps, setExchange]
    rw [nothing]
    unfold finish
    split
    case h_1 yes => exact absurd yes asked
    case h_2 => rfl

theorem Inv.finish (inv : Inv wire messages world s) {con : Link Node} {task : Task}
    {result : Bytes} (replied : s.exchange con = .replied task result) :
    Inv wire messages world (s.after con.1 (s.finish wire con task result)) := by
  obtain ⟨ips, all, ended, -⟩ := inv.finish_eq replied
  rw [ended]
  have read : Grows s (s.setExchange con .idle) := .of_peers_eq rfl
  have grows := read.trans (grows_insertIps (s.setExchange con .idle) con.1 ips)
  have idle : ((s.setExchange con .idle).insertIps con.1 ips).exchange con = .idle :=
    Function.update_self ..
  have made := (inv.link con).made (by rw [replied]; nofun)
  have link : LinkInv wire messages world ((s.setExchange con .idle).insertIps con.1 ips) con := by
    refine ⟨fun _ => grows.address_ne_none made, (inv.link con).proper, fun task data was => ?_,
      fun task result was => ?_, fun _ => ?_⟩
    · cases idle.symm.trans was
    · cases idle.symm.trans was
    · rcases (inv.link con).announced made with starting | queued | ⟨data, was⟩ | ⟨v, there, known⟩
      · cases replied.symm.trans starting
      · exact .inr (.inl queued)
      · cases replied.symm.trans was
      · exact .inr (.inr (.inr ⟨v, grows.target there, grows.ipList v known⟩))
  have between (task : Task) (data : Bytes) : s.exchange con ≠ .request task data := by
    rw [replied]
    nofun
  refine inv.of_link con grows (fun _ _ => rfl) (fun _ apart => Function.update_of_ne apart ..)
    (fun _ => .inl rfl) (.inr (inv.not_listed between)) link ?_
  intro v ip member
  rcases mem_insertIps.mp member with old | ⟨rfl, new⟩
  · exact grows.canKnow ((inv.node v).sound ip old)
  · exact grows.canKnow (all ip new)

/-! ## The steps of the thread of serve -/

theorem serve_hello (other : Reply) (v : Node) (con : Link Node) (task : Task) (ip : Bytes)
    (s : Discovery Node) :
    s.serve wire messages other v con task (messages.write ⟨.hello ⟨ip, 0⟩⟩) =
      .ok ((s.insertIps v [Bytes.ofCString ip]).setExchange con
        (.replied task (wire.pack Reply.welcome.object))) := by
  unfold serve
  rw [messages.read_write]
  rfl

theorem serve_getPeers (other : Reply) (v : Node) (con : Link Node) (task : Task)
    (s : Discovery Node) :
    s.serve wire messages other v con task (messages.write ⟨.getPeers⟩) =
      .ok (s.setServing v (.listing con (s.peers v).ipList.card)) := by
  unfold serve
  rw [messages.read_write]
  rfl

theorem serve_text (other : Reply) (v : Node) (con : Link Node) (task : Task) (line : Bytes)
    (s : Discovery Node) :
    s.serve wire messages other v con task (textMessage messages line) =
      .ok (s.setExchange con (.replied task (wire.pack other.object))) := by
  unfold serve textMessage
  rw [messages.read_write]
  rfl

theorem LinkInv.serve_eq {con : Link Node} (inv : LinkInv wire messages world s con) {task : Task}
    {data : Bytes} (requested : s.exchange con = .request task data) (other : Reply) (v : Node) :
    (task = ⟨.hello, []⟩ ∧ s.after v (s.serve wire messages other v con task data) =
      (s.insertIps v [world.myIp con.1]).setExchange con
        (.replied task (wire.pack Reply.welcome.object))) ∨
    (task.type = .reqIps ∧ s.after v (s.serve wire messages other v con task data) =
      s.setServing v (.listing con (s.peers v).ipList.card)) ∨
    (task.type = .send ∧ s.after v (s.serve wire messages other v con task data) =
      s.setExchange con (.replied task (wire.pack other.object))) := by
  obtain ⟨rfl | rfl | ⟨line, rfl⟩, sent⟩ := inv.requested task data requested
  · obtain rfl := Option.some.inj sent
    refine .inl ⟨rfl, ?_⟩
    have whole := Bytes.ofCString_of_notMem (world.cStrings con.1 _ List.mem_cons_self)
    rw [serve_hello, after_ok, whole]
  · obtain rfl := Option.some.inj sent
    refine .inr (.inl ⟨rfl, ?_⟩)
    rw [serve_getPeers, after_ok]
  · obtain rfl := Option.some.inj sent
    refine .inr (.inr ⟨rfl, ?_⟩)
    rw [serve_text, after_ok]

theorem Inv.reply (inv : Inv wire messages world s) {con : Link Node} {task : Task} {data : Bytes}
    (requested : s.exchange con = .request task data) {result : Bytes} (grows : Grows s t)
    (queue : t.queue = s.queue)
    (exchange : t.exchange = Function.update s.exchange con (.replied task result))
    (serving : ∀ v, t.serving v = s.serving v ∨ t.serving v = .receiving)
    (unlisted : ∀ v size, t.serving v ≠ .listing con size)
    (ips : task.type = .reqIps → ∃ ips, result = wire.pack (Reply.ipList ips).object ∧
      ∀ ip ∈ ips, t.CanKnow world con.1 ip)
    (hello : task = ⟨.hello, []⟩ → ∃ v, t.target world con = some v ∧
      world.myIp con.1 ∈ (t.peers v).ipList)
    (sound : ∀ v, ∀ ip ∈ (t.peers v).ipList, t.CanKnow world v ip) :
    Inv wire messages world t := by
  have replied : t.exchange con = .replied task result := by
    rw [exchange]
    exact Function.update_self ..
  have made := (inv.link con).made (by rw [requested]; nofun)
  have link : LinkInv wire messages world t con := by
    refine ⟨fun _ => grows.address_ne_none made, queue ▸ (inv.link con).proper,
      fun task' data' was => ?_, fun task' result' was asked => ?_, fun _ => ?_⟩
    · cases replied.symm.trans was
    · obtain ⟨rfl, rfl⟩ := Exchange.replied.inj (replied.symm.trans was)
      exact ips asked
    · rcases (inv.link con).announced made with starting | queued | ⟨data', was⟩ | ⟨v, there, known⟩
      · cases requested.symm.trans starting
      · exact .inr (.inl (queue ▸ queued))
      · obtain ⟨rfl, -⟩ := Exchange.request.inj (requested.symm.trans was)
        exact .inr (.inr (.inr (hello rfl)))
      · exact .inr (.inr (.inr ⟨v, grows.target there, grows.ipList v known⟩))
  exact inv.of_link con grows (fun _ _ => by rw [queue])
    (fun _ apart => by rw [exchange]; exact Function.update_of_ne apart ..) serving
    (.inr unlisted) link sound

theorem Inv.receive (inv : Inv wire messages world s) {con : Link Node} {v : Node} {task : Task}
    {data : Bytes} (other : Reply) (receiving : s.serving v = .receiving)
    (requested : s.exchange con = .request task data) (here : s.target world con = some v) :
    Inv wire messages world (s.after v (s.serve wire messages other v con task data)) := by
  have unlisted (w : Node) (size : ℕ) : s.serving w ≠ .listing con size := by
    intro listing
    obtain rfl := inv.not_listed_elsewhere here listing
    cases receiving.symm.trans listing
  rcases (inv.link con).serve_eq requested other v with
    ⟨rfl, served⟩ | ⟨asked, served⟩ | ⟨text, served⟩
  · rw [served]
    have grows : Grows s ((s.insertIps v [world.myIp con.1]).setExchange con
        (.replied ⟨.hello, []⟩ (wire.pack Reply.welcome.object))) :=
      (grows_insertIps s v [world.myIp con.1]).trans (.of_peers_eq rfl)
    refine inv.reply requested grows rfl rfl (fun _ => .inl rfl) unlisted nofun ?_ ?_
    · intro _
      exact ⟨v, grows.target here, mem_insertIps.mpr (.inr ⟨rfl, List.mem_singleton_self _⟩)⟩
    · intro w ip member
      rcases mem_insertIps.mp member with old | ⟨rfl, new⟩
      · exact grows.canKnow ((inv.node w).sound ip old)
      · rw [List.mem_singleton.mp new]
        exact .given (.inr ⟨con.1, ⟨con.2, grows.target here⟩, rfl⟩)
  · rw [served]
    have grows : Grows s (s.setServing v (.listing con (s.peers v).ipList.card)) :=
      .of_peers_eq rfl
    refine ⟨fun other => (inv.link other).mono grows rfl rfl, fun w => ?_⟩
    by_cases same : w = v
    · subst same
      refine ⟨(inv.node w).sound, ?_⟩
      intro con' size was
      have listing : (s.setServing w (.listing con (s.peers w).ipList.card)).serving w =
          .listing con (s.peers w).ipList.card := Function.update_self ..
      obtain ⟨rfl, rfl⟩ := ServeThread.listing.inj (listing.symm.trans was)
      exact ⟨here, ⟨task, data, requested, asked⟩, le_rfl⟩
    · exact (inv.node w).mono grows rfl (Function.update_of_ne same ..) fun _ _ _ => rfl
  · rw [served]
    refine inv.reply requested (.of_peers_eq rfl) rfl rfl (fun _ => .inl rfl) unlisted ?_ ?_
      fun w => (inv.node w).sound
    · intro asked
      cases text.symm.trans asked
    · rintro rfl
      cases text

/-- The addresses come as they are: none of them has a NUL, and the list has room for all,
unless it is too short. -/
theorem Inv.list_eq (inv : Inv wire messages world s) {v : Node} {con : Link Node} {size : ℕ}
    (listing : s.serving v = .listing con size) (task : Task) :
    s.after v (s.list wire v con size task) =
      if size < (s.peers v).ipList.card then
        s.after v (.error .pastEnd)
      else (s.setServing v .receiving).setExchange con
        (.replied task (wire.pack (Reply.ipList ((s.peers v).ipList.sort (· ≤ ·))).object)) := by
  obtain ⟨-, -, room⟩ := (inv.node v).listing con size listing
  have whole : ((s.peers v).ipList.sort (· ≤ ·)).map Bytes.ofCString =
      (s.peers v).ipList.sort (· ≤ ·) := map_ofCString fun ip member =>
    zero_notMem_of_canKnow ((inv.node v).sound ip ((Finset.mem_sort _).mp member))
  have length : ((s.peers v).ipList.sort (· ≤ ·)).length = (s.peers v).ipList.card :=
    Finset.length_sort _
  unfold Discovery.list
  simp only [whole, length]
  split
  case isTrue => rfl
  case isFalse enough =>
    have filled : ((s.peers v).ipList.sort (· ≤ ·)).takeD size [] =
        (s.peers v).ipList.sort (· ≤ ·) := by
      have same : size = ((s.peers v).ipList.sort (· ≤ ·)).length := by
        rw [length]
        exact le_antisymm room (not_lt.mp enough)
      rw [same, List.takeD_eq_take _ le_rfl, List.take_length]
    rw [filled]
    rfl

theorem Inv.list (inv : Inv wire messages world s) {v : Node} {con : Link Node} {size : ℕ}
    {task : Task} {data : Bytes} (listing : s.serving v = .listing con size)
    (requested : s.exchange con = .request task data) :
    Inv wire messages world (s.after v (s.list wire v con size task)) := by
  obtain ⟨here, ⟨task', data', requested', asked⟩, -⟩ := (inv.node v).listing con size listing
  obtain ⟨rfl, rfl⟩ := Exchange.request.inj (requested.symm.trans requested')
  rw [inv.list_eq listing]
  split
  case isTrue => exact inv.ended v .pastEnd
  case isFalse =>
    have serving (w : Node) : ((s.setServing v .receiving).setExchange con (.replied task
        (wire.pack (Reply.ipList ((s.peers v).ipList.sort (· ≤ ·))).object))).serving w =
        if w = v then .receiving else s.serving w := Function.update_apply ..
    refine inv.reply requested (.of_peers_eq rfl) rfl rfl ?_ ?_ ?_ ?_
      fun w => (inv.node w).sound
    · intro w
      rw [serving]
      split
      · exact .inr rfl
      · exact .inl rfl
    · intro w size'
      rw [serving]
      split
      · nofun
      case isFalse other =>
        exact fun there => other (inv.not_listed_elsewhere here there)
    · intro _
      refine ⟨_, rfl, fun ip member => ?_⟩
      exact .asked ⟨con.2, here⟩ ((inv.node v).sound ip ((Finset.mem_sort _).mp member))
    · rintro rfl
      cases asked

/-! ## Runs -/

theorem Inv.step {a : Action Node} (inv : Inv wire messages world s)
    (taken : Step wire messages world s a t) : Inv wire messages world t := by
  cases taken with
  | start con alive made starting => exact inv.start made starting
  | request con task alive made queued => exact inv.request queued
  | expand u ipsTmp alive free shuffled => exact inv.setExpansion u _
  | connect u e connects alive expanding more => exact inv.connect connects u e
  | expanded u e alive expanding last => exact inv.setExpansion u none
  | send con task data alive idle waiting sent => exact inv.send idle waiting sent
  | receive con v task data other alive receiving requested here =>
    exact inv.receive other receiving requested here
  | list v con size task data alive listing requested => exact inv.list listing requested
  | finish con task result alive replied => exact inv.finish replied
  | socketErr u alive => exact inv.ended u .thrown

omit [DecidableEq Node] in
theorem inv_initial (wire : Wire) (messages : Codec Message) (world : World Node) :
    Inv wire messages world (initial world) := by
  refine ⟨fun con => ⟨fun moved => absurd rfl moved, ?_, nofun, nofun, fun _ => .inl rfl⟩,
    fun v => ⟨?_, nofun⟩⟩
  · intro task member
    exact absurd member (Multiset.notMem_zero task)
  · intro ip member
    refine .given (.inl ?_)
    simpa [initial, Peers.insertIps, Peers.none] using member

theorem run_inv {history : List (Discovery Node × Action Node)}
    (run : Run (Step wire messages world) (initial world) history t) :
    Inv wire messages world t :=
  run.invariant (inv_initial wire messages world) fun _ _ _ => Inv.step

end Pttp.Discovery
