import Pttp.Gossip.Delivery

/-!
# Who prints a text

A node prints a text only if connections lead to it from a node at which the text was typed,
and when no copy is left under way, all these nodes have printed it. The node at which it was
typed prints it when it comes back, and not before.
-/

namespace Pttp

open Messages Runs Flooding

variable {Node Connection : Type} [DecidableEq Node] [DecidableEq Connection]
  {G : GenericHash} {messages : Codec Message} {network : Network Node Connection}
  {t : Gossip Node Connection} {texts : Set Bytes}

theorem run_fromTexts {history : List (Gossip Node Connection × GossipAction Node Connection)}
    (run : Run (GossipStep G messages network) .initial history t) (within : EnteredIn texts t) :
    FromTexts G messages texts t := by
  have back (s : Gossip Node Connection) (action : GossipAction Node Connection)
      (t : Gossip Node Connection) : GossipStep G messages network s action t →
        EnteredIn texts t → EnteredIn texts s := enteredIn_of_step
  apply (run.within back within).invariant fromTexts_initial
  intro s action t fromTexts taken
  exact fromTexts.step taken.1 taken.2

theorem run_traced {history : List (Gossip Node Connection × GossipAction Node Connection)}
    (run : Run (GossipStep G messages network) .initial history t) (within : EnteredIn texts t)
    (collisionFree : Set.InjOn (hash G) (textMessage messages '' texts)) {line : Bytes}
    (entered : line ∈ texts) :
    Traced network.owner network.peer (floodOf messages line t) := by
  have back (s : Gossip Node Connection) (action : GossipAction Node Connection)
      (t : Gossip Node Connection) : GossipStep G messages network s action t →
        EnteredIn texts t → EnteredIn texts s := enteredIn_of_step
  have preserved (s : Gossip Node Connection) (action : GossipAction Node Connection)
      (t : Gossip Node Connection) (fromTexts : FromTexts G messages texts s)
      (taken : GossipStep G messages network s action t ∧ EnteredIn texts t) :
      FromTexts G messages texts t := fromTexts.step taken.1 taken.2
  obtain ⟨_, flooded⟩ := (run.within back within).simulate (floodOf messages line)
    fromTexts_initial preserved fun s action t fromTexts taken =>
      floodOf_step fromTexts collisionFree entered taken.1
  exact traced_of_run flooded

def Delivered (messages : Codec Message) (line : Bytes) (t : Gossip Node Connection) : Prop :=
  ∀ con, ⟨.send, textMessage messages line⟩ ∉ t.queue con ∧
    t.sock con ≠ .request (textMessage messages line)

omit [DecidableEq Connection] in
theorem Delivered.waiting_eq_zero {line : Bytes} (delivered : Delivered messages line t)
    (con : Connection) : (floodOf messages line t).waiting con = 0 := by
  simp only [floodOf, if_neg (delivered con).2, Nat.add_zero]
  exact Multiset.count_eq_zero.mpr (delivered con).1

/-- In every run in which no two of the texts that were typed have one hash: what a node has
printed was typed at a node from which at least one connection leads to it; and once no copy of
a text is left, the nodes that have printed it are all of these. -/
theorem gossip_printed_iff {history : List (Gossip Node Connection × GossipAction Node Connection)}
    (run : Run (GossipStep G messages network) .initial history t)
    (collisionFree : Set.InjOn (hash G)
      (textMessage messages '' {line | ∃ u, (u, line) ∈ t.entered})) (line : Bytes) (v : Node) :
    (line ∈ t.printed v → ∃ u, (u, line) ∈ t.entered ∧ Relation.TransGen
        (fun u v => ∃ con, network.owner con = u ∧ network.peer con = v) u v) ∧
      (Delivered messages line t → (line ∈ t.printed v ↔ ∃ u, (u, line) ∈ t.entered ∧
        Relation.TransGen
          (fun u v => ∃ con, network.owner con = u ∧ network.peer con = v) u v)) := by
  have within : EnteredIn {line | ∃ u, (u, line) ∈ t.entered} t :=
    fun entry member => ⟨entry.1, member⟩
  have printed : line ∈ t.printed v ↔ 0 < (floodOf messages line t).accepted v :=
    List.count_pos_iff.symm
  have injected (u : Node) : 0 < (floodOf messages line t).injected u ↔ (u, line) ∈ t.entered :=
    List.count_pos_iff
  have came (member : line ∈ t.printed v) : ∃ u, (u, line) ∈ t.entered ∧ Relation.TransGen
      (fun u v => ∃ con, network.owner con = u ∧ network.peer con = v) u v := by
    have entered := (run_fromTexts run within).printed v line member
    obtain ⟨u, origin, path⟩ := (run_traced run within collisionFree entered).came v
      (printed.mp member)
    exact ⟨u, (injected u).mp origin, path⟩
  refine ⟨came, fun delivered => ⟨came, ?_⟩⟩
  rintro ⟨u, entered, path⟩
  have flood := (run_floods run within collisionFree ⟨u, entered⟩).2
  have traced := run_traced run within collisionFree ⟨u, entered⟩
  exact printed.mpr ((traced.accepted_iff flood delivered.waiting_eq_zero v).mpr
    ⟨u, (injected u).mpr entered, path⟩)

theorem run_copy (G : GenericHash) (messages : Codec Message)
    (network : Network Node Connection) (s s' : Gossip Node Connection) (con : Connection)
    (line : Bytes) (idle : s.sock con = .idle)
    (waiting : ⟨.send, textMessage messages line⟩ ∈ s.queue con)
    (served : ((s.pop con ⟨.send, textMessage messages line⟩).setSock con
      (.request (textMessage messages line))).serve G messages network (network.peer con)
        (textMessage messages line) = .ok s') :
    ∃ history, Run (GossipStep G messages network) s history
      ((s'.setSock con .replied).setSock con .idle) := by
  have sent : GossipStep G messages network s (.send con ⟨.send, textMessage messages line⟩)
      ((s.pop con ⟨.send, textMessage messages line⟩).setSock con
        (.request (textMessage messages line))) :=
    .send s con _ _ idle waiting (.send (textMessage messages line))
  have received : GossipStep G messages network _ (.receive con) (s'.setSock con .replied) :=
    .receive _ s' con _ (Function.update_self con _ s.sock) served
  have replied : GossipStep G messages network _ (.reply con)
      ((s'.setSock con .replied).setSock con .idle) :=
    .reply _ con (Function.update_self con _ s'.sock)
  exact ⟨_, ((Run.nil.snoc sent).snoc received).snoc replied⟩

/-- The line comes back to the first node, which prints it and sends it once more. -/
theorem run_pair_delivered (G : GenericHash) (messages : Codec Message) (line : Bytes) :
    ∃ history t, Run (GossipStep G messages pair) .initial history t ∧
      t.entered = [(true, line)] ∧ Delivered messages line t := by
  let text := textMessage messages line
  let task : Task := ⟨.send, text⟩
  let typed := (Gossip.initial : Gossip Bool Bool).readLine messages pair true line
  let sent (con : Bool) (s : Gossip Bool Bool) :=
    (s.pop con task).setSock con (.request text)
  let printed (v : Bool) (s : Gossip Bool Bool) :=
    (s.mark v line (hash G text)).forward text (pair.connections v)
  let replied (con : Bool) (s : Gossip Bool Bool) := (s.setSock con .replied).setSock con .idle
  let there := replied true (printed false (sent true typed))
  let back := replied false (printed true (sent false there))
  let last := replied true (sent true back)
  have new (v : Bool) {s : Gossip Bool Bool} (unseen : hash G text ∉ s.seen v) :
      s.serve G messages pair v text = .ok (printed v s) :=
    (serve_textMessage v line s).trans (by rw [if_neg unseen])
  have known (v : Bool) {s : Gossip Bool Bool} (seen : hash G text ∈ s.seen v) :
      s.serve G messages pair v text = .ok s :=
    (serve_textMessage v line s).trans (by rw [if_pos seen])
  have copy (queue : Multiset Task) : task ∈ task ::ₘ queue := Multiset.mem_cons_self task queue
  have taken : (task ::ₘ (0 : Multiset Task)).erase task = 0 := Multiset.erase_cons_head task 0
  have thereTrue : there.queue true = (task ::ₘ 0).erase task := rfl
  have backTrue : back.queue true = task ::ₘ there.queue true := rfl
  have backFalse : back.queue false = (task ::ₘ 0).erase task := rfl
  have lastTrue : last.queue true = (back.queue true).erase task := rfl
  have lastFalse : last.queue false = back.queue false := rfl
  have first : GossipStep G messages pair .initial (.readLine true line) typed :=
    .readLine _ true line
  obtain ⟨_, second⟩ := run_copy G messages pair typed _ true line rfl (copy 0)
    (new false (Finset.notMem_empty (hash G text)))
  obtain ⟨_, third⟩ := run_copy G messages pair there _ false line rfl (copy 0)
    (new true (Finset.notMem_empty (hash G text)))
  obtain ⟨_, fourth⟩ := run_copy G messages pair back _ true line rfl (backTrue ▸ copy _)
    (known false (Finset.mem_insert_self (hash G text) ∅))
  refine ⟨_, last, (((Run.nil.snoc first).trans second).trans third).trans fourth, rfl, ?_⟩
  intro con
  have idle : last.sock con = .idle := by cases con <;> rfl
  have empty : last.queue con = 0 := by
    cases con with
    | false => rw [lastFalse, backFalse, taken]
    | true => rw [lastTrue, backTrue, thereTrue, taken, taken]
  exact ⟨empty ▸ Multiset.notMem_zero task, idle ▸ SocketState.noConfusion⟩

theorem gossip_printed_iff_pair :
    ∃ t : Gossip Bool Bool, Delivered (Codec.ofEncodable Message) [104, 105] t ∧
      ∀ v, [104, 105] ∈ t.printed v ∧ ∃ u, (u, [104, 105]) ∈ t.entered ∧ Relation.TransGen
        (fun u v => ∃ con, pair.owner con = u ∧ pair.peer con = v) u v := by
  obtain ⟨history, t, run, entered, delivered⟩ :=
    run_pair_delivered .polynomial (Codec.ofEncodable Message) [104, 105]
  have alone : {line | ∃ u, (u, line) ∈ t.entered} = {[104, 105]} := by
    ext line
    simp [entered]
  have path (v : Bool) : Relation.TransGen
      (fun u v => ∃ con, pair.owner con = u ∧ pair.peer con = v) true v := by
    have there : ∃ con, pair.owner con = true ∧ pair.peer con = false := ⟨true, rfl, rfl⟩
    have back : ∃ con, pair.owner con = false ∧ pair.peer con = true := ⟨false, rfl, rfl⟩
    cases v with
    | false => exact .single there
    | true => exact (Relation.TransGen.single there).tail back
  refine ⟨t, delivered, fun v => ?_⟩
  obtain ⟨came, all⟩ := gossip_printed_iff run (by
    rw [alone, Set.image_singleton]
    exact Set.injOn_singleton _ _) [104, 105] v
  have printed := (all delivered).mpr ⟨true, by simp [entered], path v⟩
  exact ⟨printed, came printed⟩

end Pttp
