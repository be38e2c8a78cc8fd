import Pttp.Bytes
import Pttp.Lib.Runs

/-!
# The connection table

Addresses reach `ip_list` from the arguments, from HELLO and from IP_LIST. The
EXPAND_CONNECTION task connects to some of them. It does not step over the
address it has just connected to, and when the list runs out it keeps the last
address it rejected.
-/

namespace Pttp

open Runs

def nConn : Nat := 8

/-- `ip_list` and the addresses of `connections`. -/
structure Peers where
  ipList : Finset Bytes
  connections : List Bytes

def Peers.none : Peers := ⟨∅, []⟩

/-- The inner loop: `new_ip` and `ip_idx` when it breaks. -/
def selectIp (ipsTmp : List Bytes) (currentIps : Finset Bytes) (ipIdx : Nat) (newIp : Bytes) :
    Bytes × Nat :=
  if ipIdx < ipsTmp.length then
    let newIp := ipsTmp.getD ipIdx []
    if newIp ∉ currentIps then (newIp, ipIdx)
    else selectIp ipsTmp currentIps (ipIdx + 1) newIp
  else (newIp, ipIdx)
termination_by ipsTmp.length - ipIdx

/-- The outer loop, `n` rounds before its end. -/
def expandLoop (ipsTmp : List Bytes) (currentIps : Finset Bytes) :
    Nat → Nat → List Bytes → List Bytes
  | 0, _, connections => connections
  | n + 1, ipIdx, connections =>
      let (newIp, ipIdx) := selectIp ipsTmp currentIps ipIdx []
      if newIp.length ≠ 0 then expandLoop ipsTmp currentIps n ipIdx (connections ++ [newIp])
      else expandLoop ipsTmp currentIps n ipIdx connections

def Peers.nNew (p : Peers) : Nat :=
  let desired := min nConn p.ipList.card
  desired - p.connections.length

/-- EXPAND_CONNECTION with the shuffled list it works on. -/
def Peers.expandConnection (myIp : Bytes) (p : Peers) (ipsTmp : List Bytes) : Peers :=
  let currentIps := insert myIp p.connections.toFinset
  { p with connections := expandLoop ipsTmp currentIps p.nNew 0 p.connections }

/-- EXPAND_CONNECTION on the way through its outer loop: the shuffled list, the addresses it
compares with, the rounds that are left, and `ip_idx`. -/
structure Expansion where
  ipsTmp : List Bytes
  currentIps : Finset Bytes
  rounds : ℕ
  ipIdx : ℕ

def Peers.expansion (myIp : Bytes) (p : Peers) (ipsTmp : List Bytes) : Expansion :=
  ⟨ipsTmp, insert myIp p.connections.toFinset, p.nNew, 0⟩

def Expansion.newIp (e : Expansion) : Bytes := (selectIp e.ipsTmp e.currentIps e.ipIdx []).1

def Expansion.next (e : Expansion) : Expansion :=
  { e with
    rounds := e.rounds - 1
    ipIdx := (selectIp e.ipsTmp e.currentIps e.ipIdx []).2 }

/-- One round. `connects` is what ZMQ answers: the constructor of `Socket`, and with it that of
`Connection`, throws when the address is refused. -/
def Peers.connect (connects : Bool) (p : Peers) (e : Expansion) : Cpp (Peers × Expansion) :=
  if e.newIp.length ≠ 0 then
    if connects then .ok ({ p with connections := p.connections ++ [e.newIp] }, e.next)
    else .error .thrown
  else .ok (p, e.next)

def Peers.insertIps (p : Peers) (ips : List Bytes) : Peers :=
  { p with ipList := p.ipList ∪ ips.toFinset }

inductive PeerEvent where
  | arguments (argv : List Bytes)
  | hello (ip : Bytes)
  | ipList (newIps : List Bytes)
  | expand (ipsTmp : List Bytes)

/-- What an event does to the table; a shuffle is any permutation of the list. -/
inductive PeerStep (myIp : Bytes) : Peers → PeerEvent → Peers → Prop where
  | arguments (p : Peers) (argv : List Bytes) :
      PeerStep myIp p (.arguments argv) (p.insertIps argv)
  | hello (p : Peers) (ip : Bytes) : PeerStep myIp p (.hello ip) (p.insertIps [ip])
  | ipList (p : Peers) (newIps : List Bytes) :
      PeerStep myIp p (.ipList newIps) (p.insertIps newIps)
  | expand (p : Peers) (ipsTmp : List Bytes) (shuffled : ipsTmp.Perm (p.ipList.sort (· ≤ ·))) :
      PeerStep myIp p (.expand ipsTmp) (p.expandConnection myIp ipsTmp)

structure WellConnected (myIp : Bytes) (p : Peers) : Prop where
  nodup : p.connections.Nodup
  known : ∀ ip ∈ p.connections, ip ∈ p.ipList
  notSelf : myIp ∉ p.connections
  bounded : p.connections.length ≤ nConn

/-- The condition on an expansion: there is no free slot; or the first address of
the list that is neither connected nor the node's own is empty, or there is only
one slot for it; or there is no such address and the last of the list is empty. -/
def ExpandsSafely (myIp : Bytes) (p : Peers) (ipsTmp : List Bytes) : Prop :=
  p.nNew = 0 ∨
    match ipsTmp.find? (fun ip => ip ≠ myIp ∧ ip ∉ p.connections) with
    | some ip => ip = [] ∨ p.nNew = 1
    | none => ipsTmp.getLastD [] = []

def SafeEvent (myIp : Bytes) (p : Peers) : PeerEvent → Prop
  | .expand ipsTmp => ExpandsSafely myIp p ipsTmp
  | _ => True

/-! ## The loops -/

section Loops

variable {ipsTmp : List Bytes} {currentIps : Finset Bytes}

/-- From an index on, the inner loop finds the first address that is not current
and stays at its index, or runs out with the last address it saw. -/
theorem selectIp_spec (ipsTmp : List Bytes) (currentIps : Finset Bytes) (ipIdx : Nat)
    (newIp : Bytes) :
    (∃ ip j, (ipsTmp.drop ipIdx).find? (· ∉ currentIps) = some ip ∧
      selectIp ipsTmp currentIps ipIdx newIp = (ip, j) ∧
      selectIp ipsTmp currentIps j [] = (ip, j)) ∨
    ((ipsTmp.drop ipIdx).find? (· ∉ currentIps) = none ∧
      ∃ j, selectIp ipsTmp currentIps ipIdx newIp = ((ipsTmp.drop ipIdx).getLastD newIp, j) ∧
        selectIp ipsTmp currentIps j [] = ([], j)) := by
  have dropped (i : Nat) (inside : i < ipsTmp.length) :
      ipsTmp.drop i = ipsTmp.getD i [] :: ipsTmp.drop (i + 1) := by
    rw [List.drop_eq_getElem_cons inside, List.getD_eq_getElem _ _ inside]
  fun_induction selectIp ipsTmp currentIps ipIdx newIp with
  | case1 ipIdx _ inside ip fresh =>
    left
    have again : selectIp ipsTmp currentIps ipIdx [] = (ip, ipIdx) := by
      rw [selectIp, if_pos inside, if_pos fresh]
    have found : (ip :: ipsTmp.drop (ipIdx + 1)).find? (· ∉ currentIps) = some ip :=
      List.find?_cons_of_pos (decide_eq_true fresh)
    exact ⟨ip, ipIdx, dropped ipIdx inside ▸ found, rfl, again⟩
  | case2 ipIdx _ inside ip current ih =>
    rw [dropped ipIdx inside, List.find?_cons_of_neg (decide_eq_false current ▸ Bool.false_ne_true),
      List.getLastD_cons]
    exact ih
  | case3 ipIdx newIp outside =>
    right
    have again : selectIp ipsTmp currentIps ipIdx [] = ([], ipIdx) := by
      rw [selectIp, if_neg outside]
    rw [List.drop_eq_nil_of_le (Nat.le_of_not_lt outside)]
    exact ⟨rfl, ipIdx, rfl, again⟩

theorem expandLoop_succ {ipIdx j : Nat} {ip : Bytes}
    (selected : selectIp ipsTmp currentIps ipIdx [] = (ip, j)) (n : Nat)
    (connections : List Bytes) :
    expandLoop ipsTmp currentIps (n + 1) ipIdx connections =
      expandLoop ipsTmp currentIps n j (connections ++ [ip].filter (· ≠ [])) := by
  rw [expandLoop, selected]
  by_cases empty : ip = []
  · simp [empty]
  · simp [empty]

theorem expandLoop_of_stuck {ip : Bytes} {j : Nat}
    (stuck : selectIp ipsTmp currentIps j [] = (ip, j)) (n : Nat) (connections : List Bytes) :
    expandLoop ipsTmp currentIps n j connections =
      connections ++ (List.replicate n ip).filter (· ≠ []) := by
  induction n generalizing connections with
  | zero => rw [expandLoop, List.replicate_zero, List.filter_nil, List.append_nil]
  | succ n ih =>
    rw [expandLoop_succ stuck, ih, List.append_assoc, ← List.filter_append, List.replicate_succ,
      List.singleton_append]

/-- What `n` rounds pick: the first address that is not current `n` times, or the
last one of the list once when there is none. -/
def picks (ipsTmp : List Bytes) (currentIps : Finset Bytes) (n : Nat) : List Bytes :=
  match ipsTmp.find? (· ∉ currentIps) with
  | some ip => List.replicate n ip
  | none => if n = 0 then [] else [ipsTmp.getLastD []]

theorem expandLoop_eq (n : Nat) (connections : List Bytes) :
    expandLoop ipsTmp currentIps n 0 connections =
      connections ++ (picks ipsTmp currentIps n).filter (· ≠ []) := by
  have spec := selectIp_spec ipsTmp currentIps 0 []
  rw [List.drop_zero] at spec
  cases n with
  | zero =>
    have nothing : picks ipsTmp currentIps 0 = [] := by
      rw [picks]
      split <;> rfl
    rw [nothing, expandLoop, List.filter_nil, List.append_nil]
  | succ n =>
    rcases spec with ⟨ip, j, found, selected, stuck⟩ | ⟨none, j, selected, stuck⟩
    · have picked : picks ipsTmp currentIps (n + 1) = [ip] ++ List.replicate n ip := by
        rw [picks, found]
        exact List.replicate_succ
      rw [picked, expandLoop_succ selected, expandLoop_of_stuck stuck, List.append_assoc,
        ← List.filter_append]
    · have picked : picks ipsTmp currentIps (n + 1) = [ipsTmp.getLastD []] := by
        rw [picks, none]
        exact if_neg (Nat.succ_ne_zero n)
      have empties : (List.replicate n ([] : Bytes)).filter (· ≠ []) = [] := by simp
      rw [picked, expandLoop_succ selected, expandLoop_of_stuck stuck, empties, List.append_nil]

end Loops

/-! ## One round -/

section Rounds

variable {p : Peers} {e : Expansion}

/-- The round comes to an address that ZMQ refuses. -/
def Expansion.Refused (e : Expansion) (connects : Bool) : Prop := e.newIp ≠ [] ∧ connects = false

theorem connect_of_refused {connects : Bool} (refused : e.Refused connects) :
    p.connect connects e = .error .thrown := by
  rw [Peers.connect, if_pos (fun empty => refused.1 (List.eq_nil_of_length_eq_zero empty)),
    if_neg (Bool.eq_false_iff.mp refused.2)]

theorem connect_of_not_refused {connects : Bool} (taken : ¬ e.Refused connects) :
    p.connect connects e =
      .ok ({ p with connections := p.connections ++ [e.newIp].filter (· ≠ []) }, e.next) := by
  by_cases empty : e.newIp = []
  · simp [Peers.connect, empty]
  · have connected : connects = true := by
      by_contra refused
      exact taken ⟨empty, Bool.eq_false_of_not_eq_true refused⟩
    simp [Peers.connect, empty, connected]

theorem expandLoop_next {n : ℕ} (rounds : e.rounds = n + 1) (connections : List Bytes) :
    expandLoop e.ipsTmp e.currentIps e.rounds e.ipIdx connections =
      expandLoop e.next.ipsTmp e.next.currentIps e.next.rounds e.next.ipIdx
        (connections ++ [e.newIp].filter (· ≠ [])) := by
  have selected : selectIp e.ipsTmp e.currentIps e.ipIdx [] = (e.newIp, e.next.ipIdx) := rfl
  rw [rounds, expandLoop_succ selected]
  simp only [Expansion.next, rounds, Nat.add_sub_cancel]

end Rounds

/-! ## The table over a run -/

variable {myIp : Bytes} {p : Peers}

theorem wellConnected_none (myIp : Bytes) : WellConnected myIp .none :=
  ⟨List.nodup_nil, by simp [Peers.none], List.not_mem_nil, Nat.zero_le _⟩

theorem WellConnected.insertIps (connected : WellConnected myIp p) (ips : List Bytes) :
    WellConnected myIp (p.insertIps ips) where
  nodup := connected.nodup
  known ip member := Finset.mem_union_left _ (connected.known ip member)
  notSelf := connected.notSelf
  bounded := connected.bounded

theorem expandConnection_eq (myIp : Bytes) (p : Peers) (ipsTmp : List Bytes) :
    p.expandConnection myIp ipsTmp =
      { p with connections := p.connections ++
          (picks ipsTmp (insert myIp p.connections.toFinset) p.nNew).filter (· ≠ []) } := by
  rw [Peers.expandConnection, expandLoop_eq]

theorem find_candidate (myIp : Bytes) (p : Peers) (ipsTmp : List Bytes) :
    ipsTmp.find? (· ∉ insert myIp p.connections.toFinset) =
      ipsTmp.find? (fun ip => ip ≠ myIp ∧ ip ∉ p.connections) := by
  congr 1
  funext ip
  rw [decide_eq_decide, Finset.mem_insert, List.mem_toFinset, not_or]

theorem WellConnected.append_iff (connected : WellConnected myIp p) (added : List Bytes) :
    WellConnected myIp { p with connections := p.connections ++ added } ↔
      added.Nodup ∧ (∀ ip ∈ added, ip ∈ p.ipList ∧ ip ≠ myIp ∧ ip ∉ p.connections) ∧
        p.connections.length + added.length ≤ nConn := by
  constructor
  · rintro ⟨nodup, known, notSelf, bounded⟩
    have parts := List.nodup_append.mp nodup
    refine ⟨parts.2.1, fun ip member => ⟨known ip (List.mem_append_right _ member), ?_, ?_⟩,
      List.length_append ▸ bounded⟩
    · rintro rfl
      exact notSelf (List.mem_append_right _ member)
    · exact fun old => parts.2.2 ip old ip member rfl
  · rintro ⟨nodup, new, bounded⟩
    refine ⟨List.nodup_append.mpr ⟨connected.nodup, nodup, ?_⟩, ?_, ?_, ?_⟩
    · rintro ip old _ member rfl
      exact (new ip member).2.2 old
    · intro ip member
      rcases List.mem_append.mp member with old | member
      · exact connected.known ip old
      · exact (new ip member).1
    · intro self
      rcases List.mem_append.mp self with old | member
      · exact connected.notSelf old
      · exact (new myIp member).2.1 rfl
    · rw [List.length_append]
      exact bounded

theorem connections_add_nNew_le (connected : WellConnected myIp p) :
    p.connections.length + p.nNew ≤ nConn := by
  have bounded := connected.bounded
  rw [Peers.nNew]
  omega

theorem WellConnected.expandConnection_iff (connected : WellConnected myIp p)
    {ipsTmp : List Bytes} (shuffled : ipsTmp.Perm (p.ipList.sort (· ≤ ·))) :
    WellConnected myIp (p.expandConnection myIp ipsTmp) ↔ ExpandsSafely myIp p ipsTmp := by
  have known {ip : Bytes} (member : ip ∈ ipsTmp) : ip ∈ p.ipList :=
    (Finset.mem_sort _).mp (shuffled.mem_iff.mp member)
  have room := connections_add_nNew_le connected
  rw [expandConnection_eq, connected.append_iff, ExpandsSafely, picks, find_candidate]
  cases found : ipsTmp.find? (fun ip => ip ≠ myIp ∧ ip ∉ p.connections) with
  | some ip =>
    have candidate : ip ≠ myIp ∧ ip ∉ p.connections := by simpa using List.find?_some found
    by_cases empty : ip = []
    · have nothing : (List.replicate p.nNew ip).filter (· ≠ []) = [] := by simp [empty]
      simp only [nothing]
      exact iff_of_true ⟨List.nodup_nil, by simp, connected.bounded⟩ (.inr (.inl empty))
    · have all : (List.replicate p.nNew ip).filter (· ≠ []) = List.replicate p.nNew ip :=
        List.filter_eq_self.mpr fun other member =>
          decide_eq_true (List.eq_of_mem_replicate member ▸ empty)
      simp only [all, List.nodup_replicate, List.length_replicate]
      constructor
      · rintro ⟨few, -, -⟩
        rcases Nat.le_one_iff_eq_zero_or_eq_one.mp few with zero | one
        · exact .inl zero
        · exact .inr (.inr one)
      · intro safe
        have few : p.nNew ≤ 1 := by
          rcases safe with zero | rfl | one
          · omega
          · exact absurd rfl empty
          · omega
        refine ⟨few, fun other member => ?_, room⟩
        rw [List.eq_of_mem_replicate member]
        exact ⟨known (List.mem_of_find?_eq_some found), candidate⟩
  | none =>
    by_cases full : p.nNew = 0
    · simp only [if_pos full, List.filter_nil]
      exact iff_of_true ⟨List.nodup_nil, by simp, connected.bounded⟩ (.inl full)
    · simp only [if_neg full]
      by_cases empty : ipsTmp.getLastD [] = []
      · have nothing : [ipsTmp.getLastD []].filter (· ≠ []) = [] := by
          rw [empty]
          rfl
        rw [nothing]
        exact iff_of_true ⟨List.nodup_nil, by simp, connected.bounded⟩ (.inr empty)
      · have kept : [ipsTmp.getLastD []].filter (· ≠ []) = [ipsTmp.getLastD []] :=
          List.filter_cons_of_pos (decide_eq_true empty)
        have listed : ipsTmp.getLastD [] ∈ ipsTmp := by
          cases last : ipsTmp.getLast? with
          | none => exact absurd (by rw [List.getLastD_eq_getLast?, last]; rfl) empty
          | some ip =>
            rw [List.getLastD_eq_getLast?, last]
            exact List.mem_of_getLast? last
        have rejected := List.find?_eq_none.mp found _ listed
        rw [kept]
        refine iff_of_false ?_ fun safe => safe.elim full empty
        rintro ⟨-, new, -⟩
        have candidate := (new _ (List.mem_singleton_self _)).2
        exact rejected (decide_eq_true candidate)

theorem wellConnected_iff_of_step {q : Peers} {event : PeerEvent}
    (connected : WellConnected myIp p) (taken : PeerStep myIp p event q) :
    WellConnected myIp q ↔ SafeEvent myIp p event := by
  cases taken with
  | arguments argv => exact iff_of_true (connected.insertIps argv) trivial
  | hello ip => exact iff_of_true (connected.insertIps [ip]) trivial
  | ipList newIps => exact iff_of_true (connected.insertIps newIps) trivial
  | expand ipsTmp shuffled => exact connected.expandConnection_iff shuffled

/-- The table is sound all along a run exactly when every expansion is safe. -/
theorem connections_wellConnected_iff (myIp : Bytes) {history : List (Peers × PeerEvent)}
    {q : Peers} (run : Run (PeerStep myIp) .none history q) :
    Holds (WellConnected myIp) history q ↔ Meets (SafeEvent myIp) history := by
  have sharp (s : Peers) (event : PeerEvent) (t : Peers) :
      WellConnected myIp s → PeerStep myIp s event t →
        (WellConnected myIp t ↔ SafeEvent myIp s event) := wellConnected_iff_of_step
  exact run.holds_iff (wellConnected_none myIp) sharp

theorem perm_sort_toFinset {ips : List Bytes} (nodup : ips.Nodup) :
    ips.Perm (ips.toFinset.sort (· ≤ ·)) :=
  (List.perm_ext_iff_of_nodup nodup (Finset.sort_nodup _ _)).mpr fun ip => by
    rw [Finset.mem_sort, List.mem_toFinset]

theorem run_arguments_expand (myIp : Bytes) {ips : List Bytes} (nodup : ips.Nodup) :
    Run (PeerStep myIp) .none
      [(.none, .arguments ips), (Peers.none.insertIps ips, .expand ips)]
      ((Peers.none.insertIps ips).expandConnection myIp ips) := by
  have listed : (Peers.none.insertIps ips).ipList = ips.toFinset := Finset.empty_union _
  exact (Run.nil.snoc (.arguments .none ips)).snoc
    (.expand _ ips (listed ▸ perm_sort_toFinset nodup))

theorem connections_wellConnected_one_peer :
    WellConnected [0] ((Peers.none.insertIps [[1]]).expandConnection [0] [[1]]) := by
  have run := run_arguments_expand [0] (List.nodup_singleton [1])
  have safe : ExpandsSafely [0] (Peers.none.insertIps [[1]]) [[1]] := .inr (.inr (by decide))
  refine ((connections_wellConnected_iff [0] run).mpr ?_).2
  simp only [Meets, List.forall_mem_cons]
  exact ⟨trivial, safe, by simp⟩

theorem expandConnection_connects_twice :
    Run (PeerStep [0]) .none
      [(.none, .arguments [[1], [2]]), (Peers.none.insertIps [[1], [2]], .expand [[1], [2]])]
      ((Peers.none.insertIps [[1], [2]]).expandConnection [0] [[1], [2]]) ∧
    ((Peers.none.insertIps [[1], [2]]).expandConnection [0] [[1], [2]]).connections =
      [[1], [1]] ∧
    ¬ Holds (WellConnected [0])
      [(.none, PeerEvent.arguments [[1], [2]]),
        (Peers.none.insertIps [[1], [2]], PeerEvent.expand [[1], [2]])]
      ((Peers.none.insertIps [[1], [2]]).expandConnection [0] [[1], [2]]) := by
  have twice : ((Peers.none.insertIps [[1], [2]]).expandConnection [0] [[1], [2]]).connections =
      [[1], [1]] := by
    rw [expandConnection_eq]
    decide
  refine ⟨run_arguments_expand [0] (by decide), twice, fun holds => ?_⟩
  have nodup := holds.2.nodup
  rw [twice] at nodup
  exact absurd nodup (by decide)

end Pttp
