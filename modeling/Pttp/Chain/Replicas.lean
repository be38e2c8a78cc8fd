import Pttp.Chain.Reserialise
import Pttp.Chain.Runs

/-!
# Nodes that received the same transactions

A chain remembers what was added to it, not when and how often. So nodes that received the same
transactions hold the same ones, and `get_latest` gives them the same hash. The other way
round, the hash that it gives stands for the transactions that it selects.
-/

namespace Pttp.Chain

open HashTree Runs

section Definitions

variable (G : GenericHash) (creditSets : Codec Messages.CreditSet)
  (transactions : Codec Messages.Transaction)

def added (history : List (Cpp BlockChain × Op)) : Set Transaction :=
  {tx | ∃ s, (s, Op.add tx) ∈ history}

def Transaction.hashOf (tx : Transaction) : Bytes := hash G (tx.bytes creditSets transactions)

structure Holding (balance : Balances) (received : Set Transaction) (c : BlockChain) : Prop where
  consistent : Consistent G creditSets transactions c
  arrived : ∀ h tx, c.txs.lookup h = some tx → tx ∈ received
  kept : ∀ tx ∈ received, tx.hashOf G creditSets transactions ∈ c.txs
  balance : c.balance = balance

def BlockChain.selection (c : BlockChain) : List Transaction := c.selected.filterMap c.txs.lookup

/-- What is hashed for the root: the transactions, and the pairs above them. -/
def BlockChain.rootInputs (c : BlockChain) : List Bytes :=
  c.selection.map (·.bytes creditSets transactions) ++ hashVecInputs G c.selected

end Definitions

variable {G : GenericHash} {creditSets : Codec Messages.CreditSet}
  {transactions : Codec Messages.Transaction} {balance : Balances} {received : Set Transaction}
  {c c' : BlockChain}

theorem bytes_injective (creditSets : Codec Messages.CreditSet)
    (transactions : Codec Messages.Transaction) :
    Function.Injective fun tx : Transaction => tx.bytes creditSets transactions := by
  intro tx tx' same
  obtain ⟨sameSet, sameData⟩ := Messages.Transaction.mk.inj (write_injective transactions same)
  have sameCredits := Messages.CreditSet.mk.inj (write_injective creditSets sameSet)
  have pairs : Function.Injective fun credit : Credit =>
      (⟨credit.pub, credit.amount⟩ : Messages.Credit) := by
    rintro ⟨pub, amount⟩ ⟨pub', amount'⟩ equal
    obtain ⟨rfl, rfl⟩ := Messages.Credit.mk.inj equal
    rfl
  have signatures : Function.Injective fun data : Bytes => (⟨0, data⟩ : Messages.Witness) := by
    intro data data' equal
    exact (Messages.Witness.mk.inj equal).2
  have credits := List.map_injective_iff.mpr pairs sameCredits
  have witnesses := List.map_injective_iff.mpr signatures sameData
  cases tx
  cases tx'
  exact congrArg₂ Transaction.mk credits witnesses

/-! ## What a run has received -/

theorem added_add (history : List (Cpp BlockChain × Op)) (s : Cpp BlockChain) (tx : Transaction) :
    added (history ++ [(s, .add tx)]) = insert tx (added history) := by
  ext other
  constructor
  · rintro ⟨r, visit⟩
    rcases List.mem_append.mp visit with earlier | last
    · exact .inr ⟨r, earlier⟩
    · exact .inl (Op.add.inj (Prod.mk.inj (List.mem_singleton.mp last)).2)
  · rintro (rfl | ⟨r, earlier⟩)
    · exact ⟨s, List.mem_append_right _ (List.mem_singleton_self _)⟩
    · exact ⟨r, List.mem_append_left _ earlier⟩

theorem added_getLatest (history : List (Cpp BlockChain × Op)) (s : Cpp BlockChain) :
    added (history ++ [(s, .getLatest)]) = added history := by
  ext other
  simp [added]

theorem exists_added (G : GenericHash) (creditSets : Codec Messages.CreditSet)
    (transactions : Codec Messages.Transaction) (balance : Balances) (txs : List Transaction) :
    ∃ history c, Run (Step G creditSets transactions) (.ok (.fresh balance)) history (.ok c) ∧
      history.map Prod.snd = txs.map .add ∧ added history = {tx | tx ∈ txs} := by
  induction txs using List.reverseRecOn with
  | nil =>
    refine ⟨[], _, .nil, rfl, ?_⟩
    ext tx
    simp [added]
  | append_singleton txs tx ih =>
    obtain ⟨history, c, run, ops, received⟩ := ih
    have taken : Step G creditSets transactions (.ok c) (.add tx)
      (.ok (c.add G creditSets transactions tx)) := ⟨c, rfl, rfl⟩
    refine ⟨_, _, run.snoc taken, ?_, ?_⟩
    · rw [List.map_append, List.map_append, ops]
      rfl
    · rw [added_add, received]
      ext other
      simp [or_comm]

theorem holding_fresh (balance : Balances) :
    Holding G creditSets transactions balance (added []) (.fresh balance) where
  consistent := consistent_fresh G creditSets transactions balance
  arrived h tx found := by
    rw [BlockChain.fresh, Finmap.lookup_empty] at found
    cases found
  kept tx member := by
    obtain ⟨s, visit⟩ := member
    cases visit
  balance := rfl

theorem Holding.add (holding : Holding G creditSets transactions balance received c)
    (tx : Transaction) :
    Holding G creditSets transactions balance (insert tx received)
      (c.add G creditSets transactions tx) := by
  refine ⟨holding.consistent.add tx, ?_, ?_, ?_⟩
  · intro h other found
    rw [BlockChain.add] at found
    split at found
    case isTrue => exact .inr (holding.arrived h other found)
    case isFalse =>
      by_cases new : h = hash G (tx.bytes creditSets transactions)
      · subst new
        rw [Finmap.lookup_insert] at found
        exact .inl (Option.some.inj found).symm
      · rw [Finmap.lookup_insert_of_ne _ new] at found
        exact .inr (holding.arrived h other found)
  · intro other member
    rw [BlockChain.add]
    split
    case isTrue there =>
      rcases member with rfl | earlier
      · exact there
      · exact holding.kept other earlier
    case isFalse =>
      rw [Finmap.mem_insert]
      rcases member with rfl | earlier
      · exact .inl rfl
      · exact .inr (holding.kept other earlier)
  · rw [BlockChain.add]
    split
    · exact holding.balance
    · exact holding.balance

theorem run_holding {history : List (Cpp BlockChain × Op)} {t : Cpp BlockChain}
    (run : Run (Step G creditSets transactions) (.ok (.fresh balance)) history t) :
    ∀ c, t = .ok c → Holding G creditSets transactions balance (added history) c := by
  induction run with
  | nil =>
    rintro c same
    obtain rfl := Except.ok.inj same
    exact holding_fresh balance
  | @snoc history s t op before taken ih =>
    obtain ⟨c, rfl, rfl⟩ := taken
    have holding := ih c rfl
    rintro c' made
    cases op with
    | add tx =>
      obtain rfl := Except.ok.inj made
      rw [added_add]
      exact holding.add tx
    | getLatest =>
      rw [added_getLatest]
      rcases holding.consistent.exec_getLatest with ⟨-, h, returned⟩ | ⟨-, failed⟩
      · rw [returned] at made
        obtain rfl := Except.ok.inj made
        exact ⟨⟨holding.consistent.mem_mempool_iff, holding.consistent.hash_eq⟩,
          holding.arrived, holding.kept, holding.balance⟩
      · rw [failed] at made
        cases made

/-! ## The same transactions -/

theorem Holding.lookup_iff (holding : Holding G creditSets transactions balance received c)
    (apart : Set.InjOn (Transaction.hashOf G creditSets transactions) received) (h : Bytes)
    (tx : Transaction) :
    c.txs.lookup h = some tx ↔ tx ∈ received ∧ tx.hashOf G creditSets transactions = h := by
  constructor
  · intro found
    exact ⟨holding.arrived h tx found, holding.consistent.hash_eq h tx found⟩
  · rintro ⟨member, rfl⟩
    obtain ⟨other, found⟩ := Finmap.mem_iff.mp (holding.kept tx member)
    have same := holding.consistent.hash_eq _ other found
    rw [found, apart (holding.arrived _ other found) member same]

theorem Holding.unique (holding : Holding G creditSets transactions balance received c)
    (holding' : Holding G creditSets transactions balance received c')
    (apart : Set.InjOn (Transaction.hashOf G creditSets transactions) received) :
    c'.txs = c.txs ∧ c'.mempool = c.mempool := by
  have txs : c'.txs = c.txs := by
    apply Finmap.ext_lookup
    intro h
    apply Option.ext
    intro tx
    rw [holding.lookup_iff apart, holding'.lookup_iff apart]
  refine ⟨txs, Finset.ext fun h => ?_⟩
  rw [holding.consistent.mem_mempool_iff, holding'.consistent.mem_mempool_iff, txs]

/-- Nodes that have received the same transactions hold the same ones, select the same ones and
are given the same hash, whatever the order, the repetitions and the calls of `get_latest` in
between. -/
theorem run_replicas_agree {history history' : List (Cpp BlockChain × Op)}
    (run : Run (Step G creditSets transactions) (.ok (.fresh balance)) history (.ok c))
    (run' : Run (Step G creditSets transactions) (.ok (.fresh balance)) history' (.ok c'))
    (same : added history = added history')
    (apart : Set.InjOn (Transaction.hashOf G creditSets transactions) (added history)) :
    c'.txs = c.txs ∧ c'.mempool = c.mempool ∧ c'.selection = c.selection ∧
      Prod.fst <$> c'.getLatest G = Prod.fst <$> c.getLatest G := by
  have holding := run_holding run c rfl
  have holding' := run_holding run' c' rfl
  rw [← same] at holding'
  obtain ⟨txs, mempool⟩ := holding.unique holding' apart
  have balances : c'.balance = c.balance := holding'.balance.trans holding.balance.symm
  refine ⟨txs, mempool, ?_, ?_⟩
  · simp only [BlockChain.selection, BlockChain.selected, BlockChain.ordered, txs, mempool,
      balances]
  · simp only [BlockChain.getLatest, BlockChain.ordered, txs, mempool, balances, map_bind]

/-- A hash that tells some byte strings from one another and from all others, by their places. -/
def telling (inputs : List Bytes) : GenericHash where
  digest n m := List.replicate n (UInt8.ofNat (inputs.idxOf m))
  length_digest _ _ := List.length_replicate

theorem hash_telling (inputs : List Bytes) (m : Bytes) :
    hash (telling inputs) m = List.replicate 32 (UInt8.ofNat (inputs.idxOf m)) := rfl

theorem not_collision_telling {inputs l : List Bytes} (few : inputs.length ≤ 256)
    (told : l ⊆ inputs) : ¬ Collision (telling inputs) l := by
  rintro ⟨x, inX, y, inY, different, same⟩
  have places : UInt8.ofNat (inputs.idxOf x) = UInt8.ofNat (inputs.idxOf y) := by
    rw [hash_telling, hash_telling] at same
    exact (List.replicate_inj.mp same).2.resolve_left (by decide)
  have below := List.idxOf_lt_length_of_mem (told inX)
  have below' := List.idxOf_lt_length_of_mem (told inY)
  have equal := congrArg UInt8.toNat places
  rw [UInt8.toNat_ofNat_of_lt' (below.trans_le few),
    UInt8.toNat_ofNat_of_lt' (below'.trans_le few)] at equal
  exact different ((List.idxOf_inj (told inX)).mp equal)

def payment (pub : UInt8) : Transaction := ⟨[⟨[pub], 5⟩], []⟩

def paymentBytes (pub : UInt8) : Bytes :=
  (payment pub).bytes (.ofEncodable _) (.ofEncodable _)

theorem paymentBytes_ne : paymentBytes 8 ≠ paymentBytes 7 := by
  intro same
  have equal := bytes_injective _ _ same
  exact absurd equal (by decide)

theorem run_replicas_agree_twoPayments :
    ∃ history history', ∃ c c' : BlockChain,
      Run (Step (telling [paymentBytes 7]) (.ofEncodable _) (.ofEncodable _)) (.ok (.fresh ∅))
        history (.ok c) ∧
      Run (Step (telling [paymentBytes 7]) (.ofEncodable _) (.ofEncodable _)) (.ok (.fresh ∅))
        history' (.ok c') ∧
      history.map Prod.snd = [.add (payment 7), .add (payment 8)] ∧
      history'.map Prod.snd = [.add (payment 8), .add (payment 7), .add (payment 8)] ∧
      c'.txs = c.txs ∧ c'.selection = c.selection := by
  obtain ⟨history, c, run, ops, received⟩ := exists_added (telling [paymentBytes 7])
    (.ofEncodable _) (.ofEncodable _) ∅ [payment 7, payment 8]
  obtain ⟨history', c', run', ops', received'⟩ := exists_added (telling [paymentBytes 7])
    (.ofEncodable _) (.ofEncodable _) ∅ [payment 8, payment 7, payment 8]
  have same := run_replicas_agree run run' (by
    rw [received, received']
    ext tx
    simp
    tauto) (by
    rw [received]
    have apart : (payment 7).hashOf (telling [paymentBytes 7]) (.ofEncodable _) (.ofEncodable _) ≠
        (payment 8).hashOf (telling [paymentBytes 7]) (.ofEncodable _) (.ofEncodable _) := by
      change hash _ (paymentBytes 7) ≠ hash _ (paymentBytes 8)
      rw [hash_telling, hash_telling, List.idxOf_cons_self, List.idxOf_cons_ne _ paymentBytes_ne.symm]
      decide
    intro tx member tx' member' equal
    simp only [List.mem_cons, List.not_mem_nil, or_false, Set.mem_ofPred_eq] at member member'
    rcases member with rfl | rfl <;> rcases member' with rfl | rfl
    · rfl
    · exact absurd equal apart
    · exact absurd equal.symm apart
    · rfl)
  exact ⟨history, history', c, c', run, run', ops, ops', same.1, same.2.2.1⟩

/-! ## The same hash -/

theorem collision_mono {inputs inputs' : List Bytes} (more : inputs ⊆ inputs')
    (collision : Collision G inputs) : Collision G inputs' := by
  obtain ⟨x, inX, y, inY, collide⟩ := collision
  exact ⟨x, more inX, y, more inY, collide⟩

theorem rootInputs_comm (c c' : BlockChain) :
    c.rootInputs G creditSets transactions ++ c'.rootInputs G creditSets transactions ⊆
      c'.rootInputs G creditSets transactions ++ c.rootInputs G creditSets transactions :=
  fun _ member => List.mem_append.mpr (List.mem_append.mp member).symm

theorem length_of_mem_hashVecInputs {leaves : List Bytes} (sized : ∀ a ∈ leaves, a.length = 32) :
    ∀ b ∈ hashVecInputs G leaves, b.length = 64 := by
  intro b member
  rw [hashVecInputs_eq] at member
  obtain ⟨p, visit, rfl⟩ := List.mem_map.mp member
  obtain ⟨k, -, inPairs⟩ := mem_visited.mp visit
  have level := forall_mem_level (hashTwin G) (fun _ _ => length_hash G _) sized k
  obtain ⟨first, second⟩ := mem_of_mem_pairs inPairs
  rw [List.length_append, level _ first, level _ second]

section Selection

variable (consistent : Consistent G creditSets transactions c)

include consistent

theorem Consistent.map_selection :
    c.selection.map (Transaction.hashOf G creditSets transactions) = c.selected := by
  have known : ∀ h ∈ c.selected, h ∈ c.txs := by
    intro h member
    have inMempool := (Finset.mem_sort _).mp ((selected_sublist c).mem member)
    exact (consistent.mem_mempool_iff h).mp inMempool
  unfold BlockChain.selection
  generalize c.selected = hashes at known
  induction hashes with
  | nil => rfl
  | cons h hashes ih =>
    rw [List.forall_mem_cons] at known
    obtain ⟨tx, found⟩ := Finmap.mem_iff.mp known.1
    have first : tx.hashOf G creditSets transactions = h := consistent.hash_eq h tx found
    rw [List.filterMap_cons_some (f := (c.txs.lookup ·)) found, List.map_cons, ih known.2, first]

theorem Consistent.length_selected : ∀ h ∈ c.selected, h.length = 32 := by
  intro h member
  rw [← consistent.map_selection] at member
  obtain ⟨tx, -, rfl⟩ := List.mem_map.mp member
  exact length_hash G _

end Selection

theorem nodup_selected (c : BlockChain) : c.selected.Nodup :=
  (Finset.sort_nodup _ _).sublist (selected_sublist c)

/-- A selected hash is not the node above a pair of another tree. -/
theorem Consistent.node_notMem_selected (consistent : Consistent G creditSets transactions c)
    (consistent' : Consistent G creditSets transactions c')
    (free : ¬ Collision G (c.rootInputs G creditSets transactions ++
      c'.rootInputs G creditSets transactions))
    (wide : ∀ tx ∈ c'.selection, (tx.bytes creditSets transactions).length ≠ 64) :
    ∀ p ∈ visited (hashTwin G) c.selected (height c.selected.length),
      hashTwin G p.1 p.2 ∉ c'.selected := by
  intro p visit leaf
  have input : p.1 ++ p.2 ∈ hashVecInputs G c.selected := by
    rw [hashVecInputs_eq]
    exact List.mem_map.mpr ⟨p, visit, rfl⟩
  rw [← consistent'.map_selection] at leaf
  obtain ⟨tx, member, same⟩ := List.mem_map.mp leaf
  have bytes : tx.bytes creditSets transactions = p.1 ++ p.2 := by
    by_contra different
    refine free ⟨_, ?_, _, ?_, different, same⟩
    · refine List.mem_append_right _ (List.mem_append_left _ ?_)
      exact List.mem_map.mpr ⟨tx, member, rfl⟩
    · exact List.mem_append_left _ (List.mem_append_right _ input)
  apply wide tx member
  rw [bytes]
  exact length_of_mem_hashVecInputs consistent.length_selected _ input

theorem Consistent.selection_eq_iff (consistent : Consistent G creditSets transactions c)
    (consistent' : Consistent G creditSets transactions c')
    (free : ¬ Collision G (c.rootInputs G creditSets transactions ++
      c'.rootInputs G creditSets transactions)) :
    c.selection = c'.selection ↔ c.selected = c'.selected := by
  rw [← consistent.map_selection, ← consistent'.map_selection]
  refine ⟨congrArg _, fun same => ?_⟩
  have length : c.selection.length = c'.selection.length := by
    simpa using congrArg List.length same
  apply List.ext_getElem length
  intro i inside inside'
  apply bytes_injective creditSets transactions
  by_contra different
  refine free ⟨_, ?_, _, ?_, different, ?_⟩
  · refine List.mem_append_left _ (List.mem_append_left _ ?_)
    exact List.mem_map.mpr ⟨_, List.getElem_mem inside, rfl⟩
  · refine List.mem_append_right _ (List.mem_append_left _ ?_)
    exact List.mem_map.mpr ⟨_, List.getElem_mem inside', rfl⟩
  · have here := congrArg (·[i]?) same
    simp only [List.getElem?_map, List.getElem?_eq_getElem inside,
      List.getElem?_eq_getElem inside', Option.map_some, Option.some.injEq] at here
    exact here

/-- Two nodes are given one hash by `get_latest` exactly when they select the same transactions,
however many each of them selects, if on the way to the two roots no two inputs have one hash,
and no transaction is written in as many bytes as a pair of hashes. -/
theorem run_latestHash_iff {balance' : Balances} {history history' : List (Cpp BlockChain × Op)}
    {d d' : BlockChain} {h h' : Bytes}
    (run : Run (Step G creditSets transactions) (.ok (.fresh balance)) history (.ok c))
    (run' : Run (Step G creditSets transactions) (.ok (.fresh balance')) history' (.ok c'))
    (returned : c.getLatest G = .ok (h, d)) (returned' : c'.getLatest G = .ok (h', d'))
    (free : ¬ Collision G (c.rootInputs G creditSets transactions ++
      c'.rootInputs G creditSets transactions))
    (wide : ∀ tx ∈ c.selection ++ c'.selection,
      (tx.bytes creditSets transactions).length ≠ 64) :
    h = h' ↔ c.selection = c'.selection := by
  have consistent := (run_holding run c rfl).consistent
  have consistent' := (run_holding run' c' rfl).consistent
  obtain ⟨-, root, -⟩ := getLatest_eq_ok_iff.mp returned
  obtain ⟨-, root', -⟩ := getLatest_eq_ok_iff.mp returned'
  rw [consistent.selection_eq_iff consistent' free]
  constructor
  · rintro rfl
    obtain ⟨nonempty, top⟩ := (hashVec_eq_ok_iff G).mp root
    obtain ⟨nonempty', top'⟩ := (hashVec_eq_ok_iff G).mp root'
    have free' : ¬ Collision G (c'.rootInputs G creditSets transactions ++
        c.rootInputs G creditSets transactions) := mt (collision_mono (rootInputs_comm c' c)) free
    have nodes : hashVecInputs G c.selected ++ hashVecInputs G c'.selected ⊆
        c.rootInputs G creditSets transactions ++ c'.rootInputs G creditSets transactions :=
      List.append_subset.mpr
        ⟨List.subset_append_of_subset_left _ (List.subset_append_right _ _),
          List.subset_append_of_subset_right _ (List.subset_append_right _ _)⟩
    have binding := binding_of_not_collision G consistent.length_selected
      consistent'.length_selected (mt (collision_mono nodes) free)
    have members := mem_iff_of_level_eq nonempty nonempty'
      (consistent.node_notMem_selected consistent' free fun tx member =>
        wide tx (List.mem_append_right _ member))
      (consistent'.node_notMem_selected consistent free' fun tx member =>
        wide tx (List.mem_append_left _ member))
      binding (top.trans top'.symm)
    have perm : c.selected.Perm c'.selected :=
      (List.perm_ext_iff_of_nodup (nodup_selected c) (nodup_selected c')).mpr members
    exact perm.eq_of_pairwise (fun _ _ _ _ => le_antisymm) (selected_pairwise c)
      (selected_pairwise c')
  · intro same
    rw [same] at root
    exact Cpp.ok_unique root root'

/-- What a chain selects to which one payment was added. -/
theorem selected_payment (G : GenericHash) (creditSets : Codec Messages.CreditSet)
    (transactions : Codec Messages.Transaction) (pub : UInt8) :
    ((BlockChain.fresh ∅).add G creditSets transactions (payment pub)).selected =
      [(payment pub).hashOf G creditSets transactions] := by
  have valid : HasValid ((BlockChain.fresh ∅).add G creditSets transactions (payment pub)) :=
    hasValid_add_fresh rfl
  have sublist := selected_sublist
    ((BlockChain.fresh ∅).add G creditSets transactions (payment pub))
  have ordered : ((BlockChain.fresh ∅).add G creditSets transactions (payment pub)).ordered =
      [(payment pub).hashOf G creditSets transactions] := Finset.sort_singleton _ _
  rw [ordered] at sublist
  exact (List.sublist_singleton.mp sublist).resolve_left ((selected_ne_nil_iff _).mpr valid)

theorem selection_payment (G : GenericHash) (creditSets : Codec Messages.CreditSet)
    (transactions : Codec Messages.Transaction) (pub : UInt8) :
    ((BlockChain.fresh ∅).add G creditSets transactions (payment pub)).selection =
      [payment pub] := by
  have found : ((BlockChain.fresh ∅).add G creditSets transactions (payment pub)).txs.lookup
      ((payment pub).hashOf G creditSets transactions) = some (payment pub) :=
    Finmap.lookup_insert _
  rw [BlockChain.selection, selected_payment]
  simp [found]

/-- More bytes than two hashes have. -/
def longTransactions : Codec Messages.Transaction where
  write t := List.replicate (65 + Encodable.encode t) 0
  decode b := Encodable.decode (b.length - 65)
  decode_write t := by rw [List.length_replicate, Nat.add_sub_cancel_left, Encodable.encodek]

def longBytes (pub : UInt8) : Bytes := (payment pub).bytes (.ofEncodable _) longTransactions

theorem longBytes_ne : longBytes 8 ≠ longBytes 7 := by
  intro same
  have equal := bytes_injective _ _ same
  exact absurd equal (by decide)

theorem length_bytes_longTransactions (tx : Transaction) :
    (tx.bytes (.ofEncodable _) longTransactions).length ≠ 64 := by
  have long : 65 ≤ (tx.bytes (.ofEncodable _) longTransactions).length :=
    (Nat.le_add_right _ _).trans (List.length_replicate ..).ge
  omega

def tellingLong : GenericHash :=
  telling [longBytes 7, List.replicate 32 0 ++ List.replicate 32 0,
    longBytes 8, List.replicate 32 2 ++ List.replicate 32 2]

theorem getLatest_payment (G : GenericHash) (creditSets : Codec Messages.CreditSet)
    (transactions : Codec Messages.Transaction) (pub : UInt8) :
    ∃ h d, ((BlockChain.fresh ∅).add G creditSets transactions (payment pub)).getLatest G =
      .ok (h, d) := by
  have consistent := (consistent_fresh G creditSets transactions ∅).add (payment pub)
  have nonempty : ((BlockChain.fresh ∅).add G creditSets transactions (payment pub)).selected ≠
      [] := selected_payment G creditSets transactions pub ▸ List.cons_ne_nil _ _
  obtain ⟨h, hashed, -⟩ := hashVec_of_ne_nil G nonempty
  exact ⟨h, _, getLatest_eq_ok_iff.mpr
    ⟨fun k => (consistent.mem_mempool_iff k).mp, hashed, rfl⟩⟩

theorem rootInputs_payment (pub : UInt8) {leaf : Bytes}
    (leaf_eq : (payment pub).hashOf tellingLong (.ofEncodable _) longTransactions = leaf) :
    ((BlockChain.fresh ∅).add tellingLong (.ofEncodable _) longTransactions
      (payment pub)).rootInputs tellingLong (.ofEncodable _) longTransactions =
        [longBytes pub, leaf ++ leaf] := by
  rw [BlockChain.rootInputs, selection_payment, selected_payment, leaf_eq, hashVecInputs,
    loopInputs]
  rfl

/-- One payment each, and to other accounts. -/
theorem run_latestHash_iff_payments :
    ∃ c c' d d' h h', ∃ history history',
      Run (Step tellingLong (.ofEncodable _) longTransactions) (.ok (.fresh ∅)) history (.ok c) ∧
      Run (Step tellingLong (.ofEncodable _) longTransactions) (.ok (.fresh ∅)) history'
        (.ok c') ∧
      c.getLatest tellingLong = .ok (h, d) ∧ c'.getLatest tellingLong = .ok (h', d') ∧
      h ≠ h' := by
  have first : Step tellingLong (.ofEncodable _) longTransactions (.ok (.fresh ∅))
      (.add (payment 7)) (.ok _) := ⟨_, rfl, rfl⟩
  have second : Step tellingLong (.ofEncodable _) longTransactions (.ok (.fresh ∅))
      (.add (payment 8)) (.ok _) := ⟨_, rfl, rfl⟩
  obtain ⟨h, d, returned⟩ := getLatest_payment tellingLong (.ofEncodable _) longTransactions 7
  obtain ⟨h', d', returned'⟩ := getLatest_payment tellingLong (.ofEncodable _) longTransactions 8
  have leaf : (payment 7).hashOf tellingLong (.ofEncodable _) longTransactions =
      List.replicate 32 0 := by
    change hash _ (longBytes 7) = _
    rw [tellingLong, hash_telling, List.idxOf_cons_self]
    rfl
  have leaf' : (payment 8).hashOf tellingLong (.ofEncodable _) longTransactions =
      List.replicate 32 2 := by
    have long : List.replicate 32 0 ++ List.replicate 32 0 ≠ longBytes 8 := fun same =>
      length_bytes_longTransactions (payment 8) (congrArg List.length same).symm
    change hash _ (longBytes 8) = _
    rw [tellingLong, hash_telling, List.idxOf_cons_ne _ longBytes_ne.symm,
      List.idxOf_cons_ne _ long, List.idxOf_cons_self]
    rfl
  have same := run_latestHash_iff (Run.nil.snoc first) (Run.nil.snoc second) returned returned'
    (by
      rw [rootInputs_payment 7 leaf, rootInputs_payment 8 leaf']
      exact not_collision_telling (by decide) fun _ => id)
    (fun tx _ => length_bytes_longTransactions tx)
  refine ⟨_, _, d, d', h, h', _, _, Run.nil.snoc first, Run.nil.snoc second, returned, returned',
    fun equal => ?_⟩
  have selections := same.mp equal
  rw [selection_payment, selection_payment] at selections
  exact absurd selections (by decide)

end Pttp.Chain
