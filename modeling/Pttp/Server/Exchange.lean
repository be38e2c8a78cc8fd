import Pttp.Server

/-!
# Fetching a set

The filter advertised for a hash is that of `full_set`, so it describes the set
served for the hash only as far as the two share places. And the client keeps the
transactions it receives, where the server tests hashes: what was fetched keeps
being sent unless it happens to share a place with something the client has.
-/

namespace Pttp

variable (S : ShortHash)

/-! ## The advertised filter -/

/-- The reply to REQ_SET_FILTER for `h` has the count of `hash_sets[h]`, and its
filter accepts all of it. -/
def Advertises (srv : Server) (key h : Bytes) : Prop :=
  ∃ set filter g, srv.hashSets.lookup h = some set ∧
    srv.reqSetFilter S key (.txSetHash h) = .ok (.setFilter filter) ∧
    filter.n.toNat = set.length ∧
    Bloom.ofWire filter.bloom.data filter.bloom.p.toUInt64 filter.bloom.hashKey = .ok g ∧
    ∀ s ∈ set, g.has S s = .ok true

variable {S}

theorem advertises_iff {srv : Server} {key h : Bytes} {set : List Bytes}
    (keyed : key.length = 16) (stored : srv.hashSets.lookup h = some set) :
    Advertises S srv key h ↔ srv.fullSet.card % 2 ^ 64 = set.length ∧
      ∀ s ∈ set, ∃ t ∈ srv.fullSet, S.place key 4999 t = S.place key 4999 s := by
  obtain ⟨data, g, replied, rebuilt, sameP, sameKey, represents⟩ :=
    srv.reqSetFilter_eq (S := S) keyed.ge (.txSetHash h)
  have count : (UInt64.ofNat srv.fullSet.card).toNat = srv.fullSet.card % 2 ^ 64 :=
    UInt64.toNat_ofNat'
  have accepts : ∀ s, g.has S s = .ok true ↔
      ∃ t ∈ srv.fullSet, S.place key 4999 t = S.place key 4999 s := by
    intro s
    rw [represents.has_iff, sameP, sameKey]
    rfl
  constructor
  · rintro ⟨set', filter, g', stored', replied', counted, rebuilt', all⟩
    obtain rfl := Option.some.inj (stored.symm.trans stored')
    obtain rfl := Reply.setFilter.inj (Cpp.ok_unique replied replied')
    obtain rfl := Cpp.ok_unique rebuilt rebuilt'
    refine ⟨count ▸ counted, ?_⟩
    intro s member
    exact (accepts s).mp (all s member)
  · rintro ⟨counted, shared⟩
    refine ⟨set, _, g, stored, replied, count.trans counted, rebuilt, ?_⟩
    intro s member
    exact (accepts s).mpr (shared s member)

theorem advertises_served :
    Advertises .firstBytes ⟨Chain.BlockChain.fresh ∅, Finmap.singleton [9] [[1], [2]], {[1], [2]}⟩
      (List.replicate 16 0) [9] := by
  refine (advertises_iff rfl (Finmap.lookup_singleton_eq)).mpr ⟨rfl, ?_⟩
  intro s member
  exact ⟨s, by simpa using member, rfl⟩

theorem not_advertises_unfetched :
    ¬ Advertises .firstBytes ⟨Chain.BlockChain.fresh ∅, Finmap.singleton [9] [[1], [2]], ∅⟩
      (List.replicate 16 0) [9] := by
  rintro ⟨set, filter, g, stored, replied, counted, -⟩
  have keyed : 16 ≤ (List.replicate 16 (0 : UInt8)).length := le_rfl
  obtain ⟨data, g, replied', -⟩ := Server.reqSetFilter_eq (S := .firstBytes)
    ⟨Chain.BlockChain.fresh ∅, Finmap.singleton [9] [[1], [2]], ∅⟩ keyed (.txSetHash [9])
  obtain rfl := Option.some.inj (Finmap.lookup_singleton_eq.symm.trans stored)
  obtain rfl := Reply.setFilter.inj (Cpp.ok_unique replied' replied)
  cases counted

/-! ## The exchange -/

section Exchange

variable (S : ShortHash) (creditSets : Codec Messages.CreditSet)
  (transactions : Codec Messages.Transaction)

def requestSet (key : Bytes) (fullSet : Finset Bytes) (h : Bytes) : Cpp Messages.ReqSet := do
  let bloom ← Bloom.ofSet S key (fullSet.sort (· ≤ ·))
  let bloomSet ← announce bloom
  return ⟨.txSetHash h, bloomSet⟩

/-- One exchange, the reply read as it was put: what was transferred, and the
client's `full_set` with it. -/
def exchange (srv : Server) (key : Bytes) (fullSet : Finset Bytes) (h : Bytes) :
    Cpp (List Bytes × Finset Bytes) := do
  let request ← requestSet S key fullSet h
  let reply ← srv.reqSet S creditSets transactions request
  match reply with
  | .set hashset => return (hashset, fullSet ∪ hashset.toFinset)
  | _ => return ([], fullSet)

def FetchedAtOnce (srv : Server) (key1 key2 : Bytes) (fullSet : Finset Bytes) (h : Bytes) : Prop :=
  ∃ hashset fullSet' fullSet'',
    exchange S creditSets transactions srv key1 fullSet h = .ok (hashset, fullSet') ∧
    exchange S creditSets transactions srv key2 fullSet' h = .ok ([], fullSet'')

/-- No element of the set shares the place of `s`. -/
def Missing (key : Bytes) (fullSet : Finset Bytes) (s : Bytes) : Prop :=
  ∀ t ∈ fullSet, S.place key 4999 t ≠ S.place key 4999 s

instance decidableMissing (key : Bytes) (fullSet : Finset Bytes) (s : Bytes) :
    Decidable (Missing S key fullSet s) :=
  inferInstanceAs (Decidable (∀ t ∈ fullSet, S.place key 4999 t ≠ S.place key 4999 s))

variable {S} in
theorem not_missing_iff {key : Bytes} {fullSet : Finset Bytes} {s : Bytes} :
    ¬ Missing S key fullSet s ↔ ∃ t ∈ fullSet, S.place key 4999 t = S.place key 4999 s := by
  simp [Missing]

def sentItems (srv : Server) (key : Bytes) (fullSet : Finset Bytes) (set : List Bytes) :
    List Bytes :=
  (set.filter (Missing S key fullSet)).map (Server.item creditSets transactions srv.chain.txs)

variable {S creditSets transactions}

theorem exchange_eq {srv : Server} {key h : Bytes} {set : List Bytes} (keyed : key.length = 16)
    (known : srv.hashSets.lookup h = some set) (stored : ∀ s ∈ set, s ∈ srv.chain.txs)
    (fullSet : Finset Bytes) :
    exchange S creditSets transactions srv key fullSet h =
      .ok (sentItems S creditSets transactions srv key fullSet set,
        fullSet ∪ (sentItems S creditSets transactions srv key fullSet set).toFinset) := by
  obtain ⟨f, data, g, made, announced, rebuilt, sameP, sameKey, represents⟩ :=
    Server.announce_ofSet (S := S) keyed.ge (fullSet.sort (· ≤ ·))
  have requested : requestSet S key fullSet h = .ok ⟨.txSetHash h, ⟨4999, data, key⟩⟩ := by
    unfold requestSet
    rw [made, Cpp.ok_bind, announced]
    rfl
  have tested : ∀ s, g.has S s ≠ .ok true ↔ Missing S key fullSet s := by
    intro s
    rw [Ne, represents.has_iff, sameP, sameKey]
    simp [Missing]
  have replied : srv.reqSet S creditSets transactions ⟨.txSetHash h, ⟨4999, data, key⟩⟩ = _ :=
    Server.reqSet_of_lookup known stored ⟨4999, data, key⟩ rebuilt represents.toUsable
  simp only [tested] at replied
  unfold exchange
  rw [requested, Cpp.ok_bind, replied, Cpp.ok_bind]
  rfl

theorem sentItems_eq_nil_iff {srv : Server} {key : Bytes} {fullSet : Finset Bytes}
    {set : List Bytes} :
    sentItems S creditSets transactions srv key fullSet set = [] ↔
      ∀ s ∈ set, ∃ t ∈ fullSet, S.place key 4999 t = S.place key 4999 s := by
  unfold sentItems
  rw [List.map_eq_nil_iff, List.filter_eq_nil_iff]
  simp only [decide_eq_true_eq, not_missing_iff]

theorem fetchedAtOnce_iff_sentItems {srv : Server} {key1 key2 h : Bytes} {set : List Bytes}
    (keyed1 : key1.length = 16) (keyed2 : key2.length = 16)
    (known : srv.hashSets.lookup h = some set) (stored : ∀ s ∈ set, s ∈ srv.chain.txs)
    (fullSet : Finset Bytes) :
    FetchedAtOnce S creditSets transactions srv key1 key2 fullSet h ↔
      sentItems S creditSets transactions srv key2
        (fullSet ∪ (sentItems S creditSets transactions srv key1 fullSet set).toFinset) set =
        [] := by
  unfold FetchedAtOnce
  rw [exchange_eq keyed1 known stored]
  constructor
  · rintro ⟨_, _, _, first, second⟩
    obtain ⟨rfl, rfl⟩ := Prod.mk.inj (Except.ok.inj first)
    rw [exchange_eq keyed2 known stored] at second
    exact (Prod.mk.inj (Except.ok.inj second)).1
  · intro none
    have second : exchange S creditSets transactions srv key2 _ h = _ := exchange_eq keyed2 known
      stored (fullSet ∪ (sentItems S creditSets transactions srv key1 fullSet set).toFinset)
    rw [none] at second
    exact ⟨_, _, _, rfl, second⟩

/-- The second exchange transfers nothing when every hash shares its place, under
the second key, with an element the client had or with a transaction it got. -/
theorem fetchedAtOnce_iff {srv : Server} {key1 key2 h : Bytes} {set : List Bytes}
    (keyed1 : key1.length = 16) (keyed2 : key2.length = 16)
    (known : srv.hashSets.lookup h = some set) (stored : ∀ s ∈ set, s ∈ srv.chain.txs)
    (fullSet : Finset Bytes) :
    FetchedAtOnce S creditSets transactions srv key1 key2 fullSet h ↔
      ∀ s ∈ set, (∃ t ∈ fullSet, S.place key2 4999 t = S.place key2 4999 s) ∨
        ∃ r ∈ set, Missing S key1 fullSet r ∧
          S.place key2 4999 (Server.item creditSets transactions srv.chain.txs r) =
            S.place key2 4999 s := by
  rw [fetchedAtOnce_iff_sentItems keyed1 keyed2 known stored, sentItems_eq_nil_iff]
  refine forall₂_congr fun s _ => ?_
  simp only [sentItems, Finset.mem_union, List.mem_toFinset, List.mem_map, List.mem_filter,
    decide_eq_true_eq, or_and_right, exists_or]
  apply or_congr_right
  constructor
  · rintro ⟨_, ⟨r, ⟨member, missing⟩, rfl⟩, shared⟩
    exact ⟨r, member, missing, shared⟩
  · rintro ⟨r, member, missing, shared⟩
    exact ⟨_, ⟨r, ⟨member, missing⟩, rfl⟩, shared⟩

theorem place_firstBytes_ne {b c : Bytes} (zero : b.headD 0 = 0) (nonzero : c.headD 0 ≠ 0) :
    ShortHash.place .firstBytes (List.replicate 16 0) 4999 b ≠
      ShortHash.place .firstBytes (List.replicate 16 0) 4999 c := by
  have separate : ∀ x : UInt8, x ≠ 0 →
      toUint [0, 0, 0, 0, 0, 0, 0, 0] 4999 ≠ toUint [0, 0, 0, 0, 0, 0, 0, x] 4999 := by
    decide +kernel
  intro same
  apply separate _ nonzero
  have values : toUint [0, 0, 0, 0, 0, 0, 0, b.headD 0] 4999 =
      toUint [0, 0, 0, 0, 0, 0, 0, c.headD 0] 4999 := UInt64.toNat.inj same
  rwa [zero] at values

theorem place_firstBytes_eq (key : Bytes) (P : Int32) {b c : Bytes}
    (same : b.headD 0 = c.headD 0) :
    ShortHash.place .firstBytes key P b = ShortHash.place .firstBytes key P c := by
  have digests : ShortHash.firstBytes.digest (key.take 16) b =
      ShortHash.firstBytes.digest (key.take 16) c :=
    congrArg (fun first => List.replicate 6 0 ++ [(key.take 16).headD 0, first]) same
  unfold ShortHash.place
  rw [digests]

theorem headD_replicate (n : Nat) : (List.replicate n (0 : UInt8)).headD 0 = 0 := by
  cases n <;> rfl

def twoHashServer : Server :=
  ⟨⟨(Finmap.singleton [0, 5] ⟨[], []⟩).insert [200] ⟨[], []⟩, ∅, [], [], ∅⟩,
    Finmap.singleton [9] [[0, 5], [200]], ∅⟩

/-- The client has the hash of one of two transactions; the other is transferred, and its bytes
share their place with its hash. -/
theorem fetchedAtOnce_transferred :
    sentItems .firstBytes (.ofEncodable _) (.ofEncodable _) twoHashServer (List.replicate 16 0)
        {[200]} [[0, 5], [200]] ≠ [] ∧
      FetchedAtOnce .firstBytes (.ofEncodable _) (.ofEncodable _) twoHashServer
        (List.replicate 16 0) (List.replicate 16 0) {[200]} [9] := by
  have missing : Missing .firstBytes (List.replicate 16 0) {[200]} [0, 5] := by
    intro t member
    obtain rfl := Finset.mem_singleton.mp member
    exact (place_firstBytes_ne rfl (by decide)).symm
  have stored : ∀ s ∈ [[0, 5], [200]], s ∈ twoHashServer.chain.txs := by
    intro s member
    simp only [twoHashServer, Finmap.mem_insert, Finmap.mem_singleton]
    simpa [or_comm] using member
  have found : twoHashServer.chain.txs.lookup [0, 5] = some ⟨[], []⟩ := rfl
  constructor
  · rw [Ne, sentItems_eq_nil_iff]
    intro none
    exact not_missing_iff.mpr (none [0, 5] List.mem_cons_self) missing
  · refine (fetchedAtOnce_iff rfl rfl Finmap.lookup_singleton_eq stored _).mpr ?_
    intro s member
    rcases List.mem_cons.mp member with rfl | last
    · refine .inr ⟨[0, 5], List.mem_cons_self, missing, ?_⟩
      have head : (Server.item (.ofEncodable _) (.ofEncodable _) twoHashServer.chain.txs
          [0, 5]).headD 0 = 0 := by
        unfold Server.item
        rw [found]
        exact headD_replicate _
      exact place_firstBytes_eq _ _ head
    · obtain rfl := List.mem_singleton.mp last
      exact .inl ⟨[200], Finset.mem_singleton_self _, rfl⟩

/-! ### A hash that keeps being sent -/

theorem headD_hash_replicate (n : Nat) :
    (hash .polynomial (List.replicate n 0)).headD 0 ≠ 0 := by
  have step : ∀ acc : UInt8, acc &&& 1 = 1 → (31 * acc + 0) &&& 1 = 1 := by decide +kernel
  have odd : ∀ (n : Nat) (acc : UInt8), acc &&& 1 = 1 →
      (List.replicate n 0).foldl (fun acc x => 31 * acc + x) acc &&& 1 = 1 := by
    intro n
    induction n with
    | zero => exact fun acc start => start
    | succ n ih => exact fun acc start => ih _ (step acc start)
  intro zero
  have head : (List.replicate n 0).foldl (fun acc x => 31 * acc + x) (7 : UInt8) = 0 := zero
  have start := odd n 7 (by decide)
  rw [head] at start
  cases start

def emptyTxHash : Bytes :=
  hash .polynomial (Chain.Transaction.bytes (.ofEncodable _) (.ofEncodable _) ⟨[], []⟩)

def oneHashServer : Server :=
  ⟨(Chain.BlockChain.fresh ∅).add .polynomial (.ofEncodable _) (.ofEncodable _) ⟨[], []⟩,
    Finmap.singleton [9] [emptyTxHash], ∅⟩

theorem lookup_add_fresh (G : GenericHash) (creditSets : Codec Messages.CreditSet)
    (transactions : Codec Messages.Transaction) (balance : Chain.Balances)
    (tx : Chain.Transaction) :
    ((Chain.BlockChain.fresh balance).add G creditSets transactions tx).txs.lookup
      (hash G (tx.bytes creditSets transactions)) = some tx := by
  have new : hash G (tx.bytes creditSets transactions) ∉ (Chain.BlockChain.fresh balance).txs :=
    Finmap.notMem_empty
  rw [Chain.BlockChain.add, if_neg new]
  exact Finmap.lookup_insert _

theorem txs_oneHashServer : oneHashServer.chain.txs.lookup emptyTxHash = some ⟨[], []⟩ :=
  lookup_add_fresh .polynomial (.ofEncodable _) (.ofEncodable _) ∅ ⟨[], []⟩

theorem not_fetchedAtOnce_oneHash :
    ¬ FetchedAtOnce .firstBytes (.ofEncodable _) (.ofEncodable _) oneHashServer
      (List.replicate 16 0) (List.replicate 16 0) ∅ [9] := by
  have stored : ∀ s ∈ [emptyTxHash], s ∈ oneHashServer.chain.txs := by
    intro s member
    obtain rfl := List.mem_singleton.mp member
    exact Finmap.mem_iff.mpr ⟨_, txs_oneHashServer⟩
  rw [fetchedAtOnce_iff_sentItems rfl rfl Finmap.lookup_singleton_eq stored]
  intro none
  obtain ⟨t, member, shared⟩ := sentItems_eq_nil_iff.mp none emptyTxHash List.mem_cons_self
  rw [Finset.empty_union, List.mem_toFinset] at member
  obtain ⟨r, filtered, rfl⟩ := List.mem_map.mp member
  obtain rfl := List.mem_singleton.mp (List.mem_filter.mp filtered).1
  have sent : Server.item (.ofEncodable _) (.ofEncodable _) oneHashServer.chain.txs emptyTxHash =
      Chain.Transaction.bytes (.ofEncodable _) (.ofEncodable _) ⟨[], []⟩ := by
    unfold Server.item
    rw [txs_oneHashServer]
    rfl
  rw [sent] at shared
  refine place_firstBytes_ne ?_ (headD_hash_replicate _) shared
  exact headD_replicate _

end Exchange

end Pttp
