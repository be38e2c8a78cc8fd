import Pttp.Process.Completeness
import Pttp.Server.Turn

/-!
# A session of node

node.cc says HELLO, sends a transaction of its own and asks for the peers, over one request
socket: it waits for each answer before it goes on. `serve` may take any requests of others
between, and other threads their steps, and any of these may end the server; the session does
not. The address of the HELLO is the reason why the list it gets at the end has a first element.
-/

namespace Pttp

open Messages Runs StructLayout Covering

def nodeIp : Bytes := [115, 100, 102, 97, 115, 100, 102]

/-- What `main` waits for, with the answer before, and what it prints at the end. -/
inductive NodeStage where
  | greeting
  | paying (result : Bytes)
  | asking (result : Bytes)
  | done (printed : Cpp (ℕ × Bytes))

/-- `ips.size()` and `ips[0].cStr()` of a reply; the tag of the union is not looked at. -/
def firstIp (wire : Wire) (result : Bytes) : Cpp (ℕ × Bytes) := do
  let reader ← wire.root result
  let list ← Cpp.ofOption (reader.pointer 0).asStruct
  let ips ← Cpp.ofOption (list.pointer 0).asList
  let ips ← Cpp.ofOption (ips.mapM Object.asText)
  let first ← Cpp.index ips 0
  return (ips.length, first)

namespace NodeStage

section Definitions

variable (G : GenericHash) (P : PwHash) (H : ShortHash) (S : SignScheme)
  (messages : Codec Message) (creditSets : Codec CreditSet)
  (transactions : Codec Messages.Transaction) (wire : Wire) (myIp : Bytes)
  (tx : Messages.Transaction) (identity : Bytes)

/-- The request that is out; `tx` is what `create_transaction` built. -/
def request : NodeStage → Option Bytes
  | greeting => some (messages.write ⟨.hello ⟨nodeIp, 120⟩⟩)
  | paying _ => some (messages.write ⟨.transaction tx⟩)
  | asking _ => some (messages.write ⟨.getPeers⟩)
  | done _ => none

/-- `main` after `sock.recv()`. -/
def next : NodeStage → Bytes → NodeStage
  | greeting, result => paying result
  | paying _, result => asking result
  | asking _, result => done (firstIp wire result)
  | done printed, _ => done printed

def after (stage : NodeStage) : Option Bytes → NodeStage
  | some result => stage.next wire result
  | none => stage

/-- The sockets put an identity and an empty frame before a request, and take them off the
answer. -/
def frames (data : Bytes) : List Bytes := [identity, [], data]

/-- A step of `serve` for the request that is out, and the answer if there is one. -/
inductive Mine (data : Bytes) (s : Serving) : Serving.Action → Option Bytes → Prop where
  | turn (key : Bytes) (result : Option Bytes) :
      Mine data s (.turn key (frames identity data) (result.map (frames identity))) result
  | list {size : ℕ} (listing : s.thread = .listing (frames identity data) size)
      (result : Option Bytes) : Mine data s (.list (result.map (frames identity))) result

/-- Any other step: a socket has its identity for itself. -/
def Foreign (s : Serving) : Serving.Action → Prop
  | .turn _ msg _ => msg.head? ≠ some identity
  | .list _ => ∀ msg size, s.thread = .listing msg size → msg.head? ≠ some identity
  | _ => True

inductive Action where
  | exchange (a : Serving.Action)
  | other (a : Serving.Action)

inductive Step : NodeStage × Serving → Action → NodeStage × Serving → Prop where
  | exchange {stage : NodeStage} {s t : Serving} {a : Serving.Action} {data : Bytes}
      {result : Option Bytes} (sent : request messages tx stage = some data)
      (mine : Mine identity data s a result)
      (taken : Serving.Step G P H S messages creditSets transactions wire myIp s a t) :
      Step (stage, s) (.exchange a) (after wire stage result, t)
  | other {stage : NodeStage} {s t : Serving} {a : Serving.Action} (foreign : Foreign identity s a)
      (taken : Serving.Step G P H S messages creditSets transactions wire myIp s a t) :
      Step (stage, s) (.other a) (stage, t)

def Answered : NodeStage → Prop
  | greeting => True
  | paying result => result = wire.pack Reply.welcome.object
  | asking result => result = wire.pack Reply.ok.object
  | done printed => ∃ (ips : List Bytes) (first : Bytes), printed = .ok (ips.length, first) ∧
      ips.head? = some first ∧ nodeIp ∈ ips

end Definitions

variable {G : GenericHash} {P : PwHash} {H : ShortHash} {S : SignScheme}
  {messages : Codec Message} {creditSets : Codec CreditSet}
  {transactions : Codec Messages.Transaction} {wire : Wire} {myIp identity : Bytes}
  {tx : Messages.Transaction} {s t : Serving}

/-! ## The requests of the session -/

theorem respond_transaction {cs : CreditSet} (decoded : creditSets.read tx.creditSet = .ok cs)
    (sized : CallsSized S tx cs.credits)
    (covered : Covers (Witnessed S tx.creditSet) (debits cs.credits) tx.signatures) (s : Serving)
    (key : Bytes) :
    s.respond G P H S messages creditSets transactions key (messages.write ⟨.transaction tx⟩) =
      .ok (s, some .ok) := by
  obtain ⟨out, accepted⟩ := processTransactionReader_of_covers decoded covered none
  have same := processTransactionSized_of_callsSized decoded sized [] [] none
  unfold Serving.respond
  rw [messages.read_write, Cpp.ok_bind]
  simp only [same, accepted, Cpp.ok_bind]
  rfl

theorem firstIp_reply (wire : Wire) {ips : List Bytes} {first : Bytes}
    (head : ips.head? = some first) :
    firstIp wire (wire.pack (Reply.ipList ips).object) = .ok (ips.length, first) := by
  have texts := Object.mapM_map_eq_some Object.asText_text ips
  unfold firstIp Reply.object
  rw [wire.root_pack, Cpp.ok_bind]
  show (Cpp.ofOption ((ips.map Object.text).mapM Object.asText) >>= _) = _
  rw [texts]
  have there : Cpp.index ips 0 = .ok first := by
    rw [Cpp.index_eq_ok_iff, ← List.head?_eq_getElem?]
    exact head
  show (Cpp.index ips 0 >>= _) = _
  rw [there]
  rfl

theorem created_eq {accounts : List (SignKeyPair S)} {amounts : List Int32}
    (sameLength : amounts.length = accounts.length) :
    createTransactionBuilder S creditSets ⟨[], []⟩ accounts amounts =
      .ok (true, signedTransaction creditSets (accounts.zip amounts)) := by
  have witnesses := signDebits_eq
    (creditSets.write ⟨(accounts.zip amounts).map entryCredit⟩) (accounts.zip amounts) []
  simp only [List.nil_append, List.length_nil] at witnesses
  simp only [createTransactionBuilder, if_pos sameLength, fillCredits_eq, Nat.zero_add, witnesses]
  rfl

section Created

variable {S : CombinedSignScheme} {accounts : List (SignKeyPair S.toSignScheme)}
  {amounts : List Int32}

/-- The credit set of a transaction that was built can be read, and its debits are signed; the
signatures and the keys have their sizes. -/
theorem covers_created (keys : ∀ account ∈ accounts, account.pub.length = 32)
    (created : createTransactionBuilder S.toSignScheme creditSets ⟨[], []⟩ accounts amounts =
      .ok (true, tx)) :
    ∃ cs, creditSets.decode tx.creditSet = some cs ∧ CallsSized S.toSignScheme tx cs.credits ∧
      Covers (Witnessed S.toSignScheme tx.creditSet) (debits cs.credits) tx.signatures := by
  by_cases sameLength : amounts.length = accounts.length
  · rw [created_eq sameLength] at created
    obtain ⟨-, rfl⟩ := Prod.mk.inj (Except.ok.inj created)
    refine ⟨_, creditSets.decode_write _, testsOnly_of_forall ?_,
      covers_signed _ (accounts.zip amounts)⟩
    rw [debits_map_entryCredit]
    intro credit debit witness signature
    obtain ⟨entry, member, rfl⟩ := List.mem_map.mp debit
    obtain ⟨entry', -, rfl⟩ := List.mem_map.mp signature
    have paid : entry.1 ∈ accounts := (List.of_mem_zip (List.mem_of_mem_filter member)).1
    exact ⟨(S.length_sign _ _).ge, (keys entry.1 paid).ge⟩
  · simp only [createTransactionBuilder, if_neg sameLength] at created
    cases created

variable (keys : ∀ account ∈ accounts, account.pub.length = 32)
  (created : createTransactionBuilder S.toSignScheme creditSets ⟨[], []⟩ accounts amounts =
    .ok (true, tx))

include keys created

end Created

/-! ## The session among other steps -/

variable {argv : List Bytes} {fullSet : Finset Bytes}

variable (G P H S messages creditSets transactions wire myIp identity argv fullSet) in
/-- Once it was greeted, the server knows the address; the list it is about to fill in is the one
the session asked for, if it is for the session. -/
structure Inv (state : NodeStage × Serving) : Prop where
  serving : ∃ history, Run (Serving.Step G P H S messages creditSets transactions wire myIp)
    (Serving.initial argv fullSet) history state.2
  greeted : state.1 ≠ greeting → nodeIp ∈ state.2.peers.ipList
  own : ∀ msg size, state.2.thread = .listing msg size → msg.head? = some identity →
    ∃ result, state.1 = asking result
  answered : Answered wire state.1

theorem mem_ipList_step {history : List (Serving × Serving.Action)} {a : Serving.Action}
    (run : Run (Serving.Step G P H S messages creditSets transactions wire myIp)
      (Serving.initial argv fullSet) history s)
    (taken : Serving.Step G P H S messages creditSets transactions wire myIp s a t) {ip : Bytes}
    (known : ip ∈ s.peers.ipList) : ip ∈ t.peers.ipList := by
  have before := Serving.accounts_of_run run
  have afterwards := Serving.accounts_of_run (run.snoc taken)
  refine (afterwards.ipList ip).mpr (((before.ipList ip).mp known).imp_right ?_)
  exact fun visits => (visits_snoc ..).mpr (.inl visits)

theorem thread_step {history : List (Serving × Serving.Action)} {a : Serving.Action}
    (run : Run (Serving.Step G P H S messages creditSets transactions wire myIp)
      (Serving.initial argv fullSet) history s)
    (taken : Serving.Step G P H S messages creditSets transactions wire myIp s a t)
    {msg : List Bytes} {size : ℕ} (listing : t.thread = .listing msg size) :
    s.thread = .listing msg size ∨ ∃ key answer, a = .turn key msg answer := by
  have accounts := Serving.accounts_of_run run
  cases taken with
  | @turn _ key msg' answer alive receiving keyed taken =>
    rcases Serving.turn_spec G P H S messages creditSets transactions wire accounts.hashSets keyed
      msg' with ⟨-, data, content, u, reply, -, -, turned, went⟩ | ⟨-, e, ended⟩
    · rw [went] at taken
      have same := turned.still.2
      cases reply with
      | some reply =>
        obtain ⟨rfl, rfl⟩ := Prod.mk.inj taken
        exact .inl (same ▸ listing)
      | none =>
        obtain ⟨rfl, rfl⟩ := Prod.mk.inj taken
        obtain ⟨rfl, -⟩ := Serving.Thread.listing.inj listing
        exact .inr ⟨key, none, rfl⟩
    · rw [ended] at taken
      obtain ⟨rfl, rfl⟩ := Prod.mk.inj taken
      exact .inl listing
  | @list _ msg' size' answer alive listing' taken =>
    rw [Serving.list_eq (accounts.listing msg' size' listing')] at taken
    split at taken
    · obtain ⟨rfl, rfl⟩ := Prod.mk.inj taken
      exact .inl listing
    · obtain ⟨rfl, rfl⟩ := Prod.mk.inj taken
      cases listing
  | @connect _ e answer connects alive expanding more taken =>
    rcases Serving.connect_cases s connects e with ⟨-, thrown⟩ | ⟨-, connections, connected⟩
    · rw [thrown] at taken
      obtain ⟨rfl, rfl⟩ := Prod.mk.inj taken
      exact .inl listing
    · rw [connected] at taken
      obtain ⟨rfl, rfl⟩ := Prod.mk.inj taken
      exact .inl listing
  | learn => exact .inl listing
  | expand => exact .inl listing
  | expanded => exact .inl listing
  | receiveSet => exact .inl listing
  | crash => exact .inl listing

theorem turn_unique {key data : Bytes} {result : Option Bytes} {reply : Option Reply} {u : Serving}
    (responded : s.respond G P H S messages creditSets transactions key data = .ok (u, reply))
    (taken : Serving.Step G P H S messages creditSets transactions wire myIp s
      (.turn key (frames identity data) (result.map (frames identity))) t) :
    t = (u.proceed wire (frames identity data) reply).1 ∧
      result = reply.map fun reply => wire.pack reply.object := by
  cases taken with
  | turn alive receiving keyed taken =>
    rw [frames, Serving.turn_eq _ responded] at taken
    refine ⟨(congrArg Prod.fst taken).symm, ?_⟩
    have sent := congrArg Prod.snd taken
    cases reply with
    | none =>
      cases result with
      | none => rfl
      | some result => cases sent
    | some reply =>
      cases result with
      | none => cases sent
      | some result =>
        have same := Option.some.inj sent
        simp only [frames, List.set, List.cons.injEq, true_and, and_true] at same
        exact congrArg some same.symm

theorem list_unique {history : List (Serving × Serving.Action)} {data : Bytes} {size : ℕ}
    {result : Option Bytes}
    (run : Run (Serving.Step G P H S messages creditSets transactions wire myIp)
      (Serving.initial argv fullSet) history s)
    (listing : s.thread = .listing (frames identity data) size)
    (taken : Serving.Step G P H S messages creditSets transactions wire myIp s
      (.list (result.map (frames identity))) t) :
    (t.thread = s.thread ∧ result = none) ∨
      t.thread = .receiving ∧ result = some (wire.pack (Reply.ipList s.ips).object) := by
  generalize sent : result.map (frames identity) = answer at taken
  cases taken with
  | list alive listing' taken =>
    obtain ⟨rfl, rfl⟩ := Serving.Thread.listing.inj (listing.symm.trans listing')
    rw [Serving.list_eq ((Serving.accounts_of_run run).listing _ _ listing)] at taken
    split at taken
    · obtain ⟨rfl, rfl⟩ := Prod.mk.inj taken
      exact .inl ⟨rfl, Option.map_eq_none_iff.mp sent⟩
    · obtain ⟨rfl, rfl⟩ := Prod.mk.inj taken
      obtain ⟨result, rfl, same⟩ := Option.map_eq_some_iff.mp sent
      simp only [frames, List.set, List.cons.injEq, true_and, and_true] at same
      exact .inr ⟨rfl, congrArg some same⟩

theorem mem_ips (known : nodeIp ∈ s.peers.ipList) : nodeIp ∈ s.ips := by
  have whole : Bytes.ofCString nodeIp = nodeIp := by decide
  exact List.mem_map.mpr ⟨nodeIp, (Finset.mem_sort _).mpr known, whole⟩

theorem answered_done (wire : Wire) (known : nodeIp ∈ s.peers.ipList) :
    Answered wire (done (firstIp wire (wire.pack (Reply.ipList s.ips).object))) := by
  have listed := mem_ips known
  obtain ⟨first, head⟩ := Option.isSome_iff_exists.mp
    (List.isSome_head?.mpr (List.ne_nil_of_mem listed))
  exact ⟨s.ips, first, firstIp_reply wire head, head, listed⟩

theorem Inv.other {stage : NodeStage} {a : Serving.Action}
    (inv : Inv G P H S messages creditSets transactions wire myIp identity argv fullSet (stage, s))
    (foreign : Foreign identity s a)
    (taken : Serving.Step G P H S messages creditSets transactions wire myIp s a t) :
    Inv G P H S messages creditSets transactions wire myIp identity argv fullSet (stage, t) := by
  obtain ⟨history, run⟩ := inv.serving
  refine ⟨⟨_, run.snoc taken⟩, fun later => mem_ipList_step run taken (inv.greeted later), ?_,
    inv.answered⟩
  intro msg size listing mine
  rcases thread_step run taken listing with same | ⟨key, answer, rfl⟩
  · exact inv.own msg size same mine
  · exact absurd mine foreign

section Session

variable {S : CombinedSignScheme} {accounts : List (SignKeyPair S.toSignScheme)}
  {amounts : List Int32}

theorem Inv.turn (keys : ∀ account ∈ accounts, account.pub.length = 32)
    (created : createTransactionBuilder S.toSignScheme creditSets ⟨[], []⟩ accounts amounts =
      .ok (true, tx)) {stage : NodeStage} {data key : Bytes} {result : Option Bytes}
    (inv : Inv G P H S.toSignScheme messages creditSets transactions wire myIp identity argv fullSet
      (stage, s)) (sent : request messages tx stage = some data)
    (taken : Serving.Step G P H S.toSignScheme messages creditSets transactions wire myIp s
      (.turn key (frames identity data) (result.map (frames identity))) t) :
    Inv G P H S.toSignScheme messages creditSets transactions wire myIp identity argv fullSet
      (after wire stage result, t) := by
  obtain ⟨history, run⟩ := inv.serving
  have serving : ∃ history, Run (Serving.Step G P H S.toSignScheme messages creditSets
    transactions wire myIp) (Serving.initial argv fullSet) history t := ⟨_, run.snoc taken⟩
  have receiving : s.thread = .receiving := by
    cases taken with
    | turn alive receiving => exact receiving
  cases stage with
  | greeting =>
    obtain rfl := Option.some.inj sent
    obtain ⟨rfl, rfl⟩ := turn_unique (Serving.respond_hello s key ⟨nodeIp, 120⟩) taken
    refine ⟨serving, fun _ => ?_, ?_, rfl⟩
    · have whole : Bytes.ofCString nodeIp = nodeIp := by decide
      rw [whole]
      exact Finset.mem_union_right _ (List.mem_toFinset.mpr (List.mem_singleton_self nodeIp))
    · intro msg size listing
      cases receiving.symm.trans listing
  | paying welcome =>
    obtain rfl := Option.some.inj sent
    obtain ⟨cs, decoded, sized, covered⟩ := covers_created keys created
    obtain ⟨rfl, rfl⟩ := turn_unique
      (respond_transaction (Serving.read_of_decode decoded) sized covered s key) taken
    refine ⟨serving, fun _ => inv.greeted nofun, ?_, rfl⟩
    intro msg size listing
    cases receiving.symm.trans listing
  | asking accepted =>
    obtain rfl := Option.some.inj sent
    obtain ⟨rfl, rfl⟩ := turn_unique (Serving.respond_getPeers s key) taken
    exact ⟨serving, fun _ => inv.greeted nofun, fun _ _ _ _ => ⟨accepted, rfl⟩, inv.answered⟩
  | done printed => cases sent

theorem Inv.step (keys : ∀ account ∈ accounts, account.pub.length = 32)
    (created : createTransactionBuilder S.toSignScheme creditSets ⟨[], []⟩ accounts amounts =
      .ok (true, tx)) {state state' : NodeStage × Serving} {a : Action}
    (inv : Inv G P H S.toSignScheme messages creditSets transactions wire myIp identity argv fullSet
      state)
    (taken : Step G P H S.toSignScheme messages creditSets transactions wire myIp tx identity
      state a state') :
    Inv G P H S.toSignScheme messages creditSets transactions wire myIp identity argv fullSet
      state' := by
  cases taken with
  | other foreign taken => exact inv.other foreign taken
  | @exchange stage s t a data result sent mine taken =>
    cases mine with
    | turn key => exact inv.turn keys created sent taken
    | list listing =>
      obtain ⟨history, run⟩ := inv.serving
      obtain ⟨accepted, rfl⟩ := inv.own _ _ listing rfl
      have known : nodeIp ∈ s.peers.ipList := inv.greeted nofun
      have kept := mem_ipList_step run taken known
      rcases list_unique run listing taken with ⟨same, rfl⟩ | ⟨received, rfl⟩
      · exact ⟨⟨_, run.snoc taken⟩, fun _ => kept, fun _ _ _ _ => ⟨accepted, rfl⟩, inv.answered⟩
      · refine ⟨⟨_, run.snoc taken⟩, fun _ => kept, ?_, answered_done wire known⟩
        intro msg size listing'
        cases received.symm.trans listing'

theorem run_inv (keys : ∀ account ∈ accounts, account.pub.length = 32)
    (created : createTransactionBuilder S.toSignScheme creditSets ⟨[], []⟩ accounts amounts =
      .ok (true, tx)) {history : List ((NodeStage × Serving) × Action)}
    {state : NodeStage × Serving}
    (run : Run (Step G P H S.toSignScheme messages creditSets transactions wire myIp tx identity)
      (greeting, Serving.initial argv fullSet) history state) :
    Inv G P H S.toSignScheme messages creditSets transactions wire myIp identity argv fullSet
      state := by
  refine run.invariant ⟨⟨[], .nil⟩, fun later => absurd rfl later, nofun, trivial⟩ ?_
  exact fun _ _ _ inv taken => inv.step keys created taken

theorem step_of_respond (stage : NodeStage) {data key : Bytes} {reply : Option Reply} {u : Serving}
    (sent : request messages tx stage = some data) (alive : s.fault = none)
    (receiving : s.thread = .receiving) (keyed : key.length = 16)
    (responded : s.respond G P H S.toSignScheme messages creditSets transactions key data =
      .ok (u, reply)) :
    ∃ a, Step G P H S.toSignScheme messages creditSets transactions wire myIp tx identity (stage, s)
      (.exchange a) (after wire stage (reply.map fun reply => wire.pack reply.object),
        (u.proceed wire (frames identity data) reply).1) := by
  refine ⟨_, .exchange sent (.turn key _) (.turn alive receiving keyed ?_)⟩
  rw [frames, Serving.turn_eq _ responded]
  cases reply with
  | none => rfl
  | some reply => rfl

theorem Inv.exists_step (keys : ∀ account ∈ accounts, account.pub.length = 32)
    (created : createTransactionBuilder S.toSignScheme creditSets ⟨[], []⟩ accounts amounts =
      .ok (true, tx)) {state : NodeStage × Serving}
    (inv : Inv G P H S.toSignScheme messages creditSets transactions wire myIp identity argv fullSet
      state) (waits : (request messages tx state.1).isSome) (alive : state.2.fault = none)
    (receiving : state.2.thread = .receiving) :
    ∃ a state', Step G P H S.toSignScheme messages creditSets transactions wire myIp tx identity
      state (.exchange a) state' ∧ state'.2.fault = none := by
  obtain ⟨stage, s⟩ := state
  have keyed : (List.replicate 16 (0 : UInt8)).length = 16 := rfl
  cases stage with
  | greeting =>
    obtain ⟨a, taken⟩ := step_of_respond greeting rfl alive receiving keyed
      (Serving.respond_hello s _ ⟨nodeIp, 120⟩)
    exact ⟨a, _, taken, alive⟩
  | paying welcome =>
    obtain ⟨cs, decoded, sized, covered⟩ := covers_created keys created
    obtain ⟨a, taken⟩ := step_of_respond (paying welcome) rfl alive receiving keyed
      (respond_transaction (Serving.read_of_decode decoded) sized covered s _)
    exact ⟨a, _, taken, alive⟩
  | asking accepted =>
    obtain ⟨a, taken⟩ := step_of_respond (asking accepted) rfl alive receiving keyed
      (Serving.respond_getPeers s _)
    exact ⟨a, _, taken, alive⟩
  | done printed => cases waits

end Session

end NodeStage

end Pttp
