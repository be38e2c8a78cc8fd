import Pttp.Chain.BlockChain
import Pttp.Lib.Runs

/-!
# Runs of add and get_latest

The mempool is the key set of `txs` in every state of every run. What can end a
run is the assertion of `hash_vec`, and it does so exactly when `get_latest` is
called while no transaction of the mempool is valid.
-/

namespace Pttp.Chain

open Runs

inductive Op where
  | add (tx : Transaction)
  | getLatest

section Definitions

variable (G : GenericHash) (creditSets : Codec Messages.CreditSet)
  (transactions : Codec Messages.Transaction)

def BlockChain.exec (c : BlockChain) : Op → Cpp BlockChain
  | .add tx => .ok (c.add G creditSets transactions tx)
  | .getLatest => Prod.snd <$> c.getLatest G

def Step (s : Cpp BlockChain) (op : Op) (t : Cpp BlockChain) : Prop :=
  ∃ c, s = .ok c ∧ c.exec G creditSets transactions op = t

/-- The two containers agree, and every key is the hash of its transaction. -/
structure Consistent (c : BlockChain) : Prop where
  mem_mempool_iff : ∀ h, h ∈ c.mempool ↔ h ∈ c.txs
  hash_eq : ∀ h tx, c.txs.lookup h = some tx →
    hash G (tx.bytes creditSets transactions) = h

def Sound (s : Cpp BlockChain) : Prop :=
  ∃ c, s = .ok c ∧ Consistent G creditSets transactions c

end Definitions

def HasValid (c : BlockChain) : Prop := ∃ h ∈ c.mempool, Admits c.txs c.balance h

/-- `get_latest` is called only while some transaction is valid. -/
def CalledInTime (s : Cpp BlockChain) : Op → Prop
  | .add _ => True
  | .getLatest => ∀ c, s = .ok c → HasValid c

variable {G : GenericHash} {creditSets : Codec Messages.CreditSet}
  {transactions : Codec Messages.Transaction}

theorem consistent_fresh (G : GenericHash) (creditSets : Codec Messages.CreditSet)
    (transactions : Codec Messages.Transaction) (balance : Balances) :
    Consistent G creditSets transactions (.fresh balance) where
  mem_mempool_iff h := by
    refine iff_of_false (Finset.notMem_empty h) ?_
    exact Finmap.notMem_empty
  hash_eq h tx found := by
    rw [BlockChain.fresh, Finmap.lookup_empty] at found
    cases found

theorem Consistent.add {c : BlockChain} (consistent : Consistent G creditSets transactions c)
    (tx : Transaction) :
    Consistent G creditSets transactions (c.add G creditSets transactions tx) := by
  rw [BlockChain.add]
  split
  · exact consistent
  · constructor
    · intro h
      rw [Finset.mem_insert, Finmap.mem_insert, consistent.mem_mempool_iff]
    · intro h other found
      by_cases new : h = hash G (tx.bytes creditSets transactions)
      · subst new
        rw [Finmap.lookup_insert, Option.some.injEq] at found
        rw [found]
      · rw [Finmap.lookup_insert_of_ne _ new] at found
        exact consistent.hash_eq h other found

theorem selected_ne_nil_iff (c : BlockChain) : c.selected ≠ [] ↔ HasValid c := by
  rw [BlockChain.selected, select, ne_eq, Greedy.selected_eq_nil_iff, HasValid]
  push Not
  simp only [BlockChain.ordered, Finset.mem_sort]

theorem Consistent.exec_getLatest {c : BlockChain}
    (consistent : Consistent G creditSets transactions c) :
    (HasValid c ∧ ∃ h, c.exec G creditSets transactions .getLatest =
        .ok { c with latestSet := c.selected, latestHash := h }) ∨
      (¬ HasValid c ∧ c.exec G creditSets transactions .getLatest = .error .assertion) := by
  have known : ∀ k ∈ c.mempool, k ∈ c.txs := fun k => (consistent.mem_mempool_iff k).mp
  by_cases nonempty : c.selected = []
  · have known' : ∀ k ∈ c.ordered, k ∈ c.txs := fun k member =>
      known k ((Finset.mem_sort _).mp member)
    have nothing : (select c.txs c.balance c.ordered).1 = [] := nonempty
    refine .inr ⟨fun valid => (selected_ne_nil_iff c).mpr valid nonempty, ?_⟩
    rw [BlockChain.exec, BlockChain.getLatest, selectLoop_eq known', Cpp.ok_bind, nothing]
    rfl
  · obtain ⟨h, hashed, -⟩ := hashVec_of_ne_nil (G := G) nonempty
    refine .inl ⟨(selected_ne_nil_iff c).mp nonempty, h, ?_⟩
    rw [BlockChain.exec, getLatest_eq_ok_iff.mpr ⟨known, hashed, rfl⟩]
    rfl

theorem sound_iff_of_step {s t : Cpp BlockChain} {op : Op}
    (sound : Sound G creditSets transactions s)
    (taken : Step G creditSets transactions s op t) :
    Sound G creditSets transactions t ↔ CalledInTime s op := by
  obtain ⟨c, rfl, consistent⟩ := sound
  obtain ⟨_, same, rfl⟩ := taken
  cases same
  cases op with
  | add tx => exact iff_of_true ⟨_, rfl, consistent.add tx⟩ trivial
  | getLatest =>
    have inTime : CalledInTime (.ok c) .getLatest ↔ HasValid c :=
      ⟨fun called => called c rfl, fun valid c' same => Except.ok.inj same ▸ valid⟩
    rw [inTime]
    rcases consistent.exec_getLatest with ⟨valid, h, returned⟩ | ⟨invalid, failed⟩
    · rw [returned]
      exact iff_of_true ⟨_, rfl, consistent.mem_mempool_iff, consistent.hash_eq⟩ valid
    · rw [failed]
      refine iff_of_false ?_ invalid
      rintro ⟨c', impossible, -⟩
      cases impossible

/-- The chain is sound, or a call of `hash_vec` has failed its assertion. -/
def SoundOrAsserted (G : GenericHash) (creditSets : Codec Messages.CreditSet)
    (transactions : Codec Messages.Transaction) (s : Cpp BlockChain) : Prop :=
  Sound G creditSets transactions s ∨ s = .error .assertion

theorem soundOrAsserted_of_step {s t : Cpp BlockChain} {op : Op}
    (before : SoundOrAsserted G creditSets transactions s)
    (taken : Step G creditSets transactions s op t) :
    SoundOrAsserted G creditSets transactions t := by
  rcases before with ⟨c, rfl, consistent⟩ | rfl
  · obtain ⟨_, same, rfl⟩ := taken
    cases same
    cases op with
    | add tx => exact .inl ⟨_, rfl, consistent.add tx⟩
    | getLatest =>
      rcases consistent.exec_getLatest with ⟨_, h, returned⟩ | ⟨_, failed⟩
      · exact .inl ⟨_, returned, consistent.mem_mempool_iff, consistent.hash_eq⟩
      · exact .inr failed
  · obtain ⟨c, running, -⟩ := taken
    cases running

/-! ## Runs on a fresh chain -/

theorem sound_fresh (G : GenericHash) (creditSets : Codec Messages.CreditSet)
    (transactions : Codec Messages.Transaction) (balance : Balances) :
    Sound G creditSets transactions (.ok (.fresh balance)) :=
  ⟨_, rfl, consistent_fresh G creditSets transactions balance⟩

/-- However `get_latest` is called, it finds every transaction of the mempool. -/
theorem run_ne_nullPointer (balance : Balances) {history : List (Cpp BlockChain × Op)}
    {t : Cpp BlockChain}
    (run : Run (Step G creditSets transactions) (.ok (.fresh balance)) history t) :
    t ≠ .error .nullPointer := by
  have initially : SoundOrAsserted G creditSets transactions (.ok (.fresh balance)) :=
    .inl (sound_fresh G creditSets transactions balance)
  have reached : SoundOrAsserted G creditSets transactions t :=
    run.invariant initially fun _ _ _ => soundOrAsserted_of_step
  rcases reached with ⟨c, rfl, -⟩ | rfl
  · exact fun impossible => by cases impossible
  · exact fun impossible => by cases impossible

/-- A run stays sound exactly while `get_latest` is called in time. -/
theorem run_sound_iff (balance : Balances) {history : List (Cpp BlockChain × Op)}
    {t : Cpp BlockChain}
    (run : Run (Step G creditSets transactions) (.ok (.fresh balance)) history t) :
    Holds (Sound G creditSets transactions) history t ↔ Meets CalledInTime history := by
  have sharp (s : Cpp BlockChain) (op : Op) (t : Cpp BlockChain) :
      Sound G creditSets transactions s → Step G creditSets transactions s op t →
        (Sound G creditSets transactions t ↔ CalledInTime s op) := sound_iff_of_step
  exact run.holds_iff (sound_fresh G creditSets transactions balance) sharp

theorem hasValid_add_fresh {balance : Balances} {tx : Transaction}
    (valid : creditsValid balance tx.credits ∅ = true) :
    HasValid ((BlockChain.fresh balance).add G creditSets transactions tx) := by
  have new : hash G (tx.bytes creditSets transactions) ∉ (BlockChain.fresh balance).txs :=
    Finmap.notMem_empty
  rw [BlockChain.add, if_neg new]
  refine ⟨_, Finset.mem_insert_self _ _, ?_⟩
  rw [Admits, creditsOf_eq (Finmap.lookup_insert _)]
  exact valid

theorem run_sound_iff_first_payment :
    ∃ history t, Run (Step .polynomial (Codec.ofEncodable Messages.CreditSet)
        (Codec.ofEncodable Messages.Transaction)) (.ok (.fresh ∅)) history t ∧
      history.length = 2 ∧
      Holds (Sound .polynomial (Codec.ofEncodable Messages.CreditSet)
        (Codec.ofEncodable Messages.Transaction)) history t := by
  have run := (Run.nil.snoc ⟨_, rfl, rfl⟩ : Run (Step .polynomial
    (Codec.ofEncodable Messages.CreditSet) (Codec.ofEncodable Messages.Transaction))
    (.ok (.fresh ∅)) [(.ok (.fresh ∅), .add ⟨[⟨[7], 5⟩], []⟩)] _).snoc
    (a := Op.getLatest) ⟨_, rfl, rfl⟩
  refine ⟨_, _, run, rfl, (run_sound_iff ∅ run).mpr ?_⟩
  simp only [Meets, List.cons_append, List.nil_append, List.forall_mem_cons]
  refine ⟨trivial, ?_, by simp⟩
  intro c same
  exact Except.ok.inj same ▸ hasValid_add_fresh (by decide)

theorem getLatest_fresh_fails (balance : Balances) :
    Run (Step G creditSets transactions) (.ok (.fresh balance))
        [(.ok (.fresh balance), .getLatest)] (.error .assertion) ∧
      ¬ Sound G creditSets transactions (.error .assertion) := by
  have failed : (BlockChain.fresh balance).exec G creditSets transactions .getLatest =
      .error .assertion := by
    rcases (consistent_fresh G creditSets transactions balance).exec_getLatest with
      ⟨⟨h, member, _⟩, _⟩ | ⟨_, failed⟩
    · exact absurd member (Finset.notMem_empty h)
    · exact failed
  refine ⟨Run.nil.snoc ⟨_, rfl, failed⟩, ?_⟩
  rintro ⟨c, impossible, -⟩
  cases impossible

theorem getLatest_without_transactions_fails :
    Run (Step .polynomial (Codec.ofEncodable Messages.CreditSet)
        (Codec.ofEncodable Messages.Transaction)) (.ok (.fresh ∅))
        [(.ok (.fresh ∅), .getLatest)] (.error .assertion) ∧
      ¬ Holds (Sound .polynomial (Codec.ofEncodable Messages.CreditSet)
        (Codec.ofEncodable Messages.Transaction)) [(.ok (.fresh ∅), Op.getLatest)]
        (.error .assertion) :=
  ⟨(getLatest_fresh_fails ∅).1, fun holds => (getLatest_fresh_fails ∅).2 holds.2⟩

end Pttp.Chain
