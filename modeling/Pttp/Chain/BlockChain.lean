import Pttp.Chain.Transaction
import Pttp.Curve
import Pttp.Lib.Greedy

/-!
# The chain state: add and get_latest

`get_latest` walks over the mempool in the order of the set and selects the
transactions that are valid against balances it updates on the way. The loop is
a greedy selection (`selectLoop_eq`).
-/

namespace Pttp.Chain

abbrev Balances := Finmap fun _ : Bytes => Int64

/-- The part of `BlockChain` that the two methods use. -/
structure BlockChain where
  txs : Finmap fun _ : Bytes => Transaction
  mempool : Finset Bytes
  latestSet : List Bytes
  latestHash : Bytes
  balance : Balances

def BlockChain.fresh (balance : Balances) : BlockChain :=
  ⟨∅, ∅, [], [], balance⟩

section Definitions

variable (G : GenericHash) (creditSets : Codec Messages.CreditSet)
  (transactions : Codec Messages.Transaction)

def BlockChain.add (c : BlockChain) (tx : Transaction) : BlockChain :=
  let h := hash G (tx.bytes creditSets transactions)
  if h ∈ c.txs then c
  else { c with txs := c.txs.insert h tx, mempool := insert h c.mempool }

/-- The first inner loop of `get_latest`, with the accounts seen so far. -/
def creditsValid (balanceCpy : Balances) : List Credit → Finset Bytes → Bool
  | [], _ => true
  | cred :: rest, pubSet =>
      if cred.pub ∈ pubSet then false
      else if cred.amount < 0 ∧ (cred.pub ∉ balanceCpy ∨
          (balanceCpy.lookup cred.pub).getD 0 < -cred.amount) then false
      else creditsValid balanceCpy rest (insert cred.pub pubSet)

/-- The second inner loop. -/
def applyCredits : Balances → List Credit → Balances
  | balanceCpy, [] => balanceCpy
  | balanceCpy, cred :: rest =>
      match balanceCpy.lookup cred.pub with
      | some held => applyCredits (balanceCpy.insert cred.pub (held + cred.amount)) rest
      | none => applyCredits (balanceCpy.insert cred.pub cred.amount) rest

structure Selection where
  latestSet : List Bytes
  hashPtrs : List Bytes
  balanceCpy : Balances

/-- The outer loop. A hash without a transaction gives a null pointer. -/
def selectLoop (txs : Finmap fun _ : Bytes => Transaction) :
    List Bytes → Selection → Cpp Selection
  | [], st => .ok st
  | h :: rest, st =>
      match txs.lookup h with
      | none => .error .nullPointer
      | some tx =>
          if creditsValid st.balanceCpy tx.credits ∅ then
            selectLoop txs rest
              { latestSet := st.latestSet ++ [h]
                hashPtrs := st.hashPtrs ++ [h]
                balanceCpy := applyCredits st.balanceCpy tx.credits }
          else selectLoop txs rest st

/-- The mempool in the order of `std::set<Bytes>`. -/
def BlockChain.ordered (c : BlockChain) : List Bytes := c.mempool.sort (· ≤ ·)

/-- `BlockChain::get_latest`: the returned hash and the state after the call. -/
def BlockChain.getLatest (c : BlockChain) : Cpp (Bytes × BlockChain) := do
  let st ← selectLoop c.txs c.ordered ⟨[], [], c.balance⟩
  let h ← hashVec G st.hashPtrs
  return (h, { c with latestSet := st.latestSet, latestHash := h })

end Definitions

/-! ## The loop as a greedy selection -/

def creditsOf (txs : Finmap fun _ : Bytes => Transaction) (h : Bytes) : List Credit :=
  ((txs.lookup h).map Transaction.credits).getD []

theorem creditsOf_eq {txs : Finmap fun _ : Bytes => Transaction} {h : Bytes} {tx : Transaction}
    (found : txs.lookup h = some tx) : creditsOf txs h = tx.credits := by
  rw [creditsOf, found]
  rfl

def Admits (txs : Finmap fun _ : Bytes => Transaction) (balanceCpy : Balances) (h : Bytes) :
    Prop := creditsValid balanceCpy (creditsOf txs h) ∅ = true

instance (txs : Finmap fun _ : Bytes => Transaction) (balanceCpy : Balances) (h : Bytes) :
    Decidable (Admits txs balanceCpy h) := inferInstanceAs (Decidable (_ = true))

def select (txs : Finmap fun _ : Bytes => Transaction) (balance : Balances)
    (hashes : List Bytes) : List Bytes × Balances :=
  Greedy.run (Admits txs) (fun balanceCpy h => applyCredits balanceCpy (creditsOf txs h))
    balance hashes

theorem selectLoop_eq {txs : Finmap fun _ : Bytes => Transaction} {hashes : List Bytes}
    (known : ∀ h ∈ hashes, h ∈ txs) (st : Selection) :
    selectLoop txs hashes st =
      .ok ⟨st.latestSet ++ (select txs st.balanceCpy hashes).1,
        st.hashPtrs ++ (select txs st.balanceCpy hashes).1,
        (select txs st.balanceCpy hashes).2⟩ := by
  induction hashes generalizing st with
  | nil => simp [selectLoop, select]
  | cons h rest ih =>
    have known' : ∀ h ∈ rest, h ∈ txs := fun h member => known h (List.mem_cons_of_mem _ member)
    obtain ⟨tx, found⟩ := Finmap.mem_iff.mp (known h (by simp))
    by_cases admitted : Admits txs st.balanceCpy h
    · have valid : creditsValid st.balanceCpy tx.credits ∅ = true := creditsOf_eq found ▸ admitted
      rw [select, Greedy.run_cons_of_ok admitted, creditsOf_eq found, ← select]
      simp only [selectLoop, found, if_pos valid, ih known', List.append_assoc,
        List.singleton_append]
    · have invalid : ¬ creditsValid st.balanceCpy tx.credits ∅ = true :=
        creditsOf_eq found ▸ admitted
      rw [select, Greedy.run_cons_of_not_ok admitted, ← select]
      simp only [selectLoop, found, if_neg invalid, ih known']

theorem known_of_selectLoop {txs : Finmap fun _ : Bytes => Transaction} {hashes : List Bytes}
    {st st' : Selection} (ended : selectLoop txs hashes st = .ok st') : ∀ h ∈ hashes, h ∈ txs := by
  induction hashes generalizing st with
  | nil => simp
  | cons h rest ih =>
    cases found : txs.lookup h with
    | none => simp [selectLoop, found] at ended
    | some tx =>
      have later : ∀ h ∈ rest, h ∈ txs := by
        simp only [selectLoop, found] at ended
        split at ended
        · exact ih ended
        · exact ih ended
      intro h' member
      rcases List.mem_cons.mp member with rfl | inRest
      · exact Finmap.mem_iff.mpr ⟨tx, found⟩
      · exact later h' inRest

variable {G : GenericHash} {c : BlockChain}

def BlockChain.selected (c : BlockChain) : List Bytes := (select c.txs c.balance c.ordered).1

theorem selected_sublist (c : BlockChain) : c.selected.Sublist c.ordered :=
  Greedy.selected_sublist _ _

theorem selected_pairwise (c : BlockChain) : c.selected.Pairwise (· ≤ ·) :=
  (Finset.pairwise_sort c.mempool (· ≤ ·)).sublist (selected_sublist c)

/-- `get_latest` returns exactly when every hash of the mempool has a transaction
and one of them is selected; then it changes `latest_set` and `latest_hash` only. -/
theorem getLatest_eq_ok_iff {h : Bytes} {c' : BlockChain} :
    c.getLatest G = .ok (h, c') ↔
      (∀ k ∈ c.mempool, k ∈ c.txs) ∧ hashVec G c.selected = .ok h ∧
        c' = { c with latestSet := c.selected, latestHash := h } := by
  have ordered_mem (k : Bytes) : k ∈ c.ordered ↔ k ∈ c.mempool := Finset.mem_sort _
  constructor
  · intro returned
    obtain ⟨st, ended, hashed⟩ := Cpp.bind_eq_ok.mp returned
    have known := known_of_selectLoop ended
    rw [selectLoop_eq known, Except.ok.injEq] at ended
    subst ended
    obtain ⟨root, rooted, finished⟩ := Cpp.bind_eq_ok.mp hashed
    obtain ⟨rfl, rfl⟩ := Prod.mk.inj (Except.ok.inj finished)
    exact ⟨fun k member => known k ((ordered_mem k).mpr member), rooted, rfl⟩
  · rintro ⟨known, rooted, rfl⟩
    have known' : ∀ k ∈ c.ordered, k ∈ c.txs := fun k member => known k ((ordered_mem k).mp member)
    have rooted' : hashVec G (select c.txs c.balance c.ordered).1 = .ok h := rooted
    rw [BlockChain.getLatest, selectLoop_eq known', Cpp.ok_bind, List.nil_append, rooted']
    rfl

end Pttp.Chain
