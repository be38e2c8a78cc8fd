import Pttp.BloomFilter
import Pttp.SetReconsiler

/-!
# The reconsiler of the chain

A table of records by hash. `add_filter` makes the record and drops the filter and
its count, and `filters` and `check` compute what they should return and end
without returning it. A call that ends so has no value (`none`), and neither has
one that goes on with such a value.
-/

namespace Pttp.Chain

/-- The table holds pointers: `none` is null. -/
structure BlockChainReconsiler where
  hashReconsilers : Finmap fun _ : Bytes => Option (SetReconsiler Bloom)

namespace BlockChainReconsiler

def new : BlockChainReconsiler := ⟨∅⟩

/-- `hash_reconsilers[hash]`, which makes a null pointer for a new key. -/
def entry (s : BlockChainReconsiler) (hash : Bytes) :
    Option (SetReconsiler Bloom) × BlockChainReconsiler :=
  match s.hashReconsilers.lookup hash with
  | some r => (r, s)
  | none => (none, ⟨s.hashReconsilers.insert hash none⟩)

def initHash (s : BlockChainReconsiler) (hash : Bytes) : BlockChainReconsiler :=
  if hash ∈ s.hashReconsilers then s
  else ⟨s.hashReconsilers.insert hash (some (SetReconsiler.new Bloom hash))⟩

/-- `add_filter`: neither `n` nor `bloom` is looked at. -/
def addFilter (s : BlockChainReconsiler) (hash : Bytes) (_n : Int32) (_bloom : Bloom) :
    BlockChainReconsiler :=
  if hash ∈ s.hashReconsilers then s
  else ⟨s.hashReconsilers.insert hash (some (SetReconsiler.new Bloom hash))⟩

/-- `filters` has no `return`. -/
def filters (s : BlockChainReconsiler) (hash : Bytes) :
    Option (List Bloom) × BlockChainReconsiler :=
  (none, (s.entry hash).2)

/-- `check` returns for an unknown hash only. -/
def check (G : GenericHash) (s : BlockChainReconsiler) (hash : Bytes) : Cpp (Option Bool) :=
  if hash ∉ s.hashReconsilers then .ok (some false)
  else
    match (s.entry hash).1 with
    | none => .error .nullPointer
    | some r => do
        let _ ← r.check G
        return none

/-- `get_set_or_filter`, which starts from what `filters` returns. -/
def getSetOrFilter (s : BlockChainReconsiler) (hash : Bytes) : Cpp (Option Bool) :=
  match s.filters hash with
  | (none, _) => .ok none
  | (some filters, s) =>
      if filters.length = 0 then .ok (some false)
      else
        match (s.entry hash).1 with
        | none => .error .nullPointer
        | some r => .ok (some (decide (r.currentSet.length < r.N.toNat)))

/-! ## Sequences of calls -/

inductive Update where
  | initHash (hash : Bytes)
  | addFilter (hash : Bytes) (n : Int32) (bloom : Bloom)

def Update.hash : Update → Bytes
  | .initHash hash => hash
  | .addFilter hash _ _ => hash

def update (s : BlockChainReconsiler) : Update → BlockChainReconsiler
  | .initHash hash => s.initHash hash
  | .addFilter hash n bloom => s.addFilter hash n bloom

def afterUpdates (s : BlockChainReconsiler) (calls : List Update) : BlockChainReconsiler :=
  calls.foldl update s

/-- What the calls pass to `add_filter` for a hash. -/
def added (h : Bytes) (calls : List Update) : List (Int32 × Bloom) :=
  calls.filterMap fun
    | .initHash _ => none
    | .addFilter hash n bloom => if hash = h then some (n, bloom) else none

/-- The record of `h` has what was passed for it, and the methods return it. -/
structure Keeps (G : GenericHash) (calls : List Update) (h : Bytes) (s : BlockChainReconsiler)
    (r : SetReconsiler Bloom) : Prop where
  stored : s.hashReconsilers.lookup h = some (some r)
  filters : (s.filters h).1 = some ((added h calls).map Prod.snd)
  count : r.N = UInt64.ofInt (((added h calls).getLast?.map Prod.fst).getD 0).toInt
  check : s.check G h = (r.check G).map some
  getSetOrFilter : s.getSetOrFilter h =
    .ok (some (decide (added h calls ≠ [] ∧ r.currentSet.length < r.N.toNat)))

theorem update_eq (s : BlockChainReconsiler) (call : Update) :
    s.update call = s.initHash call.hash := by
  cases call with
  | initHash hash => rfl
  | addFilter hash n bloom => rfl

theorem lookup_initHash_self (s : BlockChainReconsiler) (h : Bytes) :
    (s.initHash h).hashReconsilers.lookup h =
      some ((s.hashReconsilers.lookup h).getD (some (SetReconsiler.new Bloom h))) := by
  unfold initHash
  split
  case isTrue known =>
    obtain ⟨r, found⟩ := Finmap.mem_iff.mp known
    rw [found]
    rfl
  case isFalse fresh =>
    rw [Finmap.lookup_insert, Finmap.lookup_eq_none.mpr fresh]
    rfl

theorem lookup_initHash_of_ne (s : BlockChainReconsiler) {hash h : Bytes} (other : hash ≠ h) :
    (s.initHash hash).hashReconsilers.lookup h = s.hashReconsilers.lookup h := by
  unfold initHash
  split
  · rfl
  · exact Finmap.lookup_insert_of_ne _ other.symm

def AllNew (s : BlockChainReconsiler) : Prop :=
  ∀ h r, s.hashReconsilers.lookup h = some r → r = some (SetReconsiler.new Bloom h)

theorem AllNew.update {s : BlockChainReconsiler} (allNew : s.AllNew) (call : Update) :
    (s.update call).AllNew := by
  intro h r found
  rw [update_eq] at found
  by_cases same : call.hash = h
  · subst same
    rw [lookup_initHash_self] at found
    obtain rfl := Option.some.inj found
    cases known : s.hashReconsilers.lookup call.hash with
    | none => rfl
    | some r => exact allNew _ _ known
  · rw [lookup_initHash_of_ne s same] at found
    exact allNew h r found

theorem AllNew.afterUpdates {s : BlockChainReconsiler} (allNew : s.AllNew) (calls : List Update) :
    (s.afterUpdates calls).AllNew := by
  induction calls generalizing s with
  | nil => exact allNew
  | cons call calls ih => exact ih (allNew.update call)

theorem mem_update {s : BlockChainReconsiler} {h : Bytes} (call : Update)
    (known : h ∈ s.hashReconsilers ∨ call.hash = h) : h ∈ (s.update call).hashReconsilers := by
  rw [update_eq]
  by_cases same : call.hash = h
  · subst same
    exact Finmap.mem_iff.mpr ⟨_, lookup_initHash_self s _⟩
  · obtain ⟨r, found⟩ := Finmap.mem_iff.mp (known.resolve_right same)
    exact Finmap.mem_iff.mpr ⟨r, (lookup_initHash_of_ne s same).trans found⟩

theorem mem_afterUpdates {s : BlockChainReconsiler} {h : Bytes} {calls : List Update}
    (known : h ∈ s.hashReconsilers ∨ ∃ call ∈ calls, call.hash = h) :
    h ∈ (s.afterUpdates calls).hashReconsilers := by
  induction calls generalizing s with
  | nil =>
    rcases known with known | ⟨_, member, _⟩
    · exact known
    · cases member
  | cons call calls ih =>
    apply ih
    rcases known with known | ⟨call', member, same⟩
    · exact .inl (mem_update call (.inl known))
    · rcases List.mem_cons.mp member with rfl | member
      · exact .inl (mem_update call' (.inr same))
      · exact .inr ⟨call', member, same⟩

/-- Whatever was added for a hash, its record is a new one, and no sequence of calls
leaves the methods with values to return. -/
theorem loses_filters (G : GenericHash) (calls : List Update) {h : Bytes}
    (touched : ∃ call ∈ calls, call.hash = h) :
    (new.afterUpdates calls).hashReconsilers.lookup h =
        some (some (SetReconsiler.new Bloom h)) ∧
      ¬ ∃ r, Keeps G calls h (new.afterUpdates calls) r := by
  constructor
  · have allNew : (new.afterUpdates calls).AllNew := by
      apply AllNew.afterUpdates
      intro h r found
      cases found
    obtain ⟨r, found⟩ := Finmap.mem_iff.mp (mem_afterUpdates (s := new) (.inr touched))
    rw [found, allNew h r found]
  · rintro ⟨r, keeps⟩
    cases keeps.filters

theorem loses_filters_one :
    (new.afterUpdates [.addFilter [1] 5 ⟨1, [true], [], 1⟩]).hashReconsilers.lookup [1] =
        some (some (SetReconsiler.new Bloom [1])) ∧
      ¬ ∃ r, Keeps .polynomial [.addFilter [1] 5 ⟨1, [true], [], 1⟩] [1]
        (new.afterUpdates [.addFilter [1] 5 ⟨1, [true], [], 1⟩]) r :=
  loses_filters .polynomial [.addFilter [1] 5 ⟨1, [true], [], 1⟩] ⟨_, List.mem_cons_self, rfl⟩

theorem not_keeps_one :
    (∃ r, (new.afterUpdates [.addFilter [1] 5 ⟨1, [true], [], 1⟩]).hashReconsilers.lookup [1] =
      some (some r) ∧ r.filters = [] ∧ r.N = 0) ∧
    ¬ ∃ r, Keeps .polynomial [.addFilter [1] 5 ⟨1, [true], [], 1⟩] [1]
      (new.afterUpdates [.addFilter [1] 5 ⟨1, [true], [], 1⟩]) r := by
  have stored := lookup_initHash_self new [1]
  refine ⟨⟨_, stored, rfl, rfl⟩, ?_⟩
  rintro ⟨r, keeps⟩
  obtain rfl := Option.some.inj (Option.some.inj (stored.symm.trans keeps.stored))
  have count : (0 : UInt64) = 5 := keeps.count
  exact absurd count (by decide)

end BlockChainReconsiler

end Pttp.Chain
