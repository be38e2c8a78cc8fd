import Pttp.Cuckoo
import Pttp.Lib.Calls

/-!
# The store and its cache

`CachedDB` is meant to answer as `DB` does. Its `get` lets the pointer of the
cache take the place of the caller's, so a hit writes nothing and a miss writes
through null. The two agree on the calls where neither can happen: the key is in
neither of them.
-/

namespace Pttp

open Calls

/-- What the caller of a `get` sees: the flag, and the value written with the
pointer it was written through. -/
structure Answer where
  found : Bool
  written : Option (Pointer × Bytes)

/-- The key-value map behind `rocksdb::DB`. -/
structure DB where
  db : Finmap fun _ : Bytes => Bytes

namespace DB

def put (d : DB) (id data : Bytes) : DB := ⟨d.db.insert id data⟩

def del (d : DB) (id : Bytes) : DB := ⟨d.db.erase id⟩

def get (d : DB) (id : Bytes) (data : Pointer) : Cpp Answer :=
  match d.db.lookup id with
  | none => .ok ⟨false, none⟩
  | some value => if data = .null then .error .nullPointer else .ok ⟨true, some (data, value)⟩

end DB

structure CachedDB where
  db : DB
  cache : Cuckoo

namespace CachedDB

variable (S : ShortHash)

/-- `CachedDB::put`, which like `del` ends without the `bool` it announces; the answers
that are compared are those of `get`. -/
def put (s : CachedDB) (id data : Bytes) : Cpp CachedDB := do
  let cache ← s.cache.store S id data
  return ⟨s.db.put id data, cache⟩

/-- `CachedDB::del`, which leaves the cache alone. -/
def del (s : CachedDB) (id : Bytes) : CachedDB := { s with db := s.db.del id }

/-- `CachedDB::get`. Its first statement assigns to the parameter `data`. -/
def get (s : CachedDB) (id : Bytes) (_data : Pointer) : Cpp (CachedDB × Answer) := do
  let data ← s.cache.get S id
  if data = .null then do
    let answer ← s.db.get id data
    match answer.written with
    | none => return (s, answer)
    | some (_, value) => do
        let cache ← s.cache.store S id value
        return ({ s with cache := cache }, answer)
  else return (s, ⟨true, none⟩)

end CachedDB

/-! ## Sequences of calls -/

inductive Call where
  | put (id data : Bytes)
  | del (id : Bytes)
  | get (id : Bytes)

def DB.call (d : DB) : Call → Cpp (DB × Option Answer)
  | .put id data => .ok (d.put id data, none)
  | .del id => .ok (d.del id, none)
  | .get id => do
      let answer ← d.get id .caller
      return (d, some answer)

def CachedDB.call (S : ShortHash) (s : CachedDB) : Call → Cpp (CachedDB × Option Answer)
  | .put id data => do
      let s ← s.put S id data
      return (s, none)
  | .del id => .ok (s.del id, none)
  | .get id => do
      let (s, answer) ← s.get S id .caller
      return (s, some answer)

/-! ## Where the two agree -/

variable {S : ShortHash}

def Absent (S : ShortHash) (s : CachedDB) (id : Bytes) : Prop :=
  s.db.db.lookup id = none ∧ s.cache.get S id = .ok .null

def Ready (S : ShortHash) (s : CachedDB) : Call → Prop
  | .put _ _ => True
  | .del _ => True
  | .get id => Absent S s id

theorem DB.call_get_of_none {d : DB} {id : Bytes} (absent : d.db.lookup id = none) :
    d.call (.get id) = .ok (d, some ⟨false, none⟩) := by
  simp only [DB.call, DB.get, absent]
  rfl

theorem DB.call_get_of_some {d : DB} {id value : Bytes} (present : d.db.lookup id = some value) :
    d.call (.get id) = .ok (d, some ⟨true, some (.caller, value)⟩) := by
  simp only [DB.call, DB.get, present]
  rfl

theorem CachedDB.call_get_of_absent {s : CachedDB} {id : Bytes} (absent : Absent S s id) :
    s.call S (.get id) = .ok (s, some ⟨false, none⟩) := by
  simp only [CachedDB.call, CachedDB.get, absent.2, Cpp.ok_bind, if_true, DB.get, absent.1]
  rfl

theorem CachedDB.call_put {s : CachedDB} (usable : s.cache.Usable) (id data : Bytes) :
    ∃ t, s.call S (.put id data) = .ok (t, none) ∧ t.db = s.db.put id data ∧ t.cache.Usable := by
  obtain ⟨cache, stored, usable'⟩ := usable.store (S := S) id data
  refine ⟨⟨s.db.put id data, cache⟩, ?_, rfl, usable'⟩
  simp only [CachedDB.call, CachedDB.put, stored, Cpp.ok_bind]
  rfl

theorem CachedDB.call_get_of_hit {s : CachedDB} {id : Bytes} {p : Pointer}
    (hit : s.cache.get S id = .ok p) (nonnull : p ≠ .null) :
    s.call S (.get id) = .ok (s, some ⟨true, none⟩) := by
  simp only [CachedDB.call, CachedDB.get, hit, Cpp.ok_bind, if_neg nonnull]
  rfl

/-- A miss on a stored key writes through the null pointer the cache returned. -/
theorem CachedDB.call_get_of_miss {s : CachedDB} {id value : Bytes}
    (miss : s.cache.get S id = .ok .null) (present : s.db.db.lookup id = some value) :
    s.call S (.get id) = .error .nullPointer := by
  simp only [CachedDB.call, CachedDB.get, miss, Cpp.ok_bind, if_true, DB.get, present,
    Cpp.error_bind]

theorem CachedDB.call_get_eq_ok {s t : CachedDB} {id : Bytes} {answer : Option Answer}
    (called : s.call S (.get id) = .ok (t, answer)) :
    answer = some ⟨true, none⟩ ∨ (Absent S s id ∧ answer = some ⟨false, none⟩) := by
  cases looked : s.cache.get S id with
  | error e =>
    simp only [CachedDB.call, CachedDB.get, looked, Cpp.error_bind] at called
    cases called
  | ok p =>
    by_cases null : p = .null
    · subst null
      cases stored : s.db.db.lookup id with
      | none =>
        rw [call_get_of_absent ⟨stored, looked⟩] at called
        cases called
        exact .inr ⟨⟨stored, looked⟩, rfl⟩
      | some value =>
        rw [call_get_of_miss looked stored] at called
        cases called
    · rw [call_get_of_hit looked null] at called
      cases called
      exact .inl rfl

def Agrees (S : ShortHash) (s : CachedDB) (calls : List Call) : Prop :=
  answers (CachedDB.call S) s calls = answers DB.call s.db calls

theorem DB.call_total (d : DB) (c : Call) : ∃ t answer, d.call c = .ok (t, answer) := by
  cases c with
  | put id data => exact ⟨_, _, rfl⟩
  | del id => exact ⟨_, _, rfl⟩
  | get id =>
    cases stored : d.db.lookup id with
    | none => exact ⟨_, _, DB.call_get_of_none stored⟩
    | some value => exact ⟨_, _, DB.call_get_of_some stored⟩

theorem CachedDB.call_get_ne {s t : CachedDB} {d : DB} {id : Bytes} {answer : Option Answer}
    (present : ¬ Absent S s id) (called : s.call S (.get id) = .ok (t, answer)) :
    s.db.call (.get id) ≠ .ok (d, answer) := by
  intro called'
  rcases CachedDB.call_get_eq_ok called with rfl | ⟨absent, -⟩
  · cases stored : s.db.db.lookup id with
    | none =>
      rw [DB.call_get_of_none stored] at called'
      cases called'
    | some value =>
      rw [DB.call_get_of_some stored] at called'
      cases called'
  · exact present absent

/-- With its cache, the store stands for the plain one on the calls that are ready. -/
theorem CachedDB.refines : Refines (CachedDB.call S) DB.call CachedDB.db
    (fun s => s.cache.Usable) (Ready S) where
  total := DB.call_total
  agrees s c usable ready := by
    cases c with
    | put id data =>
      obtain ⟨t, called, sameStore, usable'⟩ := CachedDB.call_put (S := S) usable id data
      refine ⟨t, none, called, ?_, usable'⟩
      rw [sameStore]
      rfl
    | del id => exact ⟨s.del id, none, rfl, rfl, usable⟩
    | get id =>
      exact ⟨s, _, CachedDB.call_get_of_absent ready, DB.call_get_of_none ready.1, usable⟩
  differs s c _ unready t d answer called := by
    cases c with
    | put id data => exact absurd trivial unready
    | del id => exact absurd trivial unready
    | get id => exact CachedDB.call_get_ne unready called

/-- From a new cache over any store, the answers are those of the plain store
exactly when no `get` asks for a key that the store or the cache has then. -/
theorem cachedDB_agrees_iff {P : Int32} (size : 1 ≤ P.toInt) {key1 key2 : Bytes}
    (keyed1 : key1.length = 16) (keyed2 : key2.length = 16) (db : DB) (calls : List Call) :
    ∃ cache, Cuckoo.sized (UInt64.ofInt P.toInt) key1 key2 = .ok cache ∧
      (Agrees S ⟨db, cache⟩ calls ↔ Each (CachedDB.call S) (Ready S) ⟨db, cache⟩ calls) := by
  have places : P.toInt = P.toInt.toNat := by omega
  obtain ⟨cache, built, usable⟩ := Cuckoo.sized_eq places (by omega) keyed1.ge keyed2.ge
  exact ⟨cache, built, CachedDB.refines.answers_eq_iff usable calls⟩

def oneSlot (stored value : Option Bytes) : Cuckoo :=
  ⟨⟨1, [false], List.replicate 16 0, 0⟩, ⟨1, [false], List.replicate 16 0, 0⟩, [stored], [value], 1⟩

theorem cachedDB_agrees_other_key :
    ∃ cache, Cuckoo.sized 1 (List.replicate 16 0) (List.replicate 16 0) = .ok cache ∧
      Agrees .firstBytes ⟨⟨∅⟩, cache⟩ [.put [1] [2], .get [3]] := by
  have keyed : (List.replicate 16 (0 : UInt8)).length = 16 := rfl
  obtain ⟨cache, built, iff⟩ := cachedDB_agrees_iff (S := .firstBytes) (P := 1) (by decide)
    keyed keyed ⟨∅⟩ [.put [1] [2], .get [3]]
  refine ⟨cache, built, iff.mpr ?_⟩
  obtain rfl : cache = oneSlot none none := (Except.ok.inj built).symm
  have stored : (oneSlot none none).store .firstBytes [1] [2] =
      .ok (oneSlot (some [1]) (some [2])) := rfl
  have called : CachedDB.call .firstBytes ⟨⟨∅⟩, oneSlot none none⟩ (.put [1] [2]) =
      .ok (⟨DB.put ⟨∅⟩ [1] [2], oneSlot (some [1]) (some [2])⟩, none) := by
    simp only [CachedDB.call, CachedDB.put, stored, Cpp.ok_bind]
    rfl
  have absent : Absent .firstBytes
      ⟨DB.put ⟨∅⟩ [1] [2], oneSlot (some [1]) (some [2])⟩ [3] := by
    refine ⟨?_, rfl⟩
    show Finmap.lookup [3] (Finmap.insert [1] [2] (∅ : Finmap fun _ : Bytes => Bytes)) = none
    decide
  rw [each_cons called, each_cons (CachedDB.call_get_of_absent absent)]
  exact ⟨trivial, absent, each_nil _⟩

theorem not_agrees_put_get {s : CachedDB} (usable : s.cache.Usable) (id data : Bytes) :
    ¬ Agrees S s [.put id data, .get id] := by
  obtain ⟨t, called, sameStore, -⟩ := CachedDB.call_put (S := S) usable id data
  unfold Agrees
  rw [CachedDB.refines.answers_eq_iff usable, each_cons called]
  rintro ⟨-, all⟩
  have absent : Absent S t id := all.head
  have present : t.db.db.lookup id = some data := by
    rw [sameStore]
    exact Finmap.lookup_insert _
  rw [absent.1] at present
  cases present

theorem cachedDB_disagrees :
    ∃ cache, Cuckoo.sized 1 (List.replicate 16 0) (List.replicate 16 0) = .ok cache ∧
      ¬ Agrees .firstBytes ⟨⟨∅⟩, cache⟩ [.put [1] [2], .get [1]] := by
  have places : (1 : Int32).toInt = (1 : Nat) := rfl
  have keyed : 16 ≤ (List.replicate 16 (0 : UInt8)).length := le_rfl
  obtain ⟨cache, built, usable⟩ := Cuckoo.sized_eq places (by decide) keyed keyed
  exact ⟨cache, built, not_agrees_put_get usable [1] [2]⟩

end Pttp
