import Pttp.BloomFilter
import Pttp.Lib.Calls

/-!
# A filter over a run of calls

`set`, `has_set` and `reset` on a fresh filter. The bits that are on are at every
moment the places of what was inserted since the last `reset`, so `has` answers
by the place an element shares with one of these.
-/

namespace Pttp.Bloom

open Calls

def reset (f : Bloom) : Bloom :=
  { f with hits := List.replicate f.hits.length false, nOn := 0 }

variable (S : ShortHash)

/-- `Bloom::has_set`, which unlike `has` does not look at `P`. -/
def hasSet (f : Bloom) (b : Bytes) : Cpp (Bool × Bloom) := do
  let val ← f.hash S b
  let has ← Cpp.index f.hits val.toNat
  return (has, { f with
    hits := f.hits.set val.toNat true
    nOn := if has then f.nOn else f.nOn + 1 })

inductive Operation where
  | set (b : Bytes)
  | hasSet (b : Bytes)
  | reset

def operate (f : Bloom) : Operation → Cpp (Bloom × Option Bool)
  | .set b => do
      let f ← f.set S b
      return (f, none)
  | .hasSet b => do
      let (has, f) ← f.hasSet S b
      return (f, some has)
  | .reset => .ok (f.reset, none)

def insertedBy (T : List Bytes) : Operation → List Bytes
  | .set b => b :: T
  | .hasSet b => b :: T
  | .reset => []

def inserted (operations : List Operation) : List Bytes := operations.foldl insertedBy []

theorem inserted_snoc (operations : List Operation) (op : Operation) :
    inserted (operations ++ [op]) = insertedBy (inserted operations) op := by
  unfold inserted
  rw [List.foldl_append]
  rfl

variable {S}

theorem Usable.hasSet_eq {f : Bloom} (usable : f.Usable) (b : Bytes) :
    ∃ hit g, f.has S b = .ok hit ∧ f.set S b = .ok g ∧ f.hasSet S b = .ok (hit, g) := by
  obtain ⟨hit, answer, there⟩ := usable.has_eq (S := S) b
  have read : Cpp.index f.hits (toUint (S.digest (f.key.take 16) b) f.P).toNat = .ok hit :=
    Cpp.index_eq_ok_iff.mpr there
  refine ⟨hit, { f with
    nOn := if hit then f.nOn else f.nOn + 1
    hits := f.hits.set (S.place f.key f.P b) true }, answer, ?_, ?_⟩
  · rw [set, hash_of_keyed usable.keyed, Cpp.ok_bind, read, Cpp.ok_bind]
    rfl
  · rw [hasSet, hash_of_keyed usable.keyed, Cpp.ok_bind, read, Cpp.ok_bind]
    rfl

theorem Represents.reset {f : Bloom} {T : Set Bytes} (represents : Represents S f T) :
    Represents S f.reset ∅ := by
  refine ⟨⟨represents.keyed, ?_, ?_⟩, ?_⟩
  · simpa [Bloom.reset] using represents.sized
  · simpa [Bloom.reset] using represents.positive
  · intro i
    simp [Bloom.reset, List.getElem?_replicate]

/-- The filter of a run: it stands for what was inserted, under the size and the key
it began with. -/
structure Keeps (S : ShortHash) (P : Int32) (key : Bytes) (operations : List Operation)
    (f : Bloom) : Prop extends Represents S f {b | b ∈ inserted operations} where
  sameP : f.P = P
  sameKey : f.key = key

theorem Keeps.set {P : Int32} {key : Bytes} {operations : List Operation} {f : Bloom}
    (keeps : Keeps S P key operations f) (b : Bytes) :
    ∃ g, f.set S b = .ok g ∧ g.P = P ∧ g.key = key ∧
      Represents S g {c | c ∈ b :: inserted operations} := by
  obtain ⟨g, marked, sameP, sameKey, represents⟩ := keeps.toRepresents.set b
  have more : insert b {c | c ∈ inserted operations} = {c | c ∈ b :: inserted operations} := by
    ext c
    simp
  exact ⟨g, marked, sameP.trans keeps.sameP, sameKey.trans keeps.sameKey, more ▸ represents⟩

theorem Keeps.operate {P : Int32} {key : Bytes} {operations : List Operation} {f : Bloom}
    (keeps : Keeps S P key operations f) (op : Operation) :
    ∃ g answer, f.operate S op = .ok (g, answer) ∧ Keeps S P key (operations ++ [op]) g := by
  cases op with
  | set b =>
    obtain ⟨g, marked, sameP, sameKey, represents⟩ := keeps.set b
    refine ⟨g, none, ?_, ⟨?_, sameP, sameKey⟩⟩
    · rw [Bloom.operate, marked]
      rfl
    · rw [inserted_snoc]
      exact represents
  | hasSet b =>
    obtain ⟨g, marked, sameP, sameKey, represents⟩ := keeps.set b
    obtain ⟨hit, g', -, marked', answered⟩ := keeps.toUsable.hasSet_eq (S := S) b
    obtain rfl := Cpp.ok_unique marked marked'
    refine ⟨g, some hit, ?_, ⟨?_, sameP, sameKey⟩⟩
    · rw [Bloom.operate, answered]
      rfl
    · rw [inserted_snoc]
      exact represents
  | reset =>
    refine ⟨f.reset, none, rfl, ⟨?_, keeps.sameP, keeps.sameKey⟩⟩
    rw [inserted_snoc]
    have nothing : {c : Bytes | c ∈ insertedBy (inserted operations) .reset} = ∅ := by
      ext c
      simp [insertedBy]
    rw [nothing]
    exact keeps.toRepresents.reset

theorem keeps_ofInt {P : Int32} {places : Nat} (sized : P.toInt = places)
    (positive : 0 < places) {key : Bytes} (keyed : 16 ≤ key.length) :
    ∃ f, ofInt P key = .ok f ∧ Keeps S P key [] f := by
  obtain ⟨made, fresh⟩ := represents_ofInt (S := S) sized positive keyed
  refine ⟨_, made, ⟨?_, rfl, rfl⟩⟩
  have nothing : {c : Bytes | c ∈ inserted []} = ∅ := by
    ext c
    simp [inserted]
  rw [nothing]
  exact fresh

theorem hash_eq_hash_iff {f : Bloom} (keyed : 16 ≤ f.key.length) (y x : Bytes) :
    f.hash S y = f.hash S x ↔ S.place f.key f.P y = S.place f.key f.P x := by
  rw [hash_of_keyed keyed, hash_of_keyed keyed, Except.ok.injEq]
  exact UInt64.toNat_inj.symm

/-- After any calls on a new filter: `has` finds what shares its hash with something
inserted since the last `reset`, `has_set` says what `has` says, and all indices lie
in the array. -/
theorem has_after_operations {P : Int32} (size : 1 ≤ P.toInt) {key : Bytes}
    (keyed : key.length = 16) (operations : List Operation) :
    ∃ f g, ofInt P key = .ok f ∧ after (operate S) f operations = .ok g ∧
      (∀ x, ∃ hit, g.has S x = .ok hit ∧
        (hit = true ↔ ∃ y ∈ inserted operations, g.hash S y = g.hash S x)) ∧
      (∀ x, ∃ hit g', g.has S x = .ok hit ∧ g.hasSet S x = .ok (hit, g')) ∧
      (g.hits.length : Int) = P.toInt ∧
      ∀ x, ∃ val, g.hash S x = .ok val ∧ (val.toNat : Int) < P.toInt := by
  have places : P.toInt = P.toInt.toNat := by omega
  obtain ⟨f, made, fresh⟩ := keeps_ofInt (S := S) places (by omega) keyed.ge
  obtain ⟨g, reached, keeps⟩ := after_induct (Keeps S P key)
    (fun history t op kept => kept.operate op) fresh operations
  have usable := keeps.toUsable
  have length : (g.hits.length : Int) = P.toInt := by rw [← usable.sized, keeps.sameP]
  refine ⟨f, g, made, reached, ?_, ?_, length, ?_⟩
  · intro x
    obtain ⟨hit, answer, -⟩ := usable.has_eq (S := S) x
    refine ⟨hit, answer, ?_⟩
    have found := keeps.toRepresents.has_iff x
    rw [answer, Except.ok.injEq] at found
    simp only [hash_eq_hash_iff usable.keyed]
    exact found
  · intro x
    obtain ⟨hit, g', answer, -, answer'⟩ := usable.hasSet_eq (S := S) x
    exact ⟨hit, g', answer, answer'⟩
  · intro x
    refine ⟨_, hash_of_keyed usable.keyed x, ?_⟩
    rw [← length]
    exact Int.ofNat_lt.mpr (usable.place_lt x)

theorem has_after_reset :
    ∃ f g, ofInt 13 (List.replicate 16 0) = .ok f ∧
      after (operate .firstBytes) f [.set [20], .hasSet [60], .reset, .set [100], .hasSet [200]] =
        .ok g ∧
      g.has .firstBytes [100] = .ok true ∧ g.has .firstBytes [200] = .ok true ∧
      g.has .firstBytes [100, 1] = .ok true ∧ g.has .firstBytes [20] = .ok false := by
  have keyed : (List.replicate 16 (0 : UInt8)).length = 16 := rfl
  obtain ⟨f, g, made, reached, answers, -⟩ := has_after_operations (S := .firstBytes) (P := 13)
    (by decide) keyed [.set [20], .hasSet [60], .reset, .set [100], .hasSet [200]]
  have known (x : Bytes) (y : Bytes) (member : y ∈ [[200], [100]])
      (same : g.hash .firstBytes y = g.hash .firstBytes x) : g.has .firstBytes x = .ok true := by
    obtain ⟨hit, answer, iff⟩ := answers x
    rw [answer, iff.mpr ⟨y, member, same⟩]
  have gone : (do
      let f ← ofInt 13 (List.replicate 16 0)
      let g ← after (operate .firstBytes) f
        [.set [20], .hasSet [60], .reset, .set [100], .hasSet [200]]
      g.has .firstBytes [20]) = .ok false := by decide +kernel
  rw [made, Cpp.ok_bind, reached, Cpp.ok_bind] at gone
  exact ⟨f, g, made, reached, known _ [100] (by decide) rfl, known _ [200] (by decide) rfl,
    known _ [100] (by decide) rfl, gone⟩

end Pttp.Bloom
