import Pttp.BloomFilter

/-!
# The two-slot cache

A key has a slot by either filter. `store` takes the first when it is empty and
otherwise the second, whatever stands there; `get` looks at the second only when
the first is empty. The vectors hold pointers: `none` is null.
-/

namespace Pttp

inductive Pointer where
  | null
  | caller
  | slot (p : Nat)
  deriving DecidableEq

structure Cuckoo where
  filter1 : Bloom
  filter2 : Bloom
  hashes : List (Option Bytes)
  data : List (Option Bytes)
  N : UInt64

namespace Cuckoo

/-- `Cuckoo::Cuckoo`, which gives `data` no slots; `key1` and `key2` are the keys
the two filters draw. -/
def ofSize (N : UInt64) (key1 key2 : Bytes) : Cpp Cuckoo := do
  let filter1 ← Bloom.ofInt (Int32.ofNat N.toNat) key1
  let filter2 ← Bloom.ofInt (Int32.ofNat N.toNat) key2
  return ⟨filter1, filter2, List.replicate N.toNat none, [], N⟩

variable (S : ShortHash)

/-- The slot `store` comes to, where it deletes what it finds in the second. -/
def storeSlot (c : Cuckoo) (hash : Bytes) : Cpp Nat := do
  let p ← c.filter1.hash S hash
  let first ← Cpp.index c.hashes p.toNat
  match first with
  | none => return p.toNat
  | some _ => do
      let p ← c.filter2.hash S hash
      let second ← Cpp.index c.hashes p.toNat
      match second with
      | none => return p.toNat
      | some _ => do
          let _ ← Cpp.index c.data p.toNat
          return p.toNat

def store (c : Cuckoo) (hash newData : Bytes) : Cpp Cuckoo := do
  let p ← c.storeSlot S hash
  let hashes ← Cpp.assign c.hashes p (some hash)
  let data ← Cpp.assign c.data p (some newData)
  return { c with hashes := hashes, data := data }

def compare (c : Cuckoo) (p : Nat) (stored hash : Bytes) : Cpp Pointer :=
  if stored ≠ hash then .ok .null
  else do
    let value ← Cpp.index c.data p
    return if value.isSome then .slot p else .null

def get (c : Cuckoo) (hash : Bytes) : Cpp Pointer := do
  let p ← c.filter1.hash S hash
  let first ← Cpp.index c.hashes p.toNat
  match first with
  | none => do
      let p ← c.filter2.hash S hash
      let second ← Cpp.index c.hashes p.toNat
      match second with
      | none => return .null
      | some stored => c.compare p.toNat stored hash
  | some stored => c.compare p.toNat stored hash

/-! ## The slots of a key -/

def place1 (c : Cuckoo) (hash : Bytes) : Nat := S.place c.filter1.key c.filter1.P hash

def place2 (c : Cuckoo) (hash : Bytes) : Nat := S.place c.filter2.key c.filter2.P hash

def held (c : Cuckoo) (p : Nat) : Option Bytes := (c.hashes[p]?).join

def value (c : Cuckoo) (p : Nat) : Option Bytes := (c.data[p]?).join

structure Slotted (c : Cuckoo) : Prop where
  firstKeyed : 16 ≤ c.filter1.key.length
  secondKeyed : 16 ≤ c.filter2.key.length
  first : ∀ hash, c.place1 S hash < c.hashes.length
  second : ∀ hash, c.place2 S hash < c.hashes.length
  dataSized : c.data.length = c.hashes.length

def put (c : Cuckoo) (p : Nat) (hash newData : Bytes) : Cuckoo :=
  { c with hashes := c.hashes.set p (some hash), data := c.data.set p (some newData) }

def storePlace (c : Cuckoo) (hash : Bytes) : Nat :=
  if c.held (c.place1 S hash) = none then c.place1 S hash else c.place2 S hash

variable {S} {c : Cuckoo}

@[simp] theorem place1_put (p : Nat) (hash newData other : Bytes) :
    (c.put p hash newData).place1 S other = c.place1 S other := rfl

@[simp] theorem place2_put (p : Nat) (hash newData other : Bytes) :
    (c.put p hash newData).place2 S other = c.place2 S other := rfl

theorem join_getElem?_set {α : Type} {l : List (Option α)} {p : Nat} (inside : p < l.length)
    (b : α) (q : Nat) :
    ((l.set p (some b))[q]?).join = if q = p then some b else (l[q]?).join := by
  by_cases same : q = p
  · rw [if_pos same, same, List.getElem?_set_self inside]
    rfl
  · rw [if_neg same, List.getElem?_set_ne (Ne.symm same)]

theorem held_put (hash newData : Bytes) {p : Nat} (inside : p < c.hashes.length) (q : Nat) :
    (c.put p hash newData).held q = if q = p then some hash else c.held q :=
  join_getElem?_set inside hash q

theorem value_put (hash newData : Bytes) {p : Nat} (inside : p < c.data.length) (q : Nat) :
    (c.put p hash newData).value q = if q = p then some newData else c.value q :=
  join_getElem?_set inside newData q

theorem index_eq_join {α : Type} {l : List (Option α)} {p : Nat} (inside : p < l.length) :
    Cpp.index l p = .ok (l[p]?).join := by
  rw [Cpp.index_eq_ok_iff, List.getElem?_eq_getElem inside]
  rfl

theorem index_hashes {p : Nat} (inside : p < c.hashes.length) :
    Cpp.index c.hashes p = .ok (c.held p) := index_eq_join inside

theorem index_data {p : Nat} (inside : p < c.data.length) :
    Cpp.index c.data p = .ok (c.value p) := index_eq_join inside

@[simp] theorem length_hashes_put (p : Nat) (hash newData : Bytes) :
    (c.put p hash newData).hashes.length = c.hashes.length := List.length_set

@[simp] theorem length_data_put (p : Nat) (hash newData : Bytes) :
    (c.put p hash newData).data.length = c.data.length := List.length_set

namespace Slotted

theorem put (slotted : c.Slotted S) (p : Nat) (hash newData : Bytes) :
    (c.put p hash newData).Slotted S where
  firstKeyed := slotted.firstKeyed
  secondKeyed := slotted.secondKeyed
  first other := by
    rw [place1_put, length_hashes_put]
    exact slotted.first other
  second other := by
    rw [place2_put, length_hashes_put]
    exact slotted.second other
  dataSized := by
    rw [length_data_put, length_hashes_put]
    exact slotted.dataSized

theorem storePlace_lt (slotted : c.Slotted S) (hash : Bytes) :
    c.storePlace S hash < c.hashes.length := by
  unfold storePlace
  split
  · exact slotted.first hash
  · exact slotted.second hash

theorem hash_first (slotted : c.Slotted S) (hash : Bytes) :
    ∃ p, c.filter1.hash S hash = .ok p ∧ p.toNat = c.place1 S hash :=
  ⟨_, Bloom.hash_of_keyed slotted.firstKeyed hash, rfl⟩

theorem hash_second (slotted : c.Slotted S) (hash : Bytes) :
    ∃ p, c.filter2.hash S hash = .ok p ∧ p.toNat = c.place2 S hash :=
  ⟨_, Bloom.hash_of_keyed slotted.secondKeyed hash, rfl⟩

theorem storeSlot_eq (slotted : c.Slotted S) (hash : Bytes) :
    c.storeSlot S hash = .ok (c.storePlace S hash) := by
  obtain ⟨p, hashed, place⟩ := slotted.hash_first hash
  obtain ⟨p', hashed', place'⟩ := slotted.hash_second hash
  have deleted : Cpp.index c.data (c.place2 S hash) = .ok (c.value (c.place2 S hash)) :=
    index_data (slotted.dataSized.symm ▸ slotted.second hash)
  unfold storeSlot storePlace
  rw [hashed, Cpp.ok_bind, place, index_hashes (slotted.first hash), Cpp.ok_bind]
  cases c.held (c.place1 S hash) with
  | none => rfl
  | some stored =>
    simp only [hashed', Cpp.ok_bind, place', index_hashes (slotted.second hash), deleted]
    cases c.held (c.place2 S hash) <;> rfl

theorem store_eq (slotted : c.Slotted S) (hash newData : Bytes) :
    c.store S hash newData = .ok (c.put (c.storePlace S hash) hash newData) := by
  have inside := slotted.storePlace_lt hash
  have inData : c.storePlace S hash < c.data.length := slotted.dataSized ▸ inside
  unfold store
  rw [slotted.storeSlot_eq, Cpp.ok_bind, Cpp.assign_of_lt _ inside, Cpp.ok_bind,
    Cpp.assign_of_lt _ inData]
  rfl

end Slotted

/-! ## Calls that return -/

/-- A cache whose calls all return: as many slots in both vectors as the filters
have places, and a value for every key. -/
structure Usable (c : Cuckoo) : Prop where
  first : c.filter1.Usable
  second : c.filter2.Usable
  firstSized : c.hashes.length = c.filter1.hits.length
  secondSized : c.hashes.length = c.filter2.hits.length
  dataSized : c.data.length = c.hashes.length
  valued : ∀ (p : Nat) (stored : Bytes), c.hashes[p]? = some (some stored) →
    ∃ value : Bytes, c.data[p]? = some (some value)

theorem Usable.slotted (usable : c.Usable) : c.Slotted S where
  firstKeyed := usable.first.keyed
  secondKeyed := usable.second.keyed
  first hash := usable.firstSized ▸ usable.first.place_lt hash
  second hash := usable.secondSized ▸ usable.second.place_lt hash
  dataSized := usable.dataSized

theorem Usable.put (usable : c.Usable) {p : Nat} (inside : p < c.hashes.length)
    (hash newData : Bytes) : (c.put p hash newData).Usable where
  first := usable.first
  second := usable.second
  firstSized := by
    rw [length_hashes_put]
    exact usable.firstSized
  secondSized := by
    rw [length_hashes_put]
    exact usable.secondSized
  dataSized := by
    rw [length_data_put, length_hashes_put]
    exact usable.dataSized
  valued q stored there := by
    have inData : p < c.data.length := usable.dataSized ▸ inside
    unfold Cuckoo.put at there ⊢
    by_cases here : p = q
    · subst here
      exact ⟨newData, List.getElem?_set_self inData⟩
    · rw [List.getElem?_set_ne here] at there ⊢
      exact usable.valued q stored there

theorem Usable.store (usable : c.Usable) (hash newData : Bytes) :
    ∃ c', c.store S hash newData = .ok c' ∧ c'.Usable := by
  have slotted : c.Slotted S := usable.slotted
  exact ⟨_, slotted.store_eq hash newData, usable.put (slotted.storePlace_lt hash) hash newData⟩

/-- The cache the constructor would build, were `data` as long as `hashes`. -/
def sized (N : UInt64) (key1 key2 : Bytes) : Cpp Cuckoo := do
  let c ← ofSize N key1 key2
  return { c with data := List.replicate N.toNat none }

theorem sized_eq {P : Int32} {places : Nat} (size : P.toInt = places) (positive : 0 < places)
    {key1 key2 : Bytes} (keyed1 : 16 ≤ key1.length) (keyed2 : 16 ≤ key2.length) :
    ∃ c, sized (UInt64.ofInt P.toInt) key1 key2 = .ok c ∧ c.Usable := by
  obtain ⟨made1, fresh1⟩ := Bloom.represents_ofInt (S := .firstBytes) size positive keyed1
  obtain ⟨made2, fresh2⟩ := Bloom.represents_ofInt (S := .firstBytes) size positive keyed2
  refine ⟨⟨_, _, List.replicate places none, List.replicate places none, UInt64.ofInt P.toInt⟩, ?_,
    ⟨fresh1.toUsable, fresh2.toUsable, ?_, ?_, ?_, ?_⟩⟩
  · unfold sized ofSize
    rw [ofNat_ofInt size, made1, Cpp.ok_bind, made2, Cpp.ok_bind, toNat_ofInt size]
    rfl
  · simp
  · simp
  · simp
  · intro p stored there
    simp [List.getElem?_replicate] at there

end Cuckoo

end Pttp
