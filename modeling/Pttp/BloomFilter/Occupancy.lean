import Pttp.BloomFilter.Runs
import Pttp.BloomFilter.Wire

/-!
# The occupancy counter

`set` and `has_set` count each bit they turn on, and `reset` turns all of them off
with the counter at zero. What a run leaves between the bits and the counter is
therefore what its constructor left between them, up to the first `reset`: nothing
after `Bloom(int)`, and the bits of the data after the constructor that fills
`hits` from the wire and starts the counter at zero all the same.
-/

namespace Pttp.Bloom

open BitPacking Calls

def Exact (f : Bloom) : Prop := f.nOn.toInt = f.hits.count true

inductive Construction where
  | fresh (P : Int32) (key : Bytes)
  | wire (data : Bytes) (p : UInt64) (key : Bytes)

namespace Construction

def build : Construction → Cpp Bloom
  | fresh P key => ofInt P key
  | wire data p key => ofWire data p key

/-- At least one place, and for a filter from the wire the bytes of its places. -/
def Sized : Construction → Prop
  | fresh P _ => 1 ≤ P.toInt
  | wire data p _ => 1 ≤ p.toNat ∧ data.length = p.toNat ⌈/⌉ 8

def Blank : Construction → Prop
  | fresh _ _ => True
  | wire data p _ => true ∉ (unpack data).take p.toNat

end Construction

/-! ## One call -/

/-- What `set` and `has_set` do to bit `i`, which they found to be `hit`. -/
def turnOn (f : Bloom) (i : Nat) (hit : Bool) : Bloom :=
  { f with
    nOn := if hit then f.nOn else f.nOn + 1
    hits := f.hits.set i true }

variable {S : ShortHash}

theorem hash_eq_ok {f : Bloom} {b : Bytes} {val : UInt64} (hashed : f.hash S b = .ok val) :
    ∃ h, val = toUint h f.P := by
  obtain ⟨h, -, scaled⟩ := Cpp.bind_eq_ok.mp hashed
  exact ⟨h, (Except.ok.inj scaled).symm⟩

theorem set_eq_ok {f g : Bloom} {b : Bytes} (called : f.set S b = .ok g) :
    ∃ h hit, f.hits[(toUint h f.P).toNat]? = some hit ∧ g = f.turnOn (toUint h f.P).toNat hit := by
  obtain ⟨val, hashed, called⟩ := Cpp.bind_eq_ok.mp called
  obtain ⟨hit, read, called⟩ := Cpp.bind_eq_ok.mp called
  obtain ⟨h, rfl⟩ := hash_eq_ok hashed
  exact ⟨h, hit, Cpp.index_eq_ok_iff.mp read, (Except.ok.inj called).symm⟩

theorem hasSet_eq_ok {f g : Bloom} {b : Bytes} {has : Bool}
    (called : f.hasSet S b = .ok (has, g)) :
    ∃ h hit, f.hits[(toUint h f.P).toNat]? = some hit ∧ g = f.turnOn (toUint h f.P).toNat hit := by
  obtain ⟨val, hashed, called⟩ := Cpp.bind_eq_ok.mp called
  obtain ⟨hit, read, called⟩ := Cpp.bind_eq_ok.mp called
  obtain ⟨h, rfl⟩ := hash_eq_ok hashed
  obtain ⟨rfl, rfl⟩ := Prod.mk.inj (Except.ok.inj called)
  exact ⟨h, hit, Cpp.index_eq_ok_iff.mp read, rfl⟩

theorem operate_cases {f g : Bloom} {op : Operation} {answer : Option Bool}
    (called : operate S f op = .ok (g, answer)) :
    (op = .reset ∧ g = f.reset) ∨ (op ≠ .reset ∧ ∃ h hit,
      f.hits[(toUint h f.P).toNat]? = some hit ∧ g = f.turnOn (toUint h f.P).toNat hit) := by
  cases op with
  | set b =>
    obtain ⟨f', marked, returned⟩ := Cpp.bind_eq_ok.mp called
    obtain ⟨rfl, -⟩ := Prod.mk.inj (Except.ok.inj returned)
    exact .inr ⟨Operation.noConfusion, set_eq_ok marked⟩
  | hasSet b =>
    obtain ⟨⟨has, f'⟩, marked, returned⟩ := Cpp.bind_eq_ok.mp called
    obtain ⟨rfl, -⟩ := Prod.mk.inj (Except.ok.inj returned)
    exact .inr ⟨Operation.noConfusion, hasSet_eq_ok marked⟩
  | reset =>
    obtain ⟨rfl, -⟩ := Prod.mk.inj (Except.ok.inj called)
    exact .inl ⟨rfl, rfl⟩

/-! ## A run -/

def uncountedBy (n : Nat) : Operation → Nat
  | .reset => 0
  | _ => n

def uncounted (initially : Nat) (operations : List Operation) : Nat :=
  operations.foldl uncountedBy initially

theorem uncounted_snoc (initially : Nat) (operations : List Operation) (op : Operation) :
    uncounted initially (operations ++ [op]) = uncountedBy (uncounted initially operations) op := by
  unfold uncounted
  rw [List.foldl_append]
  rfl

theorem uncounted_eq_zero_iff (initially : Nat) (operations : List Operation) :
    uncounted initially operations = 0 ↔ initially = 0 ∨ .reset ∈ operations := by
  induction operations using List.reverseRecOn with
  | nil => simp [uncounted]
  | append_singleton operations op ih =>
    rw [uncounted_snoc, List.mem_append, List.mem_singleton]
    cases op with
    | set b => simp [uncountedBy, ih]
    | hasSet b => simp [uncountedBy, ih]
    | reset => simp [uncountedBy]

/-- The size of the array, and what the counter needs of it to stay an `int`: 2^31 places
are more than it can count, but with the size that they leave in `P` no call turns on any
of them but the first. -/
def Countable (f : Bloom) (rest : Nat) : Prop :=
  f.hits.length < 2 ^ 31 ∨
    f.hits.length = 2 ^ 31 ∧ f.P = Int32.ofNat (2 ^ 31) ∧ f.hits.tail.count true ≤ rest

/-- What the counter says, when `rest` bits were on before it counted. -/
structure Counts (rest : Nat) (f : Bloom) : Prop where
  counted : f.nOn.toInt + rest = f.hits.count true
  countable : Countable f rest

theorem count_eq_head_add_tail (l : List Bool) :
    l.count true = (if l[0]? = some true then 1 else 0) + l.tail.count true := by
  rcases l with _ | ⟨_ | _, l⟩ <;> simp [Nat.add_comm]

theorem count_set_true {l : List Bool} {i : Nat} {hit : Bool} (there : l[i]? = some hit) :
    (l.set i true).count true = l.count true + if hit then 0 else 1 := by
  obtain ⟨inside, rfl⟩ := List.getElem?_eq_some_iff.mp there
  rw [List.count_set inside]
  by_cases on : l[i] = true
  · have member : 0 < l.count true := List.count_pos_iff.mpr (on ▸ List.getElem_mem inside)
    simp [on]
    omega
  · simp [on]

theorem count_lt_length {l : List Bool} {i : Nat} (off : l[i]? = some false) :
    l.count true < l.length := by
  refine lt_of_le_of_ne List.count_le_length ?_
  intro all
  have on := List.count_eq_length.mp all false (List.mem_of_getElem? off)
  cases on

theorem Counts.nOn_lt {f : Bloom} {rest : Nat} (counts : Counts rest f) {h : Bytes}
    (off : f.hits[(toUint h f.P).toNat]? = some false) : f.nOn.toInt + 1 < 2 ^ 31 := by
  have counted := counts.counted
  rcases counts.countable with short | ⟨length, least, tail⟩
  · have fewer := count_lt_length off
    omega
  · obtain ⟨inside, -⟩ := List.getElem?_eq_some_iff.mp off
    rw [length, least] at inside
    rw [least, toUint_ofNat_two_pow_eq_zero inside] at off
    have first : f.hits[0]? = some false := off
    have split := count_eq_head_add_tail f.hits
    rw [first] at split
    simp at split
    omega

theorem Countable.turnOn {f : Bloom} {rest : Nat} (countable : Countable f rest) {h : Bytes}
    {hit : Bool} (there : f.hits[(toUint h f.P).toNat]? = some hit) :
    Countable (f.turnOn (toUint h f.P).toNat hit) rest := by
  have length : (f.turnOn (toUint h f.P).toNat hit).hits.length = f.hits.length :=
    List.length_set
  rcases countable with short | ⟨long, least, tail⟩
  · exact .inl (length.trans_lt short)
  · refine .inr ⟨length.trans long, least, ?_⟩
    obtain ⟨inside, -⟩ := List.getElem?_eq_some_iff.mp there
    rw [long, least] at inside
    have first : (toUint h f.P).toNat = 0 := by
      rw [least, toUint_ofNat_two_pow_eq_zero inside]
      rfl
    have same : (f.turnOn (toUint h f.P).toNat hit).hits.tail = f.hits.tail := by
      unfold Bloom.turnOn
      rw [first]
      cases f.hits <;> rfl
    rw [same]
    exact tail

theorem Counts.turnOn {f : Bloom} {rest : Nat} (counts : Counts rest f) {h : Bytes} {hit : Bool}
    (there : f.hits[(toUint h f.P).toNat]? = some hit) :
    Counts rest (f.turnOn (toUint h f.P).toNat hit) := by
  refine ⟨?_, counts.countable.turnOn there⟩
  have counted := counts.counted
  have marked := count_set_true there
  unfold Bloom.turnOn
  simp only [marked]
  cases hit with
  | false =>
    have room := counts.nOn_lt there
    have least := f.nOn.le_toInt
    have next : (f.nOn + 1).toInt = f.nOn.toInt + 1 := by
      rw [Int32.toInt_add]
      exact Int.bmod_eq_of_le (by simp; omega) (by simp; omega)
    simp only [Bool.false_eq_true, if_false, next]
    omega
  | true =>
    simp only [if_true]
    omega

theorem Counts.reset {f : Bloom} {rest : Nat} (counts : Counts rest f) : Counts 0 f.reset := by
  have length : f.reset.hits.length = f.hits.length := List.length_replicate
  refine ⟨?_, ?_⟩
  · unfold Bloom.reset
    simp [List.count_replicate]
  · rcases counts.countable with short | ⟨long, least, -⟩
    · exact .inl (length.trans_lt short)
    · refine .inr ⟨length.trans long, least, ?_⟩
      unfold Bloom.reset
      simp [List.count_replicate]

theorem Counts.operate {f g : Bloom} {rest : Nat} (counts : Counts rest f) {op : Operation}
    {answer : Option Bool} (called : operate S f op = .ok (g, answer)) :
    Counts (uncountedBy rest op) g := by
  rcases operate_cases called with ⟨rfl, rfl⟩ | ⟨other, h, hit, there, rfl⟩
  · exact counts.reset
  · have same : uncountedBy rest op = rest := by
      cases op with
      | set b => rfl
      | hasSet b => rfl
      | reset => exact absurd rfl other
    rw [same]
    exact counts.turnOn there

theorem Counts.after {f g : Bloom} {rest : Nat} (counts : Counts rest f)
    {operations : List Operation} (reached : after (Bloom.operate S) f operations = .ok g) :
    Counts (uncounted rest operations) g := by
  apply after_preserves (fun history t => Counts (uncounted rest history) t) _ counts reached
  intro history t op u answer kept called
  rw [uncounted_snoc]
  exact kept.operate called

theorem Counts.exact_iff {f : Bloom} {rest : Nat} (counts : Counts rest f) :
    Exact f ↔ rest = 0 := by
  have counted := counts.counted
  unfold Exact
  omega

/-! ## What the constructors leave -/

theorem counts_ofInt {P : Int32} {key : Bytes} {f : Bloom} (positive : 1 ≤ P.toInt)
    (built : ofInt P key = .ok f) : Counts 0 f := by
  have sized : P.toInt = P.toInt.toNat := by omega
  have short := lt_of_toInt_eq sized
  unfold ofInt at built
  rw [vectorBool_ofInt sized, Cpp.ok_bind] at built
  obtain rfl := Except.ok.inj built
  refine ⟨?_, .inl ?_⟩
  · simp [List.count_replicate]
  · simpa using short

theorem ofWire_eq_ok {data : Bytes} {p : UInt64} {key : Bytes} {f : Bloom}
    (there : p.toNat ≤ 8 * data.length) (built : ofWire data p key = .ok f) :
    p.toNat ≤ 2 ^ 31 ∧ f = ⟨Int32.ofNat p.toNat, (unpack data).take p.toNat, key, 0⟩ := by
  obtain ⟨hits, made, built⟩ := Cpp.bind_eq_ok.mp built
  obtain ⟨bits, read, built⟩ := Cpp.bind_eq_ok.mp built
  unfold vectorBool at made
  split at made
  · cases made
  · obtain rfl := Except.ok.inj made
    unfold readBits at read
    rw [List.length_replicate] at read
    split at read
    case isTrue => cases read
    case isFalse countable =>
      rw [unpackLoop_eq data p.toNat (by decide) (by omega)] at read
      obtain rfl := Except.ok.inj read
      exact ⟨by omega, (Except.ok.inj built).symm⟩

theorem counts_ofWire {data : Bytes} {p : UInt64} {key : Bytes} {f : Bloom}
    (there : p.toNat ≤ 8 * data.length) (built : ofWire data p key = .ok f) :
    Counts (((unpack data).take p.toNat).count true) f := by
  obtain ⟨countable, rfl⟩ := ofWire_eq_ok there built
  have length : ((unpack data).take p.toNat).length = p.toNat := by
    rw [List.length_take, length_unpack]
    omega
  refine ⟨?_, ?_⟩
  · simp
  · rcases Nat.lt_or_eq_of_le countable with short | least
    · exact .inl (length.trans_lt short)
    · refine .inr ⟨length.trans least, congrArg Int32.ofNat least, ?_⟩
      rw [count_eq_head_add_tail ((unpack data).take p.toNat)]
      exact Nat.le_add_left _ _

theorem Construction.counts {origin : Construction} (sized : origin.Sized) {f : Bloom}
    (built : origin.build = .ok f) : ∃ rest, Counts rest f ∧ (rest = 0 ↔ origin.Blank) := by
  cases origin with
  | fresh P key => exact ⟨0, counts_ofInt sized built, by simp [Blank]⟩
  | wire data p key =>
    have there : p.toNat ≤ 8 * data.length := by
      rw [sized.2, Nat.ceilDiv_eq_add_pred_div]
      omega
    exact ⟨_, counts_ofWire there built, List.count_eq_zero⟩

/-- After any calls on a filter of either constructor the counter is exact, when no bit was
on to begin with or one of the calls was `reset`, and in no other run. -/
theorem exact_after_iff {origin : Construction} (sized : origin.Sized) {f g : Bloom}
    {operations : List Operation} (built : origin.build = .ok f)
    (reached : after (operate S) f operations = .ok g) :
    Exact g ↔ origin.Blank ∨ .reset ∈ operations := by
  obtain ⟨rest, counts, blank⟩ := Construction.counts sized built
  rw [(counts.after reached).exact_iff, uncounted_eq_zero_iff, blank]

theorem exact_after_two_calls :
    ∃ f g, ofInt 3 (List.replicate 16 0) = .ok f ∧
      after (operate .firstBytes) f [.set [200], .hasSet [7]] = .ok g ∧ Exact g := by
  have sized : (Construction.fresh 3 (List.replicate 16 0)).Sized := by
    show 1 ≤ (3 : Int32).toInt
    decide
  have built : (Construction.fresh 3 (List.replicate 16 0)).build =
      .ok ⟨3, List.replicate 3 false, List.replicate 16 0, 0⟩ := by decide
  have reached : after (operate .firstBytes) ⟨3, List.replicate 3 false, List.replicate 16 0, 0⟩
      [.set [200], .hasSet [7]] = .ok ⟨3, [true, false, true], List.replicate 16 0, 2⟩ := by
    decide
  exact ⟨_, _, built, reached, (exact_after_iff sized built reached).mpr (.inl trivial)⟩

theorem not_exact_from_wire :
    (Construction.wire [255] 8 (List.replicate 16 0)).Sized ∧
      ∃ f, (Construction.wire [255] 8 (List.replicate 16 0)).build = .ok f ∧ ¬ Exact f := by
  refine ⟨⟨by decide, by decide⟩, ⟨8, List.replicate 8 true, List.replicate 16 0, 0⟩,
    by decide, ?_⟩
  unfold Exact
  decide

end Pttp.Bloom
