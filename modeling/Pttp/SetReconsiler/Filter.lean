import Pttp.BloomFilter.Wire
import Pttp.SetReconsiler

/-!
# Filtering the candidates of a set

`filter` keeps the candidates that every filter accepts, in their order. Filters
of supersets of a set let all of its members through, whatever their keys.
-/

namespace Pttp

variable (S : ShortHash)

/-- The inner loop of `filter`, which leaves at the first filter that refuses. -/
def inset : List Bloom → Bytes → Cpp Bool
  | [], _ => .ok true
  | f :: filters, s => do
      let hit ← f.has S s
      if hit then inset filters s else return false

def filterLoop (filters : List Bloom) : List Bytes → List Bytes → Cpp (List Bytes)
  | [], currentSet => .ok currentSet
  | s :: set, currentSet => do
      let kept ← inset S filters s
      filterLoop filters set (if kept then currentSet ++ [s] else currentSet)

def SetReconsiler.filter (r : SetReconsiler Bloom) (set : List Bytes) :
    Cpp (SetReconsiler Bloom) := do
  let currentSet ← filterLoop S r.filters set []
  return { r with currentSet := currentSet }

def Accepted (filters : List Bloom) (s : Bytes) : Prop := ∀ f ∈ filters, f.has S s = .ok true

instance decidableAccepted (filters : List Bloom) (s : Bytes) :
    Decidable (Accepted S filters s) :=
  inferInstanceAs (Decidable (∀ f ∈ filters, f.has S s = .ok true))

variable {S}

@[simp] theorem accepted_cons (f : Bloom) (filters : List Bloom) (s : Bytes) :
    Accepted S (f :: filters) s ↔ f.has S s = .ok true ∧ Accepted S filters s :=
  List.forall_mem_cons

theorem inset_eq {filters : List Bloom} (usable : ∀ f ∈ filters, f.Usable) (s : Bytes) :
    inset S filters s = .ok (decide (Accepted S filters s)) := by
  induction filters with
  | nil => simp [inset, Accepted]
  | cons f filters ih =>
    have rest := ih fun g member => usable g (List.mem_cons_of_mem f member)
    obtain ⟨hit, answer, -⟩ := (usable f List.mem_cons_self).has_eq (S := S) s
    rw [inset, answer, Cpp.ok_bind, rest]
    cases hit with
    | true => simp [answer]
    | false =>
      simp [answer]
      rfl

theorem filterLoop_eq {filters : List Bloom} (usable : ∀ f ∈ filters, f.Usable)
    (set currentSet : List Bytes) :
    filterLoop S filters set currentSet = .ok (currentSet ++ set.filter (Accepted S filters)) := by
  induction set generalizing currentSet with
  | nil => simp [filterLoop]
  | cons s set ih =>
    rw [filterLoop, inset_eq usable, Cpp.ok_bind, ih]
    by_cases accepted : Accepted S filters s
    · simp [accepted]
    · simp [accepted]

theorem filter_eq {r : SetReconsiler Bloom} (usable : ∀ f ∈ r.filters, f.Usable)
    (set : List Bytes) :
    r.filter S set = .ok { r with currentSet := set.filter (Accepted S r.filters) } := by
  rw [SetReconsiler.filter, filterLoop_eq usable]
  rfl

variable (S)

/-- `f` is what the receiver builds of the filter of the elements under the
sender's own key. -/
def Received (key : Bytes) (elements : List Bytes) (f : Bloom) : Prop :=
  ∃ sent data, Bloom.ofSet S key elements = .ok sent ∧ sent.bytes = .ok data ∧
    Bloom.ofWire data (UInt64.ofInt sent.P.toInt) sent.key = .ok f

variable {S}

theorem Received.represents {key : Bytes} {elements : List Bytes} {f : Bloom}
    (received : Received S key elements f) (keyed : key.length = 16) :
    Bloom.Represents S f {b | b ∈ elements} := by
  obtain ⟨sent, data, made, packed, rebuilt⟩ := received
  obtain ⟨sent', data', g, made', sameP, sameKey, packed', rebuilt', -, -, represents⟩ :=
    Bloom.ofWire_ofSet (S := S) keyed.ge elements
  obtain rfl := Cpp.ok_unique made made'
  obtain rfl := Cpp.ok_unique packed packed'
  have size : UInt64.ofInt sent.P.toInt = 4999 := by
    rw [sameP]
    rfl
  rw [size, sameKey] at rebuilt
  obtain rfl := Cpp.ok_unique rebuilt rebuilt'
  exact represents

theorem received_exists {key : Bytes} (keyed : key.length = 16) (elements : List Bytes) :
    ∃ f, Received S key elements f := by
  obtain ⟨sent, data, g, made, sameP, sameKey, packed, rebuilt, -⟩ :=
    Bloom.ofWire_ofSet (S := S) keyed.ge elements
  refine ⟨g, sent, data, made, packed, ?_⟩
  rw [sameP, sameKey]
  exact rebuilt

/-- The filters of supersets lose no member of the set. -/
theorem filter_keeps_members {members : Set Bytes} {r : SetReconsiler Bloom}
    (received : ∀ f ∈ r.filters, ∃ key elements, key.length = 16 ∧
      (∀ s ∈ members, s ∈ elements) ∧ Received S key elements f)
    (candidates : List Bytes) :
    ∃ r', r.filter S candidates = .ok r' ∧
      r'.currentSet = candidates.filter (Accepted S r.filters) ∧
      ∀ s ∈ candidates, s ∈ members → s ∈ r'.currentSet := by
  have usable : ∀ f ∈ r.filters, f.Usable := by
    intro f member
    obtain ⟨key, elements, keyed, -, built⟩ := received f member
    exact (built.represents keyed).toUsable
  refine ⟨_, filter_eq usable candidates, rfl, ?_⟩
  intro s candidate inMembers
  apply List.mem_filter.mpr
  refine ⟨candidate, decide_eq_true ?_⟩
  intro f member
  obtain ⟨key, elements, keyed, superset, built⟩ := received f member
  exact (built.represents keyed).has_of_mem (superset s inMembers)

theorem filter_keeps_first :
    ∃ (f : Bloom) (r' : SetReconsiler Bloom),
      Received .firstBytes (List.replicate 16 0) [[1], [3]] f ∧
      SetReconsiler.filter .firstBytes
        { SetReconsiler.new Bloom [] with filters := [f] } [[2], [1]] = .ok r' ∧
      [1] ∈ r'.currentSet := by
  have keyed : (List.replicate 16 (0 : UInt8)).length = 16 := rfl
  obtain ⟨f, built⟩ := received_exists (S := .firstBytes) keyed [[1], [3]]
  have received : ∀ g ∈ [f], ∃ key elements, key.length = 16 ∧
      (∀ s ∈ ({[1]} : Set Bytes), s ∈ elements) ∧ Received .firstBytes key elements g := by
    intro g member
    obtain rfl := List.mem_singleton.mp member
    refine ⟨_, _, keyed, ?_, built⟩
    intro s one
    obtain rfl := Set.mem_singleton_iff.mp one
    exact List.mem_cons_self
  obtain ⟨r', filtered, -, kept⟩ := filter_keeps_members
    (r := { SetReconsiler.new Bloom [] with filters := [f] }) received [[2], [1]]
  exact ⟨f, r', built, filtered, kept [1] (by decide) (Set.mem_singleton _)⟩

end Pttp
