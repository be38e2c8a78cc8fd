import Mathlib

/-!
# Objects with one owner

A heap gives out addresses and takes them back. Nothing stops a program from giving
one back twice or from using it afterwards; a program does neither when its places
own the heap: every address a place has is valid, and no two places have the same
one. A place may give up its object, and may then take a new one.
-/

namespace Memory

universe u v

variable {Value : Type u} {Place : Type v}

/-- The objects in the order of their addresses, and the addresses that were deleted. An object
that is deleted is left as it was. -/
structure Heap (Value : Type u) where
  cells : List Value
  deleted : List Nat

namespace Heap

def empty : Heap Value := ⟨[], []⟩

def next (h : Heap Value) : Nat := h.cells.length

def allocate (h : Heap Value) (value : Value) : Heap Value :=
  { h with cells := h.cells ++ [value] }

def delete (h : Heap Value) (a : Nat) : Heap Value := { h with deleted := h.deleted ++ [a] }

def deletePointer (h : Heap Value) : Option Nat → Heap Value
  | none => h
  | some a => h.delete a

structure Valid (h : Heap Value) (a : Nat) : Prop where
  allocated : a < h.cells.length
  kept : a ∉ h.deleted

structure Sound (h : Heap Value) : Prop where
  once : h.deleted.Nodup
  made : ∀ a ∈ h.deleted, a < h.cells.length

/-- The places have the objects to themselves. -/
structure Owned (h : Heap Value) (pointer : Place → Option Nat) : Prop where
  valid : ∀ i a, pointer i = some a → h.Valid a
  apart : ∀ i j a, pointer i = some a → pointer j = some a → i = j

variable {h : Heap Value} {pointer : Place → Option Nat} {a b : Nat}

theorem sound_empty : (empty : Heap Value).Sound where
  once := List.nodup_nil
  made _ member := absurd member List.not_mem_nil

@[simp] theorem length_allocate (h : Heap Value) (value : Value) :
    (h.allocate value).cells.length = h.cells.length + 1 := List.length_append

theorem getElem?_allocate (inside : a < h.cells.length) (value : Value) :
    (h.allocate value).cells[a]? = h.cells[a]? :=
  List.getElem?_append_left inside

theorem getElem?_allocate_next (h : Heap Value) (value : Value) :
    (h.allocate value).cells[h.next]? = some value :=
  List.getElem?_concat_length

theorem Valid.ne_next (valid : h.Valid a) : a ≠ h.next := Nat.ne_of_lt valid.allocated

theorem Valid.allocate (valid : h.Valid a) (value : Value) : (h.allocate value).Valid a where
  allocated := by
    rw [length_allocate]
    exact Nat.lt_succ_of_lt valid.allocated
  kept := valid.kept

theorem Sound.valid_next (sound : h.Sound) (value : Value) : (h.allocate value).Valid h.next where
  allocated := by
    rw [length_allocate]
    exact Nat.lt_succ_self _
  kept member := absurd (sound.made _ member) (Nat.lt_irrefl _)

theorem Sound.allocate (sound : h.Sound) (value : Value) : (h.allocate value).Sound where
  once := sound.once
  made a member := by
    rw [length_allocate]
    exact Nat.lt_succ_of_lt (sound.made a member)

theorem Valid.delete (valid : h.Valid a) (other : a ≠ b) : (h.delete b).Valid a where
  allocated := valid.allocated
  kept member := by
    rcases List.mem_append.mp member with before | last
    · exact valid.kept before
    · exact other (List.mem_singleton.mp last)

theorem Sound.delete (sound : h.Sound) (valid : h.Valid a) : (h.delete a).Sound where
  once := by
    apply List.nodup_append.mpr
    refine ⟨sound.once, List.nodup_singleton a, ?_⟩
    rintro b before c last rfl
    rw [List.mem_singleton.mp last] at before
    exact valid.kept before
  made b member := by
    rcases List.mem_append.mp member with before | last
    · exact sound.made b before
    · rw [List.mem_singleton.mp last]
      exact valid.allocated

section Places

variable [DecidableEq Place]

theorem Owned.clear (owned : h.Owned pointer) (i : Place) :
    h.Owned (Function.update pointer i none) where
  valid j b there := by
    by_cases same : j = i
    · rw [same, Function.update_self] at there
      cases there
    · rw [Function.update_of_ne same] at there
      exact owned.valid j b there
  apart j k b there there' := by
    by_cases same : j = i
    · rw [same, Function.update_self] at there
      cases there
    · by_cases same' : k = i
      · rw [same', Function.update_self] at there'
        cases there'
      · rw [Function.update_of_ne same] at there
        rw [Function.update_of_ne same'] at there'
        exact owned.apart j k b there there'

theorem Owned.delete (owned : h.Owned pointer) {i : Place} (held : pointer i = some a) :
    (h.delete a).Owned (Function.update pointer i none) where
  valid j b there := by
    refine ((owned.clear i).valid j b there).delete ?_
    rintro rfl
    by_cases same : j = i
    · rw [same, Function.update_self] at there
      cases there
    · rw [Function.update_of_ne same] at there
      exact same (owned.apart j i b there held)
  apart := (owned.clear i).apart

theorem Owned.allocate (owned : h.Owned pointer) (sound : h.Sound) (i : Place) (value : Value) :
    (h.allocate value).Owned (Function.update pointer i (some h.next)) where
  valid j b there := by
    by_cases same : j = i
    · rw [same, Function.update_self] at there
      rw [← Option.some.inj there]
      exact sound.valid_next value
    · rw [Function.update_of_ne same] at there
      exact (owned.valid j b there).allocate value
  apart j k b there there' := by
    by_cases same : j = i
    · by_cases same' : k = i
      · rw [same, same']
      · rw [same, Function.update_self] at there
        rw [Function.update_of_ne same'] at there'
        exact absurd (Option.some.inj there).symm (owned.valid k b there').ne_next
    · rw [Function.update_of_ne same] at there
      by_cases same' : k = i
      · rw [same', Function.update_self] at there'
        exact absurd (Option.some.inj there').symm (owned.valid j b there).ne_next
      · rw [Function.update_of_ne same'] at there'
        exact owned.apart j k b there there'

end Places

end Heap

end Memory
