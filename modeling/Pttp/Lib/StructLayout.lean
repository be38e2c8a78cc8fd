import Mathlib

/-!
# Structs read by their layout

A message is a tree of structs and lists behind pointers. Nothing in it names a
type: a reader takes words and pointers by their place. What a struct is too
short for reads as zero or null, null reads as an empty value, and a pointer of
the wrong kind is refused.
-/

namespace StructLayout

inductive Object where
  | null
  | struct (data : List UInt64) (pointers : List Object)
  | bytes (content : List UInt8)
  | list (elements : List Object)

structure Struct where
  data : List UInt64
  pointers : List Object

namespace Struct

def uint64 (s : Struct) (i : Nat) : UInt64 := s.data.getD i 0

def uint32 (s : Struct) (i : Nat) : UInt32 :=
  UInt32.ofNat ((s.uint64 (i / 2)).toNat / 2 ^ (32 * (i % 2)))

def uint16 (s : Struct) (i : Nat) : UInt16 :=
  UInt16.ofNat ((s.uint64 (i / 4)).toNat / 2 ^ (16 * (i % 4)))

def pointer (s : Struct) (i : Nat) : Object := s.pointers.getD i .null

end Struct

namespace Object

def asStruct : Object → Option Struct
  | .null => some ⟨[], []⟩
  | .struct data pointers => some ⟨data, pointers⟩
  | _ => none

def asBytes : Object → Option (List UInt8)
  | .null => some []
  | .bytes content => some content
  | _ => none

def asList : Object → Option (List Object)
  | .null => some []
  | .list elements => some elements
  | _ => none

/-- Text is written with a NUL behind it. -/
def text (content : List UInt8) : Object := .bytes (content ++ [0])

def asText : Object → Option (List UInt8)
  | .null => some []
  | .bytes content => if content.getLast? = some 0 then some content.dropLast else none
  | _ => none

@[simp] theorem asStruct_struct (data : List UInt64) (pointers : List Object) :
    (struct data pointers).asStruct = some ⟨data, pointers⟩ := rfl

@[simp] theorem asBytes_bytes (content : List UInt8) : (bytes content).asBytes = some content := rfl

@[simp] theorem asList_list (elements : List Object) : (list elements).asList = some elements := rfl

@[simp] theorem asText_text (content : List UInt8) : (text content).asText = some content := by
  simp [text, asText]

theorem mapM_map_eq_some {α : Type} {write : α → Object} {read : Object → Option α}
    (read_write : ∀ a, read (write a) = some a) (values : List α) :
    (values.map write).mapM read = some values := by
  induction values with
  | nil => rfl
  | cons a values ih => simp [read_write, ih]

/-! ## Messages can be written down -/

mutual

/-- Objects as strings of numbers, each of which says where it ends. -/
def code : Object → List Nat
  | null => [0]
  | struct data pointers =>
      1 :: data.length :: (data.map UInt64.toNat ++ pointers.length :: codes pointers)
  | bytes content => 2 :: content.length :: content.map UInt8.toNat
  | list elements => 3 :: elements.length :: codes elements

def codes : List Object → List Nat
  | [] => []
  | o :: rest => code o ++ codes rest

end

mutual

theorem code_append_inj : ∀ {o o' : Object} {l l' : List Nat},
    code o ++ l = code o' ++ l' → o = o' ∧ l = l'
  | .null, .null, _, _, h => by simpa [code] using h
  | .bytes c, .bytes c', l, l', h => by
      simp only [code, List.cons_append, List.cons.injEq, true_and] at h
      obtain ⟨same, tails⟩ := List.append_inj h.2 (by simpa using h.1)
      exact ⟨by rw [List.map_injective_iff.mpr (fun _ _ => UInt8.toNat.inj) same], tails⟩
  | .struct d ps, .struct d' ps', l, l', h => by
      simp only [code, List.cons_append, List.append_assoc, List.cons.injEq, true_and] at h
      obtain ⟨same, tails⟩ := List.append_inj h.2 (by simpa using h.1)
      obtain ⟨length, tails⟩ := List.cons.inj tails
      obtain ⟨rfl, rest⟩ := codes_append_inj length tails
      exact ⟨by rw [List.map_injective_iff.mpr (fun _ _ => UInt64.toNat.inj) same], rest⟩
  | .list es, .list es', l, l', h => by
      simp only [code, List.cons_append, List.cons.injEq, true_and] at h
      obtain ⟨rfl, rest⟩ := codes_append_inj h.1 h.2
      exact ⟨rfl, rest⟩
  | .null, .struct .., _, _, h | .null, .bytes _, _, _, h | .null, .list _, _, _, h
  | .struct .., .null, _, _, h | .struct .., .bytes _, _, _, h | .struct .., .list _, _, _, h
  | .bytes _, .null, _, _, h | .bytes _, .struct .., _, _, h | .bytes _, .list _, _, _, h
  | .list _, .null, _, _, h | .list _, .struct .., _, _, h | .list _, .bytes _, _, _, h => by
      simp [code] at h

theorem codes_append_inj : ∀ {os os' : List Object} {l l' : List Nat},
    os.length = os'.length → codes os ++ l = codes os' ++ l' → os = os' ∧ l = l'
  | [], [], _, _, _, h => ⟨rfl, h⟩
  | o :: os, o' :: os', l, l', length, h => by
      simp only [codes, List.append_assoc] at h
      obtain ⟨rfl, tails⟩ := code_append_inj h
      obtain ⟨rfl, rest⟩ := codes_append_inj (Nat.succ.inj length) tails
      exact ⟨rfl, rest⟩
  | [], _ :: _, _, _, length, _ => by simp at length
  | _ :: _, [], _, _, length, _ => by simp at length

end

theorem code_injective : Function.Injective code := by
  intro o o' same
  exact (code_append_inj (congrArg (fun l => l ++ []) same)).1

noncomputable instance encodableObject : Encodable Object :=
  have := code_injective.countable
  Encodable.ofCountable Object

end Object

end StructLayout
