import Mathlib

/-!
# Byte vectors and the outcomes of a C++ call

`Bytes` is a `std::vector<uint8_t>`; its order is the lexicographic order of
vectors, which is the one `std::set<Bytes>` and `std::map<Bytes, _>` iterate in.
A C string and a `std::string` are the bytes they hold.
-/

namespace Pttp

/-- The ways a call of the program ends without a value. -/
inductive Fault where
  /-- An exception leaves the function. -/
  | thrown
  /-- An `assert` fails and the process aborts. -/
  | assertion
  /-- An element behind the end of a list is read; nothing checks the index. -/
  | pastEnd
  /-- A null pointer is dereferenced. -/
  | nullPointer
  deriving DecidableEq, Repr

abbrev Cpp := Except Fault

namespace Cpp

variable {α β : Type}

@[simp] theorem ok_bind (a : α) (f : α → Cpp β) : (.ok a : Cpp α) >>= f = f a := rfl

@[simp] theorem error_bind (e : Fault) (f : α → Cpp β) :
    (.error e : Cpp α) >>= f = .error e := rfl

theorem bind_eq_ok {x : Cpp α} {f : α → Cpp β} {b : β} :
    x >>= f = .ok b ↔ ∃ a, x = .ok a ∧ f a = .ok b := by
  cases x <;> simp

theorem ok_unique {x : Cpp α} {a b : α} (first : x = .ok a) (second : x = .ok b) : a = b :=
  Except.ok.inj (first.symm.trans second)

/-- `v[i]` of a `std::vector`; nothing checks the index. -/
def index (v : List α) (i : Nat) : Cpp α :=
  match v[i]? with
  | some a => .ok a
  | none => .error .pastEnd

theorem index_of_lt {v : List α} {i : Nat} (inside : i < v.length) : index v i = .ok v[i] := by
  rw [index, List.getElem?_eq_getElem inside]

theorem index_ne_pastEnd_iff {v : List α} {i : Nat} :
    index v i ≠ .error .pastEnd ↔ i < v.length := by
  rcases Nat.lt_or_ge i v.length with inside | outside
  · rw [index_of_lt inside]
    simp [inside]
  · rw [index, List.getElem?_eq_none outside]
    simp [outside]

/-- `v[i] = a`; nothing checks the index. -/
def assign (v : List α) (i : Nat) (a : α) : Cpp (List α) :=
  if i < v.length then .ok (v.set i a) else .error .pastEnd

theorem assign_of_lt {v : List α} {i : Nat} (a : α) (inside : i < v.length) :
    assign v i a = .ok (v.set i a) := if_pos inside

theorem assign_append (front : List α) (x a : α) (back : List α) :
    assign (front ++ x :: back) front.length a = .ok (front ++ a :: back) := by
  rw [assign_of_lt _ (by simp), List.set_append_right _ _ (Nat.le_refl _), Nat.sub_self,
    List.set_cons_zero]

theorem assign_length (front : List α) (a : α) :
    assign front front.length a = .error .pastEnd := if_neg (Nat.lt_irrefl _)

theorem index_eq_ok_iff {v : List α} {i : Nat} {a : α} :
    index v i = .ok a ↔ v[i]? = some a := by
  unfold index
  cases v[i]? <;> simp

end Cpp

instance linearOrderUInt8 : LinearOrder UInt8 where
  le_refl := UInt8.le_refl
  le_trans _ _ _ := UInt8.le_trans
  le_antisymm _ _ := UInt8.le_antisymm
  le_total := UInt8.le_total
  lt_iff_le_not_ge a b := by
    rw [UInt8.lt_iff_toNat_lt, UInt8.le_iff_toNat_le, UInt8.le_iff_toNat_le]
    omega
  toDecidableLE := inferInstance
  toDecidableEq := inferInstance
  toDecidableLT := inferInstance

abbrev Bytes := List UInt8

namespace Bytes

/-! A set is iterated in order: `Finset.sort` finds these by name. -/

instance transLe : IsTrans Bytes (· ≤ ·) := inferInstance

instance antisymmLe : Std.Antisymm (α := Bytes) (· ≤ ·) := inferInstance

instance totalLe : Std.Total (α := Bytes) (· ≤ ·) := inferInstance

/-- `Bytes(int n)`: `n` zero bytes; a negative `n` asks for more than a vector
can hold. -/
def ofInt (n : Int) : Cpp Bytes :=
  if n < 0 then .error .thrown else .ok (List.replicate n.toNat 0)

@[simp] theorem ofInt_natCast (n : Nat) : ofInt n = .ok (List.replicate n 0) := by
  simp [ofInt, show ¬ (n : Int) < 0 by omega]

/-- `Bytes(const char *c)`: the bytes before the first NUL. -/
def ofCString (c : List UInt8) : Bytes := c.takeWhile (· ≠ 0)

theorem ofCString_of_notMem {c : List UInt8} (noNul : 0 ∉ c) : ofCString c = c := by
  apply List.takeWhile_eq_self_iff.mpr
  intro d inside
  apply decide_eq_true
  rintro rfl
  exact noNul inside

theorem takeWhile_ne_append {front : Bytes} {c : UInt8} (other : ∀ d ∈ front, d ≠ c)
    (rest : Bytes) : (front ++ c :: rest).takeWhile (· ≠ c) = front := by
  rw [List.takeWhile_append_of_pos fun d member => decide_eq_true (other d member),
    List.takeWhile_cons_of_neg (by simp), List.append_nil]

theorem dropWhile_ne_append {front : Bytes} {c : UInt8} (other : ∀ d ∈ front, d ≠ c)
    (rest : Bytes) : (front ++ c :: rest).dropWhile (· ≠ c) = c :: rest := by
  rw [List.dropWhile_append_of_pos fun d member => decide_eq_true (other d member),
    List.dropWhile_cons_of_neg (by simp)]

/-- The conversion of a `size_t` to an `int` parameter. -/
def sizeToInt (n : Nat) : Int := (n : Int).bmod (2 ^ 32)

theorem sizeToInt_of_lt {n : Nat} (h : n < 2 ^ 31) : sizeToInt n = n := by
  unfold sizeToInt
  exact Int.bmod_eq_of_le (by omega) (by omega)

/-- `Bytes::x_or`, which asserts that the two sizes agree. -/
def xOr (b c : Bytes) : Cpp Bytes :=
  if c.length = b.length then .ok (List.zipWith (· ^^^ ·) b c) else .error .assertion

theorem xOr_of_length_eq {b c : Bytes} (h : c.length = b.length) :
    xOr b c = .ok (List.zipWith (· ^^^ ·) b c) := if_pos h

theorem xOr_replicate_zero (b : Bytes) : xOr b (List.replicate b.length 0) = .ok b := by
  rw [xOr_of_length_eq (by simp)]
  congr 1
  induction b with
  | nil => rfl
  | cons x xs ih => simp [List.replicate_succ, ih]

end Bytes

end Pttp
