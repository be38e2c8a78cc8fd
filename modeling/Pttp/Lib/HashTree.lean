import Mathlib

/-!
# Hash trees built level by level

Each level pairs the neighbours of the level below it; the last element of an
odd level is paired with itself. Nothing tells a leaf from a node, so equal
roots bind two trees only level against level, counted from the roots.
-/

namespace HashTree

universe u

variable {α : Type u}

/-- Neighbours, the last element of an odd list with itself. -/
def pairs : List α → List (α × α)
  | a :: b :: rest => (a, b) :: pairs rest
  | [a] => [(a, a)]
  | [] => []

theorem length_pairs (l : List α) : (pairs l).length = (l.length + 1) / 2 := by
  fun_induction pairs l with
  | case1 a b rest ih => simp only [List.length_cons, ih]; omega
  | case2 a => simp
  | case3 => simp

theorem mem_of_mem_pairs {l : List α} {p : α × α} (h : p ∈ pairs l) : p.1 ∈ l ∧ p.2 ∈ l := by
  fun_induction pairs l with
  | case1 a b rest ih =>
    rcases List.mem_cons.mp h with rfl | inRest
    · simp
    · exact ⟨by simp [(ih inRest).1], by simp [(ih inRest).2]⟩
  | case2 a => simp_all
  | case3 => simp at h

theorem exists_pair_of_mem {l : List α} {x : α} (h : x ∈ l) :
    ∃ p ∈ pairs l, x = p.1 ∨ x = p.2 := by
  fun_induction pairs l with
  | case1 a b rest ih =>
    simp only [List.mem_cons] at h
    rcases h with rfl | rfl | inRest
    · exact ⟨(x, b), by simp, .inl rfl⟩
    · exact ⟨(a, x), by simp, .inr rfl⟩
    · obtain ⟨p, inPairs, found⟩ := ih inRest
      exact ⟨p, List.mem_cons_of_mem _ inPairs, found⟩
  | case2 a => exact ⟨(a, a), by simp, .inl (by simpa using h)⟩
  | case3 => simp at h

theorem eq_of_pairs_eq {xs ys : List α} (length : xs.length = ys.length)
    (same : pairs xs = pairs ys) : xs = ys := by
  fun_induction pairs xs generalizing ys with
  | case1 a b rest ih =>
    match ys with
    | c :: d :: rest' =>
      obtain ⟨first, others⟩ := List.cons.inj same
      obtain ⟨rfl, rfl⟩ := Prod.mk.inj first
      rw [ih (by simpa using length) others]
    | [c] => simp at length
    | [] => simp at length
  | case2 a =>
    match ys with
    | [c] =>
      obtain ⟨first, -⟩ := List.cons.inj same
      rw [(Prod.mk.inj first).1]
    | c :: d :: rest' => simp at length
    | [] => simp at length
  | case3 => exact (List.length_eq_zero_iff.mp length.symm).symm

section Levels

variable (node : α → α → α)

def parents (l : List α) : List α := (pairs l).map fun p => node p.1 p.2

@[simp] theorem parents_cons_cons (a b : α) (rest : List α) :
    parents node (a :: b :: rest) = node a b :: parents node rest := rfl

@[simp] theorem length_parents (l : List α) :
    (parents node l).length = (l.length + 1) / 2 := by
  rw [parents, List.length_map, length_pairs]

def level (l : List α) : Nat → List α
  | 0 => l
  | k + 1 => parents node (level l k)

@[simp] theorem level_zero (l : List α) : level node l 0 = l := rfl

theorem level_succ (l : List α) (k : Nat) :
    level node l (k + 1) = parents node (level node l k) := rfl

theorem level_parents (l : List α) (k : Nat) :
    level node (parents node l) k = level node l (k + 1) := by
  induction k with
  | zero => rfl
  | succ k ih => rw [level_succ, ih, ← level_succ]

theorem forall_mem_level {P : α → Prop} (made : ∀ a b, P (node a b)) {l : List α}
    (leaves : ∀ a ∈ l, P a) (k : Nat) : ∀ a ∈ level node l k, P a := by
  cases k with
  | zero => exact leaves
  | succ k =>
    intro a h
    obtain ⟨p, _, rfl⟩ := List.mem_map.mp h
    exact made p.1 p.2

/-- Levels above the leaves: a single leaf is still paired with itself once. -/
def height (n : Nat) : Nat := max 1 (Nat.clog 2 n)

theorem clog_of_one_lt {n : Nat} (h : 1 < n) :
    Nat.clog 2 n = Nat.clog 2 ((n + 1) / 2) + 1 := by
  rw [Nat.clog_of_two_le (by omega) (by omega), show n + 2 - 1 = n + 1 by omega]

theorem height_eq (n : Nat) : height n = Nat.clog 2 ((n + 1) / 2) + 1 := by
  rcases Nat.lt_or_ge 1 n with big | small
  · rw [height, clog_of_one_lt big]
    omega
  · rw [height, Nat.clog_of_right_le_one small,
      Nat.clog_of_right_le_one (show (n + 1) / 2 ≤ 1 by omega)]
    rfl

theorem length_level_clog (l : List α) (nonempty : l ≠ []) :
    (level node l (Nat.clog 2 l.length)).length = 1 := by
  induction h : l.length using Nat.strong_induction_on generalizing l with
  | _ n ih =>
    have positive : 0 < l.length := List.length_pos_iff.mpr nonempty
    rcases Nat.lt_or_ge 1 n with big | small
    · have nonempty' : parents node l ≠ [] := by
        rw [← List.length_pos_iff, length_parents]
        omega
      have above := ih ((n + 1) / 2) (by omega) (parents node l) nonempty'
        (by rw [length_parents, h])
      rwa [level_parents, ← clog_of_one_lt big] at above
    · have : n = 1 := by omega
      subst this
      simpa using h

theorem length_level_height (l : List α) (nonempty : l ≠ []) :
    (level node l (height l.length)).length = 1 := by
  have nonempty' : parents node l ≠ [] := by
    have := List.length_pos_iff.mpr nonempty
    rw [← List.length_pos_iff, length_parents]
    omega
  have above := length_level_clog node (parents node l) nonempty'
  rwa [level_parents, length_parents, ← height_eq] at above

/-- The pairs hashed on the way to level `h`. -/
def visited (l : List α) (h : Nat) : List (α × α) :=
  (List.range h).flatMap fun k => pairs (level node l k)

variable {node}

theorem mem_visited {l : List α} {h : Nat} {p : α × α} :
    p ∈ visited node l h ↔ ∃ k < h, p ∈ pairs (level node l k) := by
  simp [visited]

theorem visited_succ (l : List α) (h : Nat) :
    visited node l (h + 1) = pairs l ++ visited node (parents node l) h := by
  rw [visited, List.range_succ_eq_map, List.flatMap_cons, List.flatMap_map, level_zero, visited]
  congr 2
  funext k
  rw [level_parents]

theorem visited_mono {l : List α} {h h' : Nat} (le : h ≤ h') {p : α × α}
    (mem : p ∈ visited node l h) : p ∈ visited node l h' := by
  obtain ⟨k, below, inPairs⟩ := mem_visited.mp mem
  exact mem_visited.mpr ⟨k, Nat.lt_of_lt_of_le below le, inPairs⟩

/-- No pair of the first list has the node of another pair of the second. -/
def Binding (node : α → α → α) (ps qs : List (α × α)) : Prop :=
  ∀ p ∈ ps, ∀ q ∈ qs, node p.1 p.2 = node q.1 q.2 → p = q

theorem Binding.symm {ps qs : List (α × α)} (h : Binding node ps qs) : Binding node qs ps :=
  fun q hq p hp same => (h p hp q hq same.symm).symm

theorem subset_of_parents_subset {xs ys : List α} (binding : Binding node (pairs xs) (pairs ys))
    (sub : parents node xs ⊆ parents node ys) : xs ⊆ ys := by
  intro x hx
  obtain ⟨p, inPairs, isPart⟩ := exists_pair_of_mem hx
  have above : node p.1 p.2 ∈ parents node ys := sub (List.mem_map.mpr ⟨p, inPairs, rfl⟩)
  obtain ⟨q, inPairs', same⟩ := List.mem_map.mp above
  have : p = q := binding p inPairs q inPairs' same.symm
  subst this
  rcases isPart with rfl | rfl
  · exact (mem_of_mem_pairs inPairs').1
  · exact (mem_of_mem_pairs inPairs').2

theorem eq_of_parents_eq {xs ys : List α} (length : xs.length = ys.length)
    (binding : Binding node (pairs xs) (pairs ys)) (same : parents node xs = parents node ys) :
    xs = ys := by
  apply eq_of_pairs_eq length
  have sameLength : (pairs xs).length = (pairs ys).length := by
    rw [length_pairs, length_pairs, length]
  apply List.ext_getElem sameLength
  intro i inXs inYs
  apply binding _ (List.getElem_mem inXs) _ (List.getElem_mem inYs)
  have above : (parents node xs)[i]? = (parents node ys)[i]? := by rw [same]
  rw [parents, parents, List.getElem?_map, List.getElem?_map, List.getElem?_eq_getElem inXs,
    List.getElem?_eq_getElem inYs] at above
  exact Option.some.inj above

theorem length_level_eq {xs ys : List α} (length : xs.length = ys.length) (k : Nat) :
    (level node xs k).length = (level node ys k).length := by
  induction k with
  | zero => exact length
  | succ k ih => rw [level_succ, level_succ, length_parents, length_parents, ih]

theorem eq_of_level_eq {xs ys : List α} (length : xs.length = ys.length) (k : Nat)
    (binding : Binding node (visited node xs k) (visited node ys k))
    (same : level node xs k = level node ys k) : xs = ys := by
  induction k with
  | zero => exact same
  | succ k ih =>
    apply ih
    · intro p hp q hq
      exact binding p (visited_mono (Nat.le_succ k) hp) q (visited_mono (Nat.le_succ k) hq)
    · apply eq_of_parents_eq (length_level_eq length k) _ same
      intro p hp q hq
      exact binding p (mem_visited.mpr ⟨k, Nat.lt_succ_self k, hp⟩) q
        (mem_visited.mpr ⟨k, Nat.lt_succ_self k, hq⟩)

theorem level_subset_of_level_subset {xs ys : List α} (i j k : Nat)
    (binding : Binding node (visited node xs (i + k)) (visited node ys (j + k)))
    (sub : level node xs (i + k) ⊆ level node ys (j + k)) :
    level node xs i ⊆ level node ys j := by
  induction k with
  | zero => exact sub
  | succ k ih =>
    apply ih
    · exact fun p hp q hq => binding p (visited_mono (by omega) hp) q (visited_mono (by omega) hq)
    · apply subset_of_parents_subset _ sub
      exact fun p hp q hq => binding p (mem_visited.mpr ⟨i + k, by omega, hp⟩)
        q (mem_visited.mpr ⟨j + k, by omega, hq⟩)

/-- Equal roots make the leaves of the lower tree, as a set, the level of the
higher tree at the same distance from its root. -/
theorem mem_level_iff_of_level_eq {xs ys : List α} {hx hy : Nat} (le : hy ≤ hx)
    (binding : Binding node (visited node xs hx) (visited node ys hy))
    (same : level node xs hx = level node ys hy) (a : α) :
    a ∈ level node xs (hx - hy) ↔ a ∈ ys := by
  have split : hx - hy + hy = hx := by omega
  constructor
  · have : level node xs (hx - hy) ⊆ level node ys 0 := level_subset_of_level_subset _ _ hy
      (by rwa [split, Nat.zero_add]) (by rw [split, Nat.zero_add, same]; exact fun _ h => h)
    exact fun h => this h
  · have : level node ys 0 ⊆ level node xs (hx - hy) := level_subset_of_level_subset _ _ hy
      (by rw [split, Nat.zero_add]; exact binding.symm)
      (by rw [split, Nat.zero_add, same]; exact fun _ h => h)
    exact fun h => this h

/-- Where leaves are told apart from nodes, a leaf is not found above the leaves of another
tree. -/
theorem height_le_of_level_eq {xs ys : List α} {hx hy : Nat} (nonempty : ys ≠ [])
    (apart : ∀ p ∈ visited node xs hx, node p.1 p.2 ∉ ys)
    (binding : Binding node (visited node xs hx) (visited node ys hy))
    (same : level node xs hx = level node ys hy) : hx ≤ hy := by
  by_contra lower
  rw [not_le] at lower
  obtain ⟨y, leaf⟩ := List.exists_mem_of_ne_nil ys nonempty
  have above := (mem_level_iff_of_level_eq lower.le binding same y).mpr leaf
  obtain ⟨k, up⟩ := Nat.exists_eq_succ_of_ne_zero (Nat.sub_ne_zero_of_lt lower)
  rw [up, Nat.succ_eq_add_one, level_succ] at above
  obtain ⟨p, inPairs, rfl⟩ := List.mem_map.mp above
  exact apart p (mem_visited.mpr ⟨k, by omega, inPairs⟩) leaf

theorem mem_iff_of_level_eq {xs ys : List α} {hx hy : Nat} (nonempty : xs ≠ [])
    (nonempty' : ys ≠ []) (apart : ∀ p ∈ visited node xs hx, node p.1 p.2 ∉ ys)
    (apart' : ∀ p ∈ visited node ys hy, node p.1 p.2 ∉ xs)
    (binding : Binding node (visited node xs hx) (visited node ys hy))
    (same : level node xs hx = level node ys hy) (a : α) : a ∈ xs ↔ a ∈ ys := by
  have le := height_le_of_level_eq nonempty' apart binding same
  have ge := height_le_of_level_eq nonempty apart' binding.symm same.symm
  have iff := mem_level_iff_of_level_eq ge binding same a
  rwa [Nat.sub_eq_zero_of_le le, level_zero] at iff

end Levels

end HashTree
