import Pttp.Chain.Ledger

/-!
# Checking a reconciled set

`check` compares Merkle roots only. The producer hashes its set in the order of
`std::set`, the checker sorts first, so the order of arrival does not matter.
What equal roots prove depends on the heights of the two trees.
-/

namespace Pttp

open HashTree

/-- `check` looks at neither the filters nor `N`. -/
structure SetReconsiler (Filter : Type) where
  hash : Bytes
  N : UInt64
  filters : List Filter
  currentSet : List Bytes

variable {Filter : Type}

def SetReconsiler.new (Filter : Type) (hash : Bytes) : SetReconsiler Filter :=
  ⟨hash, 0, [], []⟩

variable (G : GenericHash)

def SetReconsiler.check (r : SetReconsiler Filter) : Cpp Bool :=
  if r.currentSet.length = 0 then .ok false
  else do
    let currentHash ← hashVec G (r.currentSet.insertionSort (· ≤ ·))
    return r.hash == currentHash

variable {G}

theorem check_eq_true_iff {r : SetReconsiler Filter} :
    r.check G = .ok true ↔ hashVec G (r.currentSet.insertionSort (· ≤ ·)) = .ok r.hash := by
  rw [SetReconsiler.check]
  split
  case isTrue empty =>
    rw [List.length_eq_zero_iff.mp empty]
    simp
  case isFalse =>
    constructor
    · intro passed
      obtain ⟨root, rooted, compared⟩ := Cpp.bind_eq_ok.mp passed
      have same : r.hash = root := by simpa using Except.ok.inj compared
      rw [rooted, same]
    · intro rooted
      rw [rooted, Cpp.ok_bind, beq_self_eq_true]
      rfl

/-! ## Producer and checker -/

theorem insertionSort_eq_of_perm {current sorted : List Bytes} (perm : current.Perm sorted)
    (ascending : sorted.Pairwise (· ≤ ·)) : current.insertionSort (· ≤ ·) = sorted := by
  have reordered : (current.insertionSort (· ≤ ·)).Perm sorted :=
    (List.perm_insertionSort (· ≤ ·) current).trans perm
  exact reordered.eq_of_pairwise (fun _ _ _ _ => le_antisymm)
    (List.pairwise_insertionSort (· ≤ ·) current) ascending

/-- Whatever the order in which the selected hashes arrive, the check passes. -/
theorem check_of_getLatest {c c' : Chain.BlockChain} {h : Bytes}
    (returned : c.getLatest G = .ok (h, c')) {current : List Bytes}
    (arrived : current.Perm c'.latestSet) :
    SetReconsiler.check G { SetReconsiler.new Filter h with currentSet := current } =
      .ok true := by
  obtain ⟨-, hashed, rfl⟩ := Chain.getLatest_eq_ok_iff.mp returned
  have sorted : current.insertionSort (· ≤ ·) = c.selected :=
    insertionSort_eq_of_perm arrived (Chain.selected_pairwise c)
  rw [check_eq_true_iff]
  exact sorted ▸ hashed

theorem check_of_getLatest_twoPayments :
    ∃ h c', Chain.twoPayments.getLatest .polynomial = .ok (h, c') ∧
      SetReconsiler.check .polynomial
        { SetReconsiler.new Unit h with currentSet := [[2], [1]] } = .ok true := by
  have selected : Chain.twoPayments.selected = [[1], [2]] := by
    rw [Chain.BlockChain.selected, Chain.ordered_twoPayments]
    decide
  obtain ⟨h, hashed, -⟩ := hashVec_of_ne_nil .polynomial (List.cons_ne_nil [1] [[2]])
  have returned : Chain.twoPayments.getLatest .polynomial =
      .ok (h, { Chain.twoPayments with latestSet := [[1], [2]], latestHash := h }) :=
    Chain.getLatest_eq_ok_iff.mpr ⟨by decide, selected ▸ hashed, by rw [selected]⟩
  exact ⟨h, _, returned, check_of_getLatest returned (List.Perm.swap [1] [2] [])⟩

/-! ## What a passed check proves -/

/-- Up to a collision the lower of the two trees has for leaves a level of the
higher one, so at equal heights the sets are equal. -/
theorem check_binds {S : Finset Bytes} {r : SetReconsiler Filter}
    (produced : hashVec G (S.sort (· ≤ ·)) = .ok r.hash) (passed : r.check G = .ok true)
    (sized : ∀ a ∈ S, a.length = 32) (currentSized : ∀ a ∈ r.currentSet, a.length = 32)
    (free : ¬ Collision G (hashVecInputs G (S.sort (· ≤ ·)) ++
      hashVecInputs G (r.currentSet.insertionSort (· ≤ ·)))) :
    (height r.currentSet.length = height S.card → r.currentSet.toFinset = S) ∧
    (height r.currentSet.length ≤ height S.card →
      r.currentSet.toFinset = (level (hashTwin G) (S.sort (· ≤ ·))
        (height S.card - height r.currentSet.length)).toFinset) ∧
    (height S.card ≤ height r.currentSet.length →
      S = (level (hashTwin G) (r.currentSet.insertionSort (· ≤ ·))
        (height r.currentSet.length - height S.card)).toFinset) := by
  have top := (hashVec_eq_ok_iff G).mp produced
  have top' := (hashVec_eq_ok_iff G).mp (check_eq_true_iff.mp passed)
  have same := top.2.trans top'.2.symm
  have binding := binding_of_not_collision G
    (fun a member => sized a ((Finset.mem_sort _).mp member))
    (fun a member => currentSized a ((List.mem_insertionSort _).mp member)) free
  rw [Finset.length_sort, List.length_insertionSort] at same binding
  have lower : height r.currentSet.length ≤ height S.card →
      r.currentSet.toFinset = (level (hashTwin G) (S.sort (· ≤ ·))
        (height S.card - height r.currentSet.length)).toFinset := by
    intro le
    ext a
    rw [List.mem_toFinset, List.mem_toFinset, mem_level_iff_of_level_eq le binding same,
      List.mem_insertionSort]
  have higher : height S.card ≤ height r.currentSet.length →
      S = (level (hashTwin G) (r.currentSet.insertionSort (· ≤ ·))
        (height r.currentSet.length - height S.card)).toFinset := by
    intro le
    ext a
    rw [List.mem_toFinset, mem_level_iff_of_level_eq le binding.symm same.symm, Finset.mem_sort]
  refine ⟨fun equal => ?_, lower, higher⟩
  rw [lower equal.le, equal, Nat.sub_self, level_zero]
  exact Finset.sort_toFinset _ _

def leaf (first : UInt8) : Bytes := first :: List.replicate 31 0

theorem sort_leaves {leaves : List Bytes} (ascending : leaves.Pairwise (· < ·)) :
    leaves.toFinset.sort (· ≤ ·) = leaves :=
  (List.toFinset_sort (· ≤ ·) (ascending.imp ne_of_lt)).mpr (ascending.imp le_of_lt)

theorem check_binds_two_leaves :
    ([leaf 2, leaf 1] : List Bytes).toFinset = [leaf 1, leaf 2].toFinset := by
  have produced : hashVec .polynomial [leaf 1, leaf 2] = .ok (leaf 164) :=
    (hashVec_eq_ok_iff .polynomial).mpr ⟨by decide, by decide +kernel⟩
  have inOrder : [leaf 1, leaf 2].toFinset.sort (· ≤ ·) = [leaf 1, leaf 2] :=
    sort_leaves (by decide)
  have sorted : [leaf 2, leaf 1].insertionSort (· ≤ ·) = [leaf 1, leaf 2] :=
    insertionSort_eq_of_perm (List.Perm.swap _ _ _) (by decide)
  have free : ¬ Collision .polynomial (hashVecInputs .polynomial [leaf 1, leaf 2] ++
      hashVecInputs .polynomial [leaf 1, leaf 2]) := by
    rw [hashVecInputs_pair]
    decide +kernel
  let r : SetReconsiler Unit :=
    { SetReconsiler.new Unit (leaf 164) with currentSet := [leaf 2, leaf 1] }
  have passed : r.check .polynomial = .ok true := check_eq_true_iff.mpr (sorted ▸ produced)
  have produced' : hashVec .polynomial ([leaf 1, leaf 2].toFinset.sort (· ≤ ·)) = .ok r.hash :=
    inOrder.symm ▸ produced
  refine (check_binds produced' passed (by decide) (by decide) ?_).1 (by decide)
  rw [inOrder, show r.currentSet.insertionSort (· ≤ ·) = [leaf 1, leaf 2] from sorted]
  exact free

theorem check_hashPass {hashSet : List Bytes} {root : Bytes} (big : 2 < hashSet.length)
    (ascending : (hashPass G hashSet).Pairwise (· ≤ ·)) (produced : hashVec G hashSet = .ok root) :
    SetReconsiler.check G
      { SetReconsiler.new Filter root with currentSet := hashPass G hashSet } = .ok true := by
  rw [check_eq_true_iff, insertionSort_eq_of_perm (List.Perm.refl _) ascending,
    hashVec_hashPass G big]
  exact produced

/-- Two inner nodes pass for the four leaves below them, without a collision. -/
theorem check_passes_inner_nodes :
    ∃ (S : Finset Bytes) (r : SetReconsiler Unit), S.card = 4 ∧ r.currentSet.length = 2 ∧
      (∀ a ∈ S, a.length = 32) ∧ (∀ a ∈ r.currentSet, a.length = 32) ∧ r.currentSet.Nodup ∧
      hashVec .polynomial (S.sort (· ≤ ·)) = .ok r.hash ∧ r.check .polynomial = .ok true ∧
      r.currentSet.toFinset ≠ S ∧
      ¬ Collision .polynomial (hashVecInputs .polynomial (S.sort (· ≤ ·)) ++
        hashVecInputs .polynomial (r.currentSet.insertionSort (· ≤ ·))) := by
  have inOrder : [leaf 1, leaf 2, leaf 3, leaf 5].toFinset.sort (· ≤ ·) =
      [leaf 1, leaf 2, leaf 3, leaf 5] := sort_leaves (by decide)
  have nodes : hashPass .polynomial [leaf 1, leaf 2, leaf 3, leaf 5] = [leaf 164, leaf 255] := by
    decide +kernel
  have produced : hashVec .polynomial [leaf 1, leaf 2, leaf 3, leaf 5] = .ok (leaf 4) :=
    (hashVec_eq_ok_iff .polynomial).mpr ⟨by decide, by decide +kernel⟩
  have passed : SetReconsiler.check .polynomial { SetReconsiler.new Unit (leaf 4) with
      currentSet := [leaf 164, leaf 255] } = .ok true := by
    rw [← nodes]
    exact check_hashPass (by decide) (by rw [nodes]; decide) produced
  have sorted : [leaf 164, leaf 255].insertionSort (· ≤ ·) = [leaf 164, leaf 255] := by decide
  refine ⟨[leaf 1, leaf 2, leaf 3, leaf 5].toFinset, _, by decide, by decide, by decide,
    by decide, by decide, by rw [inOrder]; exact produced, passed, by decide, ?_⟩
  rw [inOrder, sorted, hashVecInputs_of_two_lt _ (by decide), nodes, hashVecInputs_pair]
  decide +kernel

end Pttp
