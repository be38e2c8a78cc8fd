import Pttp.Lib.HashTree
import Pttp.Sodium

/-!
# Hashes, salts and Merkle roots

`Hash::Hash` ignores the return code of the primitive, so a refused length
leaves the zero bytes the buffer was made of. `hash_vec` is a hash tree over
`hash_twin`; its levels are those of `HashTree`.
-/

namespace Pttp

section Hashing

variable (G : GenericHash) (P : PwHash)

/-- `Hash::Hash(Bytes &m, int nbytes)`. -/
def hashSized (m : Bytes) (nbytes : Int) : Cpp Bytes := do
  let out ← Bytes.ofInt nbytes
  return (G.cryptoGenerichash out m).2

/-- `Hash::Hash(Bytes &m)`, of `crypto_generichash_BYTES` bytes. -/
def hash (m : Bytes) : Bytes := (G.cryptoGenerichash (List.replicate 32 0) m).2

@[simp] theorem length_hash (m : Bytes) : (hash G m).length = 32 := by
  rw [hash, G.length_cryptoGenerichash, List.length_replicate]

theorem hashSized_of_le {n : Nat} (m : Bytes) (positive : 0 < n) (short : n ≤ 64) :
    hashSized G m n = .ok (G.digest n m) := by
  rw [hashSized, Bytes.ofInt_natCast, Cpp.ok_bind,
    G.cryptoGenerichash_of_le m (by simpa) (by simpa), List.length_replicate]
  rfl

theorem hashSized_of_lt {n : Nat} (m : Bytes) (long : 64 < n) :
    hashSized G m n = .ok (List.replicate n 0) := by
  rw [hashSized, Bytes.ofInt_natCast, Cpp.ok_bind, G.cryptoGenerichash_of_lt m (by simpa)]
  rfl

def hardHashSalt (b : Bytes) : Cpp Bytes :=
  if b.length = 16 then .ok b else .error .assertion

def hardestHash (m salt : Bytes) : Bytes :=
  (P.derive .sensitive 32 m salt).getD (List.replicate 32 0)

/-- `HardHash::HardHash(Bytes &m)`, salted with a hash of the data itself. -/
def hardHash (m : Bytes) : Cpp Bytes := do
  let salt ← hashSized G m 16
  return (P.derive .interactive 32 m salt).getD (List.replicate 32 0)

end Hashing

section Merkle

variable (G : GenericHash)

def hashTwin (b1 b2 : Bytes) : Bytes := hash G (b1 ++ b2)

/-- One `for` loop of `hash_vec`: two nodes a step, the last of an odd row twice. -/
def hashPass : List Bytes → List Bytes
  | b1 :: b2 :: rest => hashTwin G b1 b2 :: hashPass rest
  | [b1] => [hashTwin G b1 b1]
  | [] => []

theorem hashPass_eq_parents (row : List Bytes) :
    hashPass G row = HashTree.parents (hashTwin G) row := by
  fun_induction hashPass G row with
  | case1 b1 b2 rest ih => rw [ih, HashTree.parents_cons_cons]
  | case2 => rfl
  | case3 => rfl

@[simp] theorem length_hashPass (row : List Bytes) :
    (hashPass G row).length = (row.length + 1) / 2 := by
  rw [hashPass_eq_parents, HashTree.length_parents]

def hashLoop (hashes : List Bytes) : List Bytes :=
  if 1 < hashes.length then hashLoop (hashPass G hashes) else hashes
termination_by hashes.length
decreasing_by
  rw [length_hashPass]
  omega

/-- `hash_vec`: an empty set fails the assertion. -/
def hashVec (hashSet : List Bytes) : Cpp Bytes :=
  if 0 < hashSet.length then
    match (hashLoop G (hashPass G hashSet))[0]? with
    | some root => .ok root
    | none => .error .pastEnd
  else .error .assertion

theorem hashLoop_eq_level (hashes : List Bytes) :
    hashLoop G hashes = HashTree.level (hashTwin G) hashes (Nat.clog 2 hashes.length) := by
  fun_induction hashLoop G hashes with
  | case1 hashes big ih =>
    rw [ih, length_hashPass, hashPass_eq_parents, HashTree.level_parents,
      HashTree.clog_of_one_lt big]
  | case2 hashes small =>
    rw [Nat.clog_of_right_le_one (by omega), HashTree.level_zero]

theorem hashLoop_hashPass (hashSet : List Bytes) :
    hashLoop G (hashPass G hashSet) =
      HashTree.level (hashTwin G) hashSet (HashTree.height hashSet.length) := by
  rw [hashLoop_eq_level, length_hashPass, hashPass_eq_parents, HashTree.level_parents,
    HashTree.height_eq]

theorem hashVec_of_ne_nil {hashSet : List Bytes} (nonempty : hashSet ≠ []) :
    ∃ root, hashVec G hashSet = .ok root ∧
      HashTree.level (hashTwin G) hashSet (HashTree.height hashSet.length) = [root] := by
  have single := HashTree.length_level_height (hashTwin G) hashSet nonempty
  obtain ⟨root, top⟩ := List.length_eq_one_iff.mp single
  refine ⟨root, ?_, top⟩
  have positive : 0 < hashSet.length := List.length_pos_iff.mpr nonempty
  simp only [hashVec, if_pos positive, hashLoop_hashPass, top]
  rfl

@[simp] theorem hashVec_nil : hashVec G [] = .error .assertion := rfl

theorem hashVec_eq_ok_iff {hashSet : List Bytes} {root : Bytes} :
    hashVec G hashSet = .ok root ↔ hashSet ≠ [] ∧
      HashTree.level (hashTwin G) hashSet (HashTree.height hashSet.length) = [root] := by
  by_cases nonempty : hashSet = []
  · simp [nonempty]
  · obtain ⟨root', returned, top⟩ := hashVec_of_ne_nil G nonempty
    simp [returned, top, nonempty]

/-- Nothing marks the leaves: the nodes of the first level have the same root. -/
theorem hashVec_hashPass {hashSet : List Bytes} (big : 2 < hashSet.length) :
    hashVec G (hashPass G hashSet) = hashVec G hashSet := by
  have big' : 1 < (hashPass G hashSet).length := by
    rw [length_hashPass]
    omega
  have next : hashLoop G (hashPass G hashSet) = hashLoop G (hashPass G (hashPass G hashSet)) := by
    rw [hashLoop, if_pos big']
  rw [hashVec, hashVec, if_pos (by omega), if_pos (by omega), ← next]

/-! ## The inputs of `hash_twin` -/

def passInputs : List Bytes → List Bytes
  | b1 :: b2 :: rest => (b1 ++ b2) :: passInputs rest
  | [b1] => [b1 ++ b1]
  | [] => []

def loopInputs (hashes : List Bytes) : List Bytes :=
  if 1 < hashes.length then passInputs hashes ++ loopInputs (hashPass G hashes) else []
termination_by hashes.length
decreasing_by
  rw [length_hashPass]
  omega

/-- The byte strings hashed by `hash_twin` while `hash_vec` computes a root. -/
def hashVecInputs (hashSet : List Bytes) : List Bytes :=
  passInputs hashSet ++ loopInputs G (hashPass G hashSet)

theorem hashVecInputs_pair (b1 b2 : Bytes) : hashVecInputs G [b1, b2] = [b1 ++ b2] := by
  rw [hashVecInputs, loopInputs]
  rfl

theorem hashVecInputs_of_two_lt {hashSet : List Bytes} (big : 2 < hashSet.length) :
    hashVecInputs G hashSet = passInputs hashSet ++ hashVecInputs G (hashPass G hashSet) := by
  have big' : 1 < (hashPass G hashSet).length := by
    rw [length_hashPass]
    omega
  rw [hashVecInputs, loopInputs, if_pos big', hashVecInputs]

theorem passInputs_eq (row : List Bytes) :
    passInputs row = (HashTree.pairs row).map fun p => p.1 ++ p.2 := by
  fun_induction passInputs row with
  | case1 b1 b2 rest ih => rw [ih, HashTree.pairs, List.map_cons]
  | case2 => rfl
  | case3 => rfl

theorem loopInputs_eq (hashes : List Bytes) :
    loopInputs G hashes =
      (HashTree.visited (hashTwin G) hashes (Nat.clog 2 hashes.length)).map
        fun p => p.1 ++ p.2 := by
  fun_induction loopInputs G hashes with
  | case1 hashes big ih =>
    rw [ih, passInputs_eq, HashTree.clog_of_one_lt big, HashTree.visited_succ,
      List.map_append, length_hashPass, hashPass_eq_parents]
  | case2 hashes small =>
    rw [Nat.clog_of_right_le_one (by omega)]
    rfl

theorem hashVecInputs_eq (hashSet : List Bytes) :
    hashVecInputs G hashSet =
      (HashTree.visited (hashTwin G) hashSet (HashTree.height hashSet.length)).map
        fun p => p.1 ++ p.2 := by
  have heightEq : HashTree.height hashSet.length =
      Nat.clog 2 ((hashSet.length + 1) / 2) + 1 := HashTree.height_eq _
  rw [hashVecInputs, passInputs_eq, loopInputs_eq, length_hashPass, hashPass_eq_parents,
    heightEq, HashTree.visited_succ, List.map_append]

def Collision (inputs : List Bytes) : Prop :=
  ∃ x ∈ inputs, ∃ y ∈ inputs, x ≠ y ∧ hash G x = hash G y

instance (inputs : List Bytes) : Decidable (Collision G inputs) :=
  inferInstanceAs (Decidable (∃ x ∈ inputs, ∃ y ∈ inputs, x ≠ y ∧ hash G x = hash G y))

/-- Over 32-byte leaves a node determines its two children, up to a collision. -/
theorem binding_of_not_collision {xs ys : List Bytes} (xsLength : ∀ x ∈ xs, x.length = 32)
    (ysLength : ∀ y ∈ ys, y.length = 32)
    (free : ¬ Collision G (hashVecInputs G xs ++ hashVecInputs G ys)) :
    HashTree.Binding (hashTwin G)
      (HashTree.visited (hashTwin G) xs (HashTree.height xs.length))
      (HashTree.visited (hashTwin G) ys (HashTree.height ys.length)) := by
  intro p hp q hq same
  have sameInput : p.1 ++ p.2 = q.1 ++ q.2 := by
    by_contra different
    refine free ⟨p.1 ++ p.2, ?_, q.1 ++ q.2, ?_, different, same⟩
    · rw [List.mem_append, hashVecInputs_eq]
      exact .inl (List.mem_map.mpr ⟨p, hp, rfl⟩)
    · rw [List.mem_append, hashVecInputs_eq G ys]
      exact .inr (List.mem_map.mpr ⟨q, hq, rfl⟩)
  have fstLength : ∀ {l : List Bytes}, (∀ x ∈ l, x.length = 32) → ∀ {r : Bytes × Bytes} {h : Nat},
      r ∈ HashTree.visited (hashTwin G) l h → r.1.length = 32 := by
    intro l leaves r h hr
    obtain ⟨k, _, inPairs⟩ := HashTree.mem_visited.mp hr
    exact HashTree.forall_mem_level (hashTwin G) (fun _ _ => length_hash G _) leaves k _
      (HashTree.mem_of_mem_pairs inPairs).1
  have sameLength := (fstLength xsLength hp).trans (fstLength ysLength hq).symm
  obtain ⟨fst, snd⟩ := List.append_inj sameInput sameLength
  exact Prod.ext fst snd

/-- One root for two lists of the same length is one list, or a collision on the way
to the root. -/
theorem hashVec_binds {xs ys : List Bytes} {root : Bytes} (length : xs.length = ys.length)
    (xsSized : ∀ x ∈ xs, x.length = 32) (ysSized : ∀ y ∈ ys, y.length = 32)
    (xsRoot : hashVec G xs = .ok root) (ysRoot : hashVec G ys = .ok root) :
    xs = ys ∨ Collision G (hashVecInputs G xs ++ hashVecInputs G ys) := by
  by_cases free : Collision G (hashVecInputs G xs ++ hashVecInputs G ys)
  · exact .inr free
  · have top := ((hashVec_eq_ok_iff G).mp xsRoot).2
    have top' := ((hashVec_eq_ok_iff G).mp ysRoot).2
    have binding := binding_of_not_collision G xsSized ysSized free
    rw [← length] at top' binding
    exact .inl (HashTree.eq_of_level_eq length _ binding (top.trans top'.symm))

def threeLeaves (last : Bytes) : List Bytes :=
  [List.replicate 32 7, List.replicate 32 8, List.replicate 30 0 ++ last]

theorem hashVec_binds_three_leaves :
    Collision .polynomial (hashVecInputs .polynomial (threeLeaves [1, 0]) ++
      hashVecInputs .polynomial (threeLeaves [0, 31])) := by
  have root : hashVec .polynomial (threeLeaves [1, 0]) = .ok (59 :: List.replicate 31 0) :=
    (hashVec_eq_ok_iff .polynomial).mpr ⟨by decide, by decide +kernel⟩
  have root' : hashVec .polynomial (threeLeaves [0, 31]) = .ok (59 :: List.replicate 31 0) :=
    (hashVec_eq_ok_iff .polynomial).mpr ⟨by decide, by decide +kernel⟩
  have sized : ∀ x ∈ threeLeaves [1, 0], x.length = 32 := by decide
  have sized' : ∀ y ∈ threeLeaves [0, 31], y.length = 32 := by decide
  have length : (threeLeaves [1, 0]).length = (threeLeaves [0, 31]).length := rfl
  have different : threeLeaves [1, 0] ≠ threeLeaves [0, 31] := by decide
  exact (hashVec_binds .polynomial length sized sized' root root').resolve_left different

end Merkle

end Pttp
