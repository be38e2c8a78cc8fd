import Mathlib

/-!
# What spreads by asking

Every node is given some items and asks others for what they know. What a node can come to
know is the least assignment that holds what is given and is closed under asking: the items
that were given to someone it reaches. In rounds in which every node gets what the nodes
it asks knew before, an item comes one edge nearer each round.
-/

namespace Spreading

universe u v w

variable {Node : Type u} {Item : Type v}

inductive Learned (given : Node → Set Item) (asks : Node → Node → Prop) : Node → Item → Prop where
  | given {node : Node} {item : Item} : item ∈ given node → Learned given asks node item
  | asked {node other : Node} {item : Item} :
      asks node other → Learned given asks other item → Learned given asks node item

variable {given given' : Node → Set Item} {asks asks' : Node → Node → Prop}

theorem Learned.mono (more : ∀ node, given node ⊆ given' node)
    (further : ∀ node other, asks node other → asks' node other) {node : Node} {item : Item}
    (learned : Learned given asks node item) : Learned given' asks' node item := by
  induction learned with
  | given here => exact .given (more _ here)
  | asked asks _ ih => exact .asked (further _ _ asks) ih

theorem learned_iff_reachable {node : Node} {item : Item} :
    Learned given asks node item ↔
      ∃ other, Relation.ReflTransGen asks node other ∧ item ∈ given other := by
  constructor
  · intro learned
    induction learned with
    | given here => exact ⟨_, .refl, here⟩
    | asked asks _ ih =>
      obtain ⟨other, reached, there⟩ := ih
      exact ⟨other, .head asks reached, there⟩
  · rintro ⟨other, reached, there⟩
    induction reached using Relation.ReflTransGen.head_induction_on with
    | refl => exact .given there
    | head asks _ ih => exact .asked asks ih

/-! ## Rounds -/

inductive Within (asks : Node → Node → Prop) : ℕ → Node → Node → Prop where
  | here (k : ℕ) (node : Node) : Within asks k node node
  | edge {k : ℕ} {node next other : Node} :
      asks node next → Within asks k next other → Within asks (k + 1) node other

inductive Rounds {State : Type w} (round : State → State → Prop) (start : State) :
    ℕ → State → Prop where
  | zero : Rounds round start 0 start
  | succ {k : ℕ} {s t : State} :
      Rounds round start k s → round s t → Rounds round start (k + 1) t

section Rounds

variable {State : Type w} {round : State → State → Prop} {start t : State}
  {knownAt : State → Node → Set Item} {asksAt : State → Node → Node → Prop}

theorem Rounds.invariant {Inv : State → Prop} (initially : Inv start)
    (preserved : ∀ s t, Inv s → round s t → Inv t) {k : ℕ} (rounds : Rounds round start k t) :
    Inv t := by
  induction rounds with
  | zero => exact initially
  | succ _ last ih => exact preserved _ _ ih last

variable (knownAt asksAt) in
/-- After so many rounds a node knows what was known within that distance. The invariant may
be used to see what a round does. -/
theorem Rounds.spread (Inv : State → Prop) (initially : Inv start)
    (preserved : ∀ s t, Inv s → round s t → Inv t)
    (grows : ∀ s t, Inv s → round s t → ∀ node, knownAt s node ⊆ knownAt t node)
    (asksStay : ∀ s t, Inv s → round s t → ∀ node other, asksAt s node other →
      asksAt t node other)
    (asked : ∀ s t, Inv s → round s t → ∀ node other, asksAt s node other →
      knownAt s other ⊆ knownAt t node)
    {k : ℕ} (rounds : Rounds round start k t) {node other : Node}
    (near : Within (asksAt start) k node other) :
    knownAt start other ⊆ knownAt t node := by
  induction rounds generalizing node with
  | zero =>
    cases near with
    | here => exact subset_rfl
  | @succ k s t before last ih =>
    have good : Inv s := before.invariant initially preserved
    cases near with
    | here => exact (ih (.here _ _)).trans (grows _ _ good last _)
    | @edge _ _ next _ first rest =>
      let Asking (s : State) : Prop := Inv s ∧ asksAt s node next
      have preserved' (s t : State) (both : Asking s) (taken : round s t) : Asking t :=
        ⟨preserved s t both.1 taken, asksStay s t both.1 taken node next both.2⟩
      have still : Asking s := before.invariant ⟨initially, first⟩ preserved'
      exact (ih rest).trans (asked _ _ good last _ _ still.2)

end Rounds

end Spreading
