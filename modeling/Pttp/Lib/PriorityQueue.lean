import Mathlib

/-!
# Queues that give out their least element

A priority queue is the multiset of what it holds and shows an element than which
its comparator finds none smaller. When the comparator sorts by a rank, that
element answers for the whole queue every question that a smaller rank answers
with yes before a greater one does.
-/

namespace PriorityQueue

universe u v

variable {α : Type u} {Rank : Type v} [LinearOrder Rank]

/-- What the queue may show: nothing in it is smaller. -/
def Top (greater : α → α → Bool) (q : Multiset α) (x : α) : Prop :=
  x ∈ q ∧ ∀ y ∈ q, ¬ greater x y

instance decidableTop [DecidableEq α] (greater : α → α → Bool) (q : Multiset α) (x : α) :
    Decidable (Top greater q x) :=
  inferInstanceAs (Decidable (x ∈ q ∧ ∀ y ∈ q, ¬ greater x y))

def SortsBy (greater : α → α → Bool) (rank : α → Rank) : Prop :=
  ∀ x y, greater x y ↔ rank y < rank x

variable {greater : α → α → Bool} {rank : α → Rank} {q : Multiset α} {x y : α}

theorem Top.rank_le (top : Top greater q x) (sorts : SortsBy greater rank) (member : y ∈ q) :
    rank x ≤ rank y := by
  apply le_of_not_gt
  intro smaller
  exact top.2 y member ((sorts x y).mpr smaller)

theorem exists_top (sorts : SortsBy greater rank) (nonempty : q ≠ 0) : ∃ x, Top greater q x := by
  obtain ⟨x, member, least⟩ := Multiset.exists_min_image rank nonempty
  refine ⟨x, member, ?_⟩
  intro y other smaller
  exact absurd ((sorts x y).mp smaller) (not_lt.mpr (least y other))

theorem Top.none_due (top : Top greater q x) (sorts : SortsBy greater rank) {due : α → Prop}
    (earlier : ∀ x y, rank x ≤ rank y → due y → due x) (late : ¬ due x) :
    ∀ y ∈ q, ¬ due y := by
  intro y member dueToo
  exact late (earlier x y (top.rank_le sorts member) dueToo)

end PriorityQueue
