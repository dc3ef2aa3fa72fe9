/-!
# Sorted lists
-/

set_option autoImplicit false

namespace CoordSplit

/-- Insertion into a list sorted by `le`, after the elements that are not above the new one. -/
def insertSorted {α : Type} (le : α → α → Bool) (a : α) : List α → List α
  | [] => [a]
  | b :: rest => if le b a then b :: insertSorted le a rest else a :: b :: rest

/-- Insertion adds the new element, and nothing else. -/
theorem insertSorted_perm {α : Type} (le : α → α → Bool) (a : α) (l : List α) : (insertSorted le a l).Perm (a :: l) := by
  induction l with
  | nil => exact .refl _
  | cons b rest ih =>
    rw [insertSorted]
    split
    · exact (ih.cons b).trans (.swap a b rest)
    · exact .refl _

theorem mem_insertSorted {α : Type} (le : α → α → Bool) (a x : α) (l : List α) :
    x ∈ insertSorted le a l ↔ x = a ∨ x ∈ l := by
  rw [(insertSorted_perm le a l).mem_iff, List.mem_cons]

theorem length_insertSorted {α : Type} (le : α → α → Bool) (a : α) (l : List α) :
    (insertSorted le a l).length = l.length + 1 := by
  rw [(insertSorted_perm le a l).length_eq, List.length_cons]

end CoordSplit
