import Mathlib

/-! Functions that walk along a list and treat every element alike: what they give is what the
library's operations on lists give. -/
namespace TraitCalculus

section Walk

variable {α β : Type}

theorem walk_eq_map {walk : List α → List β} {g : α → β} (hnil : walk [] = [])
    (hcons : ∀ a as, walk (a :: as) = g a :: walk as) (as : List α) : walk as = as.map g := by
  induction as with
  | nil => exact hnil
  | cons a as ih => rw [hcons, ih, List.map_cons]

theorem walk_eq_flatMap {walk : List α → List β} {g : α → List β} (hnil : walk [] = [])
    (hcons : ∀ a as, walk (a :: as) = g a ++ walk as) (as : List α) : walk as = as.flatMap g := by
  induction as with
  | nil => exact hnil
  | cons a as ih => rw [hcons, ih, List.flatMap_cons]

theorem mem_walk {walk : List α → List β} {g : α → List β} (hnil : walk [] = [])
    (hcons : ∀ a as, walk (a :: as) = g a ++ walk as) (as : List α) {b : β} :
    b ∈ walk as ↔ ∃ a ∈ as, b ∈ g a := by
  rw [walk_eq_flatMap hnil hcons, List.mem_flatMap]

theorem walk_eq_sum {walk : List α → Nat} {g : α → Nat} (hnil : walk [] = 0)
    (hcons : ∀ a as, walk (a :: as) = g a + walk as) (as : List α) :
    walk as = (as.map g).sum := by
  induction as with
  | nil => exact hnil
  | cons a as ih => rw [hcons, ih, List.map_cons, List.sum_cons]

theorem walk_iff {walk : List α → Prop} {p : α → Prop} (hnil : walk [])
    (hcons : ∀ a as, walk (a :: as) ↔ p a ∧ walk as) (as : List α) :
    walk as ↔ ∀ a ∈ as, p a := by
  induction as with
  | nil => simp [hnil]
  | cons a as ih => simp [hcons, ih]

theorem walk_eq_true {walk : List α → Bool} {p : α → Bool} (hnil : walk [] = true)
    (hcons : ∀ a as, walk (a :: as) = (p a && walk as)) (as : List α) :
    walk as = true ↔ ∀ a ∈ as, p a = true := by
  induction as with
  | nil => simp [hnil]
  | cons a as ih => simp [hcons, ih]

end Walk

end TraitCalculus
