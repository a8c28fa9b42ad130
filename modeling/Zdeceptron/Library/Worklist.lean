import Mathlib.Data.List.Basic

/-!
# Worklists over a finite domain

What remains to be seen shrinks with every element that is seen for the first time.
-/

namespace Library

section Remaining

variable {α : Type} [DecidableEq α]

/-- The elements of a domain that have not been seen. -/
def remaining (domain seen : List α) : List α :=
  domain.filter (fun x => decide (x ∉ seen))

theorem mem_remaining {domain seen : List α} {x : α} :
    x ∈ remaining domain seen ↔ x ∈ domain ∧ x ∉ seen := by
  simp only [remaining, List.mem_filter, decide_eq_true_eq]

theorem remaining_of_subset {seen next : List α} (h : seen ⊆ next) (domain : List α) :
    remaining domain next = remaining (remaining domain seen) next := by
  unfold remaining
  rw [List.filter_filter]
  refine List.filter_congr (fun x _ => ?_)
  by_cases hx : x ∈ next
  · simp only [hx, not_true_eq_false, decide_false, Bool.false_and]
  · have hseen : x ∉ seen := fun hseen => hx (h hseen)
    simp only [hx, hseen, not_false_eq_true, decide_true, Bool.and_self]

theorem remaining_lt {domain seen next : List α} {x : α} (h : seen ⊆ next)
    (hx : x ∈ domain) (hseen : x ∉ seen) (hnext : x ∈ next) :
    (remaining domain next).length < (remaining domain seen).length := by
  rw [remaining_of_subset h]
  refine List.length_filter_lt_length_iff_exists.mpr ⟨x, mem_remaining.mpr ⟨hx, hseen⟩, ?_⟩
  simp only [hnext, not_true_eq_false, decide_false, Bool.false_eq_true, not_false_eq_true]

end Remaining

end Library
