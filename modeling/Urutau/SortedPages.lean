import Mathlib

/-!
# Pages of a sorted list

A list in strictly ascending order of a measure, and its first `n` elements: where the page
ends, what stands behind it, and how many elements a bound lets in front of it.
-/

namespace SortedPages

variable {α β : Type*} [LinearOrder β] {f : α → β} {l : List α}

/-- The list ascends strictly under the measure. -/
def Ascending (f : α → β) (l : List α) : Prop := l.Pairwise fun x y => f x < f y

section Pages

variable (h : Ascending f l)

include h

theorem Ascending.filter (p : α → Bool) : Ascending f (l.filter p) :=
  List.Pairwise.sublist List.filter_sublist h

theorem Ascending.take (n : Nat) : Ascending f (l.take n) :=
  List.Pairwise.sublist (List.take_sublist n l) h

variable {n : Nat} {x y : α} {b : β}

/-- What stands behind a page is larger than what is on it. -/
theorem Ascending.lt_of_mem (hx : x ∈ l.take n) (hy : y ∈ l.drop n) : f x < f y := by
  rw [← List.take_append_drop n l] at h
  exact (List.pairwise_append.mp h).2.2 x hx y hy

/-- A bound cuts the list in two. -/
theorem Ascending.filter_append (b : β) :
    l.filter (fun x => f x ≤ b) ++ l.filter (fun x => b < f x) = l := by
  induction l with
  | nil => rfl
  | cons a rest ih =>
    obtain ⟨hfirst, hrest⟩ := List.pairwise_cons.mp h
    by_cases ha : f a ≤ b
    · rw [List.filter_cons_of_pos (by simpa using ha),
        List.filter_cons_of_neg (by simpa using ha), List.cons_append, ih hrest]
    have hnone : rest.filter (fun x => f x ≤ b) = [] := by
      apply List.filter_eq_nil_iff.mpr
      intro x hx hle
      exact ha ((hfirst x hx).le.trans (of_decide_eq_true hle))
    have hall : rest.filter (fun x => b < f x) = rest := by
      apply List.filter_eq_self.mpr
      intro x hx
      exact decide_eq_true ((not_le.mp ha).trans (hfirst x hx))
    rw [List.filter_cons_of_neg (by simpa using ha),
      List.filter_cons_of_pos (by simpa using ha), hnone, hall, List.nil_append]

end Pages

end SortedPages
