import Mathlib

/-!
# Maps changed at one key

A map is changed at one key: a list grows at its end, loses its head or is
emptied, an optional entry is set.  What stands at any key afterwards stood
there, or is what was put.
-/

namespace Urutau

namespace Updates

open List

open Function (update update_self update_of_ne)

variable {K α : Type} [DecidableEq K] {k t : K} {x v : α}

section Lists

variable {m : K → List α} {rest : List α}

theorem update_append (m : K → List α) (k t : K) (l : List α) :
    update m k (m k ++ l) t = m t ++ if k = t then l else [] := by
  by_cases ht : t = k
  · simp [ht]
  · simp [ht, Ne.symm ht]

theorem mem_update_append : x ∈ update m k (m k ++ [v]) t ↔ x ∈ m t ∨ t = k ∧ x = v := by
  by_cases ht : t = k
  · subst ht
    simp
  · simp [ht]

/-- A list that is emptied stands ahead of what is left. -/
theorem append_emptied (m : K → List α) (k t : K) :
    (if k = t then m k else []) ++ update m k [] t = m t := by
  by_cases ht : t = k
  · simp [ht]
  · simp [ht, Ne.symm ht]

/-- Emptying a list keeps the empty ones empty. -/
theorem update_nil_of_nil (ht : m t = []) : update m k [] t = [] := by
  by_cases heq : t = k
  · exact heq ▸ update_self _ _ _
  · exact (update_of_ne heq _ _).trans ht

/-- A list has lost its head. -/
theorem update_tail_sublist (hm : m k = v :: rest) (t : K) :
    List.Sublist (update m k rest t) (m t) := by
  by_cases ht : t = k
  · subst ht
    rw [update_self, hm]
    exact sublist_cons_self v rest
  · rw [update_of_ne ht]

theorem mem_update_tail_or (hm : m k = v :: rest) (hx : x ∈ m t) :
    x ∈ update m k rest t ∨ t = k ∧ x = v := by
  by_cases ht : t = k
  · subst ht
    rw [update_self]
    rw [hm] at hx
    exact (mem_cons.mp hx).symm.imp_right fun heq => ⟨rfl, heq⟩
  · exact .inl ((update_of_ne ht rest m).symm ▸ hx)

/-- An order kept by every list is kept by one with what comes last. -/
theorem pairwise_update_append {R : α → α → Prop} (hm : ∀ t, (m t).Pairwise R)
    (hv : ∀ x ∈ m k, R x v) (t : K) : (update m k (m k ++ [v]) t).Pairwise R := by
  by_cases ht : t = k
  · subst ht
    rw [update_self]
    exact pairwise_append.mpr ⟨hm t, pairwise_singleton _ _, fun x hx y hy =>
      mem_singleton.mp hy ▸ hv x hx⟩
  · rw [update_of_ne ht]
    exact hm t

end Lists

theorem update_eq_some {m : K → Option α} {o : Option α} (h : update m k o t = some x) :
    t = k ∧ o = some x ∨ m t = some x := by
  by_cases ht : t = k
  · subst ht
    exact .inl ⟨rfl, (update_self t o m).symm.trans h⟩
  · exact .inr ((update_of_ne ht o m).symm.trans h)

end Updates

end Urutau
