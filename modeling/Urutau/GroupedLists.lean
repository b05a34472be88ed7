import Mathlib

/-!
# Lists grouped by a key

A list is grouped when the elements of each key stand together.  A key that is found on both sides
of a cut is then the key of the elements at the cut.
-/

namespace Groups

open List

variable {α κ : Type} {key : α → κ}

/-- Elements of one key stand together: what has a key again later has it next. -/
def Grouped (key : α → κ) : List α → Prop
  | [] => True
  | x :: l => (∀ y ∈ l, key y = key x → ∀ z ∈ l.head?, key z = key x) ∧ Grouped key l

variable {l m : List α}

theorem grouped_of_const (h : ∀ x ∈ l, ∀ y ∈ l, key y = key x) : Grouped key l := by
  induction l with
  | nil => trivial
  | cons x l ih =>
    refine ⟨fun _ _ _ z hz => ?_, ih fun y hy z hz => ?_⟩
    · exact h x mem_cons_self z (mem_cons_of_mem _ (mem_of_mem_head? hz))
    · exact h y (mem_cons_of_mem _ hy) z (mem_cons_of_mem _ hz)

theorem Grouped.append (hl : Grouped key l) (hm : Grouped key m)
    (hapart : ∀ x ∈ l, ∀ y ∈ m, key y ≠ key x) : Grouped key (l ++ m) := by
  induction l with
  | nil => exact hm
  | cons x l ih =>
    refine ⟨fun y hy heq => ?_, ih hl.2 fun x hx => hapart x (mem_cons_of_mem _ hx)⟩
    rcases mem_append.mp hy with hy | hy
    · have hhead := hl.1 y hy heq
      cases l with
      | nil => cases hy
      | cons z l => exact hhead
    · exact absurd heq (hapart x mem_cons_self y hy)

theorem Grouped.of_append (h : Grouped key (l ++ m)) : Grouped key m := by
  induction l with
  | nil => exact h
  | cons x l ih => exact ih h.2

/-- A key found on both sides of a cut is the key at the cut. -/
theorem Grouped.at_cut {run rest : List α} {d c last : α} (h : Grouped key (run ++ rest))
    (hc : c ∈ run) (hd : d ∈ rest) (heq : key d = key c) (hlast : run.getLast? = some last) :
    key last = key c ∧ ∀ z ∈ rest.head?, key z = key c := by
  induction run generalizing c with
  | nil => cases hc
  | cons x run ih =>
    cases run with
    | nil =>
      obtain rfl := mem_singleton.mp hc
      cases hlast
      exact ⟨rfl, h.1 d hd heq⟩
    | cons y run =>
      rcases mem_cons.mp hc with rfl | hc
      · have hy : key y = key c := h.1 d (mem_append_right _ hd) heq y rfl
        obtain ⟨hlast, hhead⟩ := ih h.2 mem_cons_self (heq.trans hy.symm) hlast
        exact ⟨hlast.trans hy, fun z hz => (hhead z hz).trans hy⟩
      · exact ih h.2 hc heq hlast

end Groups
