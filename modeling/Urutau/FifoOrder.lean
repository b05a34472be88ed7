import Mathlib

/-!
# Entries of a queue and what stands before them

A first-in first-out queue whose entries each put something out.  A property of
an entry may depend on all that is put out before it: it then holds of the
queue as it is filled at the end and emptied at the front.
-/

namespace Fifo

open List

variable {α β : Type*} (out : β → List α) (P Q : List α → β → Prop)

/-- Every entry has the property, given what was put out before it. -/
def Holds : List α → List β → Prop
  | _, [] => True
  | before, b :: rest => P before b ∧ Holds (before ++ out b) rest

variable {out P Q} {before : List α}

theorem holds_append {xs ys : List β} : Holds out P before (xs ++ ys) ↔
      Holds out P before xs ∧ Holds out P (before ++ xs.flatMap out) ys := by
  induction xs generalizing before with
  | nil => simp [Holds]
  | cons b rest ih =>
    rw [cons_append, Holds, Holds, ih, and_assoc, flatMap_cons, append_assoc]

variable {xs : List β}

/-- An entry joins the queue. -/
theorem Holds.concat {b : β} (h : Holds out P before xs) (hb : P (before ++ xs.flatMap out) b) :
    Holds out P before (xs ++ [b]) :=
  holds_append.mpr ⟨h, hb, trivial⟩

/-- Entries with the property whatever stands before them. -/
theorem holds_of_forall (h : ∀ after, ∀ b ∈ xs, P after b) : Holds out P before xs := by
  induction xs generalizing before with
  | nil => trivial
  | cons b rest ih =>
    exact ⟨h before b mem_cons_self, ih fun after c hc => h after c (mem_cons_of_mem b hc)⟩

/-- What was put out first may be left out of the account when the property does
without it. -/
theorem Holds.shift {first before : List α}
    (hPQ : ∀ after, ∀ b ∈ xs, P (first ++ after) b → Q after b)
    (h : Holds out P (first ++ before) xs) : Holds out Q before xs := by
  induction xs generalizing before with
  | nil => trivial
  | cons b rest ih =>
    refine ⟨hPQ before b mem_cons_self h.1, ih (fun after c hc => ?_) ?_⟩
    · exact hPQ after c (mem_cons_of_mem b hc)
    · rw [← append_assoc]
      exact h.2

theorem Holds.mono (hPQ : ∀ after, ∀ b ∈ xs, P after b → Q after b) (h : Holds out P before xs) :
    Holds out Q before xs := by
  have h : Holds out P ([] ++ before) xs := h
  exact h.shift hPQ

/-- An entry is among the first `n` or stays. -/
theorem mem_take_or_drop {b : β} (n : Nat) (hb : b ∈ xs) : b ∈ xs.take n ∨ b ∈ xs.drop n := by
  rw [← take_append_drop n xs] at hb
  exact mem_append.mp hb

/-- What is done or put out by an entry still is, once the first `n` entries are done. -/
theorem done_or_waits {done : List α} {x : α} {q : Prop} (n : Nat)
    (h : x ∈ done ∨ (∃ b ∈ xs, x ∈ out b) ∨ q) :
    x ∈ done ++ (xs.take n).flatMap out ∨ (∃ b ∈ xs.drop n, x ∈ out b) ∨ q := by
  rcases h with hd | ⟨b, hb, hx⟩ | hq
  · exact .inl (mem_append_left _ hd)
  · rcases mem_take_or_drop n hb with hb | hb
    · exact .inl (mem_append_right _ (mem_flatMap.mpr ⟨b, hb, hx⟩))
    · exact .inr (.inl ⟨b, hb, hx⟩)
  · exact .inr (.inr hq)

/-- In a queue in order, what stays behind the first `n` entries is behind the last of
them. -/
theorem behind_of_mem_drop {R : β → β → Prop} {n : Nat} {last b : β} (hxs : xs.Pairwise R)
    (hlast : (xs.take n).getLast? = some last) (hb : b ∈ xs.drop n) :
    R last b := by
  rw [← take_append_drop n xs] at hxs
  exact (pairwise_append.mp hxs).2.2 last (mem_of_getLast? hlast) b hb

end Fifo
