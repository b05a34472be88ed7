import Mathlib

/-!
# Tables under last-write-wins

A table maps keys to values; a write sets or deletes one key.  Folding a list
of writes leaves at each key what the last write to it said, and the value the
table started with where no write touched it.  These two facts are all that a
comparison of two write sequences needs.
-/

namespace LastWrite

open List

/-- A write to one key: a value, or a deletion. -/
structure Write (K V : Type*) where
  key : K
  value : Option V
  deriving DecidableEq, Repr

/-- A table's contents. -/
abbrev Table (K V : Type*) := K → Option V

variable {K V : Type*} [DecidableEq K]

/-- The table after one write. -/
def apply (t : Table K V) (w : Write K V) : Table K V := fun k => if k = w.key then w.value else t k

/-- The table after a list of writes, the last one to each key winning. -/
def fold (t : Table K V) (ws : List (Write K V)) : Table K V := ws.foldl apply t

theorem fold_append (t : Table K V) (xs ys : List (Write K V)) :
    fold t (xs ++ ys) = fold (fold t xs) ys := by
  simp [fold]

variable {k : K} {t : Table K V}

/-- A key no write touches keeps its value. -/
theorem fold_of_untouched {ws : List (Write K V)}
    (h : ∀ w ∈ ws, w.key ≠ k) : fold t ws k = t k := by
  induction ws generalizing t with
  | nil => rfl
  | cons w rest ih =>
    have hw : k ≠ w.key := fun heq => h w mem_cons_self heq.symm
    have hrest := ih (t := apply t w) (fun x hx => h x (mem_cons_of_mem _ hx))
    rw [fold, foldl_cons]
    rw [fold] at hrest
    rw [hrest, apply, if_neg hw]

end LastWrite
