import Mathlib

/-!
# Association lists

A map held as a list of pairs with distinct keys: looking a key up finds the pair that is
there.
-/

namespace AssocLists

open List

variable {K V : Type*} [BEq K] [LawfulBEq K]

variable {l : List (K × V)}

theorem mem_of_lookup {k : K} {v : V} (h : l.lookup k = some v) : (k, v) ∈ l := by
  obtain ⟨before, after, hsplit, -⟩ := lookup_eq_some_iff.mp h
  rw [hsplit]
  exact mem_append_right _ mem_cons_self

theorem lookup_of_mem (hdistinct : (l.map Prod.fst).Nodup) {e : K × V}
    (he : e ∈ l) : l.lookup e.1 = some e.2 := by
  induction l with
  | nil => exact (not_mem_nil he).elim
  | cons head rest ih =>
    obtain ⟨hnew, hrest⟩ := nodup_cons.mp hdistinct
    rcases mem_cons.mp he with rfl | hin
    · rw [lookup_cons, beq_self_eq_true]
    · have hne : e.1 ≠ head.1 := fun heq => hnew (heq ▸ mem_map_of_mem hin)
      rw [lookup_cons, beq_false_of_ne hne]
      exact ih hrest hin

/-- A key's entry is written over. -/
def put : List (K × V) → K → V → List (K × V)
  | [], k, v => [(k, v)]
  | e :: rest, k, v => if e.1 == k then (k, v) :: rest else e :: put rest k v

omit [LawfulBEq K] in
theorem lookup_cons_ite (e : K × V) (l : List (K × V)) (k : K) :
    (e :: l).lookup k = if k == e.1 then some e.2 else l.lookup k := by
  rw [lookup_cons]
  cases k == e.1 <;> rfl

theorem lookup_put (l : List (K × V)) (k k' : K) (v : V) :
    (put l k v).lookup k' = if k' == k then some v else l.lookup k' := by
  induction l with
  | nil => exact lookup_cons_ite (k, v) [] k'
  | cons e rest ih =>
    unfold put
    by_cases he : e.1 = k
    · simp only [he, beq_self_eq_true, if_true, lookup_cons_ite]
      split <;> rfl
    · rw [if_neg (by simpa using he), lookup_cons_ite, lookup_cons_ite, ih]
      by_cases hk : k' = k
      · simp [hk, Ne.symm he]
      · simp [hk]

variable {W X : Type*}

/-- The keys both lists name, with their values combined. -/
def joinWith (f : V → W → X) (l : List (K × V)) (r : List (K × W)) : List (K × X) :=
  l.filterMap fun e => (r.lookup e.1).map fun w => (e.1, f e.2 w)

theorem lookup_joinWith (f : V → W → X) (l : List (K × V)) (r : List (K × W)) (k : K) :
    (joinWith f l r).lookup k = (l.lookup k).bind fun v => (r.lookup k).map (f v) := by
  induction l with
  | nil => rfl
  | cons e rest ih =>
    unfold joinWith at ih ⊢
    rw [lookup_cons_ite e]
    by_cases hk : k = e.1
    · subst hk
      -- a key the other list does not name is dropped wherever it stands
      cases hr : r.lookup e.1 with
      | none => simp [hr, ih]
      | some w => simp [hr]
    · have hne : (k == e.1) = false := beq_false_of_ne hk
      cases hr : r.lookup e.1 with
      | none => simp [hr, hne, ih]
      | some w => simp [hr, hne, lookup_cons_ite, ih]

omit [LawfulBEq K] in
theorem keys_joinWith (f : V → W → X) (l : List (K × V)) (r : List (K × W)) :
    List.Sublist ((joinWith f l r).map Prod.fst) (l.map Prod.fst) := by
  induction l with
  | nil => exact .refl _
  | cons e rest ih =>
    unfold joinWith at ih ⊢
    cases hr : r.lookup e.1 with
    | none => simpa [hr] using ih.cons e.1
    | some w => simpa [hr] using ih.cons_cons e.1

end AssocLists
