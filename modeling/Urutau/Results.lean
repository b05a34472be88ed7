import Mathlib

/-!
# Lists of results

A computation that may fail is read off one step at a time: a sequence of two succeeds
when both do, and a list is mapped when every entry is.
-/

namespace Results

variable {α β γ ε : Type}

variable {f : α → Except ε β} {b : β} {x : Except ε α}

/-- A list is mapped when each entry is. -/
theorem mapM_eq_ok {xs : List α} {ys : List β} :
    xs.mapM f = .ok ys ↔ List.Forall₂ (fun x y => f x = .ok y) xs ys := by
  induction xs generalizing ys with
  | nil =>
    rw [List.mapM_nil, List.forall₂_nil_left_iff]
    exact ⟨fun h => (Except.ok.inj h).symm, fun h => congrArg _ h.symm⟩
  | cons x rest ih =>
    rw [List.mapM_cons]
    cases hx : f x with
    | error e =>
      refine ⟨nofun, fun h => ?_⟩
      obtain ⟨y, more, hy, -, rfl⟩ := List.forall₂_cons_left_iff.mp h
      rw [hx] at hy
      cases hy
    | ok y =>
      cases hrest : rest.mapM f with
      | error e =>
        refine ⟨nofun, fun h => ?_⟩
        obtain ⟨y', more, -, hmore, rfl⟩ := List.forall₂_cons_left_iff.mp h
        rw [ih.mpr hmore] at hrest
        cases hrest
      | ok more =>
        refine ⟨fun h => ?_, fun h => ?_⟩
        · cases h
          exact .cons hx (ih.mp hrest)
        obtain ⟨y', more', hy, hmore, rfl⟩ := List.forall₂_cons_left_iff.mp h
        rw [ih.mpr hmore] at hrest
        rw [hx] at hy
        cases hrest
        cases hy
        rfl

/-- Two lists related through a third. -/
theorem forall₂_through {R : α → β → Prop} {S : β → γ → Prop} {T : α → γ → Prop}
    (hrel : ∀ a b c, R a b → S b c → T a c) {as : List α} {bs : List β} {cs : List γ}
    (hab : List.Forall₂ R as bs) (hbc : List.Forall₂ S bs cs) : List.Forall₂ T as cs := by
  induction hab generalizing cs with
  | nil =>
    cases hbc
    exact .nil
  | cons hr _ ih =>
    cases hbc with
    | cons hs hrest => exact .cons (hrel _ _ _ hr hs) (ih hrest)

/-- Two steps succeed when both do. -/
theorem bind_eq_ok : x.bind f = .ok b ↔ ∃ a, x = .ok a ∧ f a = .ok b := by
  cases x with
  | error e => exact ⟨nofun, fun ⟨_, h, _⟩ => (nomatch h)⟩
  | ok a => exact ⟨fun h => ⟨a, rfl, h⟩, fun ⟨_, ha, h⟩ => by cases ha; exact h⟩

end Results
