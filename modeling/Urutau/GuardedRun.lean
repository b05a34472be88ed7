import Mathlib

/-!
# Runs of a machine under a guard

A machine is a step function that may refuse an action.  A run is a list of
actions, every one of which was accepted; it is guarded when each action also
met a condition on the state it was taken in.  The one rule proved here turns
a step that keeps an invariant under the guard into a run that does.
-/

namespace Runs

open List

variable {S A : Type*} (step : S → A → Option S) (ok : S → A → Prop)

/-- Run a list of actions from a state. -/
def run : S → List A → Option S
  | s, [] => some s
  | s, a :: rest =>
    match step s a with
    | none => none
    | some s' => run s' rest

/-- Every action of the list meets the guard in the state it is taken in. -/
def Guarded : S → List A → Prop
  | _, [] => True
  | s, a :: rest =>
    ok s a ∧ match step s a with
      | none => True
      | some s' => Guarded s' rest

instance decidableGuarded [∀ s a, Decidable (ok s a)] :
    ∀ s actions, Decidable (Guarded step ok s actions)
  | _, [] => inferInstanceAs (Decidable True)
  | s, a :: rest =>
    match h : step s a with
    | none => decidable_of_iff (ok s a) (by simp [Guarded, h])
    | some s' =>
      haveI := decidableGuarded s' rest
      decidable_of_iff (ok s a ∧ Guarded step ok s' rest) (by simp [Guarded, h])

variable {step ok}

theorem run_cons {s s' : S} {a : A} {rest : List A} (h : step s a = some s') :
    run step s (a :: rest) = run step s' rest := by
  simp only [run, h]

variable {actions : List A} {s t : S}

section Evaluated

variable {p q : S → Prop} [DecidablePred p]
  (h : ((run step s actions).any fun t => decide (p t)) = true)
include h

/-- A run that can be evaluated ends in a state with what is seen of it. -/
theorem exists_run : ∃ t, run step s actions = some t ∧ p t := by
  obtain ⟨t, ht, hp⟩ := (Option.any_eq_true _ _).mp h
  exact ⟨t, ht, of_decide_eq_true hp⟩

/-- The state has what follows from what is seen of it. -/
theorem exists_run_of (hq : ∀ t, run step s actions = some t → p t → q t) :
    ∃ t, run step s actions = some t ∧ q t := by
  obtain ⟨t, ht, hp⟩ := exists_run h
  exact ⟨t, ht, hq t ht hp⟩

/-- The same beside what is seen. -/
theorem exists_run_and (hq : ∀ t, run step s actions = some t → p t → q t) :
    ∃ t, run step s actions = some t ∧ p t ∧ q t :=
  exists_run_of h fun t ht hp => ⟨hp, hq t ht hp⟩

end Evaluated

/-- Two guards may be joined. -/
theorem Guarded.and {ok' : S → A → Prop} (hok : Guarded step ok s actions)
    (hok' : Guarded step ok' s actions) :
    Guarded step (fun s a => ok s a ∧ ok' s a) s actions := by
  induction actions generalizing s with
  | nil => trivial
  | cons a rest ih =>
    simp only [Guarded] at hok hok' ⊢
    refine ⟨⟨hok.1, hok'.1⟩, ?_⟩
    cases hnext : step s a with
    | none => trivial
    | some s' =>
      simp only [hnext] at hok hok'
      exact ih hok.2 hok'.2

/-- A run is guarded when its actions are fine in every state. -/
theorem guarded_of_forall (h : ∀ s, ∀ a ∈ actions, ok s a) : Guarded step ok s actions := by
  induction actions generalizing s with
  | nil => trivial
  | cons a rest ih =>
    refine ⟨h s a mem_cons_self, ?_⟩
    cases step s a with
    | none => trivial
    | some s' => exact ih fun t b hb => h t b (mem_cons_of_mem a hb)

/-- **The invariant rule.**  What a guarded step keeps, a guarded run keeps. -/
theorem invariant_of_guarded (inv : S → Prop)
    (hstep : ∀ s a s', inv s → ok s a → step s a = some s' → inv s') (hs : inv s)
    (hrun : run step s actions = some t) (hok : Guarded step ok s actions) : inv t := by
  induction actions generalizing s with
  | nil =>
    cases hrun
    exact hs
  | cons a rest ih =>
    simp only [run] at hrun
    simp only [Guarded] at hok
    cases hnext : step s a with
    | none => simp [hnext] at hrun
    | some s' =>
      simp only [hnext] at hrun hok
      exact ih (hstep s a s' hs hok.1 hnext) hrun hok.2

/-- What every step keeps, a run keeps. -/
theorem invariant_of_run (inv : S → Prop) (hstep : ∀ s a s', inv s → step s a = some s' → inv s')
    (hs : inv s) (hrun : run step s actions = some t) : inv t :=
  invariant_of_guarded inv (fun s a s' hs _ => hstep s a s' hs) hs hrun
    (guarded_of_forall fun _ _ _ => trivial)

/-- The states that runs lead to. -/
def Reachable (step : S → A → Option S) (s : S) := {t // ∃ actions, run step s actions = some t}

theorem Reachable.keeps {p : S → Prop} (t : Reachable step s) (hs : p s)
    (hstep : ∀ s a s', p s → step s a = some s' → p s') : p t.1 := by
  obtain ⟨t, actions, hrun⟩ := t
  exact invariant_of_run p hstep hs hrun

/-- Where a step that meets `pre` meets the guard exactly when it keeps a property, a run
whose steps meet `pre` is guarded exactly when the property holds all along it. -/
theorem guarded_iff_always_of {pre : S → A → Prop} (inv good : S → Prop)
    (hinv : ∀ s a s', inv s → pre s a → step s a = some s' → inv s')
    (hstep : ∀ s a s', inv s → good s → pre s a → step s a = some s' → (ok s a ↔ good s'))
    (hs : inv s) (hgood : good s) (hrun : run step s actions = some t)
    (hpre : Guarded step pre s actions) :
    Guarded step ok s actions ↔
      ∀ before u, before <+: actions → run step s before = some u → good u := by
  induction actions generalizing s with
  | nil =>
    refine ⟨fun _ before u hbefore hu => ?_, fun _ => trivial⟩
    cases prefix_nil.mp hbefore
    cases hu
    exact hgood
  | cons a rest ih =>
    simp only [run] at hrun
    simp only [Guarded] at hpre
    cases hnext : step s a with
    | none => simp [hnext] at hrun
    | some s' =>
      simp only [hnext] at hrun hpre
      have hkeep := hstep s a s' hs hgood hpre.1 hnext
      have hinv' := hinv s a s' hs hpre.1 hnext
      simp only [Guarded, hnext]
      refine ⟨fun ⟨hok, hguarded⟩ before u hbefore hu => ?_, fun hall => ?_⟩
      · cases before with
        | nil =>
          cases hu
          exact hgood
        | cons b more =>
          obtain ⟨rfl, hmore⟩ := cons_prefix_cons.mp hbefore
          simp only [run, hnext] at hu
          exact (ih hinv' (hkeep.mp hok) hrun hpre.2).mp hguarded more u hmore hu
      · have hgood' : good s' := by
          refine hall [a] s' (cons_prefix_cons.mpr ⟨rfl, nil_prefix⟩) ?_
          simp only [run, hnext]
        refine ⟨hkeep.mpr hgood', (ih hinv' hgood' hrun hpre.2).mpr ?_⟩
        intro before u hbefore hu
        refine hall (a :: before) u (cons_prefix_cons.mpr ⟨rfl, hbefore⟩) ?_
        simp only [run, hnext]
        exact hu

/-- The same for steps that meet the guard exactly when they keep the property. -/
theorem guarded_iff_always (inv good : S → Prop)
    (hinv : ∀ s a s', inv s → step s a = some s' → inv s')
    (hstep : ∀ s a s', inv s → good s → step s a = some s' → (ok s a ↔ good s')) (hs : inv s)
    (hgood : good s) (hrun : run step s actions = some t) :
    Guarded step ok s actions ↔
      ∀ before u, before <+: actions → run step s before = some u → good u :=
  guarded_iff_always_of inv good (fun s a s' h _ => hinv s a s' h)
    (fun s a s' h hg _ => hstep s a s' h hg) hs hgood hrun (guarded_of_forall fun _ _ _ => trivial)

/-! ## Histories -/

section Histories

variable {α : Type*} {past : List α} {x : α}

/-- A history that grows by one entry. -/
theorem forall_mem_concat {p : α → Prop} : (∀ y ∈ past ++ [x], p y) ↔ (∀ y ∈ past, p y) ∧ p x := by
  rw [forall_mem_append, forall_mem_singleton]

theorem pairwise_concat {R : α → α → Prop} :
    (past ++ [x]).Pairwise R ↔ past.Pairwise R ∧ ∀ y ∈ past, R y x := by
  simp [pairwise_append]

end Histories

end Runs
