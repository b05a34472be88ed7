import Urutau.GuardedRun
import Urutau.IcebergTable
import Urutau.Positions

/-!
# A staged cycle lands once

A staged cycle is committed to the catalog by a loop: load the table, stop if the cycle's
marker is there, stage a row delta with the cycle's files, and commit it together with the
properties.  An error that may be transient starts the loop over, a limited number of
times.  The catalog can apply a commit and report an error all the same; the marker, in the
table's properties and in the summary, is how the next attempt finds out.

Meanwhile maintenance commits snapshots and anyone sets properties, neither with the
marker.  The library may put a staged commit behind a head that has moved since it was
loaded, so a commit is applied here to the table as it is then.  A coordinator that failed,
or was killed, commits the same cycle again.
-/

namespace Urutau

open List Option Runs

/-- A cycle with files, no two of one path. -/
structure StagedCycle (F P : Type) where
  deletes : List F
  appends : List F
  position : Option P
  snapshotState : Option String
  snapshotPending : Option (List Nat)
  some_file : deletes ++ appends ≠ []
  paths : (deletes ++ appends).Nodup

namespace StagedCycle

variable {F P : Type} (cy : StagedCycle F P)

def files : List F := cy.deletes ++ cy.appends

/-- `cycleKey`: the paths and the position, collisions of the hash apart. -/
def cycleKey : List F × Option P := (cy.files, cy.position)

/-- The properties of the commit. -/
def commitProps : CommitProps P (List F × Option P) :=
  ⟨cy.position, some cy.cycleKey, cy.snapshotState, cy.snapshotPending⟩

end StagedCycle

/-- What the catalog or the library answers. -/
inductive Answer
  | ok
  | retryable
  | terminal
  deriving DecidableEq, Repr

/-- Where a call of `commitStaged` stands: before the load of an attempt, or with the cycle
staged on the table loaded. -/
inductive CommitPhase
  | idle
  | loading (attempt : Nat)
  | staging (attempt : Nat)
  | committing (attempt : Nat)
  | returned (success : Bool)
  deriving DecidableEq, Repr

/-- The table and the call. -/
structure Landing (F P : Type) where
  table : IcebergTable F P (List F × Option P)
  phase : CommitPhase
  deriving DecidableEq, Repr

/-- The steps of the call, of the catalog and of others. -/
inductive LandingAct (F P : Type)
  | call
  | load (answer : Answer)
  | stage (answer : Answer)
  | commit (applied : Bool) (answer : Answer)
  | cancel
  | crash (applied : Bool)
  | maintain (summary : CommitProps P (List F × Option P)) (files : List F)
  | setProperties (p : CommitProps P (List F × Option P))
  deriving DecidableEq, Repr

namespace Landing

variable {F P : Type} [DecidableEq F] [DecidableEq P]

/-- The loop is entered. -/
def start (tries : Nat) : CommitPhase := if 0 < tries then .loading 0 else .returned false

/-- The loop goes on or gives up. -/
def retry (tries attempt : Nat) : Answer → CommitPhase
  | .terminal => .returned false
  | _ => if attempt + 1 < tries then .loading (attempt + 1) else .returned false

/-- The commit is applied, or not. -/
def applyIf (cy : StagedCycle F P) (applied : Bool)
    (t : IcebergTable F P (List F × Option P)) : IcebergTable F P (List F × Option P) :=
  if applied then t.commit cy.commitProps cy.files else t

/-- One step; `tries` is the limit of attempts.  An answer `ok` to a commit means that it was
applied. -/
def step (tries : Nat) (cy : StagedCycle F P) (s : Landing F P) :
    LandingAct F P → Option (Landing F P)
  | .call =>
    match s.phase with
    | .idle | .returned _ => some { s with phase := start tries }
    | _ => none
  | .load answer =>
    match s.phase with
    | .loading attempt =>
      if answer = .ok then
        some { s with phase :=
          if s.table.cycleCommitted cy.cycleKey then .returned true else .staging attempt }
      else some { s with phase := retry tries attempt answer }
    | _ => none
  | .stage answer =>
    match s.phase with
    | .staging attempt =>
      some { s with phase :=
        if answer = .ok then .committing attempt else retry tries attempt answer }
    | _ => none
  | .commit applied answer =>
    match s.phase with
    | .committing attempt =>
      if answer = .ok then
        if applied then some ⟨applyIf cy true s.table, .returned true⟩ else none
      else some ⟨applyIf cy applied s.table, retry tries attempt answer⟩
    | _ => none
  | .cancel =>
    match s.phase with
    | .loading (_ + 1) => some { s with phase := .returned false }
    | _ => none
  | .crash applied =>
    match s.phase with
    | .committing _ => some ⟨applyIf cy applied s.table, .idle⟩
    | _ => some { s with phase := .idle }
  | .maintain summary files =>
    if summary.cycle.isNone ∧ ∀ f ∈ files, f ∉ cy.files then
      some { s with table := s.table.addSnapshot summary files }
    else none
  | .setProperties p =>
    if p.cycle.isNone then some { s with table := s.table.setProperties p } else none

/-- The snapshots of the cycle. -/
def landed (cy : StagedCycle F P) (t : IcebergTable F P (List F × Option P)) :
    List (TableSnapshot F P (List F × Option P)) :=
  t.snapshots.filter fun snap => snap.summary.cycle = some cy.cycleKey

/-- How often the table's snapshots add a file. -/
def timesAdded (t : IcebergTable F P (List F × Option P)) (f : F) : Nat :=
  (t.snapshots.flatMap TableSnapshot.added).count f

variable {cy : StagedCycle F P} {t : IcebergTable F P (List F × Option P)}

/-- **Once.**  The marker is on the table exactly when the cycle has landed, it has landed
once at most, with its files, position and progress, and its files are in no other
snapshot. -/
structure Once (cy : StagedCycle F P) (t : IcebergTable F P (List F × Option P)) : Prop where
  marker : t.props.cycle = some cy.cycleKey ↔ landed cy t ≠ []
  once : (landed cy t).length ≤ 1
  content : ∀ snap ∈ landed cy t, snap.summary = cy.commitProps ∧ snap.added = cy.files
  added : ∀ f ∈ cy.files, timesAdded t f = (landed cy t).length

variable {summary : CommitProps P (List F × Option P)}

/-- Another commit does not land the cycle. -/
theorem landed_addSnapshot (cy : StagedCycle F P) (t : IcebergTable F P (List F × Option P))
    (hcycle : summary.cycle = none) (files : List F) :
    landed cy (t.addSnapshot summary files) = landed cy t := by
  unfold landed IcebergTable.addSnapshot
  simp [hcycle]

/-- Another commit adds none of the cycle's files. -/
theorem Once.addSnapshot (h : Once cy t)
    {files : List F} (hcycle : summary.cycle = none) (hfiles : ∀ f ∈ files, f ∉ cy.files) :
    Once cy (t.addSnapshot summary files) := by
  have hlanded := landed_addSnapshot cy t hcycle files
  refine ⟨by rw [hlanded]; exact h.marker, by rw [hlanded]; exact h.once,
    by rw [hlanded]; exact h.content, fun f hf => ?_⟩
  rw [hlanded, ← h.added f hf]
  have hzero : files.count f = 0 := count_eq_zero.mpr fun hmem => hfiles f hmem hf
  simp [timesAdded, IcebergTable.addSnapshot, hzero]

theorem Once.setProperties (h : Once cy t) {p : CommitProps P (List F × Option P)}
    (hcycle : p.cycle = none) : Once cy (t.setProperties p) := by
  refine ⟨?_, h.once, h.content, h.added⟩
  change p.cycle.or t.props.cycle = _ ↔ _
  rw [hcycle]
  exact h.marker

/-- The cycle's commit lands it. -/
theorem landed_commit (cy : StagedCycle F P) (t : IcebergTable F P (List F × Option P)) :
    landed cy (t.commit cy.commitProps cy.files) =
    ⟨t.nextId, t.head, cy.commitProps, cy.files⟩ :: landed cy t := by
  have hsome : cy.files.isEmpty = false := isEmpty_eq_false_iff.mpr cy.some_file
  rw [IcebergTable.commit, hsome]
  exact filter_cons_of_pos (decide_eq_true rfl)

/-- The cycle lands on a table it has not landed on. -/
theorem Once.commit (h : Once cy t) (hnone : landed cy t = []) :
    Once cy (t.commit cy.commitProps cy.files) := by
  have hlanded := landed_commit cy t
  rw [hnone] at hlanded
  have hsome : cy.files.isEmpty = false := isEmpty_eq_false_iff.mpr cy.some_file
  refine ⟨?_, by simp [hlanded], fun snap hsnap => ?_, fun f hf => ?_⟩
  · simp only [hlanded, ne_eq, cons_ne_self, not_false_eq_true, iff_true]
    rfl
  · rw [hlanded] at hsnap
    cases mem_singleton.mp hsnap
    exact ⟨rfl, rfl⟩
  · have hold : timesAdded t f = 0 := by rw [h.added f hf, hnone]; rfl
    have hone : cy.files.count f = 1 := count_eq_one_of_mem cy.paths hf
    rw [hlanded]
    unfold timesAdded at hold ⊢
    rw [IcebergTable.commit, hsome]
    simp [IcebergTable.addSnapshot, IcebergTable.setProperties, hold, hone]

/-- The marker is found exactly when the cycle has landed. -/
theorem Once.cycleCommitted_iff (h : Once cy t) :
    t.cycleCommitted cy.cycleKey = true ↔ landed cy t ≠ [] := by
  rw [IcebergTable.cycleCommitted_iff, ← h.marker]
  refine ⟨fun hmark => ?_, .inl⟩
  rcases hmark with hmark | ⟨snap, hsnap, hsum⟩
  · exact hmark
  · refine h.marker.mpr (ne_nil_of_mem (mem_filter.mpr ⟨?_, decide_eq_true hsum⟩))
    exact IcebergTable.mem_of_mem_currentSnapshot hsnap

/-! ## The call -/

/-- **The invariant.**  A staged cycle has not landed, a successful call's has. -/
structure Standing (cy : StagedCycle F P) (s : Landing F P) : Prop where
  once : Once cy s.table
  staging : ∀ attempt, s.phase = .staging attempt → landed cy s.table = []
  committing : ∀ attempt, s.phase = .committing attempt → landed cy s.table = []
  success : s.phase = .returned true → landed cy s.table ≠ []

/-- A phase that says nothing of the table. -/
theorem Standing.of_plain {s : Landing F P} (h : Once cy s.table)
    (hplain : (s.phase = .idle ∨ ∃ n, s.phase = .loading n) ∨ s.phase = .returned false) :
    Standing cy s := by
  refine ⟨h, fun n hn => ?_, fun n hn => ?_, fun hn => ?_⟩ <;>
    rw [hn] at hplain <;> simp at hplain

theorem start_plain (tries : Nat) :
    (start tries = .idle ∨ ∃ n, start tries = .loading n) ∨ start tries = .returned false := by
  unfold start
  split
  · exact .inl (.inr ⟨0, rfl⟩)
  · exact .inr rfl

theorem retry_plain (tries attempt : Nat) (answer : Answer) :
    (retry tries attempt answer = .idle ∨ ∃ n, retry tries attempt answer = .loading n) ∨
      retry tries attempt answer = .returned false := by
  unfold retry
  split
  · exact .inr rfl
  · split
    · exact .inl (.inr ⟨_, rfl⟩)
    · exact .inr rfl

/-- A cycle that has not landed may be committed. -/
theorem Once.applyIf (h : Once cy t) (hnone : landed cy t = []) (applied : Bool) :
    Once cy (applyIf cy applied t) := by
  unfold Landing.applyIf
  split
  · exact h.commit hnone
  · exact h

variable {tries : Nat} {s s' : Landing F P}

/-- A step keeps that, and the snapshots of the cycle that are there. -/
theorem Standing.step (h : Standing cy s) {a : LandingAct F P}
    (hs : Landing.step tries cy s a = some s') :
    Standing cy s' ∧ landed cy s.table <:+ landed cy s'.table := by
  cases a with
  | call =>
    simp only [Landing.step] at hs
    split at hs
    · cases hs
      exact ⟨.of_plain h.once (start_plain tries), suffix_refl _⟩
    · cases hs
      exact ⟨.of_plain h.once (start_plain tries), suffix_refl _⟩
    · cases hs
  | load answer =>
    simp only [Landing.step] at hs
    split at hs
    · split at hs
      · -- the marker decides
        cases hs
        refine ⟨?_, suffix_refl _⟩
        by_cases hmark : s.table.cycleCommitted cy.cycleKey = true
        · refine ⟨h.once, fun n hn => ?_, fun n hn => ?_, fun _ => ?_⟩
          · simp [hmark] at hn
          · simp [hmark] at hn
          · exact h.once.cycleCommitted_iff.mp hmark
        · have hnone : landed cy s.table = [] :=
            not_not.mp fun hne => hmark (h.once.cycleCommitted_iff.mpr hne)
          refine ⟨h.once, fun _ _ => hnone, fun _ _ => hnone, fun hn => ?_⟩
          simp [hmark] at hn
      · cases hs
        exact ⟨.of_plain h.once (retry_plain _ _ _), suffix_refl _⟩
    · cases hs
  | stage answer =>
    simp only [Landing.step] at hs
    split at hs
    · rename_i attempt hphase
      cases hs
      refine ⟨?_, suffix_refl _⟩
      by_cases hok : answer = .ok
      · have hnone := h.staging attempt hphase
        refine ⟨h.once, fun _ _ => hnone, fun _ _ => hnone, fun hn => ?_⟩
        simp [hok] at hn
      · refine .of_plain h.once ?_
        rw [if_neg hok]
        exact retry_plain _ _ _
    · cases hs
  | commit applied answer =>
    simp only [Landing.step] at hs
    split at hs
    · rename_i attempt hphase
      have hnone := h.committing attempt hphase
      have hsuffix : ∀ xs, landed cy s.table <:+ xs := fun _ => hnone ▸ nil_suffix
      split at hs
      · split at hs
        · cases hs
          refine ⟨⟨h.once.commit hnone, nofun, nofun, fun _ => ?_⟩, hsuffix _⟩
          · change landed cy (s.table.commit cy.commitProps cy.files) ≠ []
            rw [landed_commit]
            exact cons_ne_nil _ _
        · cases hs
      · cases hs
        exact ⟨.of_plain (h.once.applyIf hnone applied) (retry_plain _ _ _), hsuffix _⟩
    · cases hs
  | cancel =>
    simp only [Landing.step] at hs
    split at hs
    · cases hs
      exact ⟨.of_plain h.once (.inr rfl), suffix_refl _⟩
    · cases hs
  | crash applied =>
    simp only [Landing.step] at hs
    split at hs
    · rename_i attempt hphase
      cases hs
      have hnone := h.committing attempt hphase
      exact ⟨.of_plain (h.once.applyIf hnone applied) (.inl (.inl rfl)), hnone ▸ nil_suffix⟩
    · cases hs
      exact ⟨.of_plain h.once (.inl (.inl rfl)), suffix_refl _⟩
  | maintain summary files =>
    obtain ⟨⟨hcycle, hfiles⟩, hs⟩ := ite_none_right_eq_some.mp hs
    cases hs
    have hcycle := isNone_iff_eq_none.mp hcycle
    have hlanded := landed_addSnapshot cy s.table hcycle files
    refine ⟨⟨h.once.addSnapshot hcycle hfiles, fun n hn => hlanded.trans (h.staging n hn),
      fun n hn => hlanded.trans (h.committing n hn), fun hn => hlanded ▸ h.success hn⟩, ?_⟩
    exact hlanded ▸ suffix_refl _
  | setProperties p =>
    obtain ⟨hcycle, hs⟩ := ite_none_right_eq_some.mp hs
    cases hs
    exact ⟨⟨h.once.setProperties (isNone_iff_eq_none.mp hcycle), h.staging, h.committing,
      h.success⟩,
      suffix_refl _⟩

end Landing

end Urutau
