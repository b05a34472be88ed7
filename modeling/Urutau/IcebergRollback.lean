import Urutau.GuardedRun
import Urutau.IcebergTable
import Urutau.Positions

/-!
# The position of an Iceberg table that is rolled back

At start-up the sink reads the table's property first and walks the branch only when the
property is not set.  A rollback moves the head and leaves the properties, so after one
that passes over a committed position the property is ahead of what the table shows.

Maintenance adds snapshots, a compaction with the position the pipeline stands at, and anyone may
set other properties; a commit of the sink without files sets the property and adds no snapshot, so
it is noted here with the head it was made at.
-/

namespace Urutau

open List IcebergTable Option Runs

/-- A table and the positions of the commits that added no snapshot. -/
structure RolledTable (F P K : Type) where
  table : IcebergTable F P K
  noted : List (Option Nat × P)
  deriving DecidableEq, Repr

/-- What happens to the table. -/
inductive RolledAct (F P K : Type)
  | commit (p : CommitProps P K) (files : List F)
  | maintain (summary : CommitProps P K) (files : List F)
  | setProperties (p : CommitProps P K)
  | rollback (id : Nat)
  deriving DecidableEq, Repr

namespace RolledTable

variable {F P K : Type}

def init : RolledTable F P K := ⟨.empty, []⟩

/-- The position of a commit without files, at the head it was made at. -/
def note (t : IcebergTable F P K) (p : CommitProps P K) (files : List F) : List (Option Nat × P) :=
  if files.isEmpty then p.position.toList.map fun pos => (t.head, pos) else []

/-- One step.  Only the sink writes the property's position; a rollback goes to an ancestor. -/
def step (s : RolledTable F P K) : RolledAct F P K → Option (RolledTable F P K)
  | .commit p files => some ⟨s.table.commit p files, s.noted ++ note s.table p files⟩
  | .maintain summary files => some { s with table := s.table.addSnapshot summary files }
  | .setProperties p =>
    if p.position.isNone then some { s with table := s.table.setProperties p } else none
  | .rollback id =>
    if s.table.lineage.any fun snap => snap.id = id then
      some { s with table := s.table.rollback id }
    else none

/-- Committed by the head or one of its ancestors, or while one of them was the head. -/
def Visible (s : RolledTable F P K) (p : P) : Prop :=
  (∃ snap ∈ s.table.lineage, snap.summary.position = some p) ∨
    (none, p) ∈ s.noted ∨ ∃ snap ∈ s.table.lineage, (some snap.id, p) ∈ s.noted

/-- **A rollback passes over no position.** -/
def PassesNone (s : RolledTable F P K) : RolledAct F P K → Prop
  | .rollback id =>
    ∀ snap ∈ s.table.lineage, id < snap.id →
      snap.summary.position = none ∧ ∀ n ∈ s.noted, n.1 ≠ some snap.id
  | _ => True

instance decidablePassesNone [DecidableEq P] (s : RolledTable F P K) :
    ∀ a, Decidable (s.PassesNone a)
  | .rollback id => inferInstanceAs (Decidable (∀ snap ∈ s.table.lineage, id < snap.id →
      snap.summary.position = none ∧ ∀ n ∈ s.noted, n.1 ≠ some snap.id))
  | .commit _ _ | .maintain _ _ | .setProperties _ => inferInstanceAs (Decidable True)

variable {s t : RolledTable F P K}

/-- **The invariant.**  The property's position is visible, and so is every snapshot that
committed one. -/
structure Shown (s : RolledTable F P K) : Prop where
  numbered : s.table.Numbered
  property : ∀ p ∈ s.table.props.position, s.Visible p
  snapshots : ∀ snap ∈ s.table.snapshots, snap.summary.position ≠ none → snap ∈ s.table.lineage

theorem shown_init : (init : RolledTable F P K).Shown where
  numbered := numbered_empty
  property := nofun
  snapshots := nofun

/-- What is visible stays so while the lineage and the notes grow. -/
theorem Visible.mono {p : P} (h : s.Visible p)
    (hline : ∀ snap ∈ s.table.lineage, snap ∈ t.table.lineage)
    (hnoted : ∀ n ∈ s.noted, n ∈ t.noted) : t.Visible p := by
  rcases h with ⟨snap, hsnap, hpos⟩ | hnone | ⟨snap, hsnap, hpos⟩
  · exact .inl ⟨snap, hline snap hsnap, hpos⟩
  · exact .inr (.inl (hnoted _ hnone))
  · exact .inr (.inr ⟨snap, hline snap hsnap, hnoted _ hpos⟩)

/-- A commit with files: its position is the new head's. -/
theorem Shown.commit_files (h : s.Shown) (p : CommitProps P K) (files : List F)
    (noted : List (Option Nat × P)) (hnoted : ∀ n ∈ s.noted, n ∈ noted) :
    (⟨(s.table.addSnapshot p files).setProperties p, noted⟩ : RolledTable F P K).Shown where
  numbered := (h.numbered.addSnapshot p files).setProperties p
  property pos hpos := by
    rcases or_eq_some_iff.mp hpos with hnew | ⟨-, hold⟩
    · refine .inl ⟨⟨s.table.nextId, s.table.head, p, files⟩, ?_, hnew⟩
      rw [lineage_setProperties, lineage_addSnapshot]
      exact mem_cons_self
    · refine (h.property pos hold).mono (fun snap hmem => ?_) hnoted
      rw [lineage_setProperties, lineage_addSnapshot]
      exact mem_cons_of_mem _ hmem
  snapshots snap hmem hne := by
    rw [lineage_setProperties, lineage_addSnapshot]
    rcases mem_cons.mp hmem with rfl | hmem
    · exact mem_cons_self
    · exact mem_cons_of_mem _ (h.snapshots snap hmem hne)

/-- A commit without files: its position is noted at the head. -/
theorem Shown.commit_none (h : s.Shown) (p : CommitProps P K) :
    (⟨s.table.setProperties p, s.noted ++ note s.table p []⟩ : RolledTable F P K).Shown where
  numbered := h.numbered.setProperties p
  property pos hpos := by
    rcases or_eq_some_iff.mp hpos with hnew | ⟨-, hold⟩
    · have hnote : (s.table.head, pos) ∈ s.noted ++ note s.table p [] := by
        simp [note, hnew]
      cases hhead : s.table.head with
      | none =>
        rw [hhead] at hnote
        exact .inr (.inl hnote)
      | some id =>
        obtain ⟨snap, hsnap, rfl⟩ := h.numbered.head id hhead
        rw [hhead] at hnote
        exact .inr (.inr ⟨snap, hsnap, hnote⟩)
    · exact (h.property pos hold).mono (fun _ => id) fun n hn => mem_append_left _ hn
  snapshots := h.snapshots

/-- A rollback that passes over no position hides none. -/
theorem Shown.rollback (h : s.Shown) {target : TableSnapshot F P K}
    (hmem : target ∈ s.table.lineage) (hpass : s.PassesNone (.rollback target.id)) :
    ({ s with table := s.table.rollback target.id } : RolledTable F P K).Shown := by
  -- a snapshot newer than the target has no position, every other one stays in the lineage
  have hstay : ∀ snap ∈ s.table.lineage, ¬target.id < snap.id →
      snap ∈ (s.table.rollback target.id).lineage := fun snap hsnap hle =>
    mem_ancestorsOf_of_mem h.numbered.older hmem hsnap (Nat.not_lt.mp hle)
  refine ⟨h.numbered.rollback hmem, fun pos hpos => ?_, fun snap hsnap hne => ?_⟩
  · rcases h.property pos hpos with ⟨snap, hsnap, hsum⟩ | hnone | ⟨snap, hsnap, hnote⟩
    · refine .inl ⟨snap, hstay snap hsnap fun hlt => ?_, hsum⟩
      rw [(hpass snap hsnap hlt).1] at hsum
      cases hsum
    · exact .inr (.inl hnone)
    · refine .inr (.inr ⟨snap, hstay snap hsnap fun hlt => ?_, hnote⟩)
      exact (hpass snap hsnap hlt).2 _ hnote rfl
  · have hline := h.snapshots snap hsnap hne
    exact hstay snap hline fun hlt => hne (hpass snap hline hlt).1

theorem Shown.step (h : s.Shown) {a : RolledAct F P K} (hpass : s.PassesNone a)
    (hs : RolledTable.step s a = some t) : t.Shown := by
  cases a with
  | commit p files =>
    cases hs
    cases files with
    | nil => exact h.commit_none p
    | cons f rest =>
      exact h.commit_files p (f :: rest) _ fun n hn => mem_append_left _ hn
  | maintain summary files =>
    cases hs
    refine ⟨h.numbered.addSnapshot summary files, fun pos hpos => ?_, fun snap hmem hne => ?_⟩
    · refine (h.property pos hpos).mono (fun snap hmem => ?_) fun _ => id
      rw [lineage_addSnapshot]
      exact mem_cons_of_mem _ hmem
    · rw [lineage_addSnapshot]
      rcases mem_cons.mp hmem with rfl | hmem
      · exact mem_cons_self
      · exact mem_cons_of_mem _ (h.snapshots snap hmem hne)
  | setProperties p =>
    obtain ⟨hnone, hs⟩ := ite_none_right_eq_some.mp hs
    cases hs
    have hpnone : p.position = none := isNone_iff_eq_none.mp hnone
    refine ⟨h.numbered.setProperties p, fun pos hpos => ?_, h.snapshots⟩
    change p.position.or s.table.props.position = some pos at hpos
    rw [hpnone] at hpos
    exact (h.property pos hpos).mono (fun _ => id) fun _ => id
  | rollback id =>
    obtain ⟨hany, hs⟩ := ite_none_right_eq_some.mp hs
    cases hs
    obtain ⟨target, hmem, hid⟩ := any_eq_true.mp hany
    cases of_decide_eq_true hid
    exact h.rollback hmem hpass

/-- **The position read belongs to the visible table.**  When no rollback passes over a
position, the position read at start-up was committed by the head or one of its ancestors,
and every snapshot that committed a position is one of those. -/
theorem position_visible {actions : List (RolledAct F P K)} (hrun : run step init actions = some s)
    (hpass : Runs.Guarded step PassesNone init actions) :
    (∀ p, s.table.walkBackPosition = some p → s.Visible p) ∧
      ∀ snap ∈ s.table.snapshots, snap.summary.position ≠ none → snap ∈ s.table.lineage := by
  have hshown : s.Shown := invariant_of_guarded Shown
    (fun _ _ _ h hok hs => h.step hok hs) shown_init hrun hpass
  refine ⟨fun p hp => ?_, hshown.snapshots⟩
  rcases or_eq_some_iff.mp hp with hprop | ⟨-, hwalk⟩
  · exact hshown.property p hprop
  · obtain ⟨snap, hsnap, hsum⟩ := exists_of_findSome?_eq_some hwalk
    exact .inl ⟨snap, hsnap, hsum⟩

/-- A commit, a maintenance snapshot over it, and a rollback to the commit. -/
def maintenanceUndone : List (RolledAct String LSN Nat) :=
  [.commit ⟨some ⟨10⟩, some 1, none, none⟩ ["a"], .maintain .none ["b"], .rollback 1]

theorem position_visible_maintenanceUndone : ∃ s, run step init maintenanceUndone = some s ∧
      s.table.walkBackPosition = some ⟨10⟩ ∧ s.Visible ⟨10⟩ := by
  exact exists_run_and (by decide +kernel) fun s hs hpos => (position_visible hs
    (by decide +kernel)).1 _ hpos

/-- Two commits, and a rollback to the first. -/
def commitUndone : List (RolledAct String LSN Nat) :=
  [.commit ⟨some ⟨10⟩, some 1, none, none⟩ ["a"], .commit ⟨some ⟨20⟩, some 2, none, none⟩ ["b"],
    .rollback 1]

/-- The position read is the second's, which the table no longer shows. -/
theorem position_ahead_of_rollback : ∃ s, run step init commitUndone = some s ∧
      s.table.walkBackPosition = some ⟨20⟩ ∧ ¬s.Visible ⟨20⟩ := by
  refine exists_run_of (by decide +kernel) fun s _ (hseen : s.table.walkBackPosition = some ⟨20⟩ ∧
      (∀ snap ∈ s.table.lineage, snap.summary.position ≠ some ⟨20⟩) ∧ s.noted = []) => ?_
  obtain ⟨hpos, hline, hnoted⟩ := hseen
  refine ⟨hpos, fun hvis => ?_⟩
  rcases hvis with ⟨snap, hsnap, hsum⟩ | hnone | ⟨snap, -, hnote⟩
  · exact hline snap hsnap hsum
  · rw [hnoted] at hnone
    cases hnone
  · rw [hnoted] at hnote
    cases hnote

end RolledTable

end Urutau
