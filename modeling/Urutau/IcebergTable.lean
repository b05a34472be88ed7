import Mathlib

/-!
# An Iceberg table under commits

A table's metadata are its snapshots, the branch head and the properties.  A commit of
the sink adds a snapshot behind the head and writes its properties twice: into the
snapshot's summary and into the table's own.  A commit without files writes the table's
only.

Others commit too: maintenance adds snapshots with a summary of their own, and a rollback
moves the head to an earlier snapshot.  Neither touches the table's properties, and the
snapshots passed over stay in the list.
-/

namespace Urutau

open List

/-- The properties of a commit; a key that is not set is not written. -/
structure CommitProps (P K : Type) where
  position : Option P
  cycle : Option K
  snapshotState : Option String
  snapshotPending : Option (List Nat)
  deriving DecidableEq, Repr

/-- No property. -/
def CommitProps.none {P K : Type} : CommitProps P K := ⟨.none, .none, .none, .none⟩

/-- `SetProperties`: the keys set are written over those there. -/
def CommitProps.over {P K : Type} (new old : CommitProps P K) : CommitProps P K where
  position := new.position.or old.position
  cycle := new.cycle.or old.cycle
  snapshotState := new.snapshotState.or old.snapshotState
  snapshotPending := new.snapshotPending.or old.snapshotPending

/-- A snapshot: its number, the head it was committed behind, its summary and the files
it adds. -/
structure TableSnapshot (F P K : Type) where
  id : Nat
  parent : Option Nat
  summary : CommitProps P K
  added : List F
  deriving DecidableEq, Repr

/-- The metadata, snapshots newest first. -/
structure IcebergTable (F P K : Type) where
  snapshots : List (TableSnapshot F P K)
  head : Option Nat
  props : CommitProps P K
  deriving DecidableEq, Repr

namespace IcebergTable

variable {F P K : Type}

def empty : IcebergTable F P K := ⟨[], none, .none⟩

variable (t : IcebergTable F P K)

/-- The number of the next snapshot. -/
def nextId : Nat := t.snapshots.length + 1

/-- A snapshot is added behind the head and becomes the head. -/
def addSnapshot (summary : CommitProps P K) (added : List F) : IcebergTable F P K :=
  { t with
    snapshots := ⟨t.nextId, t.head, summary, added⟩ :: t.snapshots
    head := some t.nextId }

/-- `SetProperties`. -/
def setProperties (p : CommitProps P K) : IcebergTable F P K := { t with props := p.over t.props }

/-- A transaction of the sink: a row delta when there are files, and the properties. -/
def commit (p : CommitProps P K) (files : List F) : IcebergTable F P K :=
  (if files.isEmpty then t else t.addSnapshot p files).setProperties p

/-- A rollback to a snapshot. -/
def rollback (id : Nat) : IcebergTable F P K := { t with head := some id }

/-- `AncestorsOf`: a snapshot, its parent and so on, newest first.  A parent is older
than its child. -/
def ancestorsOf : List (TableSnapshot F P K) → Option Nat → List (TableSnapshot F P K)
  | _, none => []
  | [], some _ => []
  | s :: rest, some id =>
    if s.id = id then s :: ancestorsOf rest s.parent else ancestorsOf rest (some id)

/-- The snapshots the head is made of. -/
def lineage : List (TableSnapshot F P K) := ancestorsOf t.snapshots t.head

/-- `walkBackPosition`: the table's property, or else the first summary of the lineage
with a position. -/
def walkBackPosition : Option P :=
  t.props.position.or (t.lineage.findSome? fun s => s.summary.position)

/-- The head's snapshot. -/
def currentSnapshot : Option (TableSnapshot F P K) :=
  t.head.bind fun id => t.snapshots.find? fun s => s.id = id

/-- `cycleCommitted`: the marker is on the table or on the head's summary. -/
def cycleCommitted [DecidableEq K] (key : K) : Bool :=
  t.props.cycle = some key || t.currentSnapshot.any fun s => s.summary.cycle = some key

variable {s : TableSnapshot F P K} {l : List (TableSnapshot F P K)}

theorem mem_of_mem_ancestorsOf {id : Option Nat} (h : s ∈ ancestorsOf l id) : s ∈ l := by
  induction l generalizing id with
  | nil => cases id <;> cases h
  | cons x rest ih =>
    cases id with
    | none => cases h
    | some id =>
      simp only [ancestorsOf] at h
      split at h
      · rcases mem_cons.mp h with rfl | h
        · exact mem_cons_self
        · exact mem_cons_of_mem x (ih h)
      · exact mem_cons_of_mem x (ih h)

variable {t : IcebergTable F P K}

theorem mem_of_mem_currentSnapshot (h : s ∈ t.currentSnapshot) : s ∈ t.snapshots := by
  obtain ⟨id, -, hfind⟩ := Option.bind_eq_some_iff.mp h
  exact mem_of_find?_eq_some hfind

/-- The property or the head's summary names the cycle. -/
theorem cycleCommitted_iff [DecidableEq K] {key : K} : t.cycleCommitted key = true ↔
      t.props.cycle = some key ∨ ∃ s ∈ t.currentSnapshot, s.summary.cycle = some key := by
  simp [cycleCommitted, Option.any_eq_true]

/-! ## Numbers and heads -/

/-- Snapshots are numbered as they come, and the head is one of them. -/
structure Numbered (t : IcebergTable F P K) : Prop where
  older : t.snapshots.Pairwise fun s s' => s'.id < s.id
  bound : ∀ s ∈ t.snapshots, s.id ≤ t.snapshots.length
  head : ∀ id ∈ t.head, ∃ s ∈ t.lineage, s.id = id

theorem numbered_empty : (empty : IcebergTable F P K).Numbered where
  older := .nil
  bound := nofun
  head := nofun

@[simp] theorem lineage_addSnapshot (summary : CommitProps P K) (added : List F) :
    (t.addSnapshot summary added).lineage = ⟨t.nextId, t.head, summary, added⟩ :: t.lineage := by
  simp only [lineage, addSnapshot, ancestorsOf, if_true]

@[simp] theorem lineage_setProperties (p : CommitProps P K) :
    (t.setProperties p).lineage = t.lineage := rfl

theorem Numbered.addSnapshot (h : t.Numbered) (summary : CommitProps P K) (added : List F) :
    (t.addSnapshot summary added).Numbered where
  older := pairwise_cons.mpr ⟨fun s hs => Nat.lt_succ_of_le (h.bound s hs), h.older⟩
  bound s hs := by
    rcases mem_cons.mp hs with rfl | hs
    · exact Nat.le_refl _
    · exact Nat.le_succ_of_le (h.bound s hs)
  head id hid := by
    cases hid
    rw [lineage_addSnapshot]
    exact ⟨_, mem_cons_self, rfl⟩

theorem Numbered.setProperties (h : t.Numbered) (p : CommitProps P K) :
    (t.setProperties p).Numbered := ⟨h.older, h.bound, h.head⟩

/-- A snapshot is found under its number. -/
theorem mem_ancestorsOf_self (holder : l.Pairwise fun s s' => s'.id < s.id) (hs : s ∈ l) :
    s ∈ ancestorsOf l (some s.id) := by
  induction l with
  | nil => cases hs
  | cons x rest ih =>
    obtain ⟨hx, hrest⟩ := pairwise_cons.mp holder
    simp only [ancestorsOf]
    rcases mem_cons.mp hs with rfl | hs
    · rw [if_pos rfl]
      exact mem_cons_self
    · rw [if_neg (Nat.ne_of_gt (hx s hs))]
      exact ih hrest hs

/-- Of a lineage, what is not newer than one of its snapshots is that one's lineage. -/
theorem mem_ancestorsOf_of_mem (holder : l.Pairwise fun s s' => s'.id < s.id) {head : Option Nat}
    {s x : TableSnapshot F P K} (hs : s ∈ ancestorsOf l head) (hx : x ∈ ancestorsOf l head)
    (hle : x.id ≤ s.id) : x ∈ ancestorsOf l (some s.id) := by
  induction l generalizing head with
  | nil => cases head <;> cases hs
  | cons y rest ih =>
    obtain ⟨hy, hrest⟩ := pairwise_cons.mp holder
    cases head with
    | none => cases hs
    | some id =>
      simp only [ancestorsOf] at hs hx ⊢
      split at hs
      · rename_i hid
        rw [if_pos hid] at hx
        rcases mem_cons.mp hs with rfl | hs
        · rw [if_pos rfl]
          exact hx
        -- the snapshot is below the first one of the list, and so is what it is made of
        have hlt := hy s (mem_of_mem_ancestorsOf hs)
        rw [if_neg (Nat.ne_of_gt hlt)]
        rcases mem_cons.mp hx with rfl | hx
        · omega
        · exact ih hrest hs hx
      · rename_i hid
        rw [if_neg hid] at hx
        have hlt := hy s (mem_of_mem_ancestorsOf hs)
        rw [if_neg (Nat.ne_of_gt hlt)]
        exact ih hrest hs hx

/-- A rollback goes back to a snapshot of the branch. -/
theorem Numbered.rollback (h : t.Numbered) (hs : s ∈ t.lineage) : (t.rollback s.id).Numbered where
  older := h.older
  bound := h.bound
  head id hid := by
    cases hid
    exact ⟨s, mem_ancestorsOf_self h.older (mem_of_mem_ancestorsOf hs), rfl⟩

end IcebergTable

end Urutau
