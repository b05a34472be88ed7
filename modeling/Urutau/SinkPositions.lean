import Urutau.Positions

/-!
# Where ClickHouse and Couchbase keep a table's position

ClickHouse writes the position into every row of a commit, with a sequence number that
grows from commit to commit; the position of the row with the highest number is the
table's.  A worker with an owner name writes a row into a second table besides, and the
table's position is then the least of its owners'.

Couchbase keeps one control document for a table, with a position and a map of the
owners' positions.
-/

namespace Urutau

open List Position

/-- A batch as a table's writer is given it: its rows by key with the deletes marked, its
position, and the snapshot's progress. -/
structure SinkBatch (K P : Type) where
  rows : List (K × Bool)
  position : Option P
  snapshotState : Option String
  snapshotPending : Option (List Nat)
  deriving DecidableEq, Repr

/-- `argMax`: a value whose number is highest. -/
def argMax {α : Type} : List (α × Nat) → Option (α × Nat)
  | [] => none
  | x :: rest =>
    match argMax rest with
    | none => some x
    | some y => if x.2 < y.2 then some y else some x

variable {α : Type}

theorem argMax_mem {xs : List (α × Nat)} {x : α × Nat} (h : argMax xs = some x) : x ∈ xs := by
  induction xs generalizing x with
  | nil => cases h
  | cons y rest ih =>
    simp only [argMax] at h
    split at h
    · cases h
      exact mem_cons_self
    rename_i z hz
    split at h
    · cases h
      exact mem_cons_of_mem y (ih hz)
    · cases h
      exact mem_cons_self

theorem le_argMax {xs : List (α × Nat)} {x y : α × Nat} (h : argMax xs = some x)
    (hy : y ∈ xs) : y.2 ≤ x.2 := by
  induction xs generalizing x with
  | nil => cases hy
  | cons z rest ih =>
    simp only [argMax] at h
    split at h
    · rename_i hnone
      cases h
      rcases mem_cons.mp hy with rfl | hy
      · exact Nat.le_refl _
      cases rest with
      | nil => cases hy
      | cons w rest =>
        simp only [argMax] at hnone
        split at hnone
        · cases hnone
        · split at hnone <;> cases hnone
    · rename_i w hw
      have hrest := fun hy => ih hw hy
      split at h
      · cases h
        rcases mem_cons.mp hy with rfl | hy
        · omega
        · exact hrest hy
      · cases h
        rcases mem_cons.mp hy with rfl | hy
        · exact Nat.le_refl _
        · have hle := hrest hy
          omega

theorem argMax_isSome {xs : List (α × Nat)} (h : xs ≠ []) : ∃ x, argMax xs = some x := by
  cases xs with
  | nil => exact absurd rfl h
  | cons y rest =>
    simp only [argMax]
    split
    · exact ⟨y, rfl⟩
    · split
      · exact ⟨_, rfl⟩
      · exact ⟨y, rfl⟩

/-! ## ClickHouse -/

/-- A row of the data table. -/
structure ChRow (K P : Type) where
  key : K
  isDeleted : Bool
  position : Option P
  seq : Nat
  deriving DecidableEq, Repr

/-- A row of the table of owners' positions. -/
structure ChPosition (P : Type) where
  owner : String
  position : P
  seq : Nat
  deriving DecidableEq, Repr

/-- The two tables, in insertion order. -/
structure ClickHouse (K P : Type) where
  rows : List (ChRow K P)
  positions : List (ChPosition P)
  deriving DecidableEq, Repr

/-- A table's writer; without an owner the runner is collapsed. -/
structure ChWriter where
  owner : Option String
  seed : Nat
  lastSeq : Nat
  deriving DecidableEq, Repr

namespace ClickHouse

variable {K P : Type}

def empty : ClickHouse K P := ⟨[], []⟩

/-- `max(seq)`, zero for no rows. -/
def maxSeq (t : ClickHouse K P) : Nat := (t.rows.map ChRow.seq).foldr Nat.max 0

/-- `openTableWriter`. -/
def openTableWriter (t : ClickHouse K P) (owner : Option String) : ChWriter :=
  ⟨owner, t.maxSeq, t.maxSeq⟩

/-- `nextSeq`: the clock, unless it has not moved; in a word of 64 bits. -/
def nextSeq (w : ChWriter) (now : Nat) : Nat :=
  if now ≤ w.lastSeq then (w.lastSeq + 1) % 2 ^ 64 else now

/-- `versionSeq`: a coordinator's sequence, over the seed, lifts the number. -/
def versionSeq (w : ChWriter) (now batchSeq : Nat) : Nat :=
  let seq := nextSeq w now
  let cand := (w.seed + batchSeq) % 2 ^ 64
  if batchSeq ≠ 0 ∧ seq < cand then cand else seq

/-- Short of the highest word a version is above the last one, and not behind the clock. -/
theorem le_versionSeq {w : ChWriter} (hlast : w.lastSeq + 1 < 2 ^ 64) (now batchSeq : Nat) :
    w.lastSeq < versionSeq w now batchSeq ∧ now ≤ versionSeq w now batchSeq := by
  have hnext : w.lastSeq < nextSeq w now ∧ now ≤ nextSeq w now := by
    unfold nextSeq
    split
    · rw [Nat.mod_eq_of_lt hlast]
      omega
    · omega
  unfold versionSeq
  dsimp only
  split <;> omega

/-- The rows of a commit, in one insert. -/
def insertRows (t : ClickHouse K P) (b : SinkBatch K P) (seq : Nat) : ClickHouse K P :=
  { t with rows := t.rows ++ b.rows.map fun r => ⟨r.1, r.2, b.position, seq⟩ }

/-- `Commit`: the rows, then the owner's position. -/
def commit (t : ClickHouse K P) (w : ChWriter) (b : SinkBatch K P) (now batchSeq : Nat) :
    ClickHouse K P × ChWriter :=
  let seq := versionSeq w now batchSeq
  ({ t.insertRows b seq with
     positions := t.positions ++ match w.owner, b.position with
      | some owner, some p => [⟨owner, p, seq⟩]
      | _, _ => [] },
    { w with lastSeq := seq })

/-- `argMax(position, seq)` over the data rows. -/
def legacyPosition (t : ClickHouse K P) : Option P :=
  (argMax (t.rows.map fun r => (r.position, r.seq))).bind Prod.fst

/-- A row in the group of its owner: of two the higher number counts. -/
def groupMax : List (String × P × Nat) → ChPosition P → List (String × P × Nat)
  | [], r => [(r.owner, r.position, r.seq)]
  | g :: rest, r =>
    if g.1 = r.owner then (if g.2.2 < r.seq then (r.owner, r.position, r.seq) else g) :: rest
    else g :: groupMax rest r

/-- `readOwnerPositions`: `argMax(position, seq)` grouped by owner. -/
def readOwnerPositions (t : ClickHouse K P) : List (String × P) :=
  (t.positions.foldl groupMax []).map fun g => (g.1, g.2.1)

/-- A merge of the parts in which the given keys lie: of each key the rows with the highest
number are kept. -/
def merge [DecidableEq K] (t : ClickHouse K P) (keys : List K) : ClickHouse K P :=
  { t with rows := t.rows.filter fun r =>
      r.key ∉ keys || t.rows.all fun r' => r'.key ≠ r.key || r'.seq ≤ r.seq }

end ClickHouse

/-! ## The least over the owners -/

section Owners

variable {P : Type} [Position P] [Meeter P]

/-- The names asked for: those of the current owners, or of all entries. -/
def ownerNames (present : List (String × P)) (owners : List String) : List String :=
  if owners.isEmpty then present.map Prod.fst else owners

/-- The positions of the names, if each has one. -/
def positionsOf (present : List (String × P)) (names : List String) : Option (List P) :=
  names.mapM fun name => present.lookup name

/-- Several owners, none of which has committed. -/
def severalOwners (ownerCount : Nat) (owners : List String) : Bool :=
  1 < owners.length || (owners.isEmpty && decide (1 < ownerCount))

/-- `partitionPosition`: nothing to fall back to the data rows, or the position, none when
an owner has committed none. -/
def partitionPosition (present : List (String × P)) (ownerCount : Nat) (owners : List String) :
    Except (P × P) (Option (Option P)) :=
  if present.isEmpty then .ok (if severalOwners ownerCount owners then some none else none)
  else if owners.isEmpty && decide (present.length < ownerCount) then .ok (some none)
  else
    match positionsOf present (ownerNames present owners) with
    | none => .ok (some none)
    | some positions => (minSafe positions).map some

/-- `Position` of the ClickHouse sink. -/
def ClickHouse.position {K : Type} (t : ClickHouse K P) (ownerCount : Nat) (owners : List String) :
    Except (P × P) (Option P) :=
  (partitionPosition t.readOwnerPositions ownerCount owners).map fun pos =>
    match pos with
    | some p => p
    | none => t.legacyPosition

/-- The row seeded for an owner without a position. -/
def ClickHouse.seedRows (present : List (String × P)) (baseline : Option P) (owner : String) :
    List (ChPosition P) :=
  if (present.lookup owner).isSome then [] else baseline.toList.map fun p => ⟨owner, p, 0⟩

/-- `SeedPositions` of the ClickHouse sink: the least of what is there, numbered below
every commit, for each owner without a position. -/
def ClickHouse.seedPositions {K : Type} (t : ClickHouse K P) (owners : List String) :
    Except (P × P) (ClickHouse K P) :=
  if owners.length < 2 || t.readOwnerPositions.isEmpty then .ok t
  else
    (minSafe (t.readOwnerPositions.map Prod.snd)).map fun baseline =>
      { t with positions := t.positions ++ owners.flatMap (seedRows t.readOwnerPositions baseline) }

/-! ## Couchbase -/

/-- The control document. -/
structure ControlDoc (P : Type) where
  position : Option P
  positions : List (String × P)
  snapshotState : Option String
  snapshotPending : Option (List Nat)
  deriving DecidableEq, Repr

/-- An entry of the map is written over. -/
def setOwner : List (String × P) → String → P → List (String × P)
  | [], owner, p => [(owner, p)]
  | x :: rest, owner, p =>
    if x.1 = owner then (owner, p) :: rest else x :: setOwner rest owner p

/-- `controlWrite`: a batch without a position leaves the positions as they are. -/
def controlWrite (prev : Option (ControlDoc P)) (owner : Option String) {K : Type}
    (b : SinkBatch K P) : ControlDoc P :=
  let doc : ControlDoc P := prev.getD ⟨none, [], none, none⟩
  { position := b.position.or doc.position
    positions :=
      match b.position, owner with
      | some p, some o => setOwner doc.positions o p
      | _, _ => doc.positions
    snapshotState := b.snapshotState.or doc.snapshotState
    snapshotPending := b.snapshotPending.or doc.snapshotPending }

/-- `positionOf`. -/
def positionOf (doc : Option (ControlDoc P)) (ownerCount : Nat) (owners : List String) :
    Except (P × P) (Option P) :=
  match doc with
  | none => .ok none
  | some doc =>
    if doc.positions.isEmpty then
      .ok (if severalOwners ownerCount owners then none else doc.position)
    else if owners.isEmpty && decide (doc.positions.length < ownerCount) then .ok none
    else
      match positionsOf doc.positions (ownerNames doc.positions owners) with
      | none => .ok none
      | some positions => (minSafe positions).map fun best => best.or doc.position

/-- An owner without an entry gets the baseline. -/
def seedOwner (baseline : Option P) (merged : List (String × P)) (owner : String) :
    List (String × P) :=
  if (merged.lookup owner).isSome then merged
  else merged ++ baseline.toList.map fun p => (owner, p)

/-- `seedPositions` of the Couchbase sink. -/
def seedPositions (doc : Option (ControlDoc P)) (owners : List String) :
    Except (P × P) (Option (ControlDoc P)) :=
  if owners.length < 2 then .ok doc
  else
    match doc with
    | none => .ok none
    | some doc =>
      if doc.positions.isEmpty then .ok (some doc)
      else
        (minSafe (doc.positions.map Prod.snd)).map fun baseline =>
          some { doc with positions := owners.foldl (seedOwner baseline) doc.positions }

end Owners

end Urutau
