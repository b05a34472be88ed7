import Urutau.StagedCycles
import Urutau.TransactionReader

/-!
# Sending the batches of a partitioned table

A batch of a table with several owners is split by the owner of each row's key
and sent as one cycle.  The cycle carries the batch's last position, and expects
a delivery of every owner that has rows in it, unless the table's position at
boot covers the owner's share: that one its worker skips.

A snapshot window's marker and the completion of a snapshot are cycles of the
same order; neither is of one batch.
-/

namespace Urutau

/-- The partitions of each table: its owners, the owner of a row's key as an
index into them, and the position its sink had at boot. -/
structure Partitions (P : Type) where
  owners : String → List String
  distinct : ∀ table, (owners table).Nodup
  route : String → EncodedRow P → Nat
  boot : String → Option P

section Send

variable {P : Type} [Position P]

/-- `coveredAtBoot`: the worker will skip a share that ends at `high`. -/
def coveredAtBoot (committed high : Option P) (isPartial : Bool) : Bool :=
  match committed, high with
  | some cp, some p =>
    if isPartial then decide (Position.compare p cp = .less) else Position.covered p cp
  | _, _ => false

/-- `SplitByOwner`: one share for each of `n` owners, empty for one without
rows. -/
def splitByOwner (route : EncodedRow P → Nat) (n : Nat) (rows : List (EncodedRow P)) :
    List (List (EncodedRow P)) :=
  (List.range n).map fun i => rows.filter fun row => route row = i

/-- The position a share is sent with: its last row's. -/
def highOf (rows : List (EncodedRow P)) : Option P := rows.getLast?.map (·.position)

/-- The shares of a batch with their owners. -/
def shares (su : Partitions P) (b : Batch P) : List (String × List (EncodedRow P)) :=
  (su.owners b.table).zip (splitByOwner (su.route b.table) (su.owners b.table).length b.rows)

/-- A share its worker will stage: it has rows and is not covered at boot. -/
def isExpected (su : Partitions P) (b : Batch P) (share : String × List (EncodedRow P)) : Bool :=
  !share.2.isEmpty && !coveredAtBoot (su.boot b.table) (highOf share.2) b.isPartial

/-- The owners the batch's cycle expects a delivery of. -/
def cycleOwners (su : Partitions P) (b : Batch P) : List String :=
  ((shares su b).filter (isExpected su b)).map Prod.fst

/-- The rows of the batch that its cycle commits. -/
def cycleRows (su : Partitions P) (b : Batch P) : List (EncodedRow P) :=
  ((shares su b).filter (isExpected su b)).flatMap Prod.snd

end Send

/-- The coordinator's side of the staged tables.  History: the batches sent since
boot, the batch of each cycle of one, and the cycles that complete a snapshot. -/
structure SendState (P D : Type) where
  tracker : StagedState P D
  batchSeq : Nat
  pulled : String → List (Batch P)
  batchOf : String → Nat → Option (Batch P)
  doneSeqs : String → List Nat

inductive SendAction (P D : Type)
  | register (worker : String)
  | supersede (worker : String)
  | enqueuePartitioned (b : Batch P)
  | sendClosesPending (table : String) (owners : List String)
  | finishSnapshot (table owner : String)
  | onStagedBatch (worker : String) (d : StagedDelivery P D) (answers : Nat → Cycles.HostAnswer)

namespace SendState

variable {P D : Type} [Position P] [Meeter P]

def init : SendState P D where
  tracker := StagedState.init
  batchSeq := 0
  pulled _ := []
  batchOf _ _ := none
  doneSeqs _ := []

variable (su : Partitions P) (s : SendState P D)

/-- What an action does to the tracker.  The batch that completes a snapshot
carries no position (`snapshotDoneBatch`), and so does its delivery. -/
def trackerAction : SendAction P D → StagedAction P D
  | .register worker => .register worker
  | .supersede worker => .supersede worker
  | .enqueuePartitioned b =>
    .expectAt b.table (s.batchSeq + 1) (cycleOwners su b) b.highPos
  | .sendClosesPending table owners => .expectWindow table (s.batchSeq + 1) owners
  | .finishSnapshot table owner => .expectAt table (s.batchSeq + 1) [owner] none
  | .onStagedBatch worker d answers =>
    .deliver worker (if d.seq ∈ s.doneSeqs d.table then { d with position := none } else d) answers

/-- What an action notes. -/
def note : SendAction P D → SendState P D
  | .enqueuePartitioned b =>
    { s with
      batchSeq := s.batchSeq + 1
      pulled := fun t => if t = b.table then s.pulled t ++ [b] else s.pulled t
      batchOf := if cycleOwners su b = [] then s.batchOf
        else Cycles.update s.batchOf b.table (s.batchSeq + 1) (some b) }
  | .sendClosesPending _ _ => { s with batchSeq := s.batchSeq + 1 }
  | .finishSnapshot table _ =>
    { s with
      batchSeq := s.batchSeq + 1
      doneSeqs := fun t =>
        if t = table then s.doneSeqs t ++ [s.batchSeq + 1] else s.doneSeqs t }
  | _ => s

/-- Refused: a row without an owner, a table that is not partitioned, owners named twice, and a
delivery of no cycle, which a staged table's worker never makes. -/
def accepts : SendAction P D → Bool
  | .enqueuePartitioned b =>
    decide (1 < (su.owners b.table).length) &&
      b.rows.all fun row => decide (su.route b.table row < (su.owners b.table).length)
  | .sendClosesPending _ owners => decide owners.Nodup
  | .onStagedBatch _ d _ => decide (d.seq ≠ 0)
  | _ => true

def step (a : SendAction P D) : Option (SendState P D) :=
  if accepts su a then
    (s.tracker.step (s.trackerAction su a)).map fun tracker => { s.note su a with tracker }
  else none

/-- The positions written for a table, in order. -/
def written (table : String) : List P :=
  (s.tracker.left table).filterMap fun p => match p.2 with
    | .committed pos => pos
    | _ => none

/-- The rows of a cycle. -/
def rowsOfCycle (table : String) (seq : Nat) : List (EncodedRow P) :=
  ((s.batchOf table seq).map (cycleRows su)).getD []

/-- Whether the batch of a cycle is partial. -/
def cyclePartial (table : String) (seq : Nat) : Bool := (s.batchOf table seq).any (·.isPartial)

end SendState

end Urutau
