import Urutau.GuardedRun
import Urutau.Positions

/-!
# Staged commit cycles

A partitioned table on a staging sink commits one cycle for each batch sent:
the coordinator waits for the share of every owner it sent rows to, then commits
the cycle as one unit.  Cycles of a table commit in the order they were sent,
however they complete.

A delivery from a superseded generation is dropped, and so is one the cycle does
not expect or already has.  A snapshot window's cycle that its fan-out pass has
lost is dropped in its turn.  A commit that fails poisons its table.
-/

namespace Urutau

/-- `Cycle`: the deliveries of one batch of a table.  `delivered` is in order of
arrival, as `descriptors` is. -/
structure Cycle (P D : Type) where
  seq : Nat
  expected : Nat
  owners : List String
  delivered : List String
  descriptors : List D
  positions : List (Option P)
  batchPos : Option P
  window : Bool
  lost : Bool
  state : Option String
  pending : Option (List Nat)
  deriving DecidableEq, Repr

/-- `Delivery`: one worker's staged share of a cycle. -/
structure StagedDelivery (P D : Type) where
  table : String
  seq : Nat
  epoch : Nat
  descriptor : D
  position : Option P
  snapshotState : Option String
  snapshotPending : Option (List Nat)
  windowLost : Bool
  deriving DecidableEq, Repr

/-- `Cycles`: the cycles still accumulating, those complete and waiting for
their turn, each table's send order, and the tables whose commit failed. -/
structure Cycles (P D : Type) where
  openCycles : String → Nat → Option (Cycle P D)
  done : String → Nat → Option (Cycle P D)
  order : String → List Nat
  poisoned : String → Bool

namespace Cycles

variable {P D : Type}

def empty : Cycles P D where
  openCycles _ _ := none
  done _ _ := none
  order _ := []
  poisoned _ := false

/-- A map with one entry set. -/
def update {V : Type} (m : String → Nat → Option V) (table : String) (seq : Nat)
    (v : Option V) : String → Nat → Option V :=
  fun t q => if t = table ∧ q = seq then v else m t q

/-- A cycle as it is opened. -/
def fresh (seq : Nat) (owners : List String) (batchPos : Option P) : Cycle P D where
  seq
  expected := owners.length
  owners
  delivered := []
  descriptors := []
  positions := []
  batchPos
  window := false
  lost := false
  state := none
  pending := none

variable (s : Cycles P D) (table : String)

/-- `ExpectAt`. -/
def expectAt (seq : Nat) (owners : List String) (batchPos : Option P) : Cycles P D :=
  if owners = [] then s
  else if (s.openCycles table seq).isSome then s
  else { s with
    openCycles := update s.openCycles table seq (some (fresh seq owners batchPos))
    order := fun t => if t = table then s.order t ++ [seq] else s.order t }

/-- `ExpectWindow`. -/
def expectWindow (seq : Nat) (owners : List String) : Cycles P D :=
  let s := s.expectAt table seq owners none
  match s.openCycles table seq with
  | none => s
  | some cy =>
    { s with openCycles := update s.openCycles table seq (some { cy with window := true }) }

/-- `MarkLost`. -/
def markLost (table owner : String) (seq : Nat) : Cycles P D :=
  match s.openCycles table seq with
  | none => s
  | some cy =>
    if owner ∉ cy.owners ∨ owner ∈ cy.delivered then s
    else { s with openCycles := update s.openCycles table seq (some { cy with lost := true }) }

/-- The loop of `drainLocked`: the complete cycles at the head of the order, and
the rest of the order. -/
def drainLocked (done : Nat → Option (Cycle P D)) : List Nat → List (Cycle P D) × List Nat
  | [] => ([], [])
  | q :: rest =>
    match done q with
    | none => ([], q :: rest)
    | some cy => (cy :: (drainLocked done rest).1, (drainLocked done rest).2)

/-- A cycle with one more delivery. -/
def take (cy : Cycle P D) (owner : String) (d : StagedDelivery P D) : Cycle P D :=
  { cy with
    delivered := if owner = "" then cy.delivered else cy.delivered ++ [owner]
    descriptors := cy.descriptors ++ [d.descriptor]
    positions := cy.positions ++ [d.position]
    state := d.snapshotState.or cy.state
    pending := d.snapshotPending.or cy.pending }

/-- The complete head of a table's order leaves the tracker. -/
def drain : List (Cycle P D) × Cycles P D :=
  let (out, rest) := drainLocked (s.done table) (s.order table)
  (out, { s with
    done := fun t q =>
      if t = table ∧ q ∈ (s.order table).take out.length then none else s.done t q
    order := fun t => if t = table then rest else s.order t })

/-- A delivery of no batch is a cycle of its own. -/
def loose (d : StagedDelivery P D) : Cycle P D where
  seq := 0
  expected := 1
  owners := []
  delivered := []
  descriptors := [d.descriptor]
  positions := [d.position]
  batchPos := none
  window := false
  lost := false
  state := d.snapshotState
  pending := d.snapshotPending

/-- `Deliver`: the cycles of the table that may now be committed, head first. -/
def deliver (owner : String) (d : StagedDelivery P D) : List (Cycle P D) × Cycles P D :=
  match s.openCycles d.table d.seq with
  | none => (if d.seq = 0 then [loose d] else [], s)
  | some cy =>
    if owner ≠ "" ∧ (owner ∉ cy.owners ∨ owner ∈ cy.delivered) then ([], s)
    else
      let cy := take cy owner d
      if cy.descriptors.length < cy.expected then
        ([], { s with openCycles := update s.openCycles d.table d.seq (some cy) })
      else
        drain { s with
          openCycles := update s.openCycles d.table d.seq none
          done := update s.done d.table d.seq (some cy) } d.table

/-! ## Commits -/

variable [Position P] [Meeter P]

/-- `CommitPosition`: none for a snapshot window, the batch's last position for
a cycle of one batch, else the least of what the owners delivered. -/
def commitPosition (cy : Cycle P D) : Except (P × P) (Option P) :=
  if cy.window then .ok none
  else
    match cy.batchPos with
    | some p => .ok (some p)
    | none => Position.minSafe (cy.positions.filterMap id)

/-- What the host answers for a cycle: whether its fan-out pass drops it, and
whether the sink commits it. -/
structure HostAnswer where
  dropWindow : Bool
  commitStaged : Bool
  deriving DecidableEq, Repr

/-- How a cycle leaves the tracker.  After a failed commit the rest of the run
is abandoned. -/
inductive Outcome (P : Type)
  | committed (pos : Option P)
  | dropped
  | failed
  | abandoned
  deriving DecidableEq, Repr

/-- `commitLocked`. -/
def commitLocked (answer : HostAnswer) (cy : Cycle P D) : Outcome P :=
  if cy.window && answer.dropWindow then .dropped
  else
    match commitPosition cy with
    | .error _ => .failed
    | .ok pos => if answer.commitStaged then .committed pos else .failed

/-- The commits of one run of cycles, up to the first that fails. -/
def commitRun (answers : Nat → HostAnswer) : List (Cycle P D) → List (Cycle P D × Outcome P)
  | [] => []
  | cy :: rest =>
    match commitLocked (answers cy.seq) cy with
    | .failed => (cy, .failed) :: rest.map (·, .abandoned)
    | out => (cy, out) :: commitRun answers rest

/-- Whether a commit of the run failed. -/
def hasFailed (outs : List (Cycle P D × Outcome P)) : Bool := outs.any fun p => match p.2 with
    | .failed => true
    | _ => false

/-- `OnDelivery`, for a worker whose generation is known. -/
def onDelivery (epoch : Option Nat) (worker : String)
    (d : StagedDelivery P D) (answers : Nat → HostAnswer) :
    List (Cycle P D × Outcome P) × Cycles P D :=
  if epoch ≠ some d.epoch then ([], s)
  else if s.poisoned d.table then ([], s)
  else
    let s := if d.windowLost then s.markLost d.table worker d.seq else s
    let (run, s) := s.deliver worker d
    let outs := commitRun answers run
    (outs, if hasFailed outs then
        { s with poisoned := fun t => if t = d.table then true else s.poisoned t }
      else s)

end Cycles

/-! ## The tracker in use -/

/-- A cycle as it was sent: its number, the owners it was sent to, the position of
its batch, and whether it is a snapshot window's. -/
structure Opening (P : Type) where
  seq : Nat
  owners : List String
  batchPos : Option P
  window : Bool
  deriving DecidableEq, Repr

/-- The tracker and the workers' generations.  History: the cycles sent for each
table, how those left that did (a delivery of no batch, of sequence 0, leaves on
arrival), and every delivery of a current generation. -/
structure StagedState (P D : Type) where
  cycles : Cycles P D
  epoch : String → Option Nat
  sent : String → List (Opening P)
  left : String → List (Cycle P D × Cycles.Outcome P)
  heard : List (String × StagedDelivery P D)

inductive StagedAction (P D : Type)
  | register (worker : String)
  | supersede (worker : String)
  | expectAt (table : String) (seq : Nat) (owners : List String) (batchPos : Option P)
  | expectWindow (table : String) (seq : Nat) (owners : List String)
  | deliver (worker : String) (d : StagedDelivery P D) (answers : Nat → Cycles.HostAnswer)

namespace StagedState

variable {P D : Type} [Position P] [Meeter P]

def init : StagedState P D where
  cycles := Cycles.empty
  epoch _ := none
  sent _ := []
  left _ := []
  heard := []

/-- A cycle is sent: it joins its table's order. -/
def noteSent (s : StagedState P D) (table : String) (o : Opening P) : String → List (Opening P) :=
  fun t => if t = table ∧ o.owners ≠ [] then s.sent t ++ [o] else s.sent t

/-- A delivery reaches the tracker. -/
def onDelivery (s : StagedState P D) (worker : String) (d : StagedDelivery P D)
    (answers : Nat → Cycles.HostAnswer) : StagedState P D :=
  let out := s.cycles.onDelivery (s.epoch worker) worker d answers
  { s with
    cycles := out.2
    left := fun t => if t = d.table then s.left t ++ out.1 else s.left t
    heard := if s.epoch worker = some d.epoch then s.heard ++ [(worker, d)] else s.heard }

/-- One step.  A worker's name is its partition's, which is never empty. -/
def step (s : StagedState P D) : StagedAction P D → Option (StagedState P D)
  | .register worker =>
    if worker = "" then none
    else some { s with epoch := fun w =>
    if w = worker then some ((s.epoch w).getD 0) else s.epoch w }
  | .supersede worker =>
    some { s with epoch := fun w => if w = worker then (s.epoch w).map (· + 1) else s.epoch w }
  | .expectAt table seq owners batchPos =>
    some { s with
      cycles := s.cycles.expectAt table seq owners batchPos
      sent := s.noteSent table ⟨seq, owners, batchPos, false⟩ }
  | .expectWindow table seq owners =>
    some { s with
      cycles := s.cycles.expectWindow table seq owners
      sent := s.noteSent table ⟨seq, owners, none, true⟩ }
  | .deliver worker d answers => some (s.onDelivery worker d answers)

/-- The numbers of a table's cycles, in send order. -/
def sentSeqs (s : StagedState P D) (table : String) : List Nat := (s.sent table).map Opening.seq

/-- Cycles are opened under fresh sequence numbers, for distinct owners. -/
def Fresh (s : StagedState P D) : StagedAction P D → Prop
  | .expectAt table seq owners _ => seq ≠ 0 ∧ seq ∉ s.sentSeqs table ∧ owners.Nodup
  | .expectWindow table seq owners => seq ≠ 0 ∧ seq ∉ s.sentSeqs table ∧ owners.Nodup
  | _ => True

instance (s : StagedState P D) (a : StagedAction P D) : Decidable (Fresh s a) := by
  cases a <;> unfold Fresh <;> infer_instance

end StagedState

end Urutau
