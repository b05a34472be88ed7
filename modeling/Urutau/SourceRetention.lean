import Urutau.InFlightIndex
import Urutau.Reslice

/-!
# The position the source may discard its log to

The coordinator tells the source a position it has no more need of.  It is the least of
what the workers that still owe rows have recorded; when none owes any, it is the
furthest position sent.  A worker owes when its queue or its in-flight index is not
empty, or when a buffer holds batches of its table.

All of this is read piece by piece while the pipeline goes on: first the positions sent,
then the queues, the gate with the accumulators, the pause, the index of one worker
after another, and last what is recorded.  A batch on its way from a buffer to the index
is in none of them.

A worker serves one table.  On a staged table its delivery counts towards the cycle of
its batch and the cycle's commit is what is recorded; on any other it commits by itself
and its ack is recorded.  The owners of a table do not change, and no send, commit or
session fails.
-/

namespace Urutau

/-- Beside the hand-over: a batch's rows with their positions, the tables' owners and
the owner of a row, and where the run starts. -/
structure RetentionSetup (B R P : Type) extends HandoverSetup B where
  rowsOf : B → List R
  isPartial : B → Bool
  tableOf : R → String
  posOf : R → P
  owners : String → List String
  ownerOf : R → String
  serves : String → String
  stagesCycles : Bool
  resume : Option P
  rowsOf_ne : ∀ b, rowsOf b ≠ []
  tableOf_rows : ∀ b, ∀ r ∈ rowsOf b, tableOf r = table b
  owners_nodup : ∀ t, (owners t).Nodup
  ownerOf_mem : ∀ r, tableOf r ∈ tables → ownerOf r ∈ owners (tableOf r)
  serves_owner : ∀ t, ∀ w ∈ owners t, serves w = t

/-- What a worker is sent of a batch. -/
structure RowShare (R P : Type) where
  id : Nat
  high : Option P
  rows : List R
  isPartial : Bool
  deriving DecidableEq, Repr

/-- A staged batch's cycle, and the owners whose delivery it waits for. -/
structure ShareCycle (R P : Type) where
  id : Nat
  pos : Option P
  owners : List String
  missing : List String
  rows : List R
  deriving DecidableEq, Repr

/-- What is left of a call of enqueue: a cycle to open, a position to note as sent, and
shares to register. -/
structure ShareCall (R P : Type) where
  table : String
  opening : Option (ShareCycle R P)
  noting : Option (Option P)
  shares : List (String × RowShare R P)
  deriving DecidableEq, Repr

/-- How far `confirmedPosition` has come: the positions sent are read, the queues, the
gate; then the workers whose index is still to be read. -/
inductive ConfirmStage (P : Type)
  | idle
  | frontier (dispatched : Option P)
  | loads (dispatched : Option P) (owing : List String)
  | gated (dispatched : Option P) (owing : List String)
  | reading (dispatched : Option P) (owing todo : List String)
  deriving DecidableEq, Repr

/-- The coordinator and its workers.  `out` is the reader's channel; `queued` are the
shares a worker has not delivered, `reporting` what its next ack says, and `records` the
positions about to be recorded.  History: the rows read, those that are durable, and the
positions confirmed; `since` are the rows that were on their way when the gate was last
read for a confirmation, or were read since. -/
structure Retention (B R P : Type) where
  out : List B
  hand : HandState B
  call : Caller → Option (ShareCall R P)
  seq : Nat
  index : String → PositionIndex P
  queued : String → List (RowShare R P)
  cycles : String → List (ShareCycle R P)
  reporting : String → Option P
  acks : String → List P
  records : String → List P
  byWorker : String → Option P
  sent : String → Option P
  marking : Option (String × P)
  stage : ConfirmStage P
  answers : List P
  read : List R
  settled : List R
  since : List R

inductive RetentionAction (B P : Type)
  | read (b : B)
  | pull
  | hand (a : HandAction B)
  | sendNext (who : Caller)
  | deliver (w : String)
  | reportAck (w : String)
  | onAck (w : String)
  | record (w : String)
  | marker (w : String) (pos : P)
  | noteMarker
  | markerAck (w : String) (id : Nat)
  | readFrontier (order : List String)
  | readLoads (queued : List String)
  | readGate
  | readPause
  | readIndex (w : String)
  | confirm (order : List String)
  deriving DecidableEq, Repr

namespace RetentionSetup

variable {B R P : Type} (su : RetentionSetup B R P)

/-- `isStagedTable`. -/
def staged (t : String) : Bool := su.stagesCycles && 1 < (su.owners t).length

def workers : List String := su.tables.flatMap su.owners

/-- The position of the last row. -/
def high (rows : List R) : Option P := rows.getLast?.map su.posOf

/-- `SplitByOwner`: the rows of each owner that has any. -/
def splitByOwner (id : Nat) (isPartial : Bool) (owners : List String) (rows : List R) :
    List (String × RowShare R P) :=
  owners.filterMap fun o =>
    let mine := rows.filter fun r => su.ownerOf r = o
    if mine.isEmpty then none else some (o, ⟨id, su.high mine, mine, isPartial⟩)

/-- `enqueueBatch`: a single owner gets the batch whole; several get their shares, under
one cycle if the sink stages.  Batches sent as one are partial when the last is. -/
def enqueueBatch (id : Nat) (table : String) (items : List B) : ShareCall R P :=
  let rows := items.flatMap su.rowsOf
  let isPartial := items.getLast?.any su.isPartial
  match su.owners table with
  | [o] => ⟨table, none, none, [(o, ⟨id, su.high rows, rows, isPartial⟩)]⟩
  | owners =>
    let shares := su.splitByOwner id isPartial owners rows
    let names := shares.map Prod.fst
    ⟨table, if su.stagesCycles && !shares.isEmpty then some ⟨id, su.high rows, names, names, rows⟩
      else none,
      none, shares⟩

end RetentionSetup

/-- The call has returned. -/
def ShareCall.returned {R P : Type} (c : ShareCall R P) : Bool :=
  c.opening.isNone && c.noting.isNone && c.shares.isEmpty

namespace Retention

open Function (update)

variable {B R P : Type} (su : RetentionSetup B R P) (s : Retention B R P)

def init : Retention B R P where
  out := []
  hand := HandState.init su.staged
  call _ := none
  seq := 0
  index _ := ⟨[], fun _ => none⟩
  queued _ := []
  cycles _ := []
  reporting _ := none
  acks _ := []
  records _ := []
  byWorker w := if w ∈ su.workers then su.resume else none
  sent _ := none
  marking := none
  stage := .idle
  answers := []
  read := []
  settled := []
  since := []

/-- The reader puts a batch into its channel. -/
def readBatch (b : B) : Retention B R P :=
  { s with
    out := s.out ++ [b]
    read := s.read ++ su.rowsOf b
    since := s.since ++ su.rowsOf b }

/-! ## Sending -/

/-- The step waits for a call of its own. -/
def blocked (a : HandAction B) : Bool :=
  match ResliceState.callerOf a with
  | some who => (s.call who).any fun c => !c.returned
  | none => false

/-- The call a step begins. -/
def called (a : HandAction B) : Option (ShareCall R P) :=
  (s.hand.calls su.toHandoverSetup a).map fun x => su.enqueueBatch (s.seq + 1) x.1 x.2

/-- A step of the hand-over. -/
def handStep (a : HandAction B) : Option (Retention B R P) :=
  if s.blocked a then none
  else (HandState.step su.toHandoverSetup s.hand a).map fun h => { s with
    hand := h
    seq := if (s.called su a).isSome then s.seq + 1 else s.seq
    call := fun who =>
      if ResliceState.callerOf a = some who then s.called su a else s.call who }

/-- `Note`: no position is noted for none. -/
def note (table : String) (pos : Option P) : Retention B R P :=
  match pos with
  | none => s
  | some p => { s with sent := update s.sent table (some p) }

/-- A call does what comes next: it opens its cycle, notes the position of the share it
has registered, or registers the next one. -/
def sendNext (who : Caller) : Option (Retention B R P) :=
  match s.call who with
  | none => none
  | some c =>
    match c.opening with
    | some cy =>
      some { s with
        call := update s.call who (some { c with opening := none })
        cycles := update s.cycles c.table (s.cycles c.table ++ [cy]) }
    | none =>
      match c.noting with
      | some pos =>
        some ({ s with
          call := update s.call who (some { c with noting := none }) }.note c.table pos)
      | none =>
        match c.shares with
        | [] => none
        | (o, sh) :: rest =>
          some { s with
            call := update s.call who (some { c with noting := some sh.high, shares := rest })
            index := update s.index o
              ((s.index o).add ⟨sh.id, c.table, sh.high, 0, false, false, sh.isPartial⟩)
            queued := update s.queued o (s.queued o ++ [sh]) }

/-! ## Workers and acks -/

/-- A cycle with one delivery more. -/
def ShareCycle.delivered (w : String) (id : Nat) (cy : ShareCycle R P) : ShareCycle R P :=
  if cy.id = id then { cy with missing := cy.missing.filter (· ≠ w) } else cy

def ShareCycle.complete (cy : ShareCycle R P) : Bool := cy.missing.isEmpty

/-- A delivery of a staged table: the complete cycles at the front commit.  Each is to be
recorded for its owners, and released for all owners of the table. -/
def onStagedBatch (w : String) (id : Nat) : Retention B R P :=
  let t := su.serves w
  let cycles := (s.cycles t).map (ShareCycle.delivered w id)
  let run := cycles.takeWhile ShareCycle.complete
  { s with
    cycles := update s.cycles t (cycles.dropWhile ShareCycle.complete)
    settled := s.settled ++ run.flatMap ShareCycle.rows
    records := fun o =>
      s.records o ++ run.flatMap fun cy => if o ∈ cy.owners then cy.pos.toList else []
    acks := fun o =>
      s.acks o ++ if o ∈ su.owners t then run.flatMap fun cy => cy.pos.toList else [] }

/-- A worker is done with its next share. -/
def deliver (w : String) : Option (Retention B R P) :=
  match s.queued w with
  | [] => none
  | sh :: rest =>
    let s := { s with
      queued := update s.queued w rest
      reporting := update s.reporting w sh.high }
    if su.staged (su.serves w) then some (s.onStagedBatch su w sh.id)
    else some { s with settled := s.settled ++ sh.rows }

/-- `OnAck`: what the position covers leaves the index; it is recorded unless the table
is staged. -/
def onAck [Position P] (w : String) : Option (Retention B R P) :=
  match s.acks w with
  | [] => none
  | p :: rest =>
    some { s with
      acks := update s.acks w rest
      index := update s.index w ((s.index w).truncate (su.serves w) p).2
      records :=
        if su.staged (su.serves w) then s.records else update s.records w (s.records w ++ [p]) }

/-! ## The confirmed position -/

/-- The loop of `Frontier`: the greatest position, if all of them compare. -/
def frontierFrom [Position P] (best : P) : List P → Option P
  | [] => some best
  | p :: rest =>
    match Position.compare p best with
    | .incomparable => none
    | .greater => frontierFrom p rest
    | _ => frontierFrom best rest

/-- `Frontier`. -/
def frontier [Position P] : List P → Option P
  | [] => none
  | p :: rest => frontierFrom p rest

/-- What the given workers have recorded; nothing when one has recorded nothing. -/
def recorded (ws : List String) : Option (List P) := ws.mapM s.byWorker

/-- `Min`, over the workers in the order they are met. -/
def least [Position P] [Meeter P] (owing : List String)
    (dispatched : Option P) (order : List String) : Option P :=
  if order.isEmpty then none
  else
    match s.recorded (order.filter (· ∈ owing)) with
    | none => none
    | some [] =>
      match dispatched with
      | some p => some p
      | none => (s.recorded order).bind fun vals => (Position.minSafe vals).toOption.join
    | some (v :: vals) => (Position.minSafe (v :: vals)).toOption.join

/-- The tables with batches in the gate or an accumulator. -/
def gateBuffered : List String :=
  su.tables.filter fun t => !(s.hand.buf t).isEmpty || !(s.hand.accum t).isEmpty

/-- The table has a call under way with shares that are not registered. -/
def calling (t : String) : Bool := [Caller.pump, Caller.drain].any fun who =>
    (s.call who).any fun c => c.table == t && !(c.opening.isNone && c.shares.isEmpty)

/-- The rows in no buffer and no index: those in the reader's channel, with the pump or
with a drain, and all of a table with such a call. -/
def onTheWay : List R := (s.out ++ su.tables.flatMap fun t =>
      s.hand.draining t ++ s.hand.pump.taken t ++ s.hand.pump.hand su.toHandoverSetup t).flatMap
    su.rowsOf ++ s.read.filter fun r => s.calling (su.tableOf r)

/-- `HeldTables` of the pause. -/
def pauseBuffered : List String := su.tables.filter fun t => !(s.hand.held t).isEmpty

/-- The next read of `confirmedPosition`. -/
def confirmStep [Position P] [Meeter P] : RetentionAction B P → Option (Retention B R P)
  | .readFrontier order =>
    if s.stage matches .idle then
      if order.Perm su.tables then
        some { s with stage := .frontier (frontier (order.filterMap s.sent)) }
      else none
    else none
  | .readLoads queued =>
    match s.stage with
    | .frontier f => some { s with stage := .loads f queued }
    | _ => none
  | .readGate =>
    match s.stage with
    | .loads f owing =>
      some { s with
        stage := .gated f (owing ++ (s.gateBuffered su).flatMap su.owners)
        since := s.onTheWay su }
    | _ => none
  | .readPause =>
    match s.stage with
    | .gated f owing =>
      some { s with
        stage := .reading f (owing ++ (s.pauseBuffered su).flatMap su.owners) su.workers }
    | _ => none
  | .readIndex w =>
    match s.stage with
    | .reading f owing todo =>
      if w ∈ todo then
        let owing := if (s.index w).head.isEmpty then owing else owing ++ [w]
        some { s with stage := .reading f owing (todo.filter (· ≠ w)) }
      else none
    | _ => none
  | .confirm order =>
    match s.stage with
    | .reading f owing [] =>
      if order.Perm su.workers then
        some { s with
          stage := .idle
          answers := s.answers ++ (s.least owing f order).toList }
      else none
    | _ => none
  | _ => none

/-! ## The pipeline -/

def step [Position P] [Meeter P] (su : RetentionSetup B R P) (s : Retention B R P) :
    RetentionAction B P → Option (Retention B R P)
  | .read b => if su.table b ∈ su.tables then some (s.readBatch su b) else none
  | .pull =>
    match s.out with
    | [] => none
    | b :: rest =>
      (HandState.step su.toHandoverSetup s.hand (.pull b)).map fun h =>
      { s with out := rest, hand := h }
  | .hand (.pull _) => none
  | .hand (.publish _ _) => none
  | .hand a => s.handStep su a
  | .sendNext who => s.sendNext who
  | .deliver w => s.deliver su w
  | .reportAck w =>
    match s.reporting w with
    | none => none
    | some p =>
      some { s with
        reporting := update s.reporting w none
        acks := update s.acks w (s.acks w ++ [p]) }
  | .onAck w => s.onAck su w
  | .record w =>
    match s.records w with
    | [] => none
    | p :: rest =>
      some { s with
        records := update s.records w rest
        byWorker := update s.byWorker w (some p) }
  | .marker w pos =>
    if s.marking.isSome then none
    else
      some { s with
        seq := s.seq + 1
        index := update s.index w
          ((s.index w).add ⟨s.seq + 1, su.serves w, some pos, 0, false, true, false⟩)
        marking := some (su.serves w, pos) }
  | .noteMarker =>
    s.marking.map fun x => { s with
      sent := update s.sent x.1 (some x.2)
      marking := none }
  | .markerAck w id =>
    some { s with index := update s.index w ((s.index w).releaseMarker id).2 }
  | a => s.confirmStep su a

end Retention

end Urutau
