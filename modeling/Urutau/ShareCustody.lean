import Urutau.InFlightRuns
import Urutau.PartitionedSend

/-!
# Custody of staged shares

A share of a cycle is queued for its owner, and once streamed kept on the owner's
sent list until an ack releases it from the in-flight index: a session that is
lost has the whole list streamed again to the next one.  The worker's receiver
skips what the table's position covers and acks it at once; the rest goes to the
table's batcher, which buffers one cycle at a time, and from there to the
committer, which ships each delivery and then acks it.  A Closes marker is acked
by its id.  A session's messages reach the coordinator in order; those of a
superseded session are dropped.

The run ends at the first commit that fails.  The flow budget is left out.
-/

namespace Urutau

/-- What a share carries: a batch's rows, a window's Closes marker, or the
completion of a snapshot. -/
inductive ShareKind
  | rows
  | closes
  | done
  deriving DecidableEq, Repr

/-- A batch on its way to one worker.  `high` is the high position of rows and
the low position of the other two. -/
structure Share (P : Type) where
  id : Nat
  table : String
  high : Option P
  isPartial : Bool
  kind : ShareKind
  deriving DecidableEq, Repr

namespace Share

variable {P : Type}

/-- The share in the in-flight index. -/
def entry (sh : Share P) : InFlightBatch P where
  id := sh.id
  table := sh.table
  high := sh.high
  bytes := 0
  oversized := false
  marker := sh.kind = .closes
  isPartial := sh.isPartial

/-- The share's metadata: only rows have a high position. -/
def info (sh : Share P) : BatchMeta P where
  batchId := sh.id
  table := sh.table
  highPos := if sh.kind = .rows then sh.high else none
  isPartial := sh.isPartial
  window := none

end Share

/-- An item of the committer's queue: a batch to stage, with the position it
delivers and the one it acks, or markers to ack. -/
inductive ReadyItem (P : Type)
  | batch (seq : Nat) (windowLost : Bool) (position ack : Option P)
  | markers (ids : List Nat)
  deriving DecidableEq, Repr

/-- A message of the worker's session. -/
inductive WorkerMessage (P : Type)
  | staged (table : String) (seq : Nat) (windowLost : Bool) (position : Option P)
  | ack (table : String) (pos : P)
  | markerAck (table : String) (id : Nat)
  deriving DecidableEq, Repr

/-- A map with one entry set. -/
def setAt {V : Type} (m : String → V) (key : String) (v : V) : String → V :=
  fun k => if k = key then v else m k

/-- A worker's session: the tables' positions it read, what was streamed to it
and not received, each table's pipeline, and its messages on their way. -/
structure WorkerSession (P : Type) where
  epoch : Nat
  committed : String → Option P
  inbox : List (Share P)
  ingest : String → List (Share P)
  pending : String → Option (Share P)
  pendingMarkers : String → List Nat
  ready : String → List (ReadyItem P)
  wire : List (WorkerMessage P)

namespace WorkerSession

variable {P : Type} [Position P]

/-- `DoGet` opens: what was sent and not acked is streamed again. -/
def opened (epoch : Nat) (committed : String → Option P) (redeliver : List (Share P)) :
    WorkerSession P where
  epoch
  committed
  inbox := redeliver
  ingest _ := []
  pending _ := none
  pendingMarkers _ := []
  ready _ := []
  wire := []

/-- `apply` of the receiver. -/
def receive (ses : WorkerSession P) : Option (WorkerSession P) :=
  match ses.inbox with
  | [] => none
  | sh :: rest =>
    some (match skipCovered ses.committed sh.info with
      | some (table, pos) =>
        { ses with inbox := rest, wire := ses.wire ++ pos.toList.map (.ack table) }
      | none =>
        { ses with
          inbox := rest
          ingest := setAt ses.ingest sh.table (ses.ingest sh.table ++ [sh]) })

/-- The commit of a buffered cycle.  A window's rows carry no position. -/
def commitItem (sh : Share P) : ReadyItem P :=
  if sh.kind = .closes then .batch sh.id false none none
  else .batch sh.id false sh.high sh.high

/-- What a flush hands to the committer. -/
def flushItems (ses : WorkerSession P) (table : String) : List (ReadyItem P) :=
  (ses.pending table).toList.map commitItem ++
    if ses.pendingMarkers table = [] then [] else [.markers (ses.pendingMarkers table)]

/-- `flush` of the batcher. -/
def flush (ses : WorkerSession P) (table : String) : WorkerSession P :=
  { ses with
    ready := setAt ses.ready table (ses.ready table ++ ses.flushItems table)
    pending := setAt ses.pending table none
    pendingMarkers := setAt ses.pendingMarkers table [] }

/-- `addPending`: another cycle is flushed first. -/
def addPending (ses : WorkerSession P) (sh : Share P) : WorkerSession P :=
  let ses := if (ses.pending sh.table).isSome then ses.flush sh.table else ses
  { ses with pending := setAt ses.pending sh.table (some sh) }

/-- The committer's queue of a table grows. -/
def toReady (ses : WorkerSession P) (table : String) (items : List (ReadyItem P)) :
    WorkerSession P :=
  { ses with ready := setAt ses.ready table (ses.ready table ++ items) }

/-- `handleIngest` of the batcher.  A Closes marker either finds rows to emit or
owes an empty delivery. -/
def handleIngest (ses : WorkerSession P) (table : String) (rows windowLost : Bool) :
    Option (WorkerSession P) :=
  match ses.ingest table with
  | [] => none
  | sh :: rest =>
    let ses := { ses with ingest := setAt ses.ingest table rest }
    some (match sh.kind with
      | .rows => ses.addPending sh
      | .closes =>
        if rows then
          addPending { ses with
            pendingMarkers := setAt ses.pendingMarkers sh.table
              (ses.pendingMarkers sh.table ++ [sh.id]) } sh
        else ses.toReady sh.table [.batch sh.id windowLost sh.high sh.high, .markers [sh.id]]
      | .done => (ses.flush sh.table).toReady sh.table [.batch sh.id false none sh.high])

/-- The messages an item of the committer's queue becomes. -/
def messagesOf (table : String) : ReadyItem P → List (WorkerMessage P)
  | .batch seq lost pos ack => .staged table seq lost pos :: ack.toList.map (.ack table)
  | .markers ids => ids.map (.markerAck table)

/-- The committer takes one item. -/
def commitReady (ses : WorkerSession P) (table : String) : Option (WorkerSession P) :=
  match ses.ready table with
  | [] => none
  | item :: rest => some { ses with
    ready := setAt ses.ready table rest
    wire := ses.wire ++ messagesOf table item }

end WorkerSession

/-- Where a worker stands: away, attached and reading its tables' positions, or
streaming. -/
inductive WorkerLink (P : Type)
  | away
  | opening (epoch : Nat) (committed : String → Option P)
  | live (ses : WorkerSession P)

/-- The coordinator with its workers.  History: the position that each cycle of a
table was sent with, under the cycle's number, and the one the table had at
boot. -/
structure CustodyState (P : Type) where
  tracker : StagedState P Unit
  batchSeq : Nat
  index : String → PositionIndex P
  queue : String → List (Share P)
  sent : String → List (Share P)
  link : String → WorkerLink P
  durable : String → Option P
  latest : String → Option P
  failed : Bool
  marks : String → List (Nat × P)

inductive CustodyAction (P : Type)
  | register (worker : String)
  | loseWorker (worker : String)
  | attach (worker : String)
  | doGet (worker : String)
  | stream (worker : String)
  | receive (worker : String)
  | handleIngest (worker table : String) (rows windowLost : Bool)
  | tick (worker table : String)
  | commitReady (worker table : String)
  | onMessage (worker : String) (answers : Nat → Cycles.HostAnswer)
  | onStaleMessage (worker : String) (epoch : Nat) (m : WorkerMessage P)
      (answers : Nat → Cycles.HostAnswer)
  | enqueuePartitioned (b : Batch P)
  | sendClosesPending (table : String) (owners : List String) (pos : P)
  | finishSnapshot (table owner : String)

namespace CustodyState

variable {P : Type} [Position P] [Meeter P] (su : Partitions P) (s : CustodyState P)

def init : CustodyState P where
  tracker := StagedState.init
  batchSeq := 0
  index _ := ⟨[], fun _ => none⟩
  queue _ := []
  sent _ := []
  link _ := .away
  durable := su.boot
  latest _ := none
  failed := false
  marks t := (su.boot t).toList.map (0, ·)

/-! ## Sending -/

/-- The share of a batch for one worker. -/
def shareFor (b : Batch P) (id : Nat) (worker : String) : Option (Share P) :=
  ((shares su b).find? fun x => x.1 == worker && !x.2.isEmpty).map fun x =>
    ⟨id, b.table, highOf x.2, b.isPartial, .rows⟩

/-- `deliverBatch` to each worker that has a share. -/
def deliverBatch (share : String → Option (Share P)) : CustodyState P :=
  { s with
    index := fun w => (share w).elim (s.index w) fun sh => (s.index w).add sh.entry
    queue := fun w => s.queue w ++ (share w).toList }

/-- The same share for each of the workers. -/
def toEach (workers : List String) (sh : Share P) : String → Option (Share P) :=
  fun w => if w ∈ workers then some sh else none

/-- The position of the last share of a batch, in the order of the owners. -/
def lastHigh (b : Batch P) : Option P :=
  ((shares su b).filter fun x => !x.2.isEmpty).getLast?.bind fun x => highOf x.2

/-- The next cycle is noted under its number, with the positions it is sent with
and the one noted last for the table. -/
def noteCycle (tracker : StagedState P Unit) (table : String)
    (last : Option P) (positions : List P) : CustodyState P :=
  { s with
    tracker
    batchSeq := s.batchSeq + 1
    latest := setAt s.latest table (last.or (s.latest table))
    marks := setAt s.marks table (s.marks table ++ positions.map (s.batchSeq + 1, ·)) }

/-! ## Releases -/

/-- `dropSent`, with what a release popped from the worker's index. -/
def dropSent (worker : String) (out : List (InFlightBatch P) × PositionIndex P) : CustodyState P :=
  { s with
    index := setAt s.index worker out.2
    sent := setAt s.sent worker
      ((s.sent worker).filter fun sh => decide (sh.id ∉ out.1.map InFlightBatch.id)) }

/-- `releaseCommittedCycles`: the table is durable through `pos`, and every owner's
index is truncated there. -/
def releaseCommittedCycles (owners : List String) (table : String) (pos : P) : CustodyState P :=
  owners.foldl (fun s w => s.dropSent w ((s.index w).truncate table pos))
    { s with durable := setAt s.durable table (some pos) }

/-- The commits of a run of cycles, one by one. -/
def committed (table : String) (s : CustodyState P) :
    Cycle P Unit × Cycles.Outcome P → CustodyState P
  | (_, .committed (some pos)) => s.releaseCommittedCycles (su.owners table) table pos
  | _ => s

/-- `onStagedBatch`. -/
def onStagedBatch (worker : String)
    (d : StagedDelivery P Unit) (answers : Nat → Cycles.HostAnswer) : CustodyState P :=
  let outs := (s.tracker.cycles.onDelivery (s.tracker.epoch worker) worker d answers).1
  outs.foldl (committed su d.table) { s with
      tracker := s.tracker.onDelivery worker d answers
      failed := Cycles.hasFailed outs }

/-- `onAck` and `onStagedBatch` for one message of a session of the given
generation. -/
def process (worker : String) (epoch : Nat)
    (answers : Nat → Cycles.HostAnswer) : WorkerMessage P → CustodyState P
  | .staged table seq lost pos =>
    s.onStagedBatch su worker ⟨table, seq, epoch, (), pos, none, none, lost⟩ answers
  | .ack table pos =>
    if s.tracker.epoch worker = some epoch then
      s.dropSent worker ((s.index worker).truncate table pos)
    else s
  | .markerAck _ id =>
    if s.tracker.epoch worker = some epoch then
      s.dropSent worker ((s.index worker).releaseMarker id)
    else s

/-! ## Steps -/

/-- A step of the worker's live session. -/
def ofSession (worker : String)
    (f : WorkerSession P → Option (WorkerSession P)) : Option (CustodyState P) :=
  match s.link worker with
  | .live ses => (f ses).map fun ses' => { s with link := setAt s.link worker (.live ses') }
  | _ => none

/-- What is streamed reaches a session that is open. -/
def WorkerLink.streamed (link : WorkerLink P) (sh : Share P) : WorkerLink P :=
  match link with
  | .live ses => .live { ses with inbox := ses.inbox ++ [sh] }
  | _ => link

def step (a : CustodyAction P) : Option (CustodyState P) :=
  if s.failed then none
  else match a with
  | .register worker =>
    (s.tracker.step (.register worker)).map fun tracker => { s with tracker }
  | .loseWorker worker =>
    (s.tracker.step (.supersede worker)).map fun tracker =>
    { s with tracker, link := setAt s.link worker .away }
  | .attach worker =>
    match s.link worker, s.tracker.epoch worker with
    | .away, some epoch => some { s with link := setAt s.link worker (.opening epoch s.durable) }
    | _, _ => none
  | .doGet worker =>
    match s.link worker with
    | .opening epoch committed => some { s with
      link := setAt s.link worker (.live (.opened epoch committed (s.sent worker))) }
    | _ => none
  | .stream worker =>
    match s.queue worker with
    | [] => none
    | sh :: rest => some { s with
      queue := setAt s.queue worker rest
      sent := setAt s.sent worker (s.sent worker ++ [sh])
      link := setAt s.link worker (WorkerLink.streamed (s.link worker) sh) }
  | .receive worker => s.ofSession worker WorkerSession.receive
  | .handleIngest worker table rows lost =>
    s.ofSession worker fun ses => ses.handleIngest table rows lost
  | .tick worker table => s.ofSession worker fun ses => some (ses.flush table)
  | .commitReady worker table => s.ofSession worker fun ses => ses.commitReady table
  | .onMessage worker answers =>
    match s.link worker with
    | .live ses =>
      match ses.wire with
      | [] => none
      | m :: rest =>
        some ({ s with link := setAt s.link worker (.live { ses with wire := rest }) }.process su
          worker ses.epoch answers m)
    | _ => none
  | .onStaleMessage worker epoch m answers =>
    if (s.tracker.epoch worker).any fun cur => decide (epoch < cur) then
      some (s.process su worker epoch answers m)
    else none
  | .enqueuePartitioned b =>
    if (1 < (su.owners b.table).length) ∧
        ∀ row ∈ b.rows, su.route b.table row < (su.owners b.table).length then
      (s.tracker.step (.expectAt b.table (s.batchSeq + 1) (cycleOwners su b) b.highPos)).map
        fun tracker => (s.noteCycle tracker b.table (lastHigh su b)
          (b.rows.map (·.position))).deliverBatch (shareFor su b (s.batchSeq + 1))
    else none
  | .sendClosesPending table owners pos =>
    if owners.Nodup then
      (s.tracker.step (.expectWindow table (s.batchSeq + 1) owners)).map fun tracker =>
      (s.noteCycle tracker table (some pos) [pos]).deliverBatch
        (toEach owners ⟨s.batchSeq + 1, table, some pos, false, .closes⟩)
    else none
  | .finishSnapshot table owner =>
    match s.latest table with
    | none => none
    | some pos =>
      (s.tracker.step (.expectAt table (s.batchSeq + 1) [owner] none)).map fun tracker =>
      (s.noteCycle tracker table (some pos) [pos]).deliverBatch
        (toEach [owner] ⟨s.batchSeq + 1, table, some pos, false, .done⟩)

/-- A cycle still waits for a worker's delivery. -/
def Missing (c : Cycles P Unit) (table : String) (seq : Nat) (worker : String) : Prop :=
  ∃ cy, c.openCycles table seq = some cy ∧ worker ∈ cy.owners ∧ worker ∉ cy.delivered

end CustodyState

end Urutau
