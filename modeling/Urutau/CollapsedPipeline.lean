import Urutau.GuardedRun
import Urutau.LastWrite

/-!
# The collapsed pipeline during a snapshot

In collapsed mode one process runs everything: a reader that decodes the
source log, a relay that forwards its batches to the worker, the snapshot
orchestrator, and the worker's batcher and committer.  They run concurrently
and meet only at channels, locks and handshakes.  The machine below has one
action for each point at which another goroutine may run, for one table; the
batches of other tables pass through the same relay and touch nothing here.

A live change is named by its index in the stream, so "newer than the SELECT"
is a comparison of numbers.  Three fields are history and steer nothing:
`selects`, the point of the log at which a chunk was read, `emitted`, what the
batcher has taken into its buffer so far, in order, and `closed`, the chunks
whose Closes marker it has handled.
-/

namespace Urutau

open LastWrite

/-- The snapshot state of a table, in its properties or on its worker. -/
inductive SnapshotState
  | notStarted
  | inProgress
  | complete
  deriving DecidableEq, Repr

inductive WriteMode
  | upsert
  | append
  deriving DecidableEq, Repr

/-- The size bounds of the relay's gate. -/
def relayGateMaxEvents : Nat := 1024

@[inherit_doc relayGateMaxEvents]
def relayGateMaxBytes : Nat := 64 * 2 ^ 20

/-- What the batcher buffers: a live change, or a row of a chunk's window,
read at `selectAt`. -/
inductive Emit (K V : Type)
  | live (index : Nat)
  | row (chunk : Nat) (key : K) (value : V) (selectAt : Nat)
  deriving DecidableEq, Repr

/-- A half-open key range; the last chunk has no upper end. -/
structure Chunk (K : Type) where
  low : K
  high : Option K
  deriving DecidableEq, Repr

/-- `Chunks`: the ranges between consecutive bounds. -/
def chunksOf {K : Type} : List K → List (Chunk K)
  | [] => []
  | [b] => [⟨b, none⟩]
  | b :: b' :: rest => ⟨b, some b'⟩ :: chunksOf (b' :: rest)

/-- Everything a run is given: the source's log, split where the reader
started, the plan of the snapshot, and the parameters of the batcher.
`resuming` says that the sink held bounds and a pending list to resume from,
`begun` that an earlier run set the state in progress and wrote no bounds, and
`heldRows` that an earlier run left rows in a table it never snapshotted. -/
structure Setup (K V : Type) where
  history : List (Write K V)
  log : List (Write K V)
  bounds : List K
  plan : List Nat
  plan_nodup : plan.Nodup
  boundsAt : Nat
  resuming : Bool
  begun : Bool
  heldRows : Bool
  mode : WriteMode
  maxRows : Nat
  maxBytes : Nat
  batchBytes : List (Emit K V) → Nat
  liveBytes : List Nat → Nat
  keepsDelete : Nat → Bool
  guardHits : List K → K → Bool

namespace Setup

variable {K V : Type} [LinearOrder K] (su : Setup K V)

/-- The source table once `n` changes of the stream are committed. -/
def tableAt (n : Nat) : Table K V := fold (fun _ => none) (su.history ++ su.log.take n)

/-- The key lies in the chunk's range. -/
def inChunk (chunk : Nat) (k : K) : Bool :=
  match (chunksOf su.bounds)[chunk]? with
  | none => false
  | some ch => decide (ch.low ≤ k) && (ch.high.all fun h => decide (k < h))

/-- A chunk SELECT at one point of the log. -/
def selectChunk (chunk n : Nat) : List (K × V) :=
  ((su.history ++ su.log.take n).map Write.key).dedup.filterMap fun k =>
    if su.inChunk chunk k then (su.tableAt n k).map (fun v => (k, v)) else none

/-- The key of a live change. -/
def keyOf (i : Nat) : Option K := (su.log[i]?).map Write.key

end Setup

/-- One chunk's SELECT rows in the worker, with the keys live events have
touched since. -/
structure Window (K V : Type) where
  rows : List (K × V)
  selectAt : Nat
  touched : List K
  deriving DecidableEq, Repr

/-- What travels to the batcher: a batch of live changes, tagged with a window
id when the gate released it, or a Closes marker. -/
inductive Ingest
  | live (batch : List Nat) (tag : Option Nat)
  | closes (chunk : Nat)
  deriving DecidableEq, Repr

/-- The relay's gate, which has a single window. -/
structure RelayGate where
  on : Bool
  buf : List (List Nat)
  ready : Option Nat
  deriving DecidableEq, Repr

/-- Where the relay stands in a Release's drain of the reader. -/
inductive DrainMode
  | idle
  | requested
  | accepted
  deriving DecidableEq, Repr

/-- Where the orchestrator stands.  `rest` are the chunks still to do. -/
inductive Phase (K V : Type)
  | boot
  | started
  | between (rest : List Nat)
  | gated (chunk : Nat) (rest : List Nat)
  | selected (chunk : Nat) (rest : List Nat) (rows : List (K × V)) (selectAt : Nat)
  | stored (chunk : Nat) (rest : List Nat)
  | flushing (chunk : Nat) (rest : List Nat)
  | flushed (chunk : Nat) (rest : List Nat)
  | waiting (chunk : Nat) (rest : List Nat) (high : Nat)
  | caughtUp (chunk : Nat) (rest : List Nat)
  | releasing (chunk : Nat) (rest : List Nat)
  | drained (chunk : Nat) (rest : List Nat)
  | released (chunk : Nat) (rest : List Nat)
  | done

/-- A batch on its way to the committer, with the snapshot progress it
commits. -/
structure Commit (K V : Type) where
  items : List (Emit K V)
  state : Option SnapshotState
  pending : Option (List Nat)
  deriving DecidableEq, Repr

/-- What a flush read of the snapshot's progress when it began.  `split` says
that it commits the rows the guard does not know first. -/
structure Prepared (K : Type) where
  split : Bool
  state : Option SnapshotState
  pending : Option (List Nat)
  guard : List K
  deriving DecidableEq, Repr

/-- What the sink holds: the rows committed and the snapshot properties. -/
structure Durable (K V : Type) where
  items : List (Emit K V)
  state : SnapshotState
  hasBounds : Bool
  pending : List Nat
  deriving DecidableEq, Repr

/-- The whole process, and the sink. -/
structure Pipeline (K V : Type) where
  committed : Nat
  read : Nat
  pulled : Nat
  batchCh : List (List Nat)
  hand : Option (List Nat)
  gate : RelayGate
  gateChk : Nat
  flushGate : Bool
  drain : DrainMode
  phase : Phase K V
  ingest : List Ingest
  windows : Nat → Option (Window K V)
  buffered : List (Emit K V)
  bufferedBytes : Nat
  prepared : Option (Prepared K)
  snapState : Option SnapshotState
  snapPending : Option (List Nat)
  snapResumed : Bool
  guard : Option (List K)
  ready : List (Commit K V)
  durable : Durable K V
  selects : Nat → Option Nat
  emitted : List (Emit K V)
  closed : List Nat

namespace Pipeline

variable {K V : Type} [LinearOrder K] (su : Setup K V) (s : Pipeline K V)

/-- `SetSnapshotState` of the worker. -/
def setSnapshotState (state : SnapshotState) (pending : Option (List Nat)) : Pipeline K V :=
  match state with
  | .complete =>
    { s with snapState := some state, snapPending := pending, guard := none, snapResumed := false }
  | .inProgress =>
    { s with snapState := some state, snapPending := pending, guard := some (s.guard.getD []) }
  | .notStarted => { s with snapState := some state, snapPending := pending }

/-- `RemoveFromPending`: the sorted list without one chunk. -/
def removeFromPending (pending : List Nat) (chunk : Nat) : List Nat :=
  (pending.filter (fun c => c ≠ chunk)).insertionSort (· ≤ ·)

/-- The gate's window has reached one of its bounds. -/
def gateFull (g : RelayGate) : Bool := decide (relayGateMaxEvents ≤ g.buf.length) ||
    decide (relayGateMaxBytes ≤ (g.buf.map su.liveBytes).sum)

/-- `sendWindowed`: held batches go out tagged, in order. -/
def sendWindowed (tag : Nat) (items : List (List Nat)) : Pipeline K V :=
  { s with ingest := s.ingest ++ items.map (fun b => .live b (some tag)) }

/-- The relay takes a batch from the reader: the gate holds it while its window
is open, draining first when it is full and the chunk is in the worker's
window; a full gate whose chunk is not ready blocks the relay. -/
def relayTake : Option (Pipeline K V) :=
  match s.hand, s.batchCh with
  | none, b :: rest =>
    if s.drain = .requested then none
    else if s.gate.on then
      if gateFull su s.gate then
        match s.gate.ready with
        | none => none
        | some chunk =>
          some { s.sendWindowed chunk s.gate.buf with
            batchCh := rest, gate := { s.gate with buf := [b] } }
      else some { s with batchCh := rest, gate := { s.gate with buf := s.gate.buf ++ [b] } }
    else some { s with batchCh := rest, hand := some b }
  | _, _ => none

/-- A batch the gate did not hold goes to the worker untagged. -/
def relaySend : Option (Pipeline K V) :=
  match s.hand with
  | none => none
  | some b => some { s with hand := none, ingest := s.ingest ++ [.live b none] }

/-- `drainGate`: on a requested flush the held batches go out tagged and the
window is sealed. -/
def drainGate : Pipeline K V :=
  if s.flushGate then
    { s.sendWindowed s.gateChk s.gate.buf with
      flushGate := false, gate := { on := false, buf := [], ready := none } }
  else s

/-- The first half of `commitPending`: a flush reads the progress once and
decides by it whether the buffer is split. -/
def beginFlush : Option (Pipeline K V) :=
  if s.buffered = [] ∨ s.prepared.isSome then none
  else some { s with
    prepared := some
      { split := decide (s.snapState = some .inProgress) && !s.snapResumed &&
          decide (su.mode = .upsert)
        state := s.snapState
        pending := s.snapPending
        guard := s.guard.getD [] } }

/-- `partitionSnapshotRows`, the rows the guard does not know. -/
def untouchedRows (p : Prepared K) (items : List (Emit K V)) : List (Emit K V) :=
  items.filter fun e => match e with
    | .row _ k _ _ => !su.guardHits p.guard k
    | .live _ => false

/-- `partitionSnapshotRows`, everything else. -/
def restRows (p : Prepared K) (items : List (Emit K V)) : List (Emit K V) :=
  items.filter fun e => match e with
    | .row _ k _ _ => su.guardHits p.guard k
    | .live _ => true

/-- `appendRowsToKeep`: an append table keeps the deletes that carry a row. -/
def appendRowsToKeep (items : List (Emit K V)) : List (Emit K V) :=
  items.filter fun e => match e with
    | .live i => ((su.log[i]?).any fun w => w.value.isSome) || su.keepsDelete i
    | .row _ _ _ _ => true

/-- A batch is sent to the committer unless it is empty. -/
def sendReady (items : List (Emit K V)) (state : Option SnapshotState)
    (pending : Option (List Nat)) : List (Commit K V) :=
  if items = [] then [] else [⟨items, state, pending⟩]

/-- The commits of one flush.  During a fresh upsert snapshot the rows the
guard does not know go out first, as a pure append, and the rest second, both
with the same progress; `collapseAndSend` reads the progress of an unsplit
upsert a second time. -/
def commitsOf (p : Prepared K) : List (Commit K V) :=
  if p.split then
    sendReady (untouchedRows su p s.buffered) p.state p.pending ++
      sendReady (restRows su p s.buffered) p.state p.pending
  else
    match su.mode with
    | .append => sendReady (appendRowsToKeep su s.buffered) p.state p.pending
    | .upsert => sendReady s.buffered s.snapState s.snapPending

/-- The second half of `commitPending`. -/
def flush : Option (Pipeline K V) :=
  match s.prepared with
  | none => none
  | some p =>
    some { s with
      ready := s.ready ++ commitsOf su s p, buffered := [], bufferedBytes := 0, prepared := none }

/-- The buffer has reached a bound of the batcher. -/
def bufferFull : Bool := (decide (0 < su.maxRows) && decide (su.maxRows ≤ s.buffered.length)) ||
    decide (su.maxBytes ≤ s.bufferedBytes)

/-- `addPending`: buffer a batch.  When a bound is reached the batcher flushes
before it takes the next unit. -/
def addPending (items : List (Emit K V)) : Pipeline K V :=
  { s with
    buffered := s.buffered ++ items
    bufferedBytes := s.bufferedBytes + su.batchBytes items
    emitted := s.emitted ++ items }

/-- The keys of a batch of live changes. -/
def batchKeys (batch : List Nat) : List K := batch.filterMap su.keyOf

/-- A tagged batch touches, in a window, the keys the window holds. -/
def Window.touch (w : Window K V) (keys : List K) : Window K V :=
  { w with touched := w.touched ++ keys.filter (fun k => k ∈ w.rows.map Prod.fst) }

/-- `markBatchSideEffects`: a live key is marked in the guard while the
snapshot is in progress, and a tagged batch touches every open window. -/
def markBatchSideEffects (batch : List Nat) (tag : Option Nat) : Pipeline K V :=
  let keys := batchKeys su batch
  let s := if s.snapState = some .inProgress then
      { s with guard := s.guard.map (fun g => g ++ keys) }
    else s
  if tag.isSome then { s with windows := fun c => (s.windows c).map (fun w => Window.touch w keys) }
  else s

/-- The rows of a window that no tagged event touched. -/
def Window.kept (chunk : Nat) (w : Window K V) : List (Emit K V) :=
  (w.rows.filter (fun r => r.1 ∉ w.touched)).map (fun r => .row chunk r.1 r.2 w.selectAt)

/-- `handleCloses`: the window's untouched rows are buffered.  A window this
worker does not hold emits nothing. -/
def handleCloses (chunk : Nat) : Pipeline K V :=
  match s.windows chunk with
  | none => { s with closed := s.closed ++ [chunk] }
  | some w =>
    let s := { s with
      windows := fun c => if c = chunk then none else s.windows c
      closed := s.closed ++ [chunk] }
    if Window.kept chunk w = [] then s else s.addPending su (Window.kept chunk w)

/-- The batcher is at its select: no flush is under way and none is due. -/
def batcherIdle : Bool := s.prepared.isNone && (s.buffered.isEmpty || !bufferFull su s)

/-- `handleIngest`, for the next unit in the batcher's channel. -/
def handleIngest : Option (Pipeline K V) :=
  if batcherIdle su s then
    match s.ingest with
    | [] => none
    | .live batch tag :: rest =>
      some (({ s with ingest := rest }.markBatchSideEffects su batch tag).addPending su
        (batch.map .live))
    | .closes chunk :: rest => some ({ s with ingest := rest }.handleCloses su chunk)
  else none

/-- The committer commits the next ready batch.  The sinks write a snapshot
state and a pending list only when the batch carries them. -/
def commitNext : Option (Pipeline K V) :=
  match s.ready with
  | [] => none
  | cm :: rest =>
    some { s with
      ready := rest
      durable := { s.durable with
        items := s.durable.items ++ cm.items
        state := cm.state.getD s.durable.state
        pending := cm.pending.getD s.durable.pending } }

/-- `AddWindowRows`: a window the worker already holds keeps its rows. -/
def addWindowRows (chunk : Nat) (rows : List (K × V)) (selectAt : Nat) : Pipeline K V :=
  let windows := match s.windows chunk with
    | some _ => s.windows
    | none => fun c => if c = chunk then some ⟨rows, selectAt, []⟩ else s.windows c
  { s with
    windows
    gate := if s.gate.on then { s.gate with ready := some chunk } else s.gate }

end Pipeline

/-- One step of one goroutine. -/
inductive Action
  | sourceCommit
  | readerDecode
  | pull (more : Nat)
  | relayTake
  | relaySend
  | relayDrainGate
  | relayAckGateFlush
  | relayTakeFlushReq
  | drainTimeout
  | drainAccept
  | drainDone
  | startSnapshot
  | persist
  | skipChunk
  | gateOn
  | select
  | addWindowRows
  | gateFlush
  | master
  | waitCaughtUp
  | release
  | sendMarker
  | callback
  | finish
  | handleIngest
  | beginFlush
  | flush
  | commit

namespace Pipeline

variable {K V : Type} [LinearOrder K] (su : Setup K V) (s : Pipeline K V)

/-- The orchestrator's next statement.  The reader's window calls change
nothing: the readers tag no batch themselves. -/
def orchestrate : Action → Option (Pipeline K V)
  | .startSnapshot =>
    match s.phase with
    | .boot =>
      let s := s.setSnapshotState .inProgress (if su.resuming then some su.plan else none)
      let s := if su.resuming || su.begun || su.heldRows then
          { s with snapResumed := true, guard := none }
        else s
      some { s with phase := .started }
    | _ => none
  | .persist =>
    match s.phase with
    | .started =>
      if su.resuming then some { s with phase := .between su.plan }
      else if s.committed = su.boundsAt then
        some { s with
          phase := .between su.plan
          durable := { s.durable with
            state := .inProgress
            hasBounds := s.durable.hasBounds || !su.bounds.isEmpty
            pending := if su.plan = [] then s.durable.pending else su.plan } }
      else none
    | _ => none
  | .skipChunk =>
    match s.phase with
    | .between (chunk :: rest) =>
      if (chunksOf su.bounds).length ≤ chunk then some { s with phase := .between rest } else none
    | _ => none
  | .gateOn =>
    match s.phase with
    | .between (chunk :: rest) =>
      if (chunksOf su.bounds).length ≤ chunk then none
      else some { s with
        phase := .gated chunk rest, gate := { s.gate with on := true }, gateChk := chunk }
    | _ => none
  | .select =>
    match s.phase with
    | .gated chunk rest =>
      some { s with
        phase := .selected chunk rest (su.selectChunk chunk s.committed) s.committed
        selects := fun c => if c = chunk then some s.committed else s.selects c }
    | _ => none
  | .addWindowRows =>
    match s.phase with
    | .selected chunk rest rows selectAt =>
      some { s.addWindowRows chunk rows selectAt with phase := .stored chunk rest }
    | _ => none
  | .gateFlush =>
    match s.phase with
    | .stored chunk rest => some { s with phase := .flushing chunk rest, flushGate := true }
    | _ => none
  | .master =>
    match s.phase with
    | .flushed chunk rest => some { s with phase := .waiting chunk rest s.committed }
    | _ => none
  | .waitCaughtUp =>
    match s.phase with
    | .waiting chunk rest high =>
      if high ≤ s.read then some { s with phase := .caughtUp chunk rest } else none
    | _ => none
  | .release =>
    match s.phase with
    | .caughtUp chunk rest => some { s with phase := .releasing chunk rest }
    | _ => none
  | .sendMarker =>
    match s.phase with
    | .drained chunk rest =>
      some { s with phase := .released chunk rest, ingest := s.ingest ++ [.closes chunk] }
    | _ => none
  | .callback =>
    match s.phase with
    | .released chunk rest =>
      some { s.setSnapshotState .inProgress (some (removeFromPending su.plan chunk)) with
        phase := .between rest }
    | _ => none
  | .finish =>
    match s.phase with
    | .between [] => some { s.setSnapshotState .complete none with phase := .done }
    | _ => none
  | _ => none

/-- The relay loop, with the drain of the reader that Release asks for. -/
def relay : Action → Option (Pipeline K V)
  | .relayTake => relayTake su s
  | .relaySend => relaySend s
  | .relayDrainGate =>
    if s.flushGate ∧ s.hand = none ∧ s.drain = .idle then some s.drainGate else none
  | .relayAckGateFlush =>
    match s.phase with
    | .flushing chunk rest =>
      if s.hand = none ∧ s.drain = .idle then
        some { s.drainGate with phase := .flushed chunk rest }
      else none
    | _ => none
  | .relayTakeFlushReq =>
    match s.phase with
    | .releasing _ _ =>
      if s.hand = none ∧ s.drain = .idle then some { s with drain := .requested } else none
    | _ => none
  | .drainTimeout =>
    match s.phase with
    | .releasing chunk rest =>
      if s.drain = .requested then some { s with drain := .idle, phase := .drained chunk rest }
      else none
    | _ => none
  | .drainAccept =>
    if s.drain = .requested then
      some { s with
        drain := .accepted
        pulled := s.read
        batchCh := if s.pulled < s.read
          then s.batchCh ++ [(List.range s.read).drop s.pulled] else s.batchCh }
    else none
  | .drainDone =>
    match s.phase with
    | .releasing chunk rest =>
      if s.drain = .accepted ∧ s.hand = none ∧ s.batchCh = [] then
        some { s with drain := .idle, phase := .drained chunk rest }
      else none
    | _ => none
  | _ => none

/-- One step of the process. -/
def step : Action → Option (Pipeline K V)
  | .sourceCommit =>
    if s.committed < su.log.length then some { s with committed := s.committed + 1 } else none
  | .readerDecode => if s.read < s.committed then some { s with read := s.read + 1 } else none
  | .pull more =>
    if s.pulled + more < s.read then
      some { s with
        pulled := s.pulled + more + 1
        batchCh := s.batchCh ++ [(List.range (s.pulled + more + 1)).drop s.pulled] }
    else none
  | .handleIngest => s.handleIngest su
  | .beginFlush => s.beginFlush su
  | .flush => s.flush su
  | .commit => s.commitNext
  | .relayTake => s.relay su .relayTake
  | .relaySend => s.relay su .relaySend
  | .relayDrainGate => s.relay su .relayDrainGate
  | .relayAckGateFlush => s.relay su .relayAckGateFlush
  | .relayTakeFlushReq => s.relay su .relayTakeFlushReq
  | .drainTimeout => s.relay su .drainTimeout
  | .drainAccept => s.relay su .drainAccept
  | .drainDone => s.relay su .drainDone
  | a => s.orchestrate su a

/-- The process at boot.  A resumed snapshot finds its progress in the sink. -/
def init : Pipeline K V where
  committed := 0
  read := 0
  pulled := 0
  batchCh := []
  hand := none
  gate := ⟨false, [], none⟩
  gateChk := 0
  flushGate := false
  drain := .idle
  phase := .boot
  ingest := []
  windows _ := none
  buffered := []
  bufferedBytes := 0
  prepared := none
  snapState := none
  snapPending := none
  snapResumed := false
  guard := none
  ready := []
  durable := if su.resuming then ⟨[], .inProgress, true, su.plan⟩
    else if su.begun then ⟨[], .inProgress, false, []⟩
    else ⟨[], .notStarted, false, []⟩
  selects _ := none
  emitted := []
  closed := []

end Pipeline

end Urutau
