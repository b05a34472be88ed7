import Urutau.CollapsedPipeline

/-!
# The distributed range snapshot

A table with a single owner is snapshotted by that worker's own SELECTs.  The
coordinator sends it one chunk at a time; the worker reads the chunk in
byte-capped pages, announces each page as a window and stores its rows; the
coordinator answers every announcement with a Closes marker on the worker's
data queue, and the worker commits the window's rows when the marker reaches
its batcher.  A marker is acked once its window's rows are committed.

The worker's session may be lost at any time.  Everything in the worker is
then gone, the coordinator keeps what it has queued and sent, redelivers what
was not acked to the next session, and redoes the chunks whose markers were
not acked.

The machine has one action for each point at which another party may run.  The
live stream appears as batches of keys: which of them the gate tags is left
open.  Fields marked as history steer nothing.
-/

namespace Urutau

/-- `ChunkRef`: the durable id of a chunk. -/
def chunkRef (partition index : Nat) : Nat := partition <<< 20 ||| index

/-- `PendingAfter`: the chunks still to do once a partition's chunk is
committed. -/
def pendingAfter (todo : List Nat) (partition index : Nat) : List Nat :=
  (todo.insertionSort (· ≤ ·)).filter fun id =>
    decide (partition < id >>> 20) ||
      (decide (id >>> 20 = partition) && decide (index < id &&& (2 ^ 20 - 1)))

/-- `MaxUncommittedChunks`. -/
def maxUncommittedChunks : Nat := 2

/-- What a range snapshot is given.  `rowsAt n` are the keys of the source's
table once `n` changes are committed, in key order. -/
structure RangeSetup (K : Type) [LinearOrder K] where
  chunks : List (Chunk K)
  rowsAt : Nat → List K
  rows_sorted : ∀ n, (rowsAt n).Pairwise (· < ·)
  maxOpen : Nat

namespace RangeSetup

variable {K : Type} [LinearOrder K] (su : RangeSetup K)

/-- The SELECT of a key range, in key order. -/
def select (n : Nat) (low : K) (high : Option K) : List K :=
  (su.rowsAt n).filter fun k => decide (low ≤ k) && high.all fun h => decide (k < h)

/-- The key lies in the chunk's range. -/
def InChunk (c : Nat) (k : K) : Prop :=
  ∃ ch, su.chunks[c]? = some ch ∧ ch.low ≤ k ∧ ∀ h ∈ ch.high, k < h

instance (c : Nat) (k : K) : Decidable (su.InChunk c k) :=
  decidable_of_iff (∃ ch ∈ su.chunks[c]?, ch.low ≤ k ∧ ∀ h ∈ ch.high, k < h) Iff.rfl

end RangeSetup

/-- `WindowOpen`: the worker's announcement of a window.  `session`, the number
of the session that opened it, and `page`, the keys it holds, are history. -/
structure WindowOpen (K : Type) where
  chunkId : Nat
  attempt : Nat
  seq : Nat
  highKey : Option K
  session : Nat
  page : List K
  deriving DecidableEq, Repr

structure ChunkReady where
  chunkId : Nat
  epoch : Nat
  deriving DecidableEq, Repr

/-- What the coordinator queues for a worker: a batch of live changes, or a
window's Closes marker.  Of the announcement only the window's `seq` travels
with the marker; the rest is history. -/
inductive Delivery (K : Type)
  | live (id : Nat) (keys : List K) (tagged : Bool)
  | closes (id : Nat) (pending : List Nat) (opened : WindowOpen K)
  deriving DecidableEq, Repr

def Delivery.id {K : Type} : Delivery K → Nat
  | .live id _ _ => id
  | .closes id _ _ => id

/-- A batch of live changes all of which are committed. -/
def Delivery.committedIn {K : Type} [DecidableEq K] (live : List K) : Delivery K → Bool
  | .live _ keys _ => keys.all (· ∈ live)
  | .closes _ _ _ => false

/-- `Marker`: a queued Closes marker as the coordinator remembers it. -/
structure Marker (K : Type) where
  id : Nat
  window : Nat
  chunkRef : Nat
  highKey : Option K
  deriving DecidableEq, Repr

/-- Where the worker's chunk executor stands.  A page that is announced and
not stored yet is in its hands. -/
inductive Exec (K : Type)
  | idle
  | reading (chunk : Nat) (rest : List K)
  | storing (chunk seq : Nat) (page rest : List K)
  deriving DecidableEq, Repr

/-- An open window of the worker; `chunk` is history. -/
structure OpenWindow (K : Type) where
  chunk : Nat
  keys : List K
  touched : List K
  deriving DecidableEq, Repr

/-- A row of a window or a live change, in the batcher's buffer. -/
inductive Piece (K : Type)
  | row (chunk : Nat) (key : K)
  | live (key : K)
  deriving DecidableEq, Repr

/-- The rows a closed window emits. -/
def OpenWindow.kept {K : Type} [DecidableEq K] (w : OpenWindow K) : List (Piece K) :=
  (w.keys.filter (fun k => k ∉ w.touched)).map (.row w.chunk)

/-- What the batcher hands the committer: a batch with the pending list it
commits, or the markers whose windows it was given before. -/
inductive Ready (K : Type)
  | commit (items : List (Piece K)) (pending : Option (Nat × List Nat))
  | markers (ids : List Nat)
  deriving DecidableEq, Repr

/-- `ChunkRequest`. -/
structure ChunkRequest (K : Type) where
  chunkId : Nat
  low : K
  high : Option K
  deriving DecidableEq, Repr

/-- One session of the worker, built from scratch.  `number`, `handled` (the
own windows whose markers the batcher has handled) and the chunk in
`pendingProgress` are history. -/
structure Session (K : Type) where
  number : Nat
  epoch : Nat
  requests : List (ChunkRequest K)
  exec : Exec K
  windowSeq : Nat
  windows : Nat → Option (OpenWindow K)
  chunkLive : Option (List K)
  stream : List (Delivery K)
  ingest : List (Delivery K)
  pending : List (Piece K)
  pendingMarkers : List Nat
  pendingProgress : Option (Nat × List Nat)
  ready : List (Ready K)
  acks : List Nat
  handled : List Nat
  opened : List (Nat × List K)

/-- Where `RunRangePartition` stands.  `draining` says that the chunk's
ChunkReady was received. -/
inductive RangePhase (K : Type)
  | top
  | pacing
  | waiting (draining : Bool)
  | closing (wo : WindowOpen K) (draining : Bool)
  | queued (wo : WindowOpen K) (id : Nat) (draining : Bool)
  | noted (draining : Bool)
  | lastCommits
  | done

/-- The coordinator's view of the worker's sessions: whether one is attached, how many have
ended that `loseWorker` has not recorded, and how many losses it has recorded and not
signalled.  The next session may attach before the end of the last one is recorded. -/
structure Link where
  attached : Bool
  ended : Nat
  losing : Nat
  deriving DecidableEq, Repr

/-- What the sink holds. -/
structure RangeSink (K : Type) where
  rows : List K
  live : List K
  pending : List Nat
  deriving DecidableEq, Repr

/-- The coordinator, the worker's session and the sink.  `index`, `phase`,
`loopEpoch`, `seenLosses` and `windowChunk` are `RunRangePartition`'s own;
`queued`, `lost` and `cursor` are the coordinator's `Markers`; `inFlight` are
the markers in the worker's in-flight index.  `seen` (the live batches handled
so far), `sentMarkers`, `closings` (for each window closed, the session of the
marker and that of the window) and `missed` (markers handled by the session
that opened their window without holding it) are history. -/
structure RangeState (K : Type) where
  now : Nat
  todo : List Nat
  lows : Nat → Option K
  index : Nat
  phase : RangePhase K
  loopEpoch : Option Nat
  seenLosses : Nat
  windowChunk : Nat → Option Nat
  epoch : Nat
  link : Link
  losses : Nat
  nextId : Nat
  queue : List (Delivery K)
  sent : List (Delivery K)
  inFlight : List Nat
  queued : List (Marker K)
  lost : List (Marker K)
  cursor : Nat → Option K
  opens : List (WindowOpen K)
  readies : List ChunkReady
  session : Session K
  sink : RangeSink K
  seen : List (Nat × List K)
  sentMarkers : List (Nat × WindowOpen K)
  closings : List (Nat × Nat)
  missed : List (Nat × Nat)

inductive RangeAction (K : Type)
  | sourceCommit
  | pump (keys : List K) (tagged : Bool)
  | fetch
  | receive
  | handleIngest
  | flush
  | commit
  | deliverAck
  | ackLive (id : Nat)
  | startRead
  | announce (rows : Nat)
  | store
  | finishRead
  | top
  | request
  | takeOpen
  | takeReady
  | drained
  | enqueueMarker
  | noteMarker
  | checkLost
  | abort
  | lastCommits
  | detach
  | lose
  | signalLoss
  | attach (epoch : Nat)
  | crash

/-- A session as the worker builds it.  The coordinator redelivers what an
earlier session was sent and did not ack. -/
def Session.fresh {K : Type} (number epoch : Nat) (redeliver : List (Delivery K)) : Session K where
  number
  epoch
  requests := []
  exec := .idle
  windowSeq := 0
  windows _ := none
  chunkLive := none
  stream := redeliver
  ingest := []
  pending := []
  pendingMarkers := []
  pendingProgress := none
  ready := []
  acks := []
  handled := []
  opened := []

namespace RangeState

variable {K : Type} [LinearOrder K] (su : RangeSetup K) (s : RangeState K)

/-- `snapshotPlan`: a coordinator that starts reads what the sink names, or
everything when it names nothing. -/
def boot (number now : Nat) (sink : RangeSink K) : RangeState K where
  now
  todo := if sink.pending = [] then List.range su.chunks.length else sink.pending
  lows _ := none
  index := 0
  phase := .top
  loopEpoch := none
  seenLosses := 0
  windowChunk _ := none
  epoch := 0
  link := ⟨true, 0, 0⟩
  losses := 0
  nextId := 1
  queue := []
  sent := []
  inFlight := []
  queued := []
  lost := []
  cursor _ := none
  opens := []
  readies := []
  session := Session.fresh number 0 []
  sink
  seen := []
  sentMarkers := []
  closings := []
  missed := []

/-- A cold start: the plan is recorded with every chunk pending. -/
def init : RangeState K := boot su 1 0 ⟨[], [], List.range su.chunks.length⟩

/-- The worker was lost since the loop last looked. -/
def isLost : Bool := decide (s.seenLosses < s.losses)

/-- `Held`: the queued markers still in the in-flight index. -/
def held : List (Marker K) := s.queued.filter fun m => decide (m.id ∈ s.inFlight)

/-! ## The worker -/

local instance lawfulKeys : LawfulBEq K := inferInstance

/-- `markBatchSideEffects`: a live change is remembered while a chunk is read,
and a tagged one touches every open window that holds its key. -/
def touchWindows (ss : Session K) (keys : List K) (tagged : Bool) : Session K :=
  { ss with
    chunkLive := ss.chunkLive.map (fun l => l ++ keys)
    windows := fun q => (ss.windows q).map fun w =>
      if tagged then { w with touched := w.touched ++ keys.filter (fun k => k ∈ w.keys) } else w }

/-- The window leaves the worker's table (`closeWindow`). -/
def closeWindow (ss : Session K) (seq : Nat) : Session K :=
  { ss with windows := fun q => if q = seq then none else ss.windows q }

/-- The marker goes to the committer behind what is queued there. -/
def queueMarker (ss : Session K) (id : Nat) : Session K :=
  { ss with ready := ss.ready ++ [.markers [id]] }

/-- The rows of a closed window join the batcher's buffer, and its marker and
the pending list it carries wait with them (`carrySnapshotPending`). -/
def bufferWindow (ss : Session K) (id chunk : Nat) (pending : List Nat)
    (rows : List (Piece K)) : Session K :=
  { ss with
    pending := ss.pending ++ rows
    pendingMarkers := ss.pendingMarkers ++ [id]
    pendingProgress := if pending = [] then ss.pendingProgress else some (chunk, pending) }

/-- History: a marker of this session has been handled. -/
def noteHandled (ss : Session K) (wo : WindowOpen K) : Session K :=
  { ss with handled := if wo.session = ss.number then ss.handled ++ [wo.seq] else ss.handled }

/-- `handleCloses`.  A window that emits nothing, or that this session does not
hold, has its marker queued for the ack at once; otherwise the marker waits for
the flush of the window's rows, which carries the pending list. -/
def handleCloses (id : Nat) (pending : List Nat) (wo : WindowOpen K) : RangeState K :=
  let ss := noteHandled s.session wo
  match s.session.windows wo.seq with
  | none =>
    { s with
      session := queueMarker ss id
      missed := if wo.session = s.session.number then
          s.missed ++ [(s.session.number, wo.seq)]
        else s.missed }
  | some w =>
    { s with
      session := if w.kept = [] then queueMarker (closeWindow ss wo.seq) id
        else bufferWindow (closeWindow ss wo.seq) id wo.chunkId pending w.kept
      closings := s.closings ++ [(wo.session, s.session.number)] }

/-- The batcher has taken a unit from its channel. -/
def taken (rest : List (Delivery K)) : RangeState K :=
  { s with session := { s.session with ingest := rest } }

/-- `handleLive`: the changes join the buffer. -/
def handleLive (id : Nat) (keys : List K) (tagged : Bool) : RangeState K :=
  { s with
    session := { touchWindows s.session keys tagged with
      pending := s.session.pending ++ keys.map .live }
    seen := s.seen ++ [(id, keys)] }

/-- `handleIngest`, for the next unit in the batcher's channel. -/
def handleIngest : Option (RangeState K) :=
  match s.session.ingest with
  | [] => none
  | .live id keys tagged :: rest => some (handleLive (s.taken rest) id keys tagged)
  | .closes id pending wo :: rest => some (handleCloses (s.taken rest) id pending wo)

/-- The batcher's flush, on its ticker or a size bound: the buffer goes out as
one batch with the last pending list its windows carried, then their markers. -/
def flush : Option (RangeState K) :=
  let ss := s.session
  if ss.pending = [] then none
  else some { s with session := { ss with
    pending := [], pendingMarkers := [], pendingProgress := none
    ready := ss.ready ++ [.commit ss.pending ss.pendingProgress] ++
      (if ss.pendingMarkers = [] then [] else [.markers ss.pendingMarkers]) } }

/-- The keys of the window rows of a batch. -/
def rowKeys (items : List (Piece K)) : List K := items.filterMap fun e => match e with
    | .row _ k => some k
    | .live _ => none

/-- The keys of the live changes of a batch. -/
def liveKeys (items : List (Piece K)) : List K := items.filterMap fun e => match e with
    | .row _ _ => none
    | .live k => some k

/-- The committer takes the next item: a batch is committed, markers are
acked. -/
def commit : Option (RangeState K) :=
  match s.session.ready with
  | [] => none
  | .commit items pending :: rest =>
    some { s with
      session := { s.session with ready := rest }
      sink :=
        { rows := s.sink.rows ++ rowKeys items
          live := s.sink.live ++ liveKeys items
          pending := (pending.map Prod.snd).getD s.sink.pending } }
  | .markers ids :: rest =>
    some { s with session := { s.session with ready := rest, acks := s.session.acks ++ ids } }

/-- The executor takes up a chunk request: one SELECT, read in pages. -/
def startRead : Option (RangeState K) :=
  match s.session.exec, s.session.requests with
  | .idle, r :: rest =>
    some { s with session := { s.session with
      requests := rest
      exec := .reading r.chunkId (su.select s.now r.low r.high)
      chunkLive := some [] } }
  | _, _ => none

/-- `OpenWindows`. -/
def openWindows (ss : Session K) : Nat :=
  ((List.range (ss.windowSeq + 1)).filter fun q => (ss.windows q).isSome).length

/-- `emitWindow`, up to the announcement: the next page takes the next window
id. -/
def announce (rows : Nat) : Option (RangeState K) :=
  match s.session.exec with
  | .reading chunk rest =>
    if su.maxOpen ≤ openWindows s.session then none
    else some { s with
      session := { s.session with
        windowSeq := s.session.windowSeq + 1
        exec := .storing chunk (s.session.windowSeq + 1) (rest.take rows) (rest.drop rows)
        opened := s.session.opened ++ [(chunk, rest.take rows)] }
      opens := s.opens ++ [
        { chunkId := chunk
          attempt := s.session.epoch
          seq := s.session.windowSeq + 1
          highKey := (rest.take rows).getLast?
          session := s.session.number
          page := rest.take rows }] }
  | _ => none

/-- `AddWindowRows`: live changes received since the SELECT began touch the
page, and a window the worker already holds is kept. -/
def addWindowRows (ss : Session K) (chunk seq : Nat) (page : List K) : Session K :=
  let w := ⟨chunk, page, (ss.chunkLive.getD []).filter (fun k => k ∈ page)⟩
  { ss with windows := fun q =>
      if q = seq ∧ ss.windows seq = none then some w else ss.windows q }

/-- The announced page is stored. -/
def store : Option (RangeState K) :=
  match s.session.exec with
  | .storing chunk seq page rest =>
    some { s with session :=
      { addWindowRows s.session chunk seq page with exec := .reading chunk rest } }
  | _ => none

/-- The chunk is read to its end. -/
def finishRead : Option (RangeState K) :=
  match s.session.exec with
  | .reading chunk [] =>
    some { s with
      session := { s.session with exec := .idle, chunkLive := none }
      readies := s.readies ++ [⟨chunk, s.session.epoch⟩] }
  | _ => none

/-! ## The coordinator -/

/-- `RecordCursor`: the chunk's resume cursor is the high key of the queued
marker. -/
def recordCursor (id : Nat) : Nat → Option K :=
  match s.queued.find? (fun m => decide (m.id = id) && m.highKey.isSome) with
  | none => s.cursor
  | some m => fun c => if c = m.chunkRef then m.highKey else s.cursor c

/-- `onMarkerAck`: the cursor is recorded before the marker is released. -/
def onMarkerAck (id : Nat) : RangeState K :=
  let s := { s with cursor := recordCursor s id }
  if id ∈ s.inFlight then
    { s with
      inFlight := s.inFlight.erase id
      sent := s.sent.filter (fun d => d.id ≠ id) }
  else s

def deliverAck : Option (RangeState K) :=
  match s.session.acks with
  | [] => none
  | id :: rest => some (onMarkerAck { s with session := { s.session with acks := rest } } id)

/-- A live batch is acked once it is committed. -/
def ackLive (id : Nat) : Option (RangeState K) :=
  if ∀ d ∈ s.sent, d.id = id → d.committedIn s.sink.live then
    some { s with sent := s.sent.filter (fun d => d.id ≠ id) }
  else none

/-- `RedoFrom`: the first chunk whose marker the lost worker had not
committed. -/
def redoIndex : Nat := s.lost.foldl (fun i m => match s.windowChunk m.window with
    | none => i
    | some j => if j < i then j else i) s.index

/-- `resumeChunkAfterLoss`: the redo starts at that chunk, from its cursor. -/
def redo : RangeState K :=
  let i := redoIndex s
  { s with
    index := i
    lost := []
    lows := fun c => if c = i then (s.cursor (chunkRef 0 i)).or (s.lows c) else s.lows c
    cursor := fun c => if c = chunkRef 0 i then none else s.cursor c }

/-- The loop last looked under another epoch. -/
def isStale : Bool := s.loopEpoch.any fun e => decide (e ≠ s.epoch)

/-- The head of the loop over the chunks. -/
def top : Option (RangeState K) :=
  match s.phase with
  | .top =>
    if su.chunks.length ≤ s.index then some { s with phase := .done }
    else if chunkRef 0 s.index ∉ s.todo then some { s with index := s.index + 1 }
    else
      let s := if s.isStale then redo s else s
      some { s with loopEpoch := some s.epoch, seenLosses := s.losses, phase := .pacing }
  | _ => none

/-- A chunk is requested once the worker has few enough chunks to commit. -/
def request : Option (RangeState K) :=
  match s.phase, su.chunks[s.index]? with
  | .pacing, some ch =>
    if s.held.length < maxUncommittedChunks ∧ s.link.attached = true then
      some { s with
        queued := s.held
        phase := .waiting false
        session := { s.session with
          requests := s.session.requests ++
            [⟨chunkRef 0 s.index, (s.lows s.index).getD ch.low, ch.high⟩] } }
    else none
  | _, _ => none

/-- An announcement is taken up when it is of this chunk and this attempt. -/
def takeOpen : Option (RangeState K) :=
  match s.phase, s.opens with
  | .waiting draining, wo :: rest =>
    if wo.chunkId = chunkRef 0 s.index ∧ s.loopEpoch = some wo.attempt then
      some { s with
        opens := rest
        windowChunk := fun q => if q = wo.seq then some s.index else s.windowChunk q
        phase := .closing wo draining }
    else some { s with opens := rest }
  | _, _ => none

def takeReady : Option (RangeState K) :=
  match s.phase, s.readies with
  | .waiting false, cr :: rest =>
    if cr.chunkId = chunkRef 0 s.index ∧ s.loopEpoch = some cr.epoch then
      some { s with readies := rest, phase := .waiting true }
    else some { s with readies := rest }
  | _, _ => none

/-- The chunk's round trip is over; the last one waits for its commits. -/
def drained : Option (RangeState K) :=
  match s.phase, s.opens with
  | .waiting true, [] =>
    if s.index + 1 = su.chunks.length then some { s with phase := .lastCommits }
    else some { s with index := s.index + 1, phase := .top }
  | _, _ => none

/-- `closeOneWindow`, once the reader has caught up: the marker is queued. -/
def enqueueMarker : Option (RangeState K) :=
  match s.phase with
  | .closing wo draining =>
    some { s with
      queue := s.queue ++ [.closes s.nextId (pendingAfter s.todo 0 s.index) wo]
      inFlight := s.inFlight ++ [s.nextId]
      nextId := s.nextId + 1
      phase := .queued wo s.nextId draining
      sentMarkers := s.sentMarkers ++ [(s.nextId, wo)] }
  | _ => none

def noteMarker : Option (RangeState K) :=
  match s.phase with
  | .queued wo id draining =>
    some { s with
      queued := s.queued ++ [⟨id, wo.seq, chunkRef 0 s.index, wo.highKey⟩]
      phase := .noted draining }
  | _ => none

def checkLost : Option (RangeState K) :=
  match s.phase with
  | .noted draining => some { s with phase := if s.isLost then .top else .waiting draining }
  | _ => none

/-- The waits that a loss ends. -/
def abort : Option (RangeState K) :=
  if s.isLost then
    match s.phase with
    | .pacing | .waiting false | .closing _ _ | .lastCommits => some { s with phase := .top }
    | _ => none
  else none

def lastCommits : Option (RangeState K) :=
  match s.phase with
  | .lastCommits =>
    if s.held.length < 1 then
      some { s with queued := s.held, index := s.index + 1, phase := .top }
    else none
  | _ => none

/-- The stream of the session ends. -/
def detach : Option (RangeState K) :=
  if s.link.attached then
    some { s with link := { s.link with attached := false, ended := s.link.ended + 1 } }
  else none

/-- `loseWorker`, up to its signal. -/
def lose : Option (RangeState K) :=
  if 0 < s.link.ended then
    some { s with
      link := { s.link with ended := s.link.ended - 1, losing := s.link.losing + 1 }
      epoch := s.epoch + 1
      lost := s.lost ++ s.held
      queued := s.held }
  else none

def signalLoss : Option (RangeState K) :=
  if 0 < s.link.losing then
    some { s with link := { s.link with losing := s.link.losing - 1 }, losses := s.losses + 1 }
  else none

/-- The worker's next session.  Its assignment has the epoch `assignmentFor` read, which may
have passed by the time no session is attached. -/
def attach (epoch : Nat) : Option (RangeState K) :=
  if s.link.attached = false ∧ epoch ≤ s.epoch then
    some { s with
      link := { s.link with attached := true }
      session := Session.fresh (s.session.number + 1) epoch s.sent }
  else none

/-- One step of the system. -/
def step : RangeAction K → Option (RangeState K)
  | .sourceCommit => some { s with now := s.now + 1 }
  | .pump keys tagged =>
    some { s with
      queue := s.queue ++ [.live s.nextId keys tagged], nextId := s.nextId + 1 }
  | .fetch =>
    match s.queue with
    | [] => none
    | d :: rest =>
      some { s with
        queue := rest
        sent := s.sent ++ [d]
        session := { s.session with stream := s.session.stream ++ [d] } }
  | .receive =>
    match s.session.stream with
    | [] => none
    | d :: rest =>
      some { s with
        session := { s.session with stream := rest, ingest := s.session.ingest ++ [d] } }
  | .handleIngest => s.handleIngest
  | .flush => s.flush
  | .commit => s.commit
  | .deliverAck => s.deliverAck
  | .ackLive id => s.ackLive id
  | .startRead => s.startRead su
  | .announce rows => s.announce su rows
  | .store => s.store
  | .finishRead => s.finishRead
  | .top => s.top su
  | .request => s.request su
  | .takeOpen => s.takeOpen
  | .takeReady => s.takeReady
  | .drained => s.drained su
  | .enqueueMarker => s.enqueueMarker
  | .noteMarker => s.noteMarker
  | .checkLost => s.checkLost
  | .abort => s.abort
  | .lastCommits => s.lastCommits
  | .detach => s.detach
  | .lose => s.lose
  | .signalLoss => s.signalLoss
  | .attach epoch => s.attach epoch
  | .crash =>
    some { boot su (s.session.number + 1) s.now s.sink with
      closings := s.closings, missed := s.missed }

end RangeState

end Urutau
