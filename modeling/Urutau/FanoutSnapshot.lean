import Urutau.CollapsedPipeline

/-!
# The fan-out snapshot of a partitioned table

The coordinator reads the chunks of a table itself and splits each one's rows among the
table's owners by the hash of the key.  An owner stores its share in a window; the chunk's
Closes marker makes it emit what live changes left of it.  The rows of a window are sent once:
they are not on the list of what a lost session is sent again, the marker is.

On a staging sink the shares of a chunk are one cycle.  An owner that does not hold the window
says so with its delivery, the cycle and those behind it in the pass are dropped, and the
chunks from the first lost one on are read again.  On any other sink the marker has no cycle:
each owner commits its share by itself, and nothing is noted for the pass to wait for.
-/

namespace Urutau

open Pipeline (removeFromPending)

/-- A fan-out snapshot: the table's owners and the one each key is hashed to, the chunk each
key lies in, the number of chunks the bounds make and those to do, the rows the source starts
with, and whether the sink is a `StagedCommitter`. -/
structure FanoutSetup (K O : Type) where
  owners : List O
  ownerOf : K → O
  chunkOf : K → Nat
  chunks : Nat
  plan : List Nat
  initial : List K
  stagesCycles : Bool
  owned : ∀ k, ownerOf k ∈ owners
  distinct : plan.Nodup

/-- `isStagedTable`. -/
def FanoutSetup.staged {K O : Type} (su : FanoutSetup K O) : Bool :=
  su.stagesCycles && decide (1 < su.owners.length)

/-- One read of a chunk: the keys of its rows, and how many changes the source had made. -/
structure ChunkRead (K : Type) where
  chunk : Nat
  seen : Nat
  keys : List K
  deriving DecidableEq, Repr

/-- What the coordinator queues for an owner.  A live change has its number in the source's
log.  A Closes marker of no cycle has `seq` 0.  History: `read` numbers the read of the chunk
that the rows, or the marker, are of. -/
inductive FanoutMessage (K : Type)
  | rows (chunk : Nat) (keys : List K) (read : Nat)
  | live (change : Nat) (key : K) (inWindow : Bool)
  | closes (seq chunk : Nat) (pending : List Nat) (read : Nat)
  deriving DecidableEq, Repr

/-- `snapshotRows`: such a message is never put on the sent list. -/
def FanoutMessage.isRows {K : Type} : FanoutMessage K → Bool
  | .rows .. => true
  | _ => false

/-- `snapshotWindow`, under its id. -/
structure HeldWindow (K : Type) where
  chunk : Nat
  keys : List K
  touched : List K
  read : Nat
  deriving DecidableEq, Repr

/-- An owner: its queue, what is on the wire to it, what it has yet to take from the ingest
channel, what it took that is not acked, and the windows it holds. -/
structure OwnerSession (K : Type) where
  queue : List (FanoutMessage K)
  wire : List (FanoutMessage K)
  ingest : List (FanoutMessage K)
  unacked : List (FanoutMessage K)
  windows : List (HeldWindow K)
  deriving DecidableEq, Repr

/-- A snapshot row an owner commits, with the read it is of. -/
structure SnapshotRow (K O : Type) where
  owner : O
  key : K
  read : Nat
  deriving DecidableEq, Repr

/-- What a Closes marker makes an owner emit. -/
structure ClosedShare (K O : Type) where
  rows : List (SnapshotRow K O)
  pending : Option (List Nat)
  windowLost : Bool
  deriving DecidableEq, Repr

/-- The staged cycle of one chunk.  History: `remaining` is the list its markers carry. -/
structure WindowCycle (K O : Type) where
  seq : Nat
  chunk : Nat
  read : Nat
  remaining : List Nat
  delivered : List O
  rows : List (SnapshotRow K O)
  progress : Option (List Nat)
  lost : Bool
  deriving DecidableEq, Repr

/-- `fanoutPass`.  `first` is the chunk of the first lost cycle. -/
structure FanoutPass where
  chunks : List (Nat × Nat)
  lost : Bool
  first : Nat
  deriving DecidableEq, Repr

namespace FanoutPass

/-- `Begin`. -/
def init : FanoutPass := ⟨[], false, 0⟩

/-- `Note`. -/
def note (p : FanoutPass) (seq chunk : Nat) : FanoutPass :=
  { p with chunks := p.chunks ++ [(seq, chunk)] }

/-- `Resolve`: whether the cycle is dropped, and the pass without it. -/
def resolve (p : FanoutPass) (seq : Nat) (lost : Bool) : Bool × FanoutPass :=
  match p.chunks.lookup seq with
  | none => (false, p)
  | some chunk =>
    let chunks := p.chunks.filter fun e => e.1 ≠ seq
    let p := if lost && !p.lost then ⟨chunks, true, chunk⟩ else { p with chunks := chunks }
    (p.lost, p)

/-- `Drained`: nothing while a cycle of the pass is left, else the first lost chunk, if any. -/
def drained (p : FanoutPass) : Option (Option Nat) :=
  if p.chunks = [] then some (if p.lost then some p.first else none) else none

end FanoutPass

/-- `PendingFrom`. -/
def pendingFrom (plan : List Nat) (chunk : Nat) : List Nat := plan.dropWhile (· != chunk)

/-! ## An owner -/

namespace OwnerSession

variable {K O : Type} [DecidableEq K]

def init : OwnerSession K := ⟨[], [], [], [], []⟩

/-- `AddWindowRows`.  The rows of a window that is already held are ignored. -/
def addWindowRows (windows : List (HeldWindow K)) (chunk : Nat) (keys : List K) (read : Nat) :
    List (HeldWindow K) :=
  if windows.any (·.chunk == chunk) then windows else windows ++ [⟨chunk, keys, [], read⟩]

/-- The InWindow part of `markBatchSideEffects`: the key is touched in every window that holds
it. -/
def touch (windows : List (HeldWindow K)) (key : K) : List (HeldWindow K) := windows.map fun w =>
    if key ∈ w.keys ∧ key ∉ w.touched then { w with touched := w.touched ++ [key] } else w

/-- `closeWindow`: the rows no live change touched, unless the window is not held. -/
def closeWindow (owner : O) (windows : List (HeldWindow K)) (chunk : Nat) :
    Option (List (SnapshotRow K O)) :=
  (windows.find? (·.chunk == chunk)).map fun w =>
    (w.keys.filter (· ∉ w.touched)).map fun k => ⟨owner, k, w.read⟩

/-- The pending list as the worker reads it from the marker: on the wire an empty list is no
list. -/
def carried (pending : List Nat) : Option (List Nat) := if pending = [] then none else some pending

/-- `closesBatch`.  A marker of no cycle emits nothing when there are no rows. -/
def closesBatch (seq : Nat) (pending : List Nat) :
    Option (List (SnapshotRow K O)) → Option (ClosedShare K O)
  | none => if seq = 0 then none else some ⟨[], none, true⟩
  | some rows =>
    if seq = 0 ∧ rows.isEmpty then none else some ⟨rows, carried pending, false⟩

/-- What a new session is sent ahead of the queue: the sent list, which has no window rows. -/
def sent (x : OwnerSession K) : List (FanoutMessage K) :=
  (x.unacked ++ x.ingest ++ x.wire).filter (!·.isRows)

/-- The session is lost with everything the worker held, and the worker comes back. -/
def lose (x : OwnerSession K) : OwnerSession K :=
  { x with wire := x.sent, ingest := [], unacked := [], windows := [] }

/-- The chunks whose rows a lost session takes with it. -/
def lostWith (x : OwnerSession K) : List Nat := x.windows.map (·.chunk) ++ x.wire.filterMap fun
    | .rows chunk _ _ => some chunk
    | _ => none

/-- The demultiplexer takes the next message off the wire: rows go to the window at once, the
rest to the ingest channel. -/
def receive (x : OwnerSession K) : Option (OwnerSession K) :=
  match x.wire with
  | [] => none
  | .rows chunk keys read :: rest =>
    some { x with wire := rest, windows := addWindowRows x.windows chunk keys read }
  | m :: rest => some { x with wire := rest, ingest := x.ingest ++ [m] }

end OwnerSession

/-! ## The staged cycle of a chunk -/

namespace WindowCycle

variable {K O : Type} [DecidableEq O]

/-- A delivery of the cycle. -/
def take (cy : WindowCycle K O) (owner : O) (d : ClosedShare K O) : WindowCycle K O :=
  { cy with
    delivered := cy.delivered ++ [owner]
    rows := cy.rows ++ d.rows
    progress := d.pending.or cy.progress
    lost := cy.lost || d.windowLost }

/-- `OnDelivery`, as far as it records: an owner's first delivery of an open cycle counts. -/
def deliver (cycles : List (WindowCycle K O)) (seq : Nat) (owner : O) (d : ClosedShare K O) :
    List (WindowCycle K O) :=
  cycles.map fun cy => if cy.seq = seq ∧ owner ∉ cy.delivered then cy.take owner d else cy

/-- Every owner has delivered. -/
def complete (su : FanoutSetup K O) (cy : WindowCycle K O) : Bool :=
  su.owners.all (· ∈ cy.delivered)

end WindowCycle

/-! ## The snapshot -/

/-- Where the pass is: between two chunks, with the gate on ahead of the read, or with the rows
of a read sent. -/
inductive FanoutStage
  | between
  | gated (chunk : Nat)
  | reading (chunk read : Nat)
  deriving DecidableEq, Repr

inductive FanoutOutcome
  | running
  | succeeded
  | failed
  deriving DecidableEq, Repr

/-- The snapshot: the source's rows and the log of the keys it changed, how far the stream has
been sent; the chunks of the pass, those left to take and the pending list; the owners; the
cycles in send order, the pass that tracks them and the cycle being committed; the rows and
the pending list in the sink.  History: the reads, the numbers of the changes the owners
took, and the chunks an owner lost that no cycle has committed since. -/
structure FanoutState (K O : Type) where
  source : List K
  log : List K
  pumped : Nat
  passChunks : List Nat
  todo : List Nat
  pending : List Nat
  stage : FanoutStage
  sessions : O → OwnerSession K
  nextSeq : Nat
  cycles : List (WindowCycle K O)
  pass : FanoutPass
  committing : Option (WindowCycle K O)
  sinkRows : List (SnapshotRow K O)
  sinkPending : List Nat
  outcome : FanoutOutcome
  reads : List (ChunkRead K)
  applied : List Nat
  lostChunks : List Nat

inductive FanoutAction (K O : Type)
  | change (key : K) (present : Bool)
  | pump
  | gateOn
  | scan
  | release
  | send (owner : O)
  | receive (owner : O)
  | process (owner : O)
  | ack (owner : O) (n : Nat)
  | lose (owner : O)
  | resolve
  | land (ok : Bool)
  | await

namespace FanoutState

variable {K O : Type} [DecidableEq K] [DecidableEq O] (su : FanoutSetup K O)

/-- The chunks of a list the bounds still have: a pass steps over the others. -/
def readable (chunks : List Nat) : List Nat := chunks.filter (· < su.chunks)

/-- The first pass.  The plan's pending list is durable: a cold start persists it, a resumed
snapshot has read it. -/
def init : FanoutState K O where
  source := su.initial
  log := []
  pumped := 0
  passChunks := su.plan
  todo := readable su su.plan
  pending := su.plan
  stage := .between
  sessions _ := OwnerSession.init
  nextSeq := 1
  cycles := []
  pass := FanoutPass.init
  committing := none
  sinkRows := []
  sinkPending := su.plan
  outcome := .running
  reads := []
  applied := []
  lostChunks := []

variable (s : FanoutState K O)

/-- `enqueueTo`, for every owner that has a message. -/
def enqueue (messages : O → List (FanoutMessage K)) : O → OwnerSession K :=
  fun o => { s.sessions o with queue := (s.sessions o).queue ++ messages o }

/-- One owner's session replaced. -/
def setSession (owner : O) (x : OwnerSession K) : O → OwnerSession K :=
  fun o => if o = owner then x else s.sessions o

/-- The source changes a row: it is there afterwards, or it is not. -/
def change (key : K) (present : Bool) : FanoutState K O :=
  let others := s.source.filter (· ≠ key)
  { s with
    source := if present then others ++ [key] else others
    log := s.log ++ [key] }

/-- The stream's next change goes to the owner of its key, tagged when a window is open.
Between `GateOn` and the read the gate holds it back. -/
def pump : Option (FanoutState K O) :=
  let send (inWindow : Bool) : Option (FanoutState K O) :=
    s.log[s.pumped]?.map fun key =>
      { s with
        sessions := s.enqueue fun o =>
          if o = su.ownerOf key then [.live s.pumped key inWindow] else []
        pumped := s.pumped + 1 }
  match s.stage with
  | .between => send false
  | .gated _ => none
  | .reading _ _ => send true

/-- `GateOn`. -/
def gateOn : Option (FanoutState K O) :=
  match s.stage, s.todo with
  | .between, chunk :: rest => some { s with stage := .gated chunk, todo := rest }
  | _, _ => none

/-- An owner's rows of a chunk. -/
def shareOf (keys : List K) (owner : O) : List K := keys.filter (su.ownerOf · = owner)

/-- The chunk's SELECT, and `AddWindowRows` of the relay: every owner is sent its window, an
owner with no row of the chunk too. -/
def scan : Option (FanoutState K O) :=
  match s.stage with
  | .gated chunk =>
    let keys := s.source.filter (su.chunkOf · = chunk)
    some { s with
      sessions := s.enqueue fun o =>
        if o ∈ su.owners then [.rows chunk (shareOf su keys o) s.reads.length] else []
      reads := s.reads ++ [⟨chunk, s.log.length, keys⟩]
      stage := .reading chunk s.reads.length }
  | _ => none

/-- `closeFanoutChunk`.  Only a staged table's markers have a cycle, and only a cycle is
noted. -/
def closeFanoutChunk (chunk read : Nat) (pending : List Nat) : FanoutState K O :=
  let seq := if su.staged then s.nextSeq else 0
  let s := if su.staged then
      { s with
        nextSeq := s.nextSeq + 1
        cycles := s.cycles ++ [⟨seq, chunk, read, pending, [], [], none, false⟩]
        pass := s.pass.note seq chunk }
    else s
  { s with
    sessions := s.enqueue fun o =>
      if o ∈ su.owners then [.closes seq chunk pending read] else [] }

/-- `Release`. -/
def release : Option (FanoutState K O) :=
  match s.stage with
  | .reading chunk read =>
    let remaining := removeFromPending s.pending chunk
    some (closeFanoutChunk su { s with stage := .between, pending := remaining } chunk read
      remaining)
  | _ => none

/-- What a marker made an owner emit.  The share of a cycle is delivered to the coordinator;
a share of no cycle is committed by the worker, with the pending list. -/
def emit (owner : O) (seq : Nat) : Option (ClosedShare K O) → FanoutState K O
  | none => s
  | some d =>
    if seq = 0 then
      { s with
        sinkRows := s.sinkRows ++ d.rows
        sinkPending := d.pending.getD s.sinkPending }
    else { s with cycles := WindowCycle.deliver s.cycles seq owner d }

/-- `handleIngest` of the next message. -/
def process (owner : O) : Option (FanoutState K O) :=
  let x := s.sessions owner
  match x.ingest with
  | [] => none
  | m :: rest =>
    let x := { x with ingest := rest, unacked := x.unacked ++ [m] }
    match m with
    | .rows .. => some { s with sessions := s.setSession owner x }
    | .live change key inWindow =>
      let windows := if inWindow then OwnerSession.touch x.windows key else x.windows
      some { s with
        sessions := s.setSession owner { x with windows := windows }
        applied := s.applied ++ [change] }
    | .closes seq chunk pending _ =>
      let closed := OwnerSession.closeWindow owner x.windows chunk
      let windows := x.windows.filter (·.chunk ≠ chunk)
      some (emit { s with sessions := s.setSession owner { x with windows := windows } } owner
        seq (OwnerSession.closesBatch seq pending closed))

/-- The head of the send order is complete: the pass resolves it, and its commit begins unless
it is dropped. -/
def resolve : Option (FanoutState K O) :=
  match s.committing, s.cycles with
  | none, cy :: rest =>
    if cy.complete su then
      let (drop, pass) := s.pass.resolve cy.seq cy.lost
      some { s with
        cycles := rest
        pass := pass
        committing := if drop then none else some cy }
    else none
  | _, _ => none

/-- `CommitStaged` returns.  A failed commit ends the run. -/
def land (ok : Bool) : Option (FanoutState K O) := s.committing.map fun cy =>
    if ok then
      { s with
        committing := none
        sinkRows := s.sinkRows ++ cy.rows
        sinkPending := cy.progress.getD s.sinkPending
        lostChunks := s.lostChunks.filter (· ≠ cy.chunk) }
    else { s with outcome := .failed }

/-- `Await` looks at the pass once its last marker is queued.  A drained pass with no lost
chunk ends the snapshot; otherwise the next pass begins at the first lost one. -/
def await : Option (FanoutState K O) :=
  if s.outcome = .running ∧ s.stage = .between ∧ s.todo = [] then
    s.pass.drained.map fun
      | none => { s with outcome := .succeeded }
      | some chunk =>
        let redo := pendingFrom s.passChunks chunk
        if redo = [] ∨ su.chunks = 0 then { s with outcome := .failed }
        else { s with
          passChunks := redo
          todo := readable su redo
          pending := redo
          pass := { s.pass with lost := false, first := 0 } }
  else none

def step (a : FanoutAction K O) : Option (FanoutState K O) :=
  if s.outcome = .failed then none
  else
    match a with
    | .change key present => some (s.change key present)
    | .pump => pump su s
    | .gateOn => s.gateOn
    | .scan => scan su s
    | .release => release su s
    | .send owner =>
      let x := s.sessions owner
      match x.queue with
      | [] => none
      | m :: rest =>
        some { s with
          sessions := s.setSession owner { x with queue := rest, wire := x.wire ++ [m] } }
    | .receive owner =>
      (s.sessions owner).receive.map fun x => { s with sessions := s.setSession owner x }
    | .process owner => s.process owner
    | .ack owner n =>
      let x := s.sessions owner
      some { s with sessions := s.setSession owner { x with unacked := x.unacked.eraseIdx n } }
    | .lose owner =>
      let x := s.sessions owner
      some { s with
        sessions := s.setSession owner x.lose
        lostChunks := s.lostChunks ++ x.lostWith }
    | .resolve => resolve su s
    | .land ok => s.land ok
    | .await => await su s

/-! ## Completeness -/

/-- The row of a read, or of a later read of its key, is in the sink, written by its owner. -/
def Durable (n : Nat) (k : K) : Prop :=
  ∃ row ∈ s.sinkRows, row.owner = su.ownerOf k ∧ row.key = k ∧ n ≤ row.read

/-- The stream carries the key: its owner has taken a live change of it. -/
def Streamed (k : K) : Prop := ∃ i ∈ s.applied, s.log[i]? = some k

/-- A row read is superseded by a change of its key: one made after the read, or one from
which on the stream carries the key. -/
def Superseded (r : ChunkRead K) (k : K) : Prop := k ∈ s.log.drop r.seen ∨ Streamed s k

/-- **What the snapshot promises.**  Once it has succeeded, every row it read is durable or
superseded; and the pending list in the sink has every chunk an owner lost. -/
def Complete : Prop := (s.outcome = .succeeded → ∀ n r, s.reads[n]? = some r → ∀ k ∈ r.keys,
    Durable su s n k ∨ Superseded s r k) ∧
  ∀ chunk ∈ s.lostChunks, chunk ∈ s.sinkPending

/-- The condition on an action: `Await` looks at the pass while no commit is under way. -/
def Landed : FanoutAction K O → Prop
  | .await => s.committing = none
  | _ => True

instance decidableLanded (s : FanoutState K O) : ∀ a, Decidable (Landed s a)
  | .await => inferInstanceAs (Decidable (s.committing = none))
  | .change .. | .pump | .gateOn | .scan | .release | .send _ | .receive _ | .process _
  | .ack .. | .lose _ | .resolve | .land _ => inferInstanceAs (Decidable True)

end FanoutState

end Urutau
