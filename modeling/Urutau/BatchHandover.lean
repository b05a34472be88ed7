import Urutau.GuardedRun

/-!
# Handing batches over

The coordinator's pump pulls batches from the source and hands them to enqueue.
Three buffers stand in between: the gate of a DBLog window, the accumulator of a
staged table, and the pause of a table that is re-sliced.  The gate's lock guards
the gate and the accumulators; every drain of either is sent under the flush
lock, while the pump, the windows and the scaler go on.  What the pause held, the
pump sends itself.

A step is what runs under one lock, or one send.  A table's partitions are
snapshotted one at a time, so it has one window at most.  The run ends at the
first send that fails.
-/

namespace Urutau

/-- The tables, what is measured of a batch, and the bounds of a window and of a
cycle. -/
structure HandoverSetup (B : Type) where
  tables : List String
  distinct : tables.Nodup
  table : B → String
  rows : B → Nat
  bytes : B → Nat
  gateMaxCount : Nat
  gateMaxBytes : Nat
  cycleMaxRows : Nat
  cycleMaxBytes : Nat

namespace HandoverSetup

variable {B : Type} (su : HandoverSetup B)

/-- `fullLocked`: a bound of zero is unlimited. -/
def full (buf : List B) : Bool := (0 < su.gateMaxCount && su.gateMaxCount ≤ buf.length) ||
    (0 < su.gateMaxBytes && su.gateMaxBytes ≤ (buf.map su.bytes).sum)

/-- `Fits`: the first batch always does. -/
def fits (accRows accBytes rows bytes : Nat) : Bool :=
  accRows = 0 || (accRows + rows ≤ su.cycleMaxRows && accBytes + bytes ≤ su.cycleMaxBytes)

/-- The loop of `SendGrouped` that counts the batches of one send. -/
def groupLen (accRows accBytes : Nat) : List B → Nat
  | [] => 0
  | b :: rest =>
    if su.fits accRows accBytes (su.rows b) (su.bytes b) then
      groupLen (accRows + su.rows b) (accBytes + su.bytes b) rest + 1
    else 0

end HandoverSetup

/-- A drain under the flush lock: what is left to send, whether a send is under
way, and the window to seal once it is empty.  An accumulator goes out as one
batch. -/
structure Drain (B : Type) where
  table : String
  items : List B
  calling : Bool
  accum : Bool
  closing : Option Nat
  deriving DecidableEq, Repr

/-- What the pump does once its flush has been sent. -/
inductive PumpNext (B : Type)
  | idle
  | pauseHold (b : B)
  | gateHold (b : B)
  | take (b : B)
  | enqueueHeld (table : String) (items : List B) (rest : List (String × List B))
  deriving DecidableEq, Repr

/-- Where the pump stands. -/
inductive Pump (B : Type)
  | idle
  | flushBeforePause (b : B)
  | pauseHold (b : B)
  | gateHold (b : B)
  | drainReady (b : B) (partition : Nat)
  | accumulate (b : B)
  | take (b : B)
  | enqueue (b : B)
  | inEnqueue
  | flushAccum (table : String) (next : PumpNext B)
  | sending (next : PumpNext B)
  | flushPaused (held : List (String × List B))
  | enqueueHeld (table : String) (items : List B) (rest : List (String × List B))
  | inEnqueueHeld (table : String) (items : List B) (rest : List (String × List B))
  deriving DecidableEq, Repr

/-- Back to where the pump came from. -/
def PumpNext.pump {B : Type} : PumpNext B → Pump B
  | .idle => .idle
  | .pauseHold b => .pauseHold b
  | .gateHold b => .gateHold b
  | .take b => .take b
  | .enqueueHeld table items rest => .enqueueHeld table items rest

/-- The coordinator between the source and enqueue.  History: the batches of each
table pulled, and those handed over. -/
structure HandState (B : Type) where
  window : String → Option Nat
  ready : String → Bool
  buf : String → List B
  accum : String → List B
  paused : String → Bool
  held : String → List B
  staged : String → Bool
  drain : Option (Drain B)
  pump : Pump B
  pulled : String → List B
  handed : String → List B

/-- The steps: the pump's, a drain's, and those of the windows and the scaler.
`due` is whether the accumulator is to be sent, `order` that of the tables
resumed. -/
inductive HandAction (B : Type)
  | pull (b : B)
  | pump (due : Bool)
  | tick (table : String)
  | wake (order : List String)
  | send
  | sent
  | openWindow (table : String) (partition : Nat)
  | markReady (table : String) (partition : Nat)
  | clearReady (table : String) (partition : Nat)
  | flushWindow (table : String) (partition : Nat)
  | closeWindow (table : String) (partition : Nat)
  | pauseTable (table : String)
  | resumeTable (table : String)
  | publish (table : String) (staged : Bool)
  deriving DecidableEq, Repr

namespace HandState

open Function (update)

variable {B : Type}

def init (staged : String → Bool) : HandState B where
  window _ := none
  ready _ := false
  buf _ := []
  accum _ := []
  paused _ := false
  held _ := []
  staged
  drain := none
  pump := .idle
  pulled _ := []
  handed _ := []

variable (su : HandoverSetup B) (s : HandState B)

/-- Batches are handed to enqueue. -/
def hand (table : String) (items : List B) : HandState B :=
  { s with handed := update s.handed table (s.handed table ++ items) }

/-- The flush lock is taken to send items, if there are any. -/
def drainOf (table : String) (items : List B) (accum : Bool) (closing : Option Nat) :
    Option (Drain B) :=
  if items.isEmpty then none else some ⟨table, items, false, accum, closing⟩

/-- The window takes a batch. -/
def appendLocked (table : String) (b : B) : HandState B :=
  { s with buf := update s.buf table (s.buf table ++ [b]), pump := .idle }

/-- `Hold` of the gate.  A full window that is not ready blocks the pump. -/
def gateHold (b : B) : Option (HandState B) :=
  match s.window (su.table b) with
  | none => some { s with pump := .accumulate b }
  | some p =>
    if su.full (s.buf (su.table b)) then
      if s.ready (su.table b) then some { s with pump := .drainReady b p } else none
    else some (s.appendLocked (su.table b) b)

/-- The pump goes on with a drain of its own, or without one. -/
def drained (drain : Option (Drain B)) (next : PumpNext B) : HandState B :=
  { s with drain, pump := if drain.isSome then .sending next else next.pump }

/-- `drainReady`: what the window holds goes out ahead of the batch in hand. -/
def drainReady (b : B) (p : Nat) : Option (HandState B) :=
  if s.drain.isSome then none
  else if s.window (su.table b) = some p ∧ s.ready (su.table b) then
    some ({ s with buf := update s.buf (su.table b) [] }.drained
      (drainOf (su.table b) (s.buf (su.table b)) false none) (.gateHold b))
  else some { s with pump := .gateHold b }

/-- `Flush` of the coalescer, by the pump. -/
def flushAccum (table : String) (next : PumpNext B) : Option (HandState B) :=
  if s.drain.isSome then none
  else some ({ s with accum := update s.accum table [] }.drained
    (drainOf table (s.accum table) true none) next)

/-- `Take`: the accumulator's, unless a window has opened. -/
def take (b : B) (due : Bool) : HandState B :=
  match s.window (su.table b) with
  | some _ => s.appendLocked (su.table b) b
  | none =>
    let acc := s.accum (su.table b)
    if su.fits (acc.map su.rows).sum (acc.map su.bytes).sum (su.rows b) (su.bytes b) then
      { s with
        accum := update s.accum (su.table b) (acc ++ [b])
        pump := if due then .flushAccum (su.table b) .idle else .idle }
    else { s with pump := .flushAccum (su.table b) (.take b) }

/-- The pump's next step. -/
def pumpStep (due : Bool) : Option (HandState B) :=
  match s.pump with
  | .idle => none
  | .flushBeforePause b =>
    if s.paused (su.table b) then
      some { s with pump := .flushAccum (su.table b) (.pauseHold b) }
    else some { s with pump := .pauseHold b }
  | .pauseHold b =>
    if s.paused (su.table b) || !(s.held (su.table b)).isEmpty then
      some { s with
        held := update s.held (su.table b) (s.held (su.table b) ++ [b])
        pump := .idle }
    else some { s with pump := .gateHold b }
  | .gateHold b => s.gateHold su b
  | .drainReady b p => s.drainReady su b p
  | .accumulate b => some { s with pump := if s.staged (su.table b) then .take b else .enqueue b }
  | .take b => some (s.take su b due)
  | .enqueue b => some { s.hand (su.table b) [b] with pump := .inEnqueue }
  | .inEnqueue => some { s with pump := .idle }
  | .flushAccum table next => s.flushAccum table next
  | .sending _ => none
  | .flushPaused [] => some { s with pump := .idle }
  | .flushPaused ((table, items) :: rest) =>
    some { s with pump := .flushAccum table (.enqueueHeld table items rest) }
  | .enqueueHeld table items rest =>
    if items.isEmpty then some { s with pump := .flushPaused rest }
    else
      let n := su.groupLen 0 0 items
      some { s.hand table (items.take n) with pump := .inEnqueueHeld table (items.drop n) rest }
  | .inEnqueueHeld table items rest => some { s with pump := .enqueueHeld table items rest }

/-- `TakeResumed`: what is held of the tables no longer paused. -/
def resumedTables : List String := su.tables.filter fun t => !s.paused t && !(s.held t).isEmpty

/-- The drain's next send. -/
def send (d : Drain B) : Option (HandState B) :=
  if d.calling then none
  else
    let n := if d.accum then d.items.length else su.groupLen 0 0 d.items
    some { s.hand d.table (d.items.take n) with
      drain := some { d with items := d.items.drop n, calling := true } }

/-- The flush lock is released; the pump goes on if the drain was its own. -/
def release : HandState B :=
  { s with
    drain := none
    pump := match s.pump with
      | .sending next => next.pump
      | pump => pump }

/-- `sealLocked`. -/
def sealLocked (table : String) : HandState B :=
  { s with window := update s.window table none, ready := update s.ready table false }

/-- A send of the drain returns.  `Close` takes what has joined the window
meanwhile, and seals it once it is empty. -/
def sent (d : Drain B) : Option (HandState B) :=
  if d.calling = false then none
  else if d.items ≠ [] then some { s with drain := some { d with calling := false } }
  else
    match d.closing with
    | none => some s.release
    | some _ =>
      if (s.buf d.table).isEmpty then some (s.sealLocked d.table).release
      else some { s with
        buf := update s.buf d.table []
        ready := update s.ready d.table false
        drain := some { d with items := s.buf d.table, calling := false } }

/-- The window's step under the flush lock. -/
def withFlush (f : HandState B → HandState B) : Option (HandState B) :=
  if s.drain.isSome then none else some (f s)

def step : HandAction B → Option (HandState B)
  | .pull b =>
    if s.pump matches .idle then
      if su.table b ∈ su.tables then
        some { s with
          pulled := update s.pulled (su.table b) (s.pulled (su.table b) ++ [b])
          pump := .flushBeforePause b }
      else none
    else none
  | .pump due => s.pumpStep su due
  | .tick table =>
    if s.pump matches .idle then some { s with pump := .flushAccum table .idle } else none
  | .wake order =>
    if s.pump matches .idle then
      if order.Perm (s.resumedTables su) then
        some { s with
          held := fun t => if t ∈ order then [] else s.held t
          pump := .flushPaused (order.map fun t => (t, s.held t)) }
      else none
    else none
  | .send => s.drain.bind fun d => s.send su d
  | .sent => s.drain.bind fun d => s.sent d
  | .openWindow table p =>
    if (s.window table).all (· == p) then
      s.withFlush fun s => { s with
        window := update s.window table (some p)
        accum := update s.accum table []
        drain := drainOf table (s.accum table) true none }
    else none
  | .markReady table p =>
    some (if s.window table = some p then { s with ready := update s.ready table true } else s)
  | .clearReady table p =>
    some (if s.window table = some p then { s with ready := update s.ready table false } else s)
  | .flushWindow table p =>
    if s.window table = some p then
      s.withFlush fun s => { s with
        buf := update s.buf table []
        ready := update s.ready table false
        drain := drainOf table (s.buf table) false none }
    else some s
  | .closeWindow table p =>
    if s.window table = some p then
      s.withFlush fun s =>
        if (s.buf table).isEmpty then s.sealLocked table
        else { s with
          buf := update s.buf table []
          ready := update s.ready table false
          drain := drainOf table (s.buf table) false (some p) }
    else some s
  | .pauseTable table => some { s with paused := update s.paused table true }
  | .resumeTable table => some { s with paused := update s.paused table false }
  | .publish table staged => some { s with staged := update s.staged table staged }

end HandState

end Urutau
