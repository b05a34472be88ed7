import Urutau.HandoverAccount

/-!
# Re-slicing a table

A re-slice gives a table other owners while the pump goes on: the scaler pauses the
table's input, waits until its owners have nothing queued or in flight and no cycle
of it is open, publishes the new layout and resumes the input.  It does not look again
between the end of that wait and the flip.

A call of enqueue loads the layout once.  It opens the batch's cycle and sends the
owners their shares one after another; each send may wait for the flow budget, and
only then registers the share.  What the drain does not see is a batch on its way to
that: in a buffer, in hand, or in a call.

An ack or a commit settles a share, or a cycle, at any moment after it was
registered.  A scale that fails before the flip only pauses and resumes.
-/

namespace Urutau

/-- Beside the hand-over: a batch's rows, the owner of a row among those of a
layout, and whether the sink commits cycles. -/
structure ResliceSetup (B R : Type) extends HandoverSetup B where
  rowsOf : B → List R
  ownerOf : List String → R → String
  ownerOf_mem : ∀ owners r, owners ≠ [] → ownerOf owners r ∈ owners
  stagesCycles : Bool

/-- A table's owners, and how many layouts were published before. -/
structure TableLayout where
  version : Nat
  owners : List String
  deriving DecidableEq, Repr

/-- What is left of a call: to open the cycle, and to send an owner its share. -/
inductive Sending (R : Type)
  | expect
  | share (owner : String) (rows : List R)
  deriving DecidableEq, Repr

/-- A call of enqueue under way, with the layout it loaded. -/
structure EnqueueCall (R : Type) where
  table : String
  layout : TableLayout
  left : List (Sending R)
  deriving DecidableEq, Repr

/-- An owner's share of a batch. -/
structure OwnedShare (R : Type) where
  table : String
  layout : TableLayout
  owner : String
  rows : List R
  deriving DecidableEq, Repr

/-- Who calls enqueue: the pump, or the drain under the flush lock. -/
inductive Caller
  | pump
  | drain
  deriving DecidableEq, Repr

/-- The coordinator with its layouts.  `seen` are the tables the scaler has found drained
and not published yet.  History: the batches of each table let past
the pause with the layout of that moment, those enqueue was called with and the
layout it loaded, and the shares settled. -/
structure ResliceState (B R : Type) where
  hand : HandState B
  layout : String → TableLayout
  call : Caller → Option (EnqueueCall R)
  inFlight : List (OwnedShare R)
  cycles : List (String × TableLayout)
  seen : String → Bool
  accepted : String → List (B × TableLayout)
  routed : String → List (B × TableLayout)
  reached : List (OwnedShare R)

inductive ResliceAction (B R : Type)
  | hand (a : HandAction B)
  | sendNext (who : Caller)
  | settle (share : OwnedShare R)
  | commit (cycle : String × TableLayout)
  | look (table : String)
  | publish (table : String) (owners : List String)
  deriving DecidableEq, Repr

namespace ResliceSetup

variable {B R : Type} (su : ResliceSetup B R)

/-- `isStagedTable`. -/
def isStagedTable (owners : List String) : Bool := su.stagesCycles && 1 < owners.length

/-- `SplitByOwner`: the rows of each owner that has any. -/
def splitByOwner (owners : List String) (rows : List R) : List (Sending R) :=
  owners.filterMap fun o =>
    let mine := rows.filter fun r => su.ownerOf owners r = o
    if mine.isEmpty then none else some (.share o mine)

/-- `enqueueBatch`: a single owner gets the batch whole.  No share is taken for
covered at boot. -/
def enqueueBatch (table : String) (layout : TableLayout) (items : List B) : EnqueueCall R where
  table
  layout
  left :=
    let rows := items.flatMap su.rowsOf
    match layout.owners with
    | [o] => [.share o rows]
    | owners =>
      let shares := su.splitByOwner owners rows
      (if su.stagesCycles && !shares.isEmpty then [.expect] else []) ++ shares

end ResliceSetup

namespace ResliceState

open Function (update)

variable {B R : Type} (su : ResliceSetup B R) (s : ResliceState B R)

def init (owners : String → List String) : ResliceState B R where
  hand := HandState.init fun t => su.isStagedTable (owners t)
  layout t := ⟨0, owners t⟩
  call _ := none
  inFlight := []
  cycles := []
  seen _ := false
  accepted _ := []
  routed _ := []
  reached := []

/-- Whose step it is, if it begins a call or waits for one to return. -/
def callerOf : HandAction B → Option Caller
  | .pump _ => some .pump
  | .send | .sent => some .drain
  | _ => none

/-- The step waits for a call of its own. -/
def blocked (a : HandAction B) : Bool :=
  match callerOf a with
  | some who => (s.call who).any fun c => !c.left.isEmpty
  | none => false

/-- The call a step begins, with the layout it loads. -/
def called (a : HandAction B) : Option (EnqueueCall R) :=
  (s.hand.calls su.toHandoverSetup a).map fun x => su.enqueueBatch x.1 (s.layout x.1) x.2

/-- The scaler gives the table up, or is done with it. -/
def resumes : HandAction B → String → Bool
  | .resumeTable table, t => table == t
  | _, _ => false

/-- A step of the hand-over. -/
def handStep (a : HandAction B) : Option (ResliceState B R) :=
  if s.blocked a then none
  else (HandState.step su.toHandoverSetup s.hand a).map fun h => { s with
    hand := h
    call := fun who => if callerOf a = some who then s.called su a else s.call who
    seen := fun t => s.seen t && !resumes a t
    accepted := fun t =>
      s.accepted t ++ (s.hand.accepts su.toHandoverSetup t a).map (·, s.layout t)
    routed := fun t =>
      s.routed t ++ (s.hand.handsOver su.toHandoverSetup t a).map (·, s.layout t) }

/-- A call does what comes next. -/
def sendNext (who : Caller) : Option (ResliceState B R) :=
  match s.call who with
  | none => none
  | some c =>
    match c.left with
    | [] => none
    | .expect :: rest =>
      some { s with
        call := update s.call who (some { c with left := rest })
        cycles := s.cycles ++ [(c.table, c.layout)] }
    | .share o rows :: rest =>
      some { s with
        call := update s.call who (some { c with left := rest })
        inFlight := s.inFlight ++ [⟨c.table, c.layout, o, rows⟩] }

/-- `drainForFlip`: nothing of the table is owed by its current owners. -/
def drained (table : String) : Bool :=
  s.inFlight.all (fun e => e.table != table || e.owner ∉ (s.layout table).owners) &&
    s.cycles.all (·.1 != table)

/-- The wait ends: the scaler has paused the table and finds it drained. -/
def look (table : String) : Option (ResliceState B R) :=
  if s.hand.paused table && s.drained table then
    some { s with seen := update s.seen table true }
  else none

/-- The flip, of a table that was found drained. -/
def publish (table : String) (owners : List String) : Option (ResliceState B R) :=
  if s.seen table && !owners.isEmpty then
    (HandState.step su.toHandoverSetup s.hand (.publish table (su.isStagedTable owners))).map
      fun h => { s with
        hand := h
        layout := update s.layout table ⟨(s.layout table).version + 1, owners⟩
        seen := update s.seen table false }
  else none

def step [DecidableEq R] (su : ResliceSetup B R) (s : ResliceState B R) :
    ResliceAction B R → Option (ResliceState B R)
  | .hand (.publish _ _) => none
  | .hand a => s.handStep su a
  | .sendNext who => s.sendNext who
  | .settle share =>
    if share ∈ s.inFlight then
      some { s with inFlight := s.inFlight.erase share, reached := s.reached ++ [share] }
    else none
  | .commit cycle =>
    if cycle ∈ s.cycles then some { s with cycles := s.cycles.erase cycle } else none
  | .look table => s.look table
  | .publish table owners => s.publish su table owners

end ResliceState

end Urutau
