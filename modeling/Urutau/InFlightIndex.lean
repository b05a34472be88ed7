import Urutau.Positions

/-!
# The in-flight index and the covered skip

The coordinator keeps, for each worker, the batches it delivered and has no
ack for; an ack of a table's position releases them from the head only.  The
worker, for its part, skips a redelivered batch that its table's committed
position already covers.  Both decide by comparing a batch's high position
with one position of its table, and both treat a partial batch more strictly:
it carries the position of the transaction before its own.
-/

namespace Urutau

/-- The routing tag a batch carries when it belongs to a snapshot window. -/
structure WindowTag where
  windowId : Nat
  snapshot : Bool
  inWindow : Bool
  closes : Bool
  snapshotDone : Bool
  snapshotPending : Option (List Nat)
  deriving DecidableEq, Repr

/-- The metadata a batch travels with.  No high position stands for the empty
string of the wire format. -/
structure BatchMeta (P : Type) where
  batchId : Nat
  table : String
  highPos : Option P
  isPartial : Bool
  window : Option WindowTag
  deriving DecidableEq, Repr

section Receiver

variable {P : Type} [Position P]

/-- `covered` of the worker's receiver: the batch was already committed.  Rows
of a snapshot window are never skipped. -/
protected def covered (committed : String → Option P) (info : BatchMeta P) : Bool :=
  if info.window.any (·.snapshot) then false
  else
    match committed info.table, info.highPos with
    | some cp, some high =>
      if info.isPartial then decide (Position.compare high cp = .less)
      else Position.covered high cp
    | _, _ => false

/-- `skipCovered`: a covered batch is skipped, and acked at its own position,
or at the committed one when it is partial. -/
def skipCovered (committed : String → Option P) (info : BatchMeta P) : Option (String × Option P) :=
  if Urutau.covered committed info then
    some (info.table, if info.isPartial then committed info.table else info.highPos)
  else none

/-- What a skip has established about a batch that is not partial. -/
theorem covered_spec {committed : String → Option P} {info : BatchMeta P}
    (h : Urutau.covered committed info = true) (hp : info.isPartial = false) :
    ∃ cp high, committed info.table = some cp ∧ info.highPos = some high ∧
      Position.covered high cp = true := by
  unfold Urutau.covered at h
  split at h
  · cases h
  split at h
  · rename_i cp high hcp hhigh
    simp only [hp] at h
    exact ⟨cp, high, hcp, hhigh, h⟩
  · cases h

end Receiver

/-- One delivered batch, by position only. -/
structure InFlightBatch (P : Type) where
  id : Nat
  table : String
  high : Option P
  bytes : Nat
  oversized : Bool
  marker : Bool
  isPartial : Bool
  deriving DecidableEq, Repr

/-- A worker's unacked batches, oldest first, and the position acked for each
table. -/
structure PositionIndex (P : Type) where
  head : List (InFlightBatch P)
  acked : String → Option P

namespace PositionIndex

variable {P : Type} [Position P]

def add (idx : PositionIndex P) (b : InFlightBatch P) : PositionIndex P :=
  { idx with head := idx.head ++ [b] }

/-- Whether the head batch is released by what its table has acked.  A batch
without a position (snapshot rows) is released by any ack of its table. -/
def releasable (acked : String → Option P) (h : InFlightBatch P) : Bool := !h.marker &&
    match h.high, acked h.table with
    | none, some _ => true
    | some high, some cur =>
      Position.covered high cur && !(h.isPartial && !Position.advances cur high)
    | _, none => false

/-- `popCoveredLocked`: the batches popped from the head, and the index
without them. -/
def popCovered (idx : PositionIndex P) : List (InFlightBatch P) × PositionIndex P :=
  (idx.head.takeWhile (releasable idx.acked),
    { idx with head := idx.head.dropWhile (releasable idx.acked) })

/-- `Truncate`: record a table's ack, unless it does not advance, and pop what
it covers. -/
def truncate (idx : PositionIndex P) (table : String) (pos : P) :
    List (InFlightBatch P) × PositionIndex P :=
  let moves := match idx.acked table with
    | none => true
    | some cur => Position.advances pos cur
  let idx := if moves then
      { idx with acked := fun t => if t = table then some pos else idx.acked t }
    else idx
  idx.popCovered

/-- `ReleaseMarker`: remove a Closes marker by its id and pop what stood
behind it. -/
def releaseMarker (idx : PositionIndex P) (id : Nat) : List (InFlightBatch P) × PositionIndex P :=
  let (popped, rest) :=
    { idx with head := idx.head.eraseP (fun h => h.id == id && h.marker) }.popCovered
  ((idx.head.find? (fun h => h.id == id && h.marker)).toList ++ popped, rest)

variable {h : InFlightBatch P}

/-- Everything a pop releases was releasable. -/
theorem mem_popCovered {idx : PositionIndex P}
    (hmem : h ∈ idx.popCovered.1) : releasable idx.acked h = true :=
  List.mem_takeWhile_imp hmem

/-- What a release has established about a positioned batch. -/
theorem releasable_spec {acked : String → Option P} {high : P}
    (hr : releasable acked h = true) (hhigh : h.high = some high) :
    ∃ cur, acked h.table = some cur ∧ Position.covered high cur = true := by
  unfold releasable at hr
  simp only [hhigh, Bool.and_eq_true] at hr
  obtain ⟨-, hr⟩ := hr
  cases hcur : acked h.table with
  | none => simp [hcur] at hr
  | some cur =>
    simp only [hcur, Bool.and_eq_true] at hr
    exact ⟨cur, rfl, hr.1⟩

end PositionIndex

end Urutau
