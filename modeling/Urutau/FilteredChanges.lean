import Urutau.RowImages
import Urutau.LastWrite
import Urutau.GuardedRun

/-!
# The changes of a filtered table

A reader that filters a table turns an update into a delete when the row leaves the filter,
and adds a delete of the old key when the update moves the row to another key.  Both need
the old row.  Under a replica identity the spec lets the table keep, the message has only
the old key, or no old tuple at all.

The source is a table by key, and so is the target the emitted changes are folded into.
They agree on the filter as long as every old image says as much about the filter and the
key as the old row does.
-/

namespace Urutau

open Results

/-- A table as the reader is set up for it. -/
structure FilteredTable where
  target : String
  columns : List Column
  primaryKey : List String
  upsert : Bool
  filter : Option (Row → Except String Bool)

namespace FilteredTable

variable (tbl : FilteredTable)

def key (row : Row) : List Cell := keyTuple tbl.columns tbl.primaryKey row

/-- The verdict of the compiled filter; a table without one keeps every row. -/
def keep (row : Row) : Except ReadError Bool :=
  match tbl.filter with
  | none => .ok true
  | some program =>
    match program row with
    | .ok verdict => .ok verdict
    | .error message => .error (.filter message)

/-- The row satisfies the filter. -/
def satisfies (row : Row) : Bool :=
  match tbl.keep row with
  | .ok verdict => verdict
  | .error _ => false

def change (op : Op) (image : Row) : Change := ⟨tbl.target, op, image, tbl.columns.length⟩

/-- A delete of the old key, when an update of an upsert target changes the key. -/
def deleteChangedKey (before : Option Row) (after : Row) : List Change :=
  match before with
  | none => []
  | some old =>
    if tbl.upsert ∧ keyString (tbl.key old) ≠ keyString (tbl.key after) then
      [tbl.change .delete old]
    else []

def keepBefore : Option Row → Except ReadError Bool
  | none => .ok false
  | some before => tbl.keep before

/-! ## The Postgres reader -/

section Postgres

variable (fmt : TextFormat)

def handleInsert (tuple : List TupleColumn) : Except ReadError (List Change) :=
  (tupleRow fmt tbl.columns tuple none).bind fun row =>
    (tbl.keep row).bind fun kept =>
      .ok (if kept then [tbl.change .insert row] else [])

def beforeRow : Option OldTuple → Except ReadError (Option Row)
  | none => .ok none
  | some old => (oldTupleRow fmt tbl.columns tbl.primaryKey old).bind fun row => .ok (some row)

/-- What an update emits once its images are decoded. -/
def decodedUpdate (before : Option Row) (after : Row) : Except ReadError (List Change) :=
  if tbl.filter.isSome then
    (tbl.keep after).bind fun afterMatch =>
      (tbl.keepBefore before).bind fun beforeMatch =>
        match before, beforeMatch, afterMatch with
        | _, false, false => .ok []
        | some old, true, false => .ok [tbl.change .delete old]
        | _, _, _ => .ok (tbl.deleteChangedKey before after ++ [tbl.change .update after])
  else .ok (tbl.deleteChangedKey before after ++ [tbl.change .update after])

def handleUpdate (tuple : List TupleColumn) (old : Option OldTuple) :
    Except ReadError (List Change) :=
  (tupleRow fmt tbl.columns tuple (toastSource old)).bind fun row =>
    (tbl.beforeRow fmt old).bind fun before => tbl.decodedUpdate before row

def handleDelete (old : Option OldTuple) : Except ReadError (List Change) :=
  match old with
  | none => .error .noOldTuple
  | some old =>
    (oldTupleRow fmt tbl.columns tbl.primaryKey old).bind fun before =>
    (tbl.keep before).bind fun kept =>
      .ok (if kept then [tbl.change .delete before] else [])

end Postgres

/-! ## The MySQL reader -/

/-- One binlog row; a deleted row comes in the place of the new image. -/
def appendChange (op : Op) (after : Row) (before : Option Row) : Except ReadError (List Change) :=
  match op with
  | .delete => (tbl.keep after).bind fun kept =>
    .ok (if kept then [tbl.change .delete after] else [])
  | .update => (tbl.keep after).bind fun afterKeep =>
    (tbl.keepBefore before).bind fun beforeKeep =>
      match before, afterKeep, beforeKeep with
      | _, false, false => .ok []
      | some old, false, true => .ok [tbl.change .delete old]
      | _, _, _ => .ok (tbl.deleteChangedKey before after ++ [tbl.change .update after])
  | .insert => (tbl.keep after).bind fun kept =>
    .ok (if kept then [tbl.change .insert after] else [])

/-! ## What is emitted -/

/-- The changes of an update, by what the two images say. -/
def updateChanges (before : Option Row) (after : Row) : List Change :=
  if tbl.satisfies after then tbl.deleteChangedKey before after ++ [tbl.change .update after]
  else
    match before with
    | some old => if tbl.satisfies old then [tbl.change .delete old] else []
    | none => []

variable {tbl}

theorem keep_eq_ok {row : Row} {verdict : Bool} (h : tbl.keep row = .ok verdict) :
    tbl.satisfies row = verdict := by
  rw [satisfies, h]

theorem satisfies_of_unfiltered (h : tbl.filter = none) (row : Row) : tbl.satisfies row = true := by
  simp [satisfies, keep, h]

variable {before : Option Row}

variable {after : Row} {changes : List Change}

/-- Both readers decide on the verdicts of the two images in the same way. -/
theorem verdicts_eq_ok {afterMatch beforeMatch : Bool}
    (hafter : tbl.keep after = .ok afterMatch) (hbefore : tbl.keepBefore before = .ok beforeMatch) :
    tbl.updateChanges before after = match before, beforeMatch, afterMatch with
      | _, false, false => []
      | some old, true, false => [tbl.change .delete old]
      | _, _, _ => tbl.deleteChangedKey before after ++ [tbl.change .update after] := by
  rw [updateChanges.eq_def, keep_eq_ok hafter]
  cases before with
  | none =>
    cases Except.ok.inj hbefore
    cases afterMatch <;> rfl
  | some old =>
    dsimp only
    rw [keep_eq_ok hbefore]
    cases afterMatch <;> cases beforeMatch <;> rfl

theorem decodedUpdate_eq_ok (h : tbl.decodedUpdate before after = .ok changes) :
    changes = tbl.updateChanges before after := by
  rw [decodedUpdate] at h
  split at h
  · obtain ⟨afterMatch, hafter, h⟩ := bind_eq_ok.mp h
    obtain ⟨beforeMatch, hbefore, h⟩ := bind_eq_ok.mp h
    rw [verdicts_eq_ok hafter hbefore]
    cases before <;> cases afterMatch <;> cases beforeMatch <;> exact (Except.ok.inj h).symm
  · rename_i hfilter
    have hnone : tbl.filter = none := by simpa using hfilter
    rw [updateChanges.eq_def, satisfies_of_unfiltered hnone]
    exact (Except.ok.inj h).symm

theorem appendChange_update_eq_ok (h : tbl.appendChange .update after before = .ok changes) :
    changes = tbl.updateChanges before after := by
  obtain ⟨afterMatch, hafter, h⟩ := bind_eq_ok.mp h
  obtain ⟨beforeMatch, hbefore, h⟩ := bind_eq_ok.mp h
  rw [verdicts_eq_ok hafter hbefore]
  cases before <;> cases afterMatch <;> cases beforeMatch <;> exact (Except.ok.inj h).symm

end FilteredTable

end Urutau
