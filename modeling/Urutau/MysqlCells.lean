import Mathlib

/-!
# One MySQL cell on both paths

A row is read by a chunk SELECT or arrives in the binlog.  The two drivers hand over
different Go values for what the server stores, each path normalizes them on its own, and one
type switch appends them to the wire.  The cells are the same except for two kinds of values:
the stream's 8 and 16 bit integers, which the switch does not know, and a zero DATETIME or DATE,
which the snapshot moves to the configured zone and the stream does not.

A calendar time is modelled by its wall clock, in seconds as if it were UTC.
-/

namespace Urutau

open List

/-! ## Go's times -/

/-- A time zone: the offset in force at an instant, in seconds.  Until the year 68 every zone
has its first offset. -/
structure Location where
  offsetAt : Int → Int
  first : Int
  offsetAt_early : ∀ t, t ≤ -60000000000 → offsetAt t = first
  first_lt : first < 86400
  lt_first : -86400 < first

def Location.utc : Location where
  offsetAt _ := 0
  first := 0
  offsetAt_early _ _ := rfl
  first_lt := by decide
  lt_first := by decide

/-- An instant, in seconds and nanoseconds, and the zone it is shown in. -/
structure GoTime where
  unix : Int
  nsec : Nat
  zone : Location

/-- The wall clock of a time. -/
def GoTime.wall (t : GoTime) : Int := t.unix + t.zone.offsetAt t.unix

/-- The time a wall clock shows in a zone.  The offset is looked up as if the wall clock were
the instant, and once more at the instant it gives. -/
def GoTime.date (wall : Int) (nsec : Nat) (loc : Location) : GoTime :=
  ⟨wall - loc.offsetAt (wall - loc.offsetAt wall), nsec, loc⟩

/-- The first of January of the year one, midnight. -/
def zeroWall : Int := -62135596800

/-- Go's zero time. -/
def GoTime.zero : GoTime := ⟨zeroWall, 0, .utc⟩

/-- A Go string, as its bytes. -/
abbrev GoString := List UInt8

/-- The widths of Go's signed integers. -/
inductive GoWidth where
  | int8
  | int16
  | int32
  | int64
  deriving DecidableEq

/-- A cell as a driver hands it over. -/
inductive DriverCell where
  | nil
  | int (w : GoWidth) (n : Int)
  | bytes (b : List UInt8)
  | string (s : GoString)
  | time (t : GoTime)

variable (lib : CellLib) (loc : Location)

/-- A byte slice becomes a string. -/
def normalize : DriverCell → DriverCell
  | .bytes b => .string b
  | v => v

variable {lib : CellLib} {process loc : Location}

variable {col : MysqlColumn} {members : List GoString}

end Urutau
