import Urutau.TimeTexts

/-!
# The two ways of a key value into an Iceberg table

A row's key goes into the table twice.  With the data it is projected: the value read from
the wire is cast as the table's policy says, and appended to a column of the target type.
In the equality delete it is extracted as a scalar and appended to a column of the same
type, without the cast.  The two have to come out the same for the delete to find the row.

Texts of dates, times and uuids are Go's.  What floats are, which texts are JSON, and what the
Arrow library makes of a decimal are parameters.
-/

namespace Urutau

open TimeTexts

/-- The canonical column types that can be on the wire. -/
inductive WireType
  | bool
  | int32
  | int64
  | uint64
  | float32
  | float64
  | decimal (precision scale : Nat)
  | string
  | json
  | binary
  | fixed (size : Nat)
  | date
  | time
  | timestamp
  | timestamptz
  | uuid
  | composite
  deriving DecidableEq, Repr

/-- A value of a wire column: a decimal as its unscaled number, a date in days, times in
microseconds, a composite as its JSON text. -/
def WireCell (F32 F64 : Type) : WireType → Type
  | .bool => Bool
  | .int32 | .int64 | .decimal _ _ | .date | .time | .timestamp | .timestamptz => Int
  | .uint64 => Nat
  | .float32 => F32
  | .float64 => F64
  | .string | .json | .composite => String
  | .binary | .fixed _ | .uuid => List UInt8

/-- The Go values a column is read into and appended from. -/
inductive GoValue (F32 F64 : Type)
  | nil
  | bool (b : Bool)
  | int32 (n : Int)
  | int64 (n : Int)
  | uint64 (n : Nat)
  | float32 (f : F32)
  | float64 (f : F64)
  | string (s : String)
  | bytes (bs : List UInt8)
  | time (micros : Int)
  | composite (json : String)
  deriving DecidableEq, Repr

/-- The column types of the table. -/
inductive IcebergType
  | bool
  | int32
  | int64
  | float32
  | float64
  | decimal (precision scale : Nat)
  | string
  | binary
  | fixed (size : Nat)
  | date
  | time
  | timestamp
  | timestamptz
  | uuid
  | composite
  deriving DecidableEq, Repr

/-- What a column of the table holds. -/
inductive Stored (F32 F64 : Type)
  | null
  | bool (b : Bool)
  | int (n : Int)
  | float32 (f : F32)
  | float64 (f : F64)
  | decimal (n : Int)
  | string (s : String)
  | bytes (bs : List UInt8)
  | date (days : Int)
  | time (micros : Int)
  | timestamp (micros : Int)
  | composite (json : String)
  deriving DecidableEq, Repr

/-- Why a value is refused. -/
inductive KeyError
  | nullKey
  | unsupportedKeyType
  | missingColumn (name : String)
  | keyArity (got want : Nat)
  | cannotAppend
  | overflow
  | badText
  | cannotCast
  | ambiguous
  deriving DecidableEq, Repr

/-- The library functions the two ways go through. -/
structure ValueLib (F32 F64 : Type) where
  widen : F32 → F64
  narrow : F64 → F32
  ofInt : Int → F64
  ofInt32 : Int → F32
  whole : F64 → Option Int
  finite : F64 → Bool
  floatText : F64 → String
  fixedText : F64 → Nat → String
  /-- `ValueStr` of Arrow's decimal column. -/
  valueStr : Nat → Nat → Int → String
  /-- Arrow's `ToString`. -/
  decimalString : Nat → Int → String
  /-- Arrow's `AppendValueFromString`, to a precision and scale. -/
  parseDecimal : Nat → Nat → String → Option Int
  /-- Arrow's cast kernel from an unsigned column to `decimal(20,0)`. -/
  castUint64 : Nat → Option Int
  base64Text : List UInt8 → String
  validJSON : String → Bool

variable {F32 F64 : Type} (lib : ValueLib F32 F64)

/-! ## Texts -/

/-- `formatTimeOfDay`: always with six digits of fraction. -/
def formatTimeOfDay (micros : Int) : String :=
  let h := micros.tdiv 3600000000
  let micros := micros.tmod 3600000000
  let m := micros.tdiv 60000000
  let micros := micros.tmod 60000000
  let s := micros.tdiv 1000000
  let micros := micros.tmod 1000000
  clockText h m s ++ "." ++ paddedInt 6 micros

/-- The microseconds of a day. -/
def dayMicros : Int := 86400000000

/-- `formatMicrosOfDay`: a fraction only when there is one. -/
def formatMicrosOfDay (micros : Int) : Except KeyError String :=
  if micros < 0 ∨ dayMicros ≤ micros then .error .badText
  else
    let ns := micros * 1000
    let h := ns.tdiv 3600000000000
    let ns := ns - h * 3600000000000
    let m := ns.tdiv 60000000000
    let ns := ns - m * 60000000000
    let s := ns.tdiv 1000000000
    let ns := ns - s * 1000000000
    if ns = 0 then .ok (clockText h m s)
    else .ok (clockText h m s ++ "." ++ paddedInt 6 (ns.tdiv 1000))

/-- A decimal literal: digits, and possibly a fraction, behind a sign. -/
def decimalParts (s : String) : Option (List Char × List Char) :=
  let body := match s.toList with
    | '+' :: rest => rest
    | '-' :: rest => rest
    | cs => cs
  let whole := body.takeWhile fun c => c ≠ '.'
  let fraction := body.drop (whole.length + 1)
  if whole ≠ [] ∧ whole.all Char.isDigit ∧ fraction.all Char.isDigit ∧
      (body.length ≠ whole.length → fraction ≠ []) then some (whole, fraction)
  else none

/-- `checkDecimalText`. -/
def checkDecimalText (s : String) (precision scale : Nat) : Except KeyError String :=
  match decimalParts s with
  | none => .error .badText
  | some (whole, fraction) =>
    if scale < fraction.length ∨ precision < whole.length + scale then .error .overflow else .ok s

/-- `decimalText`: a whole number at a scale. -/
def decimalText (n : Int) (scale : Nat) : String :=
  let digits := toString n.natAbs
  let sign := if n < 0 then "-" else ""
  if scale = 0 then sign ++ digits
  else
    let long := (padded (scale + 1) n.natAbs).toList
    sign ++ String.ofList (long.take (long.length - scale)) ++ "." ++
      String.ofList (long.drop (long.length - scale))

/-- `dateToDays`. -/
def dateToDays (s : String) : Option Int := parseDate s.toList

/-- `timeToMicros`.  Its three layouts read the same texts. -/
def timeToMicros (s : String) : Option Int :=
  (parseClock s.toList).map fun c => (c.sec * 1000000 + c.nsec / 1000 : Nat)

/-- `ParseTimestampText`: an RFC 3339 instant, a date, or a timestamp of PostgreSQL's form. -/
def parseTimestampText (s : String) : Option Instant :=
  (parseRfc3339 s.toList).or <|
    ((parseDate s.toList).map fun days => ⟨days * 86400, 0, 0⟩).or <|
    (parseSpaced noZone s.toList).or <| (parseSpaced (readOffset 1) s.toList).or <|
    (parseSpaced (readOffset 2) s.toList).or (parseSpaced (readOffset 3) s.toList)

/-- The text of a naive timestamp in microseconds. -/
def naiveMicros (micros : Int) : String :=
  naiveText (micros / 1000000) ((micros % 1000000).toNat * 1000)

/-- The text of an instant in microseconds, in UTC. -/
def rfc3339Micros (micros : Int) : String :=
  rfc3339Text (micros / 1000000) ((micros % 1000000).toNat * 1000) 0

/-- `hex.EncodeToString`. -/
def hexText (bs : List UInt8) : String :=
  String.ofList (bs.flatMap fun b => [Nat.digitChar (b.toNat / 16), Nat.digitChar (b.toNat % 16)])

/-- The number of a hexadecimal digit, in small or capital letters. -/
def hexValue (c : Char) : Option Nat :=
  if c.isDigit then some (c.toNat - '0'.toNat)
  else if 'a' ≤ c ∧ c ≤ 'f' then some (c.toNat - 'a'.toNat + 10)
  else if 'A' ≤ c ∧ c ≤ 'F' then some (c.toNat - 'A'.toNat + 10)
  else none

/-- `hex.DecodeString`. -/
def hexBytes : List Char → Option (List UInt8)
  | [] => some []
  | [_] => none
  | a :: b :: cs => do
    let high ← hexValue a
    let low ← hexValue b
    let bs ← hexBytes cs
    some (UInt8.ofNat (high * 16 + low) :: bs)

/-- `formatUUID`. -/
def formatUUID (bs : List UInt8) : Except KeyError String :=
  if bs.length ≠ 16 then .error .badText
  else .ok (hexText (bs.take 4) ++ "-" ++ hexText ((bs.drop 4).take 2) ++ "-" ++
    hexText ((bs.drop 6).take 2) ++ "-" ++ hexText ((bs.drop 8).take 2) ++ "-" ++
    hexText (bs.drop 10))

/-- `strings.ToLower`, on the letters a uuid has. -/
def lower (s : String) : String := String.ofList (s.toList.map Char.toLower)

/-- `uuidRe`: groups of 8, 4, 4, 4 and 12 hexadecimal digits. -/
def uuidShape (s : String) : Bool :=
  s.toList.map (fun c => if (hexValue c).isSome then 'x' else if c = '-' then '-' else '?') =
    "xxxxxxxx-xxxx-xxxx-xxxx-xxxxxxxxxxxx".toList

/-! ## Reading the wire -/

/-- `readTypedValue`: the canonical Go value; a float is promoted. -/
def readTypedValue : (ty : WireType) → WireCell F32 F64 ty → GoValue F32 F64
  | .bool, b => .bool b
  | .int32, n => .int32 n
  | .int64, n => .int64 n
  | .uint64, n => .uint64 n
  | .float32, f => .float64 (lib.widen f)
  | .float64, f => .float64 f
  | .decimal p s, n => .string (lib.valueStr p s n)
  | .string, s => .string s
  | .json, s => .string s
  | .binary, bs => .bytes bs
  | .fixed _, bs => .bytes bs
  | .date, days => .int32 days
  | .time, micros => .int64 micros
  | .timestamp, micros => .time micros
  | .timestamptz, micros => .time micros
  | .uuid, bs => .bytes bs
  | .composite, json => .composite json

/-- `scalarValue`: the key of an equality delete. -/
def scalarValue : (ty : WireType) → Option (WireCell F32 F64 ty) → Except KeyError (GoValue F32 F64)
  | _, none => .error .nullKey
  | .bool, some b => .ok (.bool b)
  | .int32, some n => .ok (.int32 n)
  | .int64, some n => .ok (.int64 n)
  | .uint64, some n => .ok (.string (toString (show Nat from n)))
  | .float32, some f => .ok (.float32 f)
  | .float64, some f => .ok (.float64 f)
  | .decimal _ s, some n => .ok (.string (lib.decimalString s n))
  | .string, some s => .ok (.string s)
  | .json, some s => .ok (.string s)
  | .binary, some bs => .ok (.bytes bs)
  | .fixed _, some bs => .ok (.bytes bs)
  | .date, some days => .ok (.string (dateText days))
  | .time, some micros => .ok (.string (formatTimeOfDay micros))
  | .timestamp, some micros => .ok (.time micros)
  | .timestamptz, some micros => .ok (.time micros)
  | .uuid, some bs => .ok (.bytes bs)
  | .composite, some _ => .error .unsupportedKeyType

/-! ## Casts -/

/-- The encodings of binary as text. -/
inductive Encoding
  | hex
  | base64
  deriving DecidableEq, Repr

/-- `CastTarget`. -/
structure CastTarget where
  type : WireType
  assumeUTC : Bool
  encoding : Option Encoding
  deriving DecidableEq, Repr

/-- `CheckCast` for a column with a canonical type: the closed matrix. -/
def checkCast (source : WireType) (target : CastTarget) : Bool :=
  match target.type, source with
  | .string, .binary | .string, .fixed _ => target.encoding.isSome
  | .string, .composite => target.encoding.isNone
  | .string, _ => true
  | .int64, .int32 | .int64, .int64 => true
  | .float64, .float32 | .float64, .float64 => true
  | .decimal p s, .decimal p' s' => decide (s = s') && decide (p' ≤ p)
  | .decimal _ _, .int32 | .decimal _ _, .int64 => true
  | .decimal _ _, .float32 | .decimal _ _, .float64 => true
  | .uuid, .string | .uuid, .uuid => true
  | .json, .string | .json, .json => true
  | .timestamp, .date | .timestamp, .timestamptz => true
  | .timestamptz, .timestamp => target.assumeUTC
  | .binary, .binary | .binary, .fixed _ => true
  | _, _ => false

/-- `CheckCast` for a column without one.  The wire then carries the target's type. -/
def checkBypass (target : CastTarget) : Bool :=
  match target.type with
  | .string => target.encoding.isNone
  | .binary | .int64 | .uint64 | .float64 | .decimal _ _ | .uuid | .json | .timestamp
  | .timestamptz => true
  | _ => false

/-- The casts a wire column of the type can have. -/
def admitsCast (wire : WireType) (target : CastTarget) : Bool :=
  checkCast wire target || (decide (wire = target.type) && checkBypass target)

/-- `asInt64`. -/
def asInt64 : GoValue F32 F64 → Except KeyError Int
  | .int32 n => .ok n
  | .int64 n => .ok n
  | .uint64 n => if n < 2 ^ 63 then .ok n else .error .overflow
  | _ => .error .cannotCast

/-- `StringifyScalar`. -/
def stringifyScalar : GoValue F32 F64 → Except KeyError (GoValue F32 F64)
  | .string s => .ok (.string s)
  | .bool b => .ok (.string (toString b))
  | .int32 n => .ok (.string (toString n))
  | .int64 n => .ok (.string (toString n))
  | .uint64 n => .ok (.string (toString n))
  | .float32 f => .ok (.string (lib.floatText (lib.widen f)))
  | .float64 f => .ok (.string (lib.floatText f))
  | .time micros => .ok (.string (rfc3339Micros micros))
  | .composite json => .ok (.string json)
  | .nil | .bytes _ => .error .cannotCast

/-- `castToString`; the source's kind selects the rendering. -/
def castToString (source : WireType) (v : GoValue F32 F64) (encoding : Option Encoding) :
    Except KeyError (GoValue F32 F64) :=
  match source, v with
  | _, .nil => .ok .nil
  | .binary, .bytes bs | .fixed _, .bytes bs =>
    match encoding with
    | some .hex => .ok (.string (hexText bs))
    | some .base64 => .ok (.string (lib.base64Text bs))
    | none => .error .cannotCast
  | .binary, _ | .fixed _, _ => .error .cannotCast
  | .uuid, .string s => .ok (.string (lower s))
  | .uuid, .bytes bs => (formatUUID bs).map .string
  | .uuid, _ => .error .cannotCast
  | .date, v => (asInt64 v).map fun days => .string (dateText days)
  | .time, v => (asInt64 v).bind fun micros => (formatMicrosOfDay micros).map .string
  | .timestamp, .time micros => .ok (.string (naiveMicros micros))
  | .timestamptz, .time micros => .ok (.string (rfc3339Micros micros))
  | .timestamp, .string s | .timestamptz, .string s => .ok (.string s)
  | .timestamp, _ | .timestamptz, _ => .error .ambiguous
  | _, v => stringifyScalar lib v

def castToBinary : GoValue F32 F64 → Except KeyError (GoValue F32 F64)
  | .nil => .ok .nil
  | .bytes bs => .ok (.bytes bs)
  | .string s => .ok (.bytes s.toUTF8.toList)
  | _ => .error .cannotCast

def castToInt64 : GoValue F32 F64 → Except KeyError (GoValue F32 F64)
  | .nil => .ok .nil
  | v => (asInt64 v).map .int64

/-- `castToUInt64`: a negative number is refused. -/
def castToUInt64 : GoValue F32 F64 → Except KeyError (GoValue F32 F64)
  | .nil => .ok .nil
  | .uint64 n => .ok (.uint64 n)
  | .int32 n | .int64 n => if 0 ≤ n then .ok (.uint64 n.toNat) else .error .cannotCast
  | _ => .error .cannotCast

def castToFloat64 : GoValue F32 F64 → Except KeyError (GoValue F32 F64)
  | .nil => .ok .nil
  | .float64 f => .ok (.float64 f)
  | .float32 f => .ok (.float64 (lib.widen f))
  | .int32 n | .int64 n => .ok (.float64 (lib.ofInt n))
  | .uint64 n => .ok (.float64 (lib.ofInt n))
  | _ => .error .cannotCast

/-- `castToDecimal`: every rendered text is checked against the target. -/
def castToDecimal (precision scale : Nat) : GoValue F32 F64 → Except KeyError (GoValue F32 F64)
  | .nil => .ok .nil
  | .int32 n | .int64 n => (checkDecimalText (decimalText n scale) precision scale).map .string
  | .uint64 n => (checkDecimalText (decimalText n scale) precision scale).map .string
  | .float32 f =>
    if lib.finite (lib.widen f) then
      (checkDecimalText (lib.fixedText (lib.widen f) scale) precision scale).map .string
    else .error .cannotCast
  | .float64 f =>
    if lib.finite f then (checkDecimalText (lib.fixedText f scale) precision scale).map .string
    else .error .cannotCast
  | .string s => (checkDecimalText s precision scale).map .string
  | _ => .error .cannotCast

def castToUUID : GoValue F32 F64 → Except KeyError (GoValue F32 F64)
  | .nil => .ok .nil
  | .string s => if uuidShape s then .ok (.string (lower s)) else .error .badText
  | .bytes bs => if bs.length = 16 then .ok (.bytes bs) else .error .badText
  | _ => .error .cannotCast

def castToJSON : GoValue F32 F64 → Except KeyError (GoValue F32 F64)
  | .nil => .ok .nil
  | .string s => if lib.validJSON s then .ok (.string s) else .error .badText
  | .composite json => .ok (.string json)
  | _ => .error .cannotCast

/-- `castToTimestamp`: a date becomes midnight, a zone is dropped. -/
def castToTimestamp (source : WireType) : GoValue F32 F64 → Except KeyError (GoValue F32 F64)
  | .nil => .ok .nil
  | .time micros => .ok (.string (naiveMicros micros))
  | .int32 n | .int64 n =>
    if source = .date then .ok (.string (naiveText (n * 86400) 0)) else .error .ambiguous
  | .uint64 n =>
    if source ≠ .date then .error .ambiguous
    else if n < 2 ^ 63 then .ok (.string (naiveText (n * 86400) 0)) else .error .overflow
  | .string s =>
    match parseTimestampText s with
    | some t => .ok (.string (naiveText (t.unix + t.offset) t.nsec))
    | none => .error .badText
  | _ => .error .cannotCast

def castToTimestampTZ (assumeUTC : Bool) : GoValue F32 F64 → Except KeyError (GoValue F32 F64)
  | .nil => .ok .nil
  | .time micros => .ok (.string (rfc3339Micros micros))
  | .string s =>
    match parseRfc3339 s.toList, parseTimestampText s with
    | some t, _ => .ok (.string (rfc3339Text t.unix t.nsec t.offset))
    | none, some t =>
      if assumeUTC then .ok (.string (rfc3339Text t.unix t.nsec 0)) else .error .cannotCast
    | none, none => .error .badText
  | _ => .error .cannotCast

/-- `Convert`. -/
def CastTarget.convert (t : CastTarget) (source : WireType) (v : GoValue F32 F64) :
    Except KeyError (GoValue F32 F64) :=
  match t.type with
  | .string => castToString lib source v t.encoding
  | .binary => castToBinary v
  | .int64 => castToInt64 v
  | .uint64 => castToUInt64 v
  | .float64 => castToFloat64 lib v
  | .decimal p s => castToDecimal lib p s v
  | .uuid => castToUUID v
  | .json => castToJSON lib v
  | .timestamp => castToTimestamp source v
  | .timestamptz => castToTimestampTZ t.assumeUTC v
  | _ => .error .cannotCast

/-! ## Writing a column -/

/-- `mapCanonicalType`: Iceberg has no unsigned integer and no JSON. -/
def mapCanonicalType : WireType → IcebergType
  | .bool => .bool
  | .int32 => .int32
  | .int64 => .int64
  | .uint64 => .decimal 20 0
  | .float32 => .float32
  | .float64 => .float64
  | .decimal p s => .decimal p s
  | .string | .json => .string
  | .binary => .binary
  | .fixed n => .fixed n
  | .date => .date
  | .time => .time
  | .timestamp => .timestamp
  | .timestamptz => .timestamptz
  | .uuid => .uuid
  | .composite => .composite

/-- `ParseUUIDBytes`. -/
def parseUUIDBytes (s : String) : Except KeyError (Stored F32 F64) :=
  match hexBytes ((lower s).toList.filter (· ≠ '-')) with
  | some bs => if bs.length = 16 then .ok (.bytes bs) else .error .badText
  | none => .error .badText

/-- A parsed text, stored. -/
def parsed (store : Int → Stored F32 F64) : Option Int → Except KeyError (Stored F32 F64)
  | some n => .ok (store n)
  | none => .error .badText

/-- The integers a 32-bit column takes. -/
def fitsInt32 (n : Int) : Bool := decide (-2 ^ 31 ≤ n) && decide (n < 2 ^ 31)

/-- The integers a double holds exactly. -/
def exactFloat (n : Int) : Bool := decide (-2 ^ 53 ≤ n) && decide (n ≤ 2 ^ 53)

/-- `AppendColumn`, one value.  Composite columns have a way of their own. -/
def appendValue (column : IcebergType) (v : GoValue F32 F64) : Except KeyError (Stored F32 F64) :=
  match column, v with
  | .composite, .composite json => .ok (.composite json)
  | _, .nil => .ok .null
  | .int64, .int64 n | .int64, .int32 n => .ok (.int n)
  | .int64, .float64 f => parsed .int (lib.whole f)
  | .int32, .int32 n => .ok (.int n)
  | .int32, .int64 n => if fitsInt32 n then .ok (.int n) else .error .overflow
  | .int32, .float64 f =>
    match lib.whole f with
    | some n => if fitsInt32 n then .ok (.int n) else .error .overflow
    | none => .error .cannotAppend
  | .float32, .float32 f => .ok (.float32 f)
  | .float32, .float64 f => .ok (.float32 (lib.narrow f))
  | .float32, .int64 n => .ok (.float32 (lib.ofInt32 n))
  | .string, .string s => .ok (.string s)
  | .float64, .float64 f => .ok (.float64 f)
  | .float64, .float32 f => .ok (.float64 (lib.widen f))
  | .float64, .int64 n => if exactFloat n then .ok (.float64 (lib.ofInt n)) else .error .overflow
  | .float64, .int32 n => .ok (.float64 (lib.ofInt n))
  | .bool, .bool b => .ok (.bool b)
  | .decimal p s, .string text => parsed .decimal (lib.parseDecimal p s text)
  | .date, .string text => parsed .date (dateToDays text)
  | .time, .string text => parsed .time (timeToMicros text)
  | .timestamp, .time micros | .timestamptz, .time micros => .ok (.timestamp micros)
  | .timestamp, .string text | .timestamptz, .string text =>
    parsed .timestamp ((parseTimestampText text).map Instant.micros)
  | .fixed size, .bytes bs => if bs.length = size then .ok (.bytes bs) else .error .badText
  | .uuid, .bytes bs => if bs.length = 16 then .ok (.bytes bs) else .error .badText
  | .fixed _, .string s | .uuid, .string s => parseUUIDBytes s
  | .binary, .bytes bs => .ok (.bytes bs)
  | _, _ => .error .cannotAppend

/-- A wire column kept as it is; an unsigned one goes through the cast kernel. -/
def retainCell : (ty : WireType) → WireCell F32 F64 ty → Except KeyError (Stored F32 F64)
  | .bool, b => .ok (.bool b)
  | .int32, n => .ok (.int n)
  | .int64, n => .ok (.int n)
  | .uint64, n => parsed .decimal (lib.castUint64 n)
  | .float32, f => .ok (.float32 f)
  | .float64, f => .ok (.float64 f)
  | .decimal _ _, n => .ok (.decimal n)
  | .string, s => .ok (.string s)
  | .json, s => .ok (.string s)
  | .binary, bs => .ok (.bytes bs)
  | .fixed _, bs => .ok (.bytes bs)
  | .date, days => .ok (.date days)
  | .time, micros => .ok (.time micros)
  | .timestamp, micros => .ok (.timestamp micros)
  | .timestamptz, micros => .ok (.timestamp micros)
  | .uuid, bs => .ok (.bytes bs)
  | .composite, json => .ok (.composite json)

/-- An unsigned result goes into a decimal column as text. -/
def unsignedText : GoValue F32 F64 → GoValue F32 F64
  | .uint64 n => .string (toString n)
  | v => v

section

variable (ty : WireType) (cast : Option CastTarget)

/-- `projectDataColumn`, one value: what the data file holds. -/
def projectValue (v : Option (WireCell F32 F64 ty)) : Except KeyError (Stored F32 F64) :=
  match cast, v with
  | none, none => .ok .null
  | none, some cell => retainCell lib ty cell
  | some target, none => appendValue lib (mapCanonicalType target.type) .nil
  | some target, some cell =>
    (target.convert lib ty (readTypedValue lib ty cell)).bind fun cv =>
    appendValue lib (mapCanonicalType target.type) (unsignedText cv)

/-- The canonical type of the table's column. -/
def columnType : WireType :=
  match cast with
  | none => ty
  | some target => target.type

/-- `deleteRecord`, one value: what the equality delete holds. -/
def deleteValue (v : Option (WireCell F32 F64 ty)) : Except KeyError (Stored F32 F64) :=
  (scalarValue lib ty v).bind (appendValue lib (mapCanonicalType (columnType ty cast)))

end

end Urutau
