import Urutau.Positions
import Urutau.ValueTexts

/-!
# Decoding a source transaction into records

Both database readers hold a transaction as columnar builders, one for each
target table, and materialize a builder into a record as soon as it crosses a
size ceiling.  Nothing is emitted before the transaction closes: the records
already cut wait in `pending`, and closing adds what is left in the builders
in the order in which the tables first appeared.

Rows are stamped with the reader's safe position as they are appended.  What
closing does to those stamps is where the two readers differ: the MySQL reader
restamps the last record of every table, the Postgres reader only the very
last record of the transaction.
-/

namespace Urutau

inductive Op
  | insert
  | update
  | delete
  deriving DecidableEq, Repr

/-- A decoded cell.  The readers look at a value only to weigh it. -/
inductive Cell
  | null
  | text (bytes : List UInt8)
  | blob (bytes : List UInt8)
  | time (nanos : Int)
  | scalar (value : ValueTexts.Scalar)
  deriving DecidableEq, Repr

/-- One row image handed to the table's builder, in table column order.
`tableColumns` is the column count of the table definition it came with. -/
structure Change where
  target : String
  op : Op
  image : List Cell
  tableColumns : Nat
  deriving DecidableEq, Repr

/-- A row of a record: its operation, its projected cells and its stamp. -/
structure EncodedRow (P : Type) where
  op : Op
  cells : List Cell
  position : P
  deriving DecidableEq, Repr

/-- What a row says, without its stamp. -/
def EncodedRow.content {P : Type} (row : EncodedRow P) : Op × List Cell := (row.op, row.cells)

/-- The canonical schema of a target and the columns of its source table. -/
structure TableConfig where
  source : String
  schemaColumns : List String
  primaryKey : List String
  tableColumns : List String
  deriving DecidableEq, Repr

/-- The column mapping of a builder: for each schema column its place in the
table image, and the column count the mapping was built for. -/
structure Layout where
  cols : List Nat
  imgCols : Nat
  primaryKey : List String
  deriving DecidableEq, Repr

/-- The parts in which the two readers' builders differ: the name in their
errors, how a cell is weighed (`none` is a column the image does not reach),
and whether an image shorter than the table is refused. -/
structure Dialect where
  name : String
  weigh : Option Cell → Nat
  requireFullImage : Bool

/-- `cellBytes` of the MySQL reader: a null weighs one byte. -/
def cellBytes : Cell → Nat
  | .null => 1
  | .text bytes => bytes.length
  | .blob bytes => bytes.length
  | .time _ => 16
  | .scalar _ => 8

/-- `pgCellBytes` of the Postgres reader; it is never asked about a null. -/
def pgCellBytes : Cell → Nat
  | .text bytes => bytes.length
  | .blob bytes => bytes.length
  | .time _ => 16
  | _ => 8

def mysqlDialect : Dialect where
  name := "mysql"
  weigh cell := match cell with
    | none => 0
    | some v => cellBytes v
  requireFullImage := true

def postgresDialect : Dialect where
  name := "postgres"
  weigh cell := match cell with
    | none | some .null => 0
    | some v => pgCellBytes v
  requireFullImage := false

/-- The size ceilings of a record: 2000 rows or 4 MiB. -/
def maxDirectRows : Nat := 2000

@[inherit_doc maxDirectRows]
def maxDirectBytes : Nat := 4 * 2 ^ 20

/-- One target table's incremental builder.  `enc` are the rows ended in it;
`rows` and `bytes` are the counters the ceilings are tested on. -/
structure TableEncoder (P : Type) where
  target : String
  layout : Layout
  enc : List (EncodedRow P)
  bytes : Nat
  rows : Nat

/-- A record cut from a builder, before its position is final. -/
structure HeldRec (P : Type) where
  target : String
  rows : List (EncodedRow P)
  deriving DecidableEq, Repr

/-- What a reader emits: a record of one table, marked partial when a later
record of the same transaction holds more rows of that table. -/
structure Batch (P : Type) where
  table : String
  rows : List (EncodedRow P)
  isPartial : Bool
  deriving DecidableEq, Repr

/-- A batch's high position is its last row's. -/
def Batch.highPos {P : Type} (b : Batch P) : Option P := b.rows.getLast?.map (·.position)

/-- The readers' `encoders` map with `encoderOrder`, the targets in order of
first use.  The two never disagree. -/
structure EncoderMap (P : Type) where
  get : String → Option (TableEncoder P)
  order : List String
  nodup : order.Nodup
  mem_order : ∀ target, target ∈ order ↔ (get target).isSome
  target_eq : ∀ target te, get target = some te → te.target = target

namespace EncoderMap

variable {P : Type}

def empty : EncoderMap P where
  get _ := none
  order := []
  nodup := List.nodup_nil
  mem_order _ := by simp
  target_eq _ _ h := by simp at h

/-- Store a builder; a target seen for the first time goes to the end of the
order. -/
def put (m : EncoderMap P) (te : TableEncoder P) : EncoderMap P where
  get target := if target = te.target then some te else m.get target
  order := if te.target ∈ m.order then m.order else m.order ++ [te.target]
  nodup := by
    split
    · exact m.nodup
    · exact List.nodup_append.mpr ⟨m.nodup, by simp, by grind⟩
  mem_order target := by
    have hm := m.mem_order target
    split <;> split <;> simp_all
  target_eq target te' h := by
    split at h
    · simp_all
    · exact m.target_eq target te' h

end EncoderMap

/-- The reader's state while it decodes. -/
structure Reader (P : Type) where
  encoders : EncoderMap P
  pending : List (HeldRec P)
  safePos : P

section Decoding

variable {P : Type} (d : Dialect) (cfg : String → Option TableConfig)

/-- Resolve a target's column mapping.  A target without a canonical schema
and a schema column the table lacks are errors. -/
def resolveLayout (target : String) : Except String Layout :=
  match cfg target with
  | none => .error (d.name ++ ": table " ++ target ++ " has no canonical schema")
  | some tc =>
    if tc.schemaColumns = [] then
      .error (d.name ++ ": table " ++ target ++ " has no canonical schema")
    else
      match tc.schemaColumns.find? (fun c => !tc.tableColumns.contains c) with
      | some c => .error (d.name ++ ": " ++ tc.source ++ ": transport: source column not" ++
          " in the encoder's schema: " ++ c)
      | none => .ok
          { cols := tc.schemaColumns.map tc.tableColumns.idxOf
            imgCols := tc.tableColumns.length
            primaryKey := tc.primaryKey }

/-- The target's builder, built on first use. -/
def encoder (r : Reader P) (target : String) : Except String (TableEncoder P) :=
  match r.encoders.get target with
  | some te => .ok te
  | none =>
    match resolveLayout d cfg target with
    | .error e => .error e
    | .ok layout => .ok { target, layout, enc := [], bytes := 0, rows := 0 }

/-- The projected cells of an image; a column the image does not reach is
null. -/
def Layout.cells (l : Layout) (image : List Cell) : List Cell :=
  l.cols.map (fun i => (image[i]?).getD .null)

/-- The weight of an image under the reader's byte estimate. -/
def Layout.weight (l : Layout) (image : List Cell) : Nat :=
  (l.cols.map (fun i => d.weigh image[i]?)).sum

/-- Write one image into the builder and end the row. -/
def TableEncoder.appendRow (te : TableEncoder P) (c : Change) (pos : P) :
    Except String (TableEncoder P) :=
  if d.requireFullImage && decide (c.image.length < c.tableColumns) then
    .error (s!"mysql: binlog row image carries {c.image.length} of {c.tableColumns} columns" ++
      " — set binlog_row_image=FULL (a partial image cannot be decoded safely)")
  else if c.tableColumns ≠ te.layout.imgCols then
    .error (d.name ++ s!": schema drift: table now carries {c.tableColumns} columns," ++
      s!" the schema was built for {te.layout.imgCols} — declare the change and resume")
  else
    .ok { te with
      enc := te.enc ++ [⟨c.op, te.layout.cells c.image, pos⟩]
      bytes := te.bytes + te.layout.weight d c.image
      rows := te.rows + 1 }

/-- Turn the builder's rows into one record; nothing when it holds nothing. -/
def TableEncoder.materialize (te : TableEncoder P) : Option (HeldRec P) :=
  if te.rows = 0 then none else some ⟨te.target, te.enc⟩

/-- The builder after `materialize`. -/
def TableEncoder.reset (te : TableEncoder P) : TableEncoder P :=
  if te.rows = 0 then te else { te with enc := [], bytes := 0, rows := 0 }

/-- A builder that crossed a ceiling is cut. -/
def crossesCeiling (rows bytes : Nat) : Bool :=
  decide (maxDirectRows ≤ rows) || decide (maxDirectBytes ≤ bytes)

/-- `appendImage` of the MySQL reader and the tail of `appendChange` of the
Postgres reader: append one image under the safe position and cut the builder
when it crossed a ceiling. -/
def appendImage (r : Reader P) (c : Change) : Except String (Reader P) :=
  match encoder d cfg r c.target with
  | .error e => .error e
  | .ok te =>
    if c.op = .delete ∧ te.layout.primaryKey = [] then
      .error ("sourcepull: batch \"" ++ te.target ++ "\" carries a delete but the schema" ++
        " has no primary key — declare it and resume")
    else
      match te.appendRow d c r.safePos with
      | .error e => .error e
      | .ok te =>
        if crossesCeiling te.rows te.bytes then
          .ok { r with
            encoders := r.encoders.put te.reset
            pending := r.pending ++ te.materialize.toList }
        else
          .ok { r with encoders := r.encoders.put te }

/-- Append the images of a transaction in order; the first error ends it. -/
def appendAll (r : Reader P) : List Change → Except String (Reader P)
  | [] => .ok r
  | c :: rest =>
    match appendImage d cfg r c with
    | .error e => .error e
    | .ok r' => appendAll r' rest

/-- Every builder was built from the target's resolved layout. -/
def Reader.Built (r : Reader P) : Prop := ∀ target te, r.encoders.get target = some te →
    resolveLayout d cfg target = .ok te.layout

/-- The row an image becomes under a stamp. -/
def rowOf (pos : P) (c : Change) : EncodedRow P :=
  match resolveLayout d cfg c.target with
  | .ok layout => ⟨c.op, layout.cells c.image, pos⟩
  | .error _ => ⟨c.op, [], pos⟩

/-- The weight of an image in its target's layout. -/
def weightOf (c : Change) : Nat :=
  match resolveLayout d cfg c.target with
  | .ok layout => layout.weight d c.image
  | .error _ => 0

end Decoding

/-- A builder without its target and layout. -/
structure Buffer (P : Type) where
  enc : List (EncodedRow P)
  rows : Nat
  bytes : Nat

namespace Buffer

variable {P : Type}

def empty : Buffer P := ⟨[], 0, 0⟩

variable (b : Buffer P)

def push (row : EncodedRow P) (weight : Nat) : Buffer P :=
  ⟨b.enc ++ [row], b.rows + 1, b.bytes + weight⟩

@[simp] theorem empty_enc : (empty : Buffer P).enc = [] := rfl

@[simp] theorem empty_rows : (empty : Buffer P).rows = 0 := rfl

@[simp] theorem empty_bytes : (empty : Buffer P).bytes = 0 := rfl

@[simp] theorem push_enc (row : EncodedRow P) (weight : Nat) :
    (b.push row weight).enc = b.enc ++ [row] := rfl

@[simp] theorem push_rows (row : EncodedRow P) (weight : Nat) :
    (b.push row weight).rows = b.rows + 1 := rfl

@[simp] theorem push_bytes (row : EncodedRow P) (weight : Nat) :
    (b.push row weight).bytes = b.bytes + weight := rfl

def full : Bool := crossesCeiling b.rows b.bytes

def records : List (List (EncodedRow P)) := if b.rows = 0 then [] else [b.enc]

end Buffer

section Views

variable {P : Type} {d : Dialect} {cfg : String → Option TableConfig}
  {r r' : Reader P} {c : Change}

def TableEncoder.buffer (te : TableEncoder P) : Buffer P := ⟨te.enc, te.rows, te.bytes⟩

/-- What the reader holds of a table that is not cut yet. -/
def Reader.buffer (r : Reader P) (target : String) : Buffer P :=
  ((r.encoders.get target).map TableEncoder.buffer).getD .empty

@[simp] theorem EncoderMap.put_get (m : EncoderMap P) (te : TableEncoder P) (target : String) :
    (m.put te).get target = if target = te.target then some te else m.get target := rfl

/-- The builder `encoder` returns has the target's layout and the table's
buffer. -/
theorem encoder_spec {te : TableEncoder P} {target : String} (hb : r.Built d cfg)
    (h : encoder d cfg r target = .ok te) :
    te.target = target ∧ resolveLayout d cfg target = .ok te.layout ∧
      te.buffer = r.buffer target := by
  unfold encoder at h
  cases hget : r.encoders.get target with
  | some te' =>
    simp only [hget, Except.ok.injEq] at h
    subst h
    exact ⟨r.encoders.target_eq _ _ hget, hb _ _ hget, by simp [Reader.buffer, hget]⟩
  | none =>
    simp only [hget] at h
    cases hl : resolveLayout d cfg target with
    | error e => simp [hl] at h
    | ok layout =>
      simp only [hl, Except.ok.injEq] at h
      subst h
      exact ⟨rfl, rfl, by simp [Reader.buffer, hget, TableEncoder.buffer, Buffer.empty]⟩

/-- A row appended to a builder is the image's row under the given stamp. -/
theorem TableEncoder.appendRow_spec {te te' : TableEncoder P} {pos : P}
    (hl : resolveLayout d cfg c.target = .ok te.layout) (h : te.appendRow d c pos = .ok te') :
    te'.target = te.target ∧ te'.layout = te.layout ∧
      te'.buffer = te.buffer.push (rowOf d cfg pos c) (weightOf d cfg c) := by
  unfold TableEncoder.appendRow at h
  split at h
  · cases h
  · split at h
    · cases h
    · cases h
      exact ⟨rfl, rfl, by simp [TableEncoder.buffer, Buffer.push, rowOf, weightOf, hl]⟩

/-- An encoder of the right layout keeps the reader built. -/
private theorem built_put {te : TableEncoder P} {pending : List (HeldRec P)}
    (hb : r.Built d cfg) (hl : resolveLayout d cfg te.target = .ok te.layout) :
    ({ r with encoders := r.encoders.put te, pending } : Reader P).Built d cfg := by
  intro t te' hget
  by_cases heq : t = te.target
  · simp only [EncoderMap.put_get, heq, if_true, Option.some.injEq] at hget
    subst hget
    rw [heq, hl]
  · simp only [EncoderMap.put_get, heq, if_false] at hget
    exact hb t te' hget

/-- **One appended image.**  It touches the buffer of its own table only, and
either grows it or, when a ceiling is crossed, cuts it into a pending
record. -/
theorem appendImage_spec (hb : r.Built d cfg) (h : appendImage d cfg r c = .ok r') :
    r'.Built d cfg ∧ r'.safePos = r.safePos ∧
    (∀ t, t ≠ c.target → r'.buffer t = r.buffer t) ∧
    let b := (r.buffer c.target).push (rowOf d cfg r.safePos c) (weightOf d cfg c)
    (b.full = true ∧ r'.buffer c.target = .empty ∧ r'.pending = r.pending ++ [⟨c.target, b.enc⟩]) ∨
      (b.full = false ∧ r'.buffer c.target = b ∧ r'.pending = r.pending) := by
  unfold appendImage at h
  cases henc : encoder d cfg r c.target with
  | error e => simp [henc] at h
  | ok te =>
    obtain ⟨htgt, hl, hbuf⟩ := encoder_spec hb henc
    simp only [henc] at h
    split at h
    · cases h
    cases happ : te.appendRow d c r.safePos with
    | error e => simp [happ] at h
    | ok te' =>
      obtain ⟨htgt', hl', hbuf'⟩ := TableEncoder.appendRow_spec hl happ
      rw [hbuf] at hbuf'
      have htgt'' : te'.target = c.target := htgt'.trans htgt
      have hrows : te'.rows ≠ 0 := by
        have := congrArg Buffer.rows hbuf'
        simp only [TableEncoder.buffer, Buffer.push] at this
        omega
      have hfull : crossesCeiling te'.rows te'.bytes = te'.buffer.full := rfl
      simp only [happ, hfull, hbuf'] at h
      split at h
      · rename_i hcross
        cases h
        have hreset : te'.reset = { te' with enc := [], bytes := 0, rows := 0 } := by
          simp [TableEncoder.reset, hrows]
        refine ⟨built_put hb (by simp [hreset, htgt'', hl, hl']), rfl, ?_, .inl ⟨hcross, ?_, ?_⟩⟩
        · intro t ht
          simp [Reader.buffer, hreset, htgt'', ht]
        · simp [Reader.buffer, hreset, htgt'', TableEncoder.buffer, Buffer.empty]
        · have henc' := congrArg Buffer.enc hbuf'
          simp only [TableEncoder.buffer] at henc'
          simp [TableEncoder.materialize, hrows, htgt'', henc']
      · rename_i hcross
        cases h
        refine ⟨built_put hb (by rw [htgt'', hl, hl']), rfl, ?_,
          .inr ⟨by simpa using hcross, ?_, rfl⟩⟩
        · intro t ht
          simp [Reader.buffer, htgt'', ht]
        · simp [Reader.buffer, htgt'', hbuf']

end Views

end Urutau
