import Urutau.FilteredChanges

/-!
# Row changes of wal2json

The plugin sends a transaction as JSON.  A row change lists columns of the new row by name
and, as its old keys, columns of the old one.  The reader puts each listed value at its
column's place in a row of NULLs; what the lists leave out stays NULL.
-/

namespace Urutau

open List Results ValueTexts DigitTexts

/-! ## Values -/

/-- A column's value in JSON, if it is not null. -/
inductive JsonValue
  | bool (b : Bool)
  | number (n : JsonNumber)
  | string (bytes : List UInt8)
  deriving DecidableEq, Repr

/-- The value as the decoder hands it over. -/
def JsonValue.cell : JsonValue → Cell
  | .bool b => .scalar (.bool b)
  | .number n => .scalar (.number n)
  | .string bytes => .text bytes

/-- A number or a text through a parser, anything else as it is. -/
def JsonValue.parsed (parse : List Char → Option Scalar) : JsonValue → Option Cell
  | .number n => (parse n.text).map .scalar
  | .string bytes => (parse (bytes.map fun b => Char.ofNat b.toNat)).map .scalar
  | v => some v.cell

/-- `strconv.ParseInt` in base 10 with 64 bits. -/
def parseInt64 (cs : List Char) : Option Int :=
  let (sign, digits) : Int × List Char :=
    match cs with
    | '-' :: rest => (-1, rest)
    | '+' :: rest => (1, rest)
    | _ => (1, cs)
  let n := sign * (value digits : Int)
  if digits ≠ [] ∧ digits.all Char.isDigit = true ∧ -2 ^ 63 ≤ n ∧ n < 2 ^ 63 then some n else none

section Decoding

/- `strconv.ParseFloat`, whatever decimals it takes. -/
variable (parseFloat : List Char → Option GoFloat)

def coerceWal2json (dataType : String) : Option JsonValue → Option Cell
  | none => some .null
  | some v =>
    if dataType.toLower ∈ ["smallint", "integer", "bigint"] then
      v.parsed fun cs => (parseInt64 cs).map (.int .int64)
    else if dataType.toLower ∈ ["real", "double precision"] then
      v.parsed fun cs => (parseFloat cs).map .float64
    else some v.cell

/-- The columns and values a message lists, JSON null as `none`. -/
structure Listed where
  names : List String
  values : List (Option JsonValue)
  deriving DecidableEq, Repr

/-- The listed values, put one by one at their columns' places; an unknown name is passed
over, and a name past the end of the values has null. -/
def fillListed (columns : List Column) :
    List String → List (Option JsonValue) → Row → Except ReadError Row
  | [], _, row => .ok row
  | name :: names, values, row =>
    match findColumn columns name with
    | none => fillListed columns names values.tail row
    | some j =>
      match coerceWal2json parseFloat (dataTypeAt columns j) (values.headD none) with
      | none => .error (.badText name)
      | some v => fillListed columns names values.tail (row.set j v)

def wal2jsonRowPos (columns : List Column) (listed : Listed) : Except ReadError Row :=
  fillListed parseFloat columns listed.names listed.values (List.replicate columns.length .null)

/-- The kinds of a row change; the reader passes over any other. -/
inductive Wal2jsonKind
  | insert
  | update
  | delete
  | other
  deriving DecidableEq, Repr

/-- One row change of a message: the new row's columns and the old row's. -/
structure Wal2jsonChange where
  kind : Wal2jsonKind
  columns : Listed
  oldKeys : Option Listed
  deriving DecidableEq, Repr

namespace FilteredTable

variable (tbl : FilteredTable)

def wal2jsonBefore : Option Listed → Except ReadError (Option Row)
  | none => .ok none
  | some listed => (wal2jsonRowPos parseFloat tbl.columns listed).bind fun row => .ok (some row)

def handleWal2jsonChange (msg : Wal2jsonChange) : Except ReadError (List Change) :=
  (wal2jsonRowPos parseFloat tbl.columns msg.columns).bind fun after =>
    (tbl.wal2jsonBefore parseFloat msg.oldKeys).bind fun before =>
    match msg.kind with
    | .insert => (tbl.keep after).bind fun kept =>
      .ok (if kept then [tbl.change .insert after] else [])
    | .update => tbl.decodedUpdate before after
    | .delete =>
      match before with
      | none => .error .noOldTuple
      | some before => (tbl.keep before).bind fun kept =>
        .ok (if kept then [tbl.change .delete before] else [])
    | .other => .ok []

end FilteredTable

end Decoding

/-- A value that is not null does not become NULL. -/
theorem coerceWal2json_ne_null (parseFloat : List Char → Option GoFloat) (dataType : String)
    (v : JsonValue) : coerceWal2json parseFloat dataType (some v) ≠ some .null := by
  have hcell : v.cell ≠ .null := by cases v <;> exact nofun
  have hparsed : ∀ parse, v.parsed parse ≠ some .null := by
    intro parse heq
    cases v with
    | bool b => cases heq
    | number n | string bytes =>
      obtain ⟨w, -, hw⟩ := Option.map_eq_some_iff.mp heq
      cases hw
  simp only [coerceWal2json]
  split
  · exact hparsed _
  split
  · exact hparsed _
  · exact fun heq => hcell (Option.some.inj heq)

/-! ## What the plugin writes -/

/-- The JSON of a column's values: what the plugin prints and what the reader makes of it.  A
value that is read gives back the value of the column's type it was printed from. -/
structure JsonFormat where
  parseFloat : List Char → Option GoFloat
  hasType : String → Cell → Bool
  jsonOf : String → Cell → JsonValue
  reads_back : ∀ dataType v w, hasType dataType v = true →
    coerceWal2json parseFloat dataType (some (jsonOf dataType v)) = some w → w = v

namespace JsonFormat

variable (fmt : JsonFormat)

/-- A row of a table whose columns have names of their own: a value of the right type in
each column. -/
def Fits (columns : List Column) (row : Row) : Prop :=
  (columns.map Column.name).Nodup ∧ row.length = columns.length ∧ ∀ j < columns.length,
    row.getD j .null = .null ∨ fmt.hasType (dataTypeAt columns j) (row.getD j .null) = true

instance (columns : List Column) (row : Row) : Decidable (fmt.Fits columns row) :=
  inferInstanceAs (Decidable (_ ∧ _ ∧ _))

def jsonColumn (dataType : String) : Cell → Option JsonValue
  | .null => none
  | v => some (fmt.jsonOf dataType v)

/-- Some columns of a row, listed. -/
def listed (columns : List Column) (names : List String) (row : Row) : Listed :=
  ⟨names, names.map fun name =>
    fmt.jsonColumn (((findColumn columns name).map (dataTypeAt columns)).getD "")
      (cellAt columns row name)⟩

end JsonFormat

/-- The names of the columns that are not marked as unchanged. -/
def unmarkedNames : List Column → List Bool → List String
  | [], _ => []
  | c :: columns, marks =>
    if marks.headD false then unmarkedNames columns marks.tail
    else c.name :: unmarkedNames columns marks.tail

theorem unmarkedNames_eq {columns : List Column} {marks : List Bool} (h : true ∉ marks) :
    unmarkedNames columns marks = columns.map Column.name := by
  induction columns generalizing marks with
  | nil => rfl
  | cons c columns ih =>
    have hhead : marks.headD false = false := by
      cases marks with
      | nil => rfl
      | cons mark marks => exact Bool.eq_false_iff.mpr fun hm => h (hm ▸ mem_cons_self)
    rw [unmarkedNames, hhead, if_neg Bool.false_ne_true, map_cons,
      ih fun hmem => h (mem_of_mem_tail hmem)]

/-! ## Lists read back -/

variable {columns : List Column} {row image : Row} {names : List String} {fmt : JsonFormat}

/-- Column names that differ have places of their own. -/
theorem findColumn_getElem (hnodup : (columns.map Column.name).Nodup) {j : Nat}
    (hj : j < columns.length) : findColumn columns columns[j].name = some j := by
  refine findIdx?_eq_some_iff_getElem.mpr ⟨hj, by simp, fun i hij => ?_⟩
  have hne : (columns.map Column.name).get ⟨i, by simp; omega⟩ ≠
      (columns.map Column.name).get ⟨j, by simpa using hj⟩ :=
    fun heq => absurd (hnodup.getElem_inj_iff.mp heq) (by omega)
  simpa using hne

/-- All the columns of a row are the row. -/
theorem keyImage_all (hnodup : (columns.map Column.name).Nodup)
    (hlen : row.length = columns.length) :
    keyImage columns (columns.map Column.name) row = row := by
  have hlen' : (keyImage columns (columns.map Column.name) row).length = columns.length := by
    have hfold : ∀ (names : List String) (image : Row),
        (names.foldl (putCell columns row) image).length = image.length := by
      intro names
      induction names with
      | nil => exact fun _ => rfl
      | cons name names ih => exact fun image => (ih _).trans (length_putCell row image name)
    rw [keyImage, hfold, length_replicate]
  refine ext_getElem (hlen'.trans hlen.symm) fun j hj hj' => ?_
  have hcol : j < columns.length := hlen ▸ hj'
  have hcell : cellAt columns (keyImage columns (columns.map Column.name) row) columns[j].name =
      cellAt columns row columns[j].name := cellAt_foldl_putCell length_replicate
    (.inl (mem_map_of_mem (f := Column.name) (getElem_mem hcol)))
  simp only [cellAt, findColumn_getElem hnodup hcol] at hcell
  simpa [hj, hj'] using hcell

/-- Listed columns are read as the part of the row they were written from. -/
theorem fillListed_listed (hrow : fmt.Fits columns row) {filled : Row}
    (h : fillListed fmt.parseFloat columns names (fmt.listed columns names row).values image =
      .ok filled) : filled = names.foldl (putCell columns row) image := by
  induction names generalizing image with
  | nil => exact (Except.ok.inj h).symm
  | cons name rest ih =>
    rw [foldl_cons, putCell]
    simp only [JsonFormat.listed, map_cons, fillListed, headD_cons, tail_cons] at h
    cases hj : findColumn columns name with
    | none =>
      rw [hj] at h
      exact ih h
    | some j =>
      rw [hj] at h
      simp only [Option.map_some, Option.getD_some, cellAt, hj] at h
      split at h
      · cases h
      rename_i v hv
      have hcell : v = row.getD j .null := by
        by_cases hnull : row.getD j .null = .null
        · rw [hnull] at hv ⊢
          exact (Option.some.inj hv).symm
        · rw [JsonFormat.jsonColumn.eq_2 fmt _ _ hnull] at hv
          exact fmt.reads_back _ _ _
            ((hrow.2.2 j (findColumn_lt hj)).resolve_left hnull) hv
      rw [hcell] at h
      exact ih h

theorem wal2jsonRowPos_listed (hrow : fmt.Fits columns row)
    (h : wal2jsonRowPos fmt.parseFloat columns (fmt.listed columns names row) = .ok image) :
    image = keyImage columns names row :=
  fillListed_listed hrow h

/-- A whole row is read back. -/
theorem wal2jsonRowPos_all (hrow : fmt.Fits columns row)
    (h : wal2jsonRowPos fmt.parseFloat columns
      (fmt.listed columns (columns.map Column.name) row) = .ok image) : image = row :=
  (wal2jsonRowPos_listed hrow h).trans (keyImage_all hrow.1 hrow.2.1)

end Urutau
