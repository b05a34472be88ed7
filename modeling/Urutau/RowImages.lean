import Urutau.Results
import Urutau.TransactionReader

/-!
# Row images

A change message carries images of a row: the new one, and of the old one all of it, its
key, or nothing.  The reader decodes an image into a positional row in the column order of
the table.  What the image leaves out is NULL in the row, with one exception: a column the
new image marks as unchanged is taken from a whole old image, or the image is refused.
-/

namespace Urutau

open List Results Option ValueTexts

/-! ## Rows and keys -/

/-- A row, in the column order of the table. -/
abbrev Row := List Cell

/-- A column as introspection found it. -/
structure Column where
  name : String
  dataType : String
  deriving DecidableEq, Repr

/-- The place of the first column of the name. -/
def findColumn (columns : List Column) (name : String) : Option Nat :=
  columns.findIdx? fun c => c.name = name

/-- The type of the column at a place. -/
def dataTypeAt (columns : List Column) (j : Nat) : String :=
  (columns[j]?.map Column.dataType).getD ""

/-- A row's value in the named column. -/
def cellAt (columns : List Column) (row : Row) (name : String) : Cell :=
  match findColumn columns name with
  | some j => row.getD j .null
  | none => .null

/-- A row's primary key, in the order the key is declared in. -/
def keyTuple (columns : List Column) (primaryKey : List String) (row : Row) : List Cell :=
  primaryKey.map (cellAt columns row)

/-- `%T` of a value that is neither NULL nor a text. -/
def goType : Cell → Option GoType
  | .null | .text _ => none
  | .blob _ => some .bytes
  | .time _ => some .time
  | .scalar v => some v.type

/-- `%v`. -/
def printed : Cell → List Char
  | .null | .text _ => []
  | .blob bytes => bytesText bytes
  | .time nanos => timeText nanos
  | .scalar v => v.text

/-- One value of a rendered key: a text behind `s:`, any other value behind its type. -/
def keyPart (c : Cell) : List UInt8 :=
  match c with
  | .text bytes => [0x73, 0x3a] ++ bytes
  | _ =>
    match goType c with
    | none => [0x6e, 0x69, 0x6c]
    | some t => ascii (t.name.toList ++ ':' :: printed c)

/-- A key as one text, the parts joined by the unit separator.  A text that holds the
separator can give two keys the same rendering. -/
def keyString (key : List Cell) : List UInt8 := List.intercalate [0x1f] (key.map keyPart)

/-! ## The images of a message -/

/-- A column of a tuple: NULL, a text, a value stored out of line that the change left as it
was, or a kind the reader does not know. -/
inductive TupleColumn
  | null
  | text (data : List UInt8)
  | toast
  | unknown
  deriving DecidableEq, Repr

/-- Why an image or a change was refused. -/
inductive ReadError
  | moreColumns
  | badText (column : String)
  | unchangedToast (column : String)
  | badKind (column : String)
  | keyLength (got want : Nat)
  | keyMissing (column : String)
  | noOldTuple
  | filter (message : String)
  deriving DecidableEq, Repr

/-- The texts of a column's values: what the database prints and what the decoder reads.
A text that is read gives back the value of the column's type it was printed from. -/
structure TextFormat where
  hasType : String → Cell → Bool
  textOf : String → Cell → List UInt8
  decodeScalar : String → List UInt8 → Option Cell
  reads_back : ∀ dataType v w, hasType dataType v = true →
    decodeScalar dataType (textOf dataType v) = some w → w = v

variable (fmt : TextFormat)

/-- A value a column of the type may hold. -/
def TextFormat.Holds (dataType : String) (v : Cell) : Prop :=
  v = .null ∨ fmt.hasType dataType v = true

instance (dataType : String) (v : Cell) : Decidable (fmt.Holds dataType v) :=
  inferInstanceAs (Decidable (_ ∨ _))

/-- A row of the table: a value of the right type in each column. -/
abbrev TextFormat.Fits (columns : List Column) (row : Row) : Prop :=
  List.Forall₂ (fun c v => fmt.Holds c.dataType v) columns row

/-- An unchanged value, out of the old image. -/
def toastFromOld (c : Column) : Option TupleColumn → Option Cell
  | some (.text data) => fmt.decodeScalar c.dataType data
  | _ => none

def decodeColumn (c : Column) (old : Option TupleColumn) : TupleColumn → Except ReadError Cell
  | .null => .ok .null
  | .text data =>
    match fmt.decodeScalar c.dataType data with
    | some v => .ok v
    | none => .error (.badText c.name)
  | .toast =>
    match toastFromOld fmt c old with
    | some v => .ok v
    | none => .error (.unchangedToast c.name)
  | .unknown => .error (.badKind c.name)

/-- A tuple as a row.  A short tuple leaves NULL in the remaining columns. -/
def tupleRow : List Column → List TupleColumn → Option (List TupleColumn) → Except ReadError Row
  | columns, [], _ => .ok (columns.map fun _ => .null)
  | [], _ :: _, _ => .error .moreColumns
  | c :: columns, t :: tuple, old =>
    (decodeColumn fmt c (old.bind List.head?) t).bind fun v =>
    (tupleRow columns tuple (old.map List.tail)).bind fun rest => .ok (v :: rest)

/-- The values of a key tuple, put one by one at their columns' places. -/
def fillKey (columns : List Column) : List String → List TupleColumn → Row → Except ReadError Row
  | name :: names, t :: tuple, row =>
    match findColumn columns name with
    | none => .error (.keyMissing name)
    | some j =>
      let c : Column := ⟨name, dataTypeAt columns j⟩
      -- a key tuple has no old image to recover from: a toast marker is one more bad kind
      (if t = .toast then .error (.badKind name) else decodeColumn fmt c none t).bind fun v =>
      fillKey columns names tuple (row.set j v)
  | _, _, row => .ok row

/-- A key tuple as a row: the values of the key, NULL everywhere else. -/
def keyTupleRow (columns : List Column) (tuple : List TupleColumn) (names : List String) :
    Except ReadError Row :=
  if tuple.length ≠ names.length then .error (.keyLength tuple.length names.length)
  else fillKey fmt columns names tuple (List.replicate columns.length .null)

/-- An old tuple: the key alone, or the whole row. -/
structure OldTuple where
  keyOnly : Bool
  tuple : List TupleColumn
  deriving DecidableEq, Repr

def oldTupleRow (columns : List Column) (primaryKey : List String) (old : OldTuple) :
    Except ReadError Row :=
  if old.keyOnly then keyTupleRow fmt columns old.tuple primaryKey
  else tupleRow fmt columns old.tuple none

/-- The tuple unchanged values are recovered from: a whole old one. -/
def toastSource : Option OldTuple → Option (List TupleColumn)
  | some old => if old.keyOnly then none else some old.tuple
  | none => none

/-! ## What the database writes -/

/-- A value as a column of a tuple. -/
def textColumn (dataType : String) : Cell → TupleColumn
  | .null => .null
  | v => .text (fmt.textOf dataType v)

/-- A row as a tuple, with the columns marked `true` written as unchanged. -/
def tupleOf : List Column → List Bool → Row → List TupleColumn
  | c :: columns, unchanged, v :: row =>
    (if unchanged.headD false then .toast else textColumn fmt c.dataType v) ::
      tupleOf columns unchanged.tail row
  | _, _, _ => []

/-- The marked columns hold the same values in both rows. -/
def Unchanged : List Bool → Row → Row → Prop
  | [], _, _ => True
  | mark :: marks, old, new =>
    (mark = true → old.head? = new.head?) ∧ Unchanged marks old.tail new.tail

instance decidableUnchanged :
    ∀ (marks : List Bool) (old new : Row), Decidable (Unchanged marks old new)
  | [], _, _ => inferInstanceAs (Decidable True)
  | mark :: marks, old, new =>
    haveI := decidableUnchanged marks old.tail new.tail
    inferInstanceAs (Decidable ((mark = true → old.head? = new.head?) ∧ _))

/-- The key tuple of a row: the listed columns, NULL where a column is not of the
replica identity. -/
def keyTupleOf (columns : List Column) (identity listed : List String) (row : Row) :
    List TupleColumn :=
  listed.map fun name =>
    if name ∈ identity then
      textColumn fmt (((findColumn columns name).map (dataTypeAt columns)).getD "")
        (cellAt columns row name)
    else .null

/-- A row's own value put at the place of one column. -/
def putCell (columns : List Column) (row image : Row) (name : String) : Row :=
  match findColumn columns name with
  | some j => image.set j (row.getD j .null)
  | none => image

/-- The part of a row its key tuple carries: the named columns, NULL everywhere else. -/
def keyImage (columns : List Column) (names : List String) (row : Row) : Row :=
  names.foldl (putCell columns row) (List.replicate columns.length .null)

/-! ## Images read back -/

variable {fmt} {columns : List Column}

variable {c : Column} {v w : Cell} {row image : Row} {j : Nat} {name : String}

/-- A value written as text is read back. -/
theorem decodeColumn_textColumn {old : Option TupleColumn} (hv : fmt.Holds c.dataType v)
    (h : decodeColumn fmt c old (textColumn fmt c.dataType v) = .ok w) : w = v := by
  by_cases hnull : v = .null
  · subst hnull
    exact (Except.ok.inj h).symm
  rw [textColumn.eq_2 fmt c.dataType v hnull, decodeColumn] at h
  split at h
  · rename_i w' hw
    cases h
    exact fmt.reads_back _ _ _ (hv.resolve_left hnull) hw
  · cases h

/-- A value taken from the old image is read back. -/
theorem toastFromOld_textColumn (hv : fmt.Holds c.dataType v)
    (h : toastFromOld fmt c (some (textColumn fmt c.dataType v)) = some w) : w = v := by
  by_cases hnull : v = .null
  · subst hnull
    cases h
  · rw [textColumn.eq_2 fmt c.dataType v hnull] at h
    exact fmt.reads_back _ _ _ (hv.resolve_left hnull) h

/-- A whole image is read as the row it was written from.  Its unchanged columns are the old
row's, if a whole old image is there. -/
theorem tupleRow_tupleOf {marks : List Bool} {old new : Row}
    {src : Option (List TupleColumn)} (hold : fmt.Fits columns old)
    (hnew : fmt.Fits columns new) (hmarks : Unchanged marks old new)
    (hsrc : ∀ t ∈ src, t = tupleOf fmt columns [] old)
    (h : tupleRow fmt columns (tupleOf fmt columns marks new) src = .ok row) : row = new := by
  induction columns generalizing marks old new row src with
  | nil =>
    cases hnew
    exact (Except.ok.inj h).symm
  | cons c rest ih =>
    obtain ⟨v, vs, hv, hvs, rfl⟩ := List.forall₂_cons_left_iff.mp hnew
    obtain ⟨o, os, ho, hos, rfl⟩ := List.forall₂_cons_left_iff.mp hold
    have hhead : marks.headD false = true → o = v := by
      cases marks with
      | nil => exact nofun
      | cons mark marks => exact fun hm => some.inj (hmarks.1 hm)
    have htail : Unchanged marks.tail os vs := by
      cases marks with
      | nil => exact trivial
      | cons mark marks => exact hmarks.2
    obtain ⟨w, hw, h⟩ := bind_eq_ok.mp h
    obtain ⟨ws, hws, h⟩ := bind_eq_ok.mp h
    cases h
    have hrest : ws = vs := by
      refine ih hos hvs htail (fun t ht => ?_) hws
      obtain ⟨t', ht', rfl⟩ := map_eq_some_iff.mp ht
      rw [hsrc t' ht']
      rfl
    have hfirst : w = v := by
      split at hw
      · rename_i hmark
        rw [decodeColumn] at hw
        split at hw
        · rename_i w' hw'
          cases hw
          cases src with
          | none => cases hw'
          | some t =>
            rw [hsrc t rfl] at hw'
            exact (toastFromOld_textColumn ho hw').trans (hhead hmark)
        · cases hw
      · exact decodeColumn_textColumn hv hw
    rw [hfirst, hrest]

/-- A whole image with no column marked needs no old image. -/
theorem tupleRow_whole {decoded : Row} (hrow : fmt.Fits columns row)
    (h : tupleRow fmt columns (tupleOf fmt columns [] row) none = .ok decoded) :
    decoded = row := by
  have hmarks : Unchanged [] row row := trivial
  have hnone : ∀ t ∈ (none : Option (List TupleColumn)), t = tupleOf fmt columns [] row := nofun
  exact tupleRow_tupleOf hrow hrow hmarks hnone h

theorem findColumn_lt (h : findColumn columns name = some j) : j < columns.length := by
  obtain ⟨hj, -⟩ := findIdx?_eq_some_iff_getElem.mp h
  exact hj

/-- A row's cell has its column's type. -/
theorem holds_getD (hrow : fmt.Fits columns row) (hj : j < columns.length) :
    fmt.Holds (dataTypeAt columns j) (row.getD j .null) := by
  have hlt : j < row.length := hrow.length_eq ▸ hj
  have hcell := hrow.get hj hlt
  simpa [dataTypeAt, hj, hlt] using hcell

@[simp] theorem length_putCell (row image : Row) (name : String) :
    (putCell columns row image name).length = image.length := by
  rw [putCell]
  split
  · exact length_set
  · rfl

/-- Putting a row's own value at a column's place brings that column in line with the row
and leaves the others. -/
theorem cellAt_putCell {other : String} (hlen : image.length = columns.length)
    (h : other = name ∨ cellAt columns image other = cellAt columns row other) :
    cellAt columns (putCell columns row image name) other = cellAt columns row other := by
  cases hi : findColumn columns other with
  | none => simp [cellAt, hi]
  | some i =>
    cases hj : findColumn columns name with
    | none =>
      rcases h with rfl | h
      · simp [hi] at hj
      · simpa [putCell, hj] using h
    | some j =>
      have hlt : j < image.length := hlen ▸ findColumn_lt hj
      by_cases hij : i = j
      · subst hij
        simp [cellAt, putCell, hi, hj, hlt]
      have hsame : cellAt columns image other = cellAt columns row other := by
        rcases h with rfl | h
        · exact absurd (some.inj (hi.symm.trans hj)) hij
        · exact h
      simpa [cellAt, putCell, hi, hj, getElem?_set_ne (Ne.symm hij)] using hsame

variable {identity names : List String}

theorem cellAt_foldl_putCell (hlen : image.length = columns.length)
    (h : name ∈ names ∨ cellAt columns image name = cellAt columns row name) :
    cellAt columns (names.foldl (putCell columns row) image) name = cellAt columns row name := by
  induction names generalizing image with
  | nil =>
    rcases h with h | h
    · cases h
    · exact h
  | cons first rest ih =>
    refine ih (by rw [length_putCell, hlen]) ?_
    rcases h with h | h
    · rcases mem_cons.mp h with rfl | h
      · exact .inr (cellAt_putCell hlen (.inl rfl))
      · exact .inl h
    · exact .inr (cellAt_putCell hlen (.inr h))

/-- The key image has the row's key. -/
theorem keyTuple_keyImage (names : List String) (row : Row) :
    keyTuple columns names (keyImage columns names row) = keyTuple columns names row :=
  map_congr_left fun _ hname =>
    cellAt_foldl_putCell length_replicate (.inl hname)

section

variable (hrow : fmt.Fits columns row) (hidentity : ∀ name ∈ names, name ∈ identity)
include hrow hidentity

/-- A key tuple fills in the identity's columns. -/
theorem fillKey_keyTupleOf {filled : Row}
    (h : fillKey fmt columns names (keyTupleOf fmt columns identity names row) image = .ok filled) :
    filled = names.foldl (putCell columns row) image := by
  induction names generalizing image with
  | nil => exact (Except.ok.inj h).symm
  | cons name rest ih =>
    rw [keyTupleOf, map_cons, if_pos (hidentity name mem_cons_self), fillKey] at h
    split at h
    · cases h
    rename_i j hj
    obtain ⟨v, hv, h⟩ := bind_eq_ok.mp h
    have hcell : v = row.getD j .null := by
      split at hv
      · cases hv
      · simp only [hj, cellAt] at hv
        exact decodeColumn_textColumn (c := ⟨name, dataTypeAt columns j⟩)
          (holds_getD hrow (findColumn_lt hj)) hv
    rw [hcell] at h
    rw [foldl_cons, putCell, hj]
    exact ih (fun n hn => hidentity n (mem_cons_of_mem _ hn)) h

/-- A key tuple that lists the primary key is read as the key image. -/
theorem keyTupleRow_keyTupleOf
    (h : keyTupleRow fmt columns (keyTupleOf fmt columns identity names row) names = .ok image) :
    image = keyImage columns names row := by
  rw [keyTupleRow, if_neg (by simp [keyTupleOf])] at h
  exact fillKey_keyTupleOf hrow hidentity h

end

end Urutau
