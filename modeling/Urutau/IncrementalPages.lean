import Urutau.JsonTexts
import Urutau.SortedPages
import Urutau.TransactionReader

/-!
# The pages of an incremental table

An incremental table is read in pages ordered by a cursor column and the primary key.  Each
page saves the position the next one resumes from: the text of the cursor of its last row alone,
or that text with those of the key when the row behind the page has the same cursor.  A plain
cursor reads its whole group again, a cursor with a key goes on behind it.

The rows are in the order the server sorts them, and carry the cells the driver hands over.  What
the server reads for a saved text is a parameter, and so is which cells the wire schema of the
target takes.
-/

namespace Urutau

open List Option

/-! ## WHERE texts -/

section Where

variable {R : Type*}

/-- A condition text without brackets around it: conjunctions joined by OR. -/
abbrev WhereText (R : Type*) := List (List (R → Bool))

/-- The condition is true for the row: AND binds more tightly than OR. -/
def WhereText.holds (w : WhereText R) (r : R) : Bool :=
  w.any fun conjunction => conjunction.all fun p => p r

/-- Two texts with AND between them, and no brackets. -/
def WhereText.and_ : WhereText R → WhereText R → WhereText R
  | [], w => w
  | [conjunction], [] => [conjunction]
  | [conjunction], c :: rest => (conjunction ++ c) :: rest
  | conjunction :: c :: rest, w => conjunction :: and_ (c :: rest) w

/-- The parts of a query's WHERE clause; without parts every row qualifies. -/
def WhereText.joined (parts : List (WhereText R)) : WhereText R := parts.foldl WhereText.and_ [[]]

end Where

/-! ## Positions -/

/-- `chunk.Normalize`: bytes are taken for a string. -/
def Cell.normalize : Cell → Cell
  | .blob bytes => .text bytes
  | v => v

/-- The text of a value, which the next query casts back to the type of its column. -/
def formatIncrementalCursor : Cell → List UInt8
  | .null => ValueTexts.ascii "<nil>".toList
  | .text bytes => bytes
  | .blob bytes => ValueTexts.ascii (ValueTexts.bytesText bytes)
  | .time nanos =>
    ValueTexts.ascii
      (TimeTexts.rfc3339Text (nanos / 1000000000) (nanos % 1000000000).toNat 0).toList
  | .scalar v => ValueTexts.ascii v.text

/-- A cursor with its key tie-break. -/
def encodeIncrementalPos (cursor : List UInt8) (pk : List (List UInt8)) : List UInt8 :=
  cursor ++ 0 :: JsonTexts.marshal pk

/-- The cursor of a saved position and its tie-break, empty for a plain cursor. -/
def decodeIncrementalPos (pos : List UInt8) : List UInt8 × List (List UInt8) :=
  match pos.dropWhile (· ≠ 0) with
  | [] => (pos, [])
  | _ :: text =>
    match JsonTexts.unmarshal text with
    | some pk => (pos.takeWhile (· ≠ 0), pk)
    | none => (pos, [])

/-- A text without a separator is a cursor. -/
theorem decodeIncrementalPos_plain {text : List UInt8} (hsep : 0 ∉ text) :
    decodeIncrementalPos text = (text, []) := by
  have hnone : text.dropWhile (· ≠ 0) = [] := by
    rw [dropWhile_eq_nil_iff]
    intro b hb
    exact decide_eq_true fun heq => hsep (heq ▸ hb)
  unfold decodeIncrementalPos
  rw [hnone]

/-- A tie-break of valid texts is decoded as it was encoded. -/
theorem decodeIncrementalPos_tie {text : List UInt8} (hsep : 0 ∉ text)
    (texts : List (List Char)) :
    decodeIncrementalPos (encodeIncrementalPos text (texts.map JsonTexts.utf8)) =
      (text, texts.map JsonTexts.utf8) := by
  have hbytes : ∀ b ∈ text, decide (b ≠ 0) = true := by
    intro b hb
    exact decide_eq_true fun heq => hsep (heq ▸ hb)
  unfold decodeIncrementalPos encodeIncrementalPos
  rw [dropWhile_append_of_pos hbytes, takeWhile_append_of_pos hbytes]
  simp [JsonTexts.unmarshal_marshal]

section Pages

variable {C K V : Type*} [LinearOrder C] [LinearOrder K]

/-! ## The page query -/

/-- A row: its cursor and its primary key as the server compares them, their cells as they are
scanned, and what else the filter reads. -/
structure CursorRow (C K V : Type*) where
  cursor : C
  key : K
  cursorCell : Cell
  keyCells : List Cell
  cells : V
  deriving DecidableEq

/-- Where the row stands in the order of the query. -/
def CursorRow.place (r : CursorRow C K V) : C ×ₗ K := toLex (r.cursor, r.key)

def CursorRow.text (r : CursorRow C K V) : List UInt8 :=
  formatIncrementalCursor r.cursorCell.normalize

def CursorRow.keyTexts (r : CursorRow C K V) : List (List UInt8) :=
  r.keyCells.map fun v => formatIncrementalCursor v.normalize

/-- What the server reads for the texts of a position, `none` where it refuses them; and the
number of columns of the primary key. -/
structure CursorColumns (C K : Type*) where
  castCursor : List UInt8 → Option C
  castKey : List (List UInt8) → Option K
  keyLength : Nat

/-- An unchanging table with a unique key, in the order of the query, its filter, and the names of
the columns that are selected. -/
structure IncrementalTable (C K V : Type*) [LinearOrder C] [LinearOrder K] where
  names : List String
  rows : List (CursorRow C K V)
  ascending : SortedPages.Ascending CursorRow.place rows
  filter : Option (CursorRow C K V → Bool)

/-- The row passes the filter. -/
def IncrementalTable.wanted (t : IncrementalTable C K V) (r : CursorRow C K V) : Bool :=
  t.filter.all fun f => f r

/-- The resume condition; `none` when the server refuses a text of the position, or the tie-break
has fewer texts than the key has columns and the index runs out of range. -/
def incrementalResume (cols : CursorColumns C K) (after : List UInt8 × List (List UInt8)) :
    Option (List (WhereText (CursorRow C K V))) :=
  if after.1 = [] then some []
  else if after.2 = [] then
    (cols.castCursor after.1).map fun c => [[[fun r => c ≤ r.cursor]]]
  else if after.2.length < cols.keyLength then none
  else
    (cols.castCursor after.1).bind fun c =>
      (cols.castKey (after.2.take cols.keyLength)).map fun k =>
        -- cursor > c OR (cursor = c AND (key) > (k)): the first OR has no brackets around it
        [[[fun r => c < r.cursor], [fun r => decide (r.cursor = c) && decide (k < r.key)]]]

/-- The rows of a full page. -/
def incrementalPageSize : Nat := 1000

/-- The rows of the page query, one more than a page holds.  The resume condition stands
before the filter. -/
def incrementalQuery (cols : CursorColumns C K) (t : IncrementalTable C K V)
    (after : List UInt8) : Option (List (CursorRow C K V)) :=
  (incrementalResume cols (decodeIncrementalPos after)).map fun resume =>
    let filter := t.filter.toList.map fun f => [[f]]
    (t.rows.filter (WhereText.joined (resume ++ filter)).holds).take (incrementalPageSize + 1)

/-! ## One page -/

/-- A page: the position it saves, its rows, and whether more is available. -/
structure IncrementalPage (C K V : Type*) where
  next : List UInt8
  rows : List (CursorRow C K V)
  more : Bool

/-- What one call returns. -/
inductive PageRead (C K V : Type*) where
  | failed
  | empty
  | page (p : IncrementalPage C K V)

/-- The position saved for a page that ends in `last`, with the row behind it. -/
def nextPosition (last : CursorRow C K V) (lookahead : Option (CursorRow C K V)) : List UInt8 :=
  if lookahead.any fun l => l.text == last.text then encodeIncrementalPos last.text last.keyTexts
  else last.text

/-- The page of the rows read and the row behind them. -/
def pageOf (page : List (CursorRow C K V)) (lookahead : Option (CursorRow C K V)) :
    PageRead C K V :=
  match page.getLast? with
  | none => .empty
  | some last => .page ⟨nextPosition last lookahead, page, lookahead.isSome⟩

/-- The wire schema of the target: the names of its columns, whether each has a wire type, and
the rows it takes: one by one as they are scanned, or a page of row maps. -/
structure WireSchema (R : Type*) where
  columns : List String
  typed : Bool
  appendRow : R → Bool
  recordFromChanges : List R → Bool

/-- The columnar read's loop: the page's rows and the row that was read too many.  It fails at a
row with a cell that is not taken. -/
def scanRows (appendRow : CursorRow C K V → Bool) :
    Nat → List (CursorRow C K V) → Option (List (CursorRow C K V) × Option (CursorRow C K V))
  | _, [] => some ([], none)
  | n, r :: rest =>
    if n = incrementalPageSize then some ([], some r)
    else if appendRow r then
      (scanRows appendRow (n + 1) rest).map fun (page, lookahead) => (r :: page, lookahead)
    else none

section Reads

variable (schema : WireSchema (CursorRow C K V)) (cols : CursorColumns C K)
  (t : IncrementalTable C K V)

/-- The columnar page. -/
def incrementalBatch (after : List UInt8) : PageRead C K V :=
  if schema.columns = [] then .failed
  else
    match incrementalQuery cols t after with
    | none => .failed
    | some rows =>
      if schema.typed && t.names.all (· ∈ schema.columns) then
        match scanRows schema.appendRow 0 rows with
        | none => .failed
        | some (page, lookahead) => pageOf page lookahead
      else .failed

/-- The page of row maps. -/
def incremental (after : List UInt8) : PageRead C K V :=
  match incrementalQuery cols t after with
  | none => .failed
  | some rows =>
    let raw := rows.take (incrementalPageSize + 1)
    let more := decide (incrementalPageSize < raw.length)
    let page := if more then raw.take incrementalPageSize else raw
    match page.getLast? with
    | none => .empty
    | some last => .page ⟨nextPosition last raw[incrementalPageSize]?, page, more⟩

/-- One page for the worker: the columnar one when the schema of the target is known. -/
def incrementalPage (after : List UInt8) : PageRead C K V :=
  if schema.columns = [] then
    match incremental cols t after with
    | .page p => if schema.recordFromChanges p.rows then .page p else .failed
    | read => read
  else incrementalBatch schema cols t after

/-! ## The drain -/

/-- The pages of a drain, and whether a call failed. -/
structure Drained (C K V : Type*) where
  pages : List (IncrementalPage C K V)
  failed : Bool

/-- The page loop of one table; `none` when it has not ended within `fuel` calls. -/
def runIncremental : Nat → List UInt8 → Option (Drained C K V)
  | 0, _ => none
  | fuel + 1, after =>
    match incrementalPage schema cols t after with
    | .failed => some ⟨[], true⟩
    | .empty => some ⟨[], false⟩
    | .page p =>
      if p.more then
        (runIncremental fuel p.next).map fun rest => { rest with pages := p :: rest.pages }
      else some ⟨[p], false⟩

end Reads

/-! ## What a position stands for -/

/-- A decoded position. -/
inductive Resume (C K : Type*) where
  | start
  | plain (c : C)
  | tie (c : C) (k : K)
  deriving DecidableEq

/-- The rows the query reads from a position.  Behind a tie-break the filter is joined to the
second condition alone: a row with a later cursor is read whether it passes or not. -/
def IncrementalTable.reads (t : IncrementalTable C K V) : Resume C K → CursorRow C K V → Bool
  | .start, r => t.wanted r
  | .plain c, r => decide (c ≤ r.cursor) && t.wanted r
  | .tie c k, r =>
    decide (c < r.cursor) || (decide (r.cursor = c) && decide (k < r.key) && t.wanted r)

/-- The rows read from a position, without the limit. -/
def IncrementalTable.seen (t : IncrementalTable C K V) (v : Resume C K) : List (CursorRow C K V) :=
  t.rows.filter (t.reads v)

/-- The position's meaning; `none` when no page is read from it. -/
def resumeOf (cols : CursorColumns C K) (after : List UInt8) : Option (Resume C K) :=
  let (cursor, pk) := decodeIncrementalPos after
  if cursor = [] then some .start
  else if pk = [] then (cols.castCursor cursor).map .plain
  else if pk.length < cols.keyLength then none
  else (cols.castCursor cursor).bind fun c => (cols.castKey (pk.take cols.keyLength)).map (.tie c)

/-- The page read from a position. -/
def pageFrom (t : IncrementalTable C K V) (v : Resume C K) : PageRead C K V :=
  pageOf ((t.seen v).take incrementalPageSize) (t.seen v)[incrementalPageSize]?

variable {schema : WireSchema (CursorRow C K V)} {cols : CursorColumns C K}
  {t : IncrementalTable C K V} {after : List UInt8}

attribute [local simp] IncrementalTable.wanted IncrementalTable.reads WhereText.joined
  WhereText.holds WhereText.and_

/-- The query reads a page and one row more. -/
theorem incrementalQuery_eq (after : List UInt8) : incrementalQuery cols t after =
      (resumeOf cols after).map fun v => (t.seen v).take (incrementalPageSize + 1) := by
  unfold incrementalQuery resumeOf incrementalResume
  cases decodeIncrementalPos after with
  | mk cursor pk =>
    have hread : ∀ (resume : List (WhereText (CursorRow C K V))) (v : Resume C K),
        (∀ r, (WhereText.joined (resume ++ t.filter.toList.map fun f => [[f]])).holds r =
          t.reads v r) →
        t.rows.filter (WhereText.joined (resume ++ t.filter.toList.map fun f => [[f]])).holds =
          t.seen v := by
      intro resume v hsame
      exact congrArg t.rows.filter (funext hsame)
    by_cases hcursor : cursor = []
    · simp only [if_pos hcursor, map_some]
      rw [hread [] .start]
      cases hf : t.filter <;> simp [hf]
    by_cases hpk : pk = []
    · simp only [if_neg hcursor, if_pos hpk]
      cases cols.castCursor cursor with
      | none => rfl
      | some c =>
        simp only [map_some]
        rw [hread _ (.plain c)]
        cases hf : t.filter <;> simp [hf]
    by_cases hlong : pk.length < cols.keyLength
    · simp [hcursor, hpk, hlong]
    · simp only [if_neg hcursor, if_neg hpk, if_neg hlong]
      cases cols.castCursor cursor with
      | none => rfl
      | some c =>
        cases cols.castKey (pk.take cols.keyLength) with
        | none => rfl
        | some k =>
          simp only [map_some, bind_some]
          rw [hread _ (.tie c k)]
          cases hf : t.filter <;> simp [hf]

omit [LinearOrder C] [LinearOrder K] in
/-- The scan takes a page off the rows and the one behind it, when the page's rows are taken. -/
theorem scanRows_eq (appendRow : CursorRow C K V → Bool) (n : Nat) (rows : List (CursorRow C K V))
    (hn : n ≤ incrementalPageSize) : scanRows appendRow n rows =
      if (rows.take (incrementalPageSize - n)).all appendRow then
        some (rows.take (incrementalPageSize - n), rows[incrementalPageSize - n]?)
      else none := by
  induction rows generalizing n with
  | nil => simp [scanRows]
  | cons r rest ih =>
    by_cases hfull : n = incrementalPageSize
    · simp [scanRows, hfull]
    · have hleft : incrementalPageSize - n = incrementalPageSize - (n + 1) + 1 := by omega
      simp only [scanRows, if_neg hfull, ih (n + 1) (by omega), hleft, take_succ_cons,
        getElem?_cons_succ, all_cons]
      cases appendRow r with
      | false => rfl
      | true =>
        simp only [Bool.true_and, if_true]
        split <;> rfl

/-- The schema has a column for each that is selected. -/
def WireSchema.links (schema : WireSchema (CursorRow C K V)) (names : List String) : Bool :=
  schema.columns ≠ [] && (schema.typed && names.all (· ∈ schema.columns))

theorem incrementalBatch_eq (after : List UInt8) : incrementalBatch schema cols t after =
      match resumeOf cols after with
      | none => .failed
      | some v =>
        if schema.links t.names && ((t.seen v).take incrementalPageSize).all schema.appendRow then
          pageFrom t v
        else .failed := by
  unfold incrementalBatch WireSchema.links
  rw [incrementalQuery_eq]
  cases resumeOf cols after with
  | none => simp
  | some v =>
    have htake : ((t.seen v).take (incrementalPageSize + 1)).take incrementalPageSize =
        (t.seen v).take incrementalPageSize := by
      rw [take_take, Nat.min_eq_left (Nat.le_succ _)]
    have hlook : ((t.seen v).take (incrementalPageSize + 1))[incrementalPageSize]? =
        (t.seen v)[incrementalPageSize]? := by
      rw [getElem?_take, if_pos (Nat.lt_succ_self _)]
    simp only [map_some, scanRows_eq _ 0 _ (Nat.zero_le _), Nat.sub_zero, htake, hlook, pageFrom]
    by_cases hcolumns : schema.columns = []
    · simp [hcolumns]
    cases schema.typed && t.names.all (· ∈ schema.columns) with
    | false => simp [hcolumns]
    | true =>
      cases ((t.seen v).take incrementalPageSize).all schema.appendRow <;> simp [hcolumns]

theorem incremental_eq (after : List UInt8) : incremental cols t after =
      match resumeOf cols after with
      | none => .failed
      | some v => pageFrom t v := by
  unfold incremental
  rw [incrementalQuery_eq]
  cases resumeOf cols after with
  | none => rfl
  | some v =>
    simp only [map_some, pageFrom, pageOf, take_take, Nat.min_self]
    by_cases hmore : incrementalPageSize < (t.seen v).length
    · have hmin : min (incrementalPageSize + 1) (t.seen v).length = incrementalPageSize + 1 :=
        Nat.min_eq_left hmore
      simp [hmin, getElem?_eq_getElem hmore]
    · have hshort : (t.seen v).length ≤ incrementalPageSize := by omega
      have hmin : min (incrementalPageSize + 1) (t.seen v).length = (t.seen v).length := by
        omega
      have hall : (t.seen v).take (incrementalPageSize + 1) = t.seen v :=
        take_of_length_le (by omega)
      rw [take_of_length_le hshort, hall]
      simp [hmore]

/-- A page is the first rows seen from its position. -/
theorem pageFrom_eq_page {v : Resume C K} {p : IncrementalPage C K V} : pageFrom t v = .page p ↔
      ∃ last, ((t.seen v).take incrementalPageSize).getLast? = some last ∧
        p = ⟨nextPosition last (t.seen v)[incrementalPageSize]?,
          (t.seen v).take incrementalPageSize, ((t.seen v)[incrementalPageSize]?).isSome⟩ := by
  unfold pageFrom pageOf
  cases ((t.seen v).take incrementalPageSize).getLast? with
  | none => simp
  | some last => simp [eq_comm]

theorem pageFrom_eq_empty {v : Resume C K} (hempty : pageFrom t v = .empty) : t.seen v = [] := by
  unfold pageFrom pageOf at hempty
  cases hlast : ((t.seen v).take incrementalPageSize).getLast? with
  | none =>
    rcases take_eq_nil_iff.mp (getLast?_eq_none_iff.mp hlast) with hzero | hnil
    · cases hzero
    · exact hnil
  | some last =>
    simp only [hlast] at hempty
    cases hempty

/-- **The columnar read returns what the read of row maps returns**, except that it fails where
the wire schema lacks a column or does not take a row of the page. -/
theorem incrementalBatch_eq_incremental (schema : WireSchema (CursorRow C K V))
    (cols : CursorColumns C K) (t : IncrementalTable C K V) (after : List UInt8) :
    incrementalBatch schema cols t after =
      match incremental cols t after with
      | .page p =>
        if schema.links t.names && p.rows.all schema.appendRow then .page p else .failed
      | .empty => if schema.links t.names then .empty else .failed
      | .failed => .failed := by
  rw [incrementalBatch_eq, incremental_eq]
  cases resumeOf cols after with
  | none => rfl
  | some v =>
    simp only [pageFrom, pageOf]
    cases hlast : ((t.seen v).take incrementalPageSize).getLast? with
    | none => simp [getLast?_eq_none_iff.mp hlast]
    | some last => rfl

/-! ## The pages of the drain -/

/-- The wire schema takes every row of the table. -/
structure WireSchema.Takes (schema : WireSchema (CursorRow C K V)) (t : IncrementalTable C K V) :
    Prop where
  links : schema.columns ≠ [] → schema.links t.names = true
  rows : schema.columns ≠ [] → ∀ r ∈ t.rows, schema.appendRow r = true
  maps : schema.columns = [] → ∀ rows, rows ⊆ t.rows → schema.recordFromChanges rows = true

/-- A page that does not fail is the page of its position. -/
theorem incrementalPage_cases (schema : WireSchema (CursorRow C K V)) (cols : CursorColumns C K)
    (t : IncrementalTable C K V) (after : List UInt8) :
    incrementalPage schema cols t after = .failed ∨
      ∃ v, resumeOf cols after = some v ∧ incrementalPage schema cols t after = pageFrom t v := by
  unfold incrementalPage
  rw [incrementalBatch_eq, incremental_eq]
  cases resumeOf cols after with
  | none => simp
  | some v =>
    by_cases hcolumns : schema.columns = []
    · simp only [if_pos hcolumns]
      cases hpage : pageFrom t v with
      | failed | empty => exact .inr ⟨v, rfl, hpage.symm⟩
      | page p =>
        by_cases hmaps : schema.recordFromChanges p.rows = true
        · exact .inr ⟨v, rfl, by simp [hmaps, hpage]⟩
        · exact .inl (by simp [hmaps])
    · simp only [if_neg hcolumns]
      split
      · exact .inr ⟨v, rfl, rfl⟩
      · exact .inl rfl

theorem incrementalPage_of_takes (htakes : schema.Takes t) (after : List UInt8) :
    incrementalPage schema cols t after =
      match resumeOf cols after with
      | none => .failed
      | some v => pageFrom t v := by
  unfold incrementalPage
  rw [incrementalBatch_eq, incremental_eq]
  cases resumeOf cols after with
  | none => simp
  | some v =>
    have hseen : (t.seen v).take incrementalPageSize ⊆ t.rows :=
      fun r hr => (mem_filter.mp (mem_of_mem_take hr)).1
    by_cases hcolumns : schema.columns = []
    · simp only [if_pos hcolumns]
      cases hpage : pageFrom t v with
      | failed | empty => rfl
      | page p =>
        obtain ⟨last, -, rfl⟩ := pageFrom_eq_page.mp hpage
        simp [htakes.maps hcolumns _ hseen]
    · have hall : ((t.seen v).take incrementalPageSize).all schema.appendRow = true :=
        all_eq_true.mpr fun r hr => htakes.rows hcolumns r (hseen hr)
      simp [hcolumns, htakes.links hcolumns, hall]

theorem WireSchema.Takes.page (htakes : schema.Takes t) {v : Resume C K}
    {p : IncrementalPage C K V} (hv : resumeOf cols after = some v) (hp : pageFrom t v = .page p) :
    incrementalPage schema cols t after = .page p := by
  rw [incrementalPage_of_takes htakes, hv]
  exact hp

/-! ## Saved positions -/

/-- **The rows' texts stand for them.**  No cursor text has a NUL, the key's texts are valid, and
what the server reads for the texts of a row, if it takes them, is the row's own cursor and
key. -/
structure ReadsBack (cols : CursorColumns C K) (t : IncrementalTable C K V) : Prop where
  noSep : ∀ r ∈ t.rows, 0 ∉ r.text
  valid : ∀ r ∈ t.rows, ∃ texts : List (List Char), r.keyTexts = texts.map JsonTexts.utf8
  keyed : 0 < cols.keyLength ∧ ∀ r ∈ t.rows, r.keyTexts.length = cols.keyLength
  cursor : ∀ r ∈ t.rows, ∀ c, cols.castCursor r.text = some c → c = r.cursor
  key : ∀ r ∈ t.rows, ∀ k, cols.castKey r.keyTexts = some k → k = r.key

namespace ReadsBack

variable {r : CursorRow C K V}

/-- A row's cursor resumes at its group. -/
theorem resumeOf_plain (h : ReadsBack cols t) (hr : r ∈ t.rows) : resumeOf cols r.text =
      if r.text = [] then some .start
      else (cols.castCursor r.text).map fun _ => .plain r.cursor := by
  unfold resumeOf
  rw [decodeIncrementalPos_plain (h.noSep r hr)]
  cases hcast : cols.castCursor r.text with
  | none => simp [hcast]
  | some c => simp [hcast, h.cursor r hr c hcast]

/-- A row's cursor and key resume behind the row. -/
theorem resumeOf_tie (h : ReadsBack cols t) (hr : r ∈ t.rows) :
    resumeOf cols (encodeIncrementalPos r.text r.keyTexts) =
      if r.text = [] then some .start
      else (cols.castCursor r.text).bind fun _ =>
        (cols.castKey r.keyTexts).map fun _ => .tie r.cursor r.key := by
  obtain ⟨texts, htexts⟩ := h.valid r hr
  have hlen := h.keyed.2 r hr
  have hsome : r.keyTexts ≠ [] := ne_nil_of_length_pos (hlen ▸ h.keyed.1)
  have htake : r.keyTexts.take cols.keyLength = r.keyTexts := take_of_length_le hlen.le
  have hdecode : decodeIncrementalPos (encodeIncrementalPos r.text r.keyTexts) =
      (r.text, r.keyTexts) := by
    rw [htexts]
    exact decodeIncrementalPos_tie (h.noSep r hr) texts
  unfold resumeOf
  rw [hdecode]
  simp only [if_neg hsome, hlen, lt_irrefl, if_false, htake]
  cases hcast : cols.castCursor r.text with
  | none => rfl
  | some c =>
    cases hkey : cols.castKey r.keyTexts with
    | none => rfl
    | some k => rw [h.cursor r hr c hcast, h.key r hr k hkey]; rfl

end ReadsBack

end Pages

end Urutau
