import Urutau.IncrementalPages

/-!
# Columns of integers and timestamps

The texts of integers and timestamps are printable, so a saved position of such columns is decoded
as it was written, and the server reads each text back as the value it was written for.
-/

namespace Urutau

open List DigitTexts TimeTexts ValueTexts

/-! ## The columns -/

inductive ColumnKind
  | integer
  | timestamp
  deriving DecidableEq

/-- The cell the driver hands over; a timestamp is counted in microseconds. -/
def ColumnKind.cell : ColumnKind → Int → Cell
  | .integer, n => .scalar (.int .int64 n)
  | .timestamp, n => .time (n * 1000)

/-- The text of a value. -/
def ColumnKind.chars : ColumnKind → Int → List Char
  | .integer, n => intText n
  | .timestamp, n =>
    (rfc3339Text (n * 1000 / 1000000000) (n * 1000 % 1000000000).toNat 0).toList

/-- The casts of a server.  A text it takes is read as the value it was written for. -/
structure Server where
  cast : ColumnKind → List UInt8 → Option Int
  cast_text : ∀ (kind : ColumnKind) (n m : Int),
    cast kind (formatIncrementalCursor (kind.cell n)) = some m → m = n

/-- A cursor and a key of such columns. -/
def Server.columns (server : Server) (cursor : ColumnKind) (key : List ColumnKind) :
    CursorColumns Int (List Int) where
  castCursor := server.cast cursor
  castKey texts := (zipWith server.cast key texts).mapM id
  keyLength := key.length

/-- The table's cursor and key are of the columns. -/
def IncrementalTable.Typed {V : Type*} (t : IncrementalTable Int (List Int) V) (cursor : ColumnKind)
    (key : List ColumnKind) : Prop :=
  ∀ r ∈ t.rows, r.cursorCell = cursor.cell r.cursor ∧ r.key.length = key.length ∧
    r.keyCells = zipWith ColumnKind.cell key r.key

/-! ## Their texts -/

/-- A value's text is that of its kind. -/
theorem ColumnKind.format_cell (kind : ColumnKind) (n : Int) :
    formatIncrementalCursor (kind.cell n).normalize = ascii (kind.chars n) := by
  cases kind <;> rfl

theorem ColumnKind.normalize_cell (kind : ColumnKind) (n : Int) :
    (kind.cell n).normalize = kind.cell n := by
  cases kind <;> rfl

theorem ColumnKind.printable (kind : ColumnKind) (n : Int) : Printable (kind.chars n) := by
  cases kind with
  | integer => exact printable_scalar (.int .int64 n)
  | timestamp => exact printable_rfc3339Text _ _

/-- Printable texts are valid. -/
theorem ascii_eq_utf8 {cs : List Char} (hcs : Printable cs) : ascii cs = JsonTexts.utf8 cs := by
  induction cs with
  | nil => rfl
  | cons c cs ih =>
    have hc := hcs c mem_cons_self
    have hsize : c.utf8Size = 1 := by
      rw [Char.utf8Size_eq_one_iff, UInt32.le_iff_toNat_le]
      have hval : c.toNat = c.val.toNat := rfl
      have hmax : (127 : UInt32).toNat = 127 := rfl
      omega
    rw [ascii, map_cons, JsonTexts.utf8, flatMap_cons, String.utf8EncodeChar_eq_singleton hsize]
    exact congrArg₂ cons rfl (ih fun d hd => hcs d (mem_cons_of_mem _ hd))

variable {V : Type*} {server : Server} {cursor : ColumnKind} {key : List ColumnKind}

/-- The key's texts are read back as the key. -/
theorem Server.castKey_texts {ns ms : List Int} (hlen : ns.length = key.length)
    (hcast : (zipWith server.cast key ((zipWith ColumnKind.cell key ns).map fun v =>
      formatIncrementalCursor v.normalize)).mapM id = some ms) : ms = ns := by
  induction key generalizing ns ms with
  | nil =>
    cases length_eq_zero_iff.mp hlen
    simpa using hcast.symm
  | cons kind key ih =>
    cases ns with
    | nil => cases hlen
    | cons n ns =>
      simp only [zipWith_cons_cons, map_cons, mapM_cons, id_eq, Option.bind_eq_bind,
        Option.bind_eq_some_iff, Option.pure_def, Option.some.injEq] at hcast
      obtain ⟨m, hm, rest, hrest, rfl⟩ := hcast
      rw [kind.normalize_cell] at hm
      rw [server.cast_text kind n m hm, ih (Nat.succ.inj hlen) hrest]

/-- **The texts of integers and timestamps stand for them.** -/
theorem IncrementalTable.Typed.readsBack {t : IncrementalTable Int (List Int) V}
    (htyped : t.Typed cursor key) (hkey : key ≠ []) : ReadsBack (server.columns cursor key) t where
  noSep r hr := by
    rw [CursorRow.text, (htyped r hr).1, cursor.format_cell]
    exact (cursor.printable _).notMem_ascii (by decide)
  valid r hr := by
    refine ⟨zipWith ColumnKind.chars key r.key, ?_⟩
    rw [CursorRow.keyTexts, (htyped r hr).2.2, map_zipWith, map_zipWith]
    congr 1
    funext kind n
    rw [kind.format_cell, ascii_eq_utf8 (kind.printable n)]
  keyed := by
    refine ⟨length_pos_of_ne_nil hkey, fun r hr => ?_⟩
    obtain ⟨-, hlen, hcells⟩ := htyped r hr
    simp [CursorRow.keyTexts, hcells, hlen, Server.columns]
  cursor r hr c hcast := by
    rw [CursorRow.text, (htyped r hr).1, cursor.normalize_cell] at hcast
    exact server.cast_text cursor r.cursor c hcast
  key r hr k hcast := by
    rw [CursorRow.keyTexts, (htyped r hr).2.2] at hcast
    exact server.castKey_texts (htyped r hr).2.1 hcast

/-! ## A server -/

/-- An integer in decimal. -/
def readInteger : List Char → Option Int
  | '-' :: ds => if ds ≠ [] && ds.all Char.isDigit then some (-(value ds : Int)) else none
  | ds => if ds ≠ [] && ds.all Char.isDigit then some (value ds) else none

theorem readInteger_intText (n : Int) : readInteger (intText n) = some n := by
  have hdigits := digits_render n.natAbs
  have hall : ((render n.natAbs ≠ []) && (render n.natAbs).all Char.isDigit) = true := by
    simp only [ne_eq, render_ne_nil, not_false_eq_true, decide_true, Bool.true_and, all_eq_true]
    exact hdigits
  unfold intText
  by_cases hn : n < 0
  · rw [if_pos hn, singleton_append, readInteger, if_pos hall, value_render]
    exact congrArg some (by omega)
  · rw [if_neg hn, nil_append]
    unfold readInteger
    split
    · next ds hds => exact absurd hds (Digits.ne_minus hdigits)
    · rw [if_pos hall, value_render]
      exact congrArg some (by omega)

/-- Printable texts are read from their bytes. -/
theorem ofNat_ascii {cs : List Char} (hcs : Printable cs) :
    (ascii cs).map (fun b => Char.ofNat b.toNat) = cs := by
  rw [ascii, map_map]
  refine (map_congr_left fun c hc => ?_).trans (map_id cs)
  have hlt : c.toNat < 256 := (hcs c hc).2.trans (by decide)
  simp [Nat.mod_eq_of_lt hlt]

/-- The server that reads decimal integers and instants in the layout of RFC 3339. -/
def plainCast (kind : ColumnKind) (text : List UInt8) : Option Int :=
  let cs := text.map fun b => Char.ofNat b.toNat
  match kind with
  | .integer => readInteger cs
  | .timestamp => (parseRfc3339 cs).map Instant.micros

theorem plainCast_integer (n : Int) :
    plainCast .integer (formatIncrementalCursor (ColumnKind.integer.cell n)) = some n := by
  have htext : formatIncrementalCursor (ColumnKind.integer.cell n) = ascii (intText n) := rfl
  have hprintable : Printable (intText n) := ColumnKind.integer.printable n
  rw [plainCast, htext, ofNat_ascii hprintable]
  exact readInteger_intText n

def plainServer : Server where
  cast := plainCast
  cast_text kind n m hcast := by
    cases kind with
    | integer =>
      rw [plainCast_integer] at hcast
      exact (Option.some.inj hcast).symm
    | timestamp =>
      rw [← ColumnKind.normalize_cell, ColumnKind.format_cell, plainCast,
        ofNat_ascii (ColumnKind.printable _ n)] at hcast
      obtain ⟨at_, hread, rfl⟩ := Option.map_eq_some_iff.mp hcast
      have hnsec : (n * 1000 % 1000000000).toNat < 10 ^ 9 := by omega
      rw [parseRfc3339_back hnsec hread, Instant.micros]
      simp only
      omega

/-- A key column and a cursor column of integers. -/
abbrev integerColumns : CursorColumns Int (List Int) := plainServer.columns .integer [.integer]

/-- A wire schema that takes all their rows. -/
def integerSchema : WireSchema (CursorRow Int (List Int) Unit) where
  columns := ["cursor", "key"]
  typed := true
  appendRow _ := true
  recordFromChanges _ := true

/-- The rows `0, 1, …`, the cursor of each as given, all of them wanted. -/
def numberedTable (n : Nat) (cursor : Nat → Nat) (hcursor : ∀ i j, i < j → cursor i ≤ cursor j) :
    IncrementalTable Int (List Int) Unit where
  names := ["cursor", "key"]
  rows := (List.range n).map fun i => ⟨cursor i, [(i : Int)], ColumnKind.integer.cell (cursor i),
    [ColumnKind.integer.cell i], ()⟩
  ascending := by
    unfold SortedPages.Ascending
    rw [pairwise_map]
    apply pairwise_lt_range.imp
    intro i j hij
    refine Prod.Lex.toLex_lt_toLex.mpr ?_
    rcases (hcursor i j hij).lt_or_eq with hlt | heq
    · exact .inl (Int.ofNat_lt.mpr hlt)
    · exact .inr ⟨Int.ofNat_inj.mpr heq, List.Lex.rel (Int.ofNat_lt.mpr hij)⟩
  filter := none

/-- The numbered rows are integers. -/
theorem numberedTable_typed (n : Nat) {cursor : Nat → Nat}
    (hcursor : ∀ i j, i < j → cursor i ≤ cursor j) :
    (numberedTable n cursor hcursor).Typed .integer [.integer] := by
  intro r hr
  obtain ⟨i, -, rfl⟩ := mem_map.mp hr
  exact ⟨rfl, rfl, rfl⟩

theorem integerSchema_takes {t : IncrementalTable Int (List Int) Unit}
    (hnames : t.names = ["cursor", "key"]) : integerSchema.Takes t where
  links _ := by rw [hnames]; decide
  rows _ _ _ := rfl
  maps hnone := by cases hnone

end Urutau
