import Urutau.KeyValues
import Urutau.Results

/-!
# The columns of an equality delete

The keys of a batch are extracted in the order of the primary key, the delete record is
built in the order of the table's columns, and a value is put into a column by its place.
The two orders are the same only when the key's columns are declared in table order.
-/

namespace Urutau

open List Results Option

variable {F32 F64 : Type}

/-- A column of a wire record. -/
structure WireColumn (F32 F64 : Type) where
  name : String
  type : WireType
  cells : List (Option (WireCell F32 F64 type))

/-- A wire record: its data columns and how many rows it has. -/
structure WireRecord (F32 F64 : Type) where
  columns : List (WireColumn F32 F64)
  rows : Nat

/-- The first column of the name. -/
def WireRecord.column (b : WireRecord F32 F64) (name : String) :
    Except KeyError (WireColumn F32 F64) :=
  match b.columns.find? fun col => col.name = name with
  | some col => .ok col
  | none => .error (.missingColumn name)

variable (lib : ValueLib F32 F64)

/-- The key value of a column at a row. -/
def WireColumn.keyValue (col : WireColumn F32 F64) (row : Nat) :
    Except KeyError (GoValue F32 F64) :=
  scalarValue lib col.type (col.cells[row]?.getD none)

/-- The keys of one record, in the order of the key columns. -/
def recordKeys (pkCols : List String) (b : WireRecord F32 F64) :
    Except KeyError (List (List (GoValue F32 F64))) := do
  let cols ← pkCols.mapM b.column
  (List.range b.rows).mapM fun row => cols.mapM fun col => col.keyValue lib row

/-- `ExtractKeys`. -/
def extractKeys (batches : List (WireRecord F32 F64)) (pkCols : List String) :
    Except KeyError (List (List (GoValue F32 F64))) :=
  (batches.mapM (recordKeys lib pkCols)).map List.flatten

variable (columns pk : List String) (types : String → IcebergType)

/-- `Select`: the columns of the table that are asked for, in the table's order. -/
def selectColumns : List String := columns.filter fun c => c ∈ pk

/-- One column of the delete record: the values at its place in the keys. -/
def deleteColumn (arity : Nat) (keys : List (List (GoValue F32 F64)))
    (field : String × Nat) : Except KeyError (String × List (Stored F32 F64)) := do
  let values ← keys.mapM fun k =>
    if k.length ≠ arity then .error (.keyArity k.length arity) else .ok (k.getD field.2 .nil)
  let cells ← values.mapM (appendValue lib (types field.1))
  return (field.1, cells)

/-- `deleteRecord`, for a table's columns and their types. -/
def deleteRecord (keys : List (List (GoValue F32 F64))) :
    Except KeyError (List (String × List (Stored F32 F64))) :=
  (selectColumns columns pk).zipIdx.mapM (deleteColumn lib types pk.length keys)

/-- The delete record of a commit. -/
def writeDeletes (batches : List (WireRecord F32 F64)) :
    Except KeyError (List (String × List (Stored F32 F64))) :=
  (extractKeys lib batches pk).bind (deleteRecord lib columns pk types)

/-- The key values of each row, by column name. -/
def keyRows (batches : List (WireRecord F32 F64)) :
    List (String → Except KeyError (GoValue F32 F64)) :=
  batches.flatMap fun b =>
    (List.range b.rows).map fun row name => (b.column name).bind fun col => col.keyValue lib row

/-- **Alignment.**  Under each column's name the record holds that column's value of each
row. -/
def Aligned (batches : List (WireRecord F32 F64))
    (record : List (String × List (Stored F32 F64))) : Prop :=
  ∀ column ∈ record, List.Forall₂
    (fun value cell => (value column.1).bind (appendValue lib (types column.1)) = .ok cell)
    (keyRows lib batches) column.2

/-! ## Keys in their order -/

variable {lib} {batches : List (WireRecord F32 F64)} {columns pk : List String}
  {types : String → IcebergType} {keys : List (List (GoValue F32 F64))}

/-- The extracted keys are the rows' values of the key columns, in their order. -/
theorem extractKeys_eq_ok (h : extractKeys lib batches pk = .ok keys) :
    List.Forall₂ (fun row key => List.Forall₂ (fun c v => row c = .ok v) pk key)
      (keyRows lib batches) keys := by
  unfold extractKeys at h
  cases hall : batches.mapM (recordKeys lib pk) with
  | error e =>
    rw [hall] at h
    cases h
  | ok parts =>
    rw [hall] at h
    cases h
    have hparts := mapM_eq_ok.mp hall
    clear hall
    induction hparts with
    | nil => exact .nil
    | cons hone _ ih =>
      refine rel_append (R := _) ?_ ih
      -- one record: its columns are found once, then the rows are read
      obtain ⟨cols, hcols, hrows⟩ := bind_eq_ok.mp hone
      have hcols := mapM_eq_ok.mp hcols
      refine List.forall₂_map_left_iff.mpr ((mapM_eq_ok.mp hrows).imp fun row key hkey => ?_)
      refine forall₂_through (fun c col v hc hv => ?_) hcols (mapM_eq_ok.mp hkey)
      exact bind_eq_ok.mpr ⟨col, hc, hv⟩

variable {field : String × Nat}

/-- A column of the record holds the keys' values at its place. -/
theorem deleteColumn_eq_ok {column : String × List (Stored F32 F64)}
    {arity : Nat} (h : deleteColumn lib types arity keys field = .ok column) :
    column.1 = field.1 ∧ List.Forall₂ (fun key cell => key.length = arity ∧
      appendValue lib (types field.1) (key.getD field.2 .nil) = .ok cell) keys column.2 := by
  obtain ⟨values, hvalues, h⟩ := bind_eq_ok.mp h
  obtain ⟨cells, hcells, h⟩ := bind_eq_ok.mp h
  cases h
  refine ⟨rfl, forall₂_through (fun key v cell hv hcell => ?_) (mapM_eq_ok.mp hvalues)
    (mapM_eq_ok.mp hcells)⟩
  split at hv
  · cases hv
  · rename_i hlen
    cases hv
    exact ⟨not_not.mp hlen, hcell⟩

/-- With the key in table order the record is aligned. -/
theorem aligned_of_order (horder : selectColumns columns pk = pk)
    {record : List (String × List (Stored F32 F64))}
    (h : writeDeletes lib columns pk types batches = .ok record) :
    Aligned lib types batches record := by
  obtain ⟨keys, hkeys, hrecord⟩ := bind_eq_ok.mp h
  have hrows := extractKeys_eq_ok hkeys
  intro column hcolumn
  obtain ⟨field, hfield, hcol⟩ : ∃ field ∈ (selectColumns columns pk).zipIdx,
      deleteColumn lib types pk.length keys field = .ok column := by
    obtain ⟨i, hi, rfl⟩ := mem_iff_getElem.mp hcolumn
    have hall := mapM_eq_ok.mp hrecord
    have hlen := hall.length_eq
    exact ⟨_, getElem_mem (by omega), hall.get (i := i) (by omega) hi⟩
  obtain ⟨hname, hcells⟩ := deleteColumn_eq_ok hcol
  rw [hname]
  refine forall₂_through (fun row key cell hrow hcell => ?_) hrows hcells
  have hget : pk[field.2]? = some field.1 := by
    rw [horder] at hfield
    exact mem_zipIdx_iff_getElem?.mp hfield
  obtain ⟨hlt, hpk⟩ := List.getElem?_eq_some_iff.mp hget
  have hval := hrow.get (i := field.2) hlt (by omega)
  simp only [get_eq_getElem, hpk] at hval
  rw [hval]
  have hkey : key.getD field.2 .nil = key[field.2] := by
    rw [getD_eq_getElem?_getD, getElem?_eq_getElem (by omega), getD_some]
  rw [← hkey]
  exact hcell.2

/-! ## Keys out of order -/

/-- A value for the marked column and one for the others. -/
def markText (marked name : String) : String := if name = marked then "x" else "y"

variable (F32 F64) in
/-- One row of text columns; the column asked for has a value no other has. -/
def markedRecord (pk : List String) (marked : String) : WireRecord F32 F64 where
  columns := pk.map fun name => ⟨name, .string, [some (markText marked name)]⟩
  rows := 1

theorem column_markedRecord {marked name : String} (hname : name ∈ pk) :
    (markedRecord F32 F64 pk marked).column name =
      .ok ⟨name, .string, [some (markText marked name)]⟩ := by
  unfold WireRecord.column
  cases hfind : (markedRecord F32 F64 pk marked).columns.find? fun col => col.name = name with
  | none =>
    have hall := find?_eq_none.mp hfind _ (mem_map_of_mem hname)
    simp at hall
  | some col =>
    obtain ⟨n, -, rfl⟩ := mem_map.mp (mem_of_find?_eq_some hfind)
    have hn : n = name := by simpa using find?_some hfind
    rw [hn]

theorem extractKeys_markedRecord (marked : String) :
    extractKeys lib [markedRecord F32 F64 pk marked] pk =
      .ok [pk.map fun name => .string (markText marked name)] := by
  have hcols : pk.mapM (markedRecord F32 F64 pk marked).column =
      .ok (pk.map fun name => ⟨name, .string, [some (markText marked name)]⟩) :=
    mapM_eq_ok.mpr (List.forall₂_map_right_iff.mpr
      (List.forall₂_same.mpr fun name hname => column_markedRecord hname))
  have hkey : (pk.map fun name => (⟨name, .string, [some (markText marked name)]⟩ :
      WireColumn F32 F64)).mapM (fun col => col.keyValue lib 0) =
        .ok (pk.map fun name => .string (markText marked name)) :=
    mapM_eq_ok.mpr (List.forall₂_map_left_iff.mpr (List.forall₂_map_right_iff.mpr
      (List.forall₂_same.mpr fun name _ => rfl)))
  have hrecord : recordKeys lib pk (markedRecord F32 F64 pk marked) =
      .ok [pk.map fun name => .string (markText marked name)] := by
    refine bind_eq_ok.mpr ⟨_, hcols, ?_⟩
    exact mapM_eq_ok.mpr (.cons hkey .nil)
  have hall : [markedRecord F32 F64 pk marked].mapM (recordKeys lib pk) =
      .ok [[pk.map fun name => .string (markText marked name)]] :=
    mapM_eq_ok.mpr (.cons hrecord .nil)
  rw [extractKeys, hall]
  rfl

/-- Text columns take any key of the right length. -/
theorem deleteColumn_text {key : List (GoValue F32 F64)} {text : String}
    (hget : key[field.2]? = some (.string text)) :
    deleteColumn lib (fun _ => .string) key.length [key] field = .ok (field.1, [.string text]) := by
  have hvalue : key.getD field.2 .nil = .string text := by
    rw [getD_eq_getElem?_getD, hget, getD_some]
  have hvalues : [key].mapM (fun k => if k.length ≠ key.length then
      (.error (.keyArity k.length key.length) : Except KeyError (GoValue F32 F64))
      else .ok (k.getD field.2 .nil)) = .ok [.string text] := by
    refine mapM_eq_ok.mpr (.cons ?_ .nil)
    rw [if_neg (not_not.mpr rfl), hvalue]
  refine bind_eq_ok.mpr ⟨_, hvalues, ?_⟩
  exact bind_eq_ok.mpr ⟨[.string text], mapM_eq_ok.mpr (.cons rfl .nil), rfl⟩

/-- The selected columns are the key's, in another order perhaps. -/
theorem selectColumns_perm (hcols : columns.Nodup) (hpk : pk.Nodup) (hsub : pk ⊆ columns) :
    (selectColumns columns pk).Perm pk := by
  refine (perm_ext_iff_of_nodup (hcols.filter _) hpk).mpr fun c => ?_
  rw [mem_filter]
  exact ⟨fun h => of_decide_eq_true h.2, fun h => ⟨hsub h, decide_eq_true h⟩⟩

/-- **Equality deletes are aligned exactly for keys in table order.**  Whatever the types of
the columns and the rows, each value is written under its own column's name, if and only if
the primary key lists its columns in the order of the table. -/
theorem aligned_iff_table_order (hcols : columns.Nodup) (hpk : pk.Nodup) (hsub : pk ⊆ columns) :
    (∀ types batches record, writeDeletes lib columns pk types batches = .ok record →
      Aligned lib types batches record) ↔ selectColumns columns pk = pk := by
  refine ⟨fun hall => ?_, fun horder _ _ _ h => aligned_of_order horder h⟩
  have hlen := (selectColumns_perm hcols hpk hsub).length_eq
  refine ext_getElem hlen fun i hi hi' => ?_
  by_contra hne
  -- mark the column at the place: its value goes to another one
  generalize hmarked : (selectColumns columns pk)[i] = marked at hne
  have hkeys : extractKeys lib [markedRecord F32 F64 pk marked] pk = _ :=
    extractKeys_markedRecord marked
  generalize hkey : (pk.map fun name => (GoValue.string (markText marked name) :
    GoValue F32 F64)) = key at hkeys
  have hkeylen : key.length = pk.length := by rw [← hkey, length_map]
  have hget : ∀ j (hj : j < pk.length), key[j]? = some (.string (markText marked pk[j])) := by
    intro j hj
    rw [← hkey, getElem?_map, getElem?_eq_getElem hj, map_some]
  have hfields : ∀ field ∈ (selectColumns columns pk).zipIdx, field.2 < pk.length := by
    intro field hfield
    have hsome := mem_zipIdx_iff_getElem?.mp hfield
    obtain ⟨hlt, -⟩ := List.getElem?_eq_some_iff.mp hsome
    omega
  have hrecord : deleteRecord lib columns pk (fun _ => .string) [key] =
      .ok ((selectColumns columns pk).zipIdx.map fun field =>
        (field.1, [.string (markText marked (pk.getD field.2 marked))])) := by
    refine mapM_eq_ok.mpr (List.forall₂_map_right_iff.mpr (List.forall₂_same.mpr ?_))
    intro field hfield
    have hlt := hfields field hfield
    rw [← hkeylen]
    refine deleteColumn_text ?_
    rw [hget field.2 hlt, getD_eq_getElem?_getD, getElem?_eq_getElem hlt, getD_some]
  have haligned := hall _ [markedRecord F32 F64 pk marked] _ (bind_eq_ok.mpr ⟨_, hkeys, hrecord⟩)
  -- under the marked column's name there is the value of the column at its place in the key
  have hmem : ((selectColumns columns pk)[i], i) ∈ (selectColumns columns pk).zipIdx :=
    mem_zipIdx_iff_getElem?.mpr (getElem?_eq_getElem hi)
  have hcolumn := haligned _ (mem_map_of_mem hmem)
  rw [hmarked] at hcolumn
  have hmarkedpk : marked ∈ pk :=
    (selectColumns_perm hcols hpk hsub).subset (hmarked ▸ getElem_mem hi)
  obtain ⟨cell, more, hcell, -, heq⟩ := List.forall₂_cons_left_iff.mp hcolumn
  cases heq
  dsimp only at hcell
  rw [column_markedRecord hmarkedpk] at hcell
  have hsame : markText marked marked = markText marked pk[i] := by
    rw [getD_eq_getElem?_getD, getElem?_eq_getElem hi'] at hcell
    exact Stored.string.inj (Except.ok.inj hcell)
  rw [markText, if_pos rfl, markText, if_neg fun h => hne h.symm] at hsame
  exact absurd hsame (by decide)

/-- A library that reads no decimal: enough for text columns. -/
def mutedLib : ValueLib Unit Unit where
  widen _ := ()
  narrow _ := ()
  ofInt _ := ()
  ofInt32 _ := ()
  whole _ := none
  finite _ := true
  floatText _ := ""
  fixedText _ _ := ""
  valueStr _ _ n := toString n
  decimalString _ n := toString n
  parseDecimal _ _ _ := none
  castUint64 n := some n
  base64Text _ := ""
  validJSON _ := true

/-- A row with the text 1 in column a and 2 in column b. -/
def oneTwo : WireRecord Unit Unit where
  columns := [⟨"a", .string, [some "1"]⟩, ⟨"b", .string, [some "2"]⟩]
  rows := 1

/-- The key is declared in table order: the delete has each value under its column. -/
theorem aligned_iff_table_order_inOrder :
    writeDeletes mutedLib ["a", "b"] ["a", "b"] (fun _ => .string) [oneTwo] =
        .ok [("a", [.string "1"]), ("b", [.string "2"])] ∧
      Aligned mutedLib (fun _ => .string) [oneTwo]
        [("a", [.string "1"]), ("b", [.string "2"])] := by
  have hwrite : writeDeletes mutedLib ["a", "b"] ["a", "b"] (fun _ => .string) [oneTwo] =
      .ok [("a", [.string "1"]), ("b", [.string "2"])] := rfl
  have horder : selectColumns ["a", "b"] ["a", "b"] = ["a", "b"] := by decide
  exact ⟨hwrite,
    (aligned_iff_table_order (by decide) (by decide) (by decide)).mpr horder _ _ _ hwrite⟩

/-- The key is declared as b, a in a table with the columns a, b: the delete has the values
the wrong way round. -/
theorem key_out_of_order :
    ∃ record, writeDeletes mutedLib ["a", "b"] ["b", "a"] (fun _ => .string) [oneTwo] = .ok record ∧
      record = [("a", [.string "2"]), ("b", [.string "1"])] ∧
      ¬Aligned mutedLib (fun _ => .string) [oneTwo] record := by
  refine ⟨[("a", [.string "2"]), ("b", [.string "1"])], rfl, rfl, fun haligned => ?_⟩
  have hcolumn := haligned _ mem_cons_self
  obtain ⟨cell, more, hcell, -, heq⟩ := List.forall₂_cons_left_iff.mp hcolumn
  cases heq
  exact absurd (Stored.string.inj (Except.ok.inj hcell)) (by decide)

end Urutau
