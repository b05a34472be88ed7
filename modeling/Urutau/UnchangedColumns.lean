import Urutau.Wal2json

/-!
# Columns an update did not touch

A value stored out of line that an update leaves as it was is not in the log.  A wal2json
message leaves the column out of its list, and the reader has NULL there.
-/

namespace Urutau

open List Results ValueTexts

variable {row : Row} {name : String}

/-- The value listed for a column: the last one under its name.  A name past the end of the
values is listed with null. -/
def listedValue : List String → List (Option JsonValue) → String → Option (Option JsonValue)
  | [], _, _ => none
  | first :: names, values, name =>
    (listedValue names values.tail name).or
      (if first = name then some (values.headD none) else none)

section

variable (parseFloat : List Char → Option GoFloat)

namespace FilteredTable

variable (tbl : FilteredTable)

/-- The message is an update, and the row its columns are read as satisfies the filter. -/
def UpdatesInside (msg : Wal2jsonChange) : Prop :=
  msg.kind = .update ∧ ∀ after, wal2jsonRowPos parseFloat tbl.columns msg.columns = .ok after →
    tbl.satisfies after = true

/-- The emitted update holds the old value of every column of the schema the message leaves
out, and the old image has that value. -/
def KeepsUnchanged (schema : List String) (msg : Wal2jsonChange) (changes : List Change) : Prop :=
  ∀ c ∈ changes, c.op = .update → ∀ name ∈ schema, name ∉ msg.columns.names →
    ∃ old ∈ msg.oldKeys, ∃ v j, listedValue old.names old.values name = some v ∧
      findColumn tbl.columns name = some j ∧
      coerceWal2json parseFloat (dataTypeAt tbl.columns j) v =
        some (cellAt tbl.columns c.image name)

end FilteredTable

end

variable {parseFloat : List Char → Option GoFloat} {columns : List Column}

theorem findColumn_inj {other : String} {j : Nat} (h : findColumn columns name = some j)
    (h' : findColumn columns other = some j) : name = other := by
  obtain ⟨hj, hname, -⟩ := findIdx?_eq_some_iff_getElem.mp h
  obtain ⟨hj', hother, -⟩ := findIdx?_eq_some_iff_getElem.mp h'
  exact (of_decide_eq_true hname).symm.trans (of_decide_eq_true hother)

/-- A column that is not listed keeps the value it had. -/
theorem cellAt_fillListed {names : List String} {values : List (Option JsonValue)} {start : Row}
    (h : fillListed parseFloat columns names values start = .ok row)
    (hname : name ∉ names) : cellAt columns row name = cellAt columns start name := by
  induction names generalizing values start with
  | nil =>
    cases h
    rfl
  | cons first names ih =>
    have hfirst : name ≠ first := ne_of_not_mem_cons hname
    have hnames : name ∉ names := not_mem_of_not_mem_cons hname
    rw [fillListed] at h
    split at h
    · exact ih h hnames
    rename_i j hj
    split at h
    · cases h
    rw [ih h hnames, cellAt, cellAt]
    cases hi : findColumn columns name with
    | none => rfl
    | some i =>
      have hij : j ≠ i := fun heq => hfirst (findColumn_inj hi (heq ▸ hj))
      simp [getElem?_set_ne hij]

/-- **A column the message leaves out is NULL in the row.** -/
theorem cellAt_wal2jsonRowPos {listed : Listed}
    (h : wal2jsonRowPos parseFloat columns listed = .ok row) (hname : name ∉ listed.names) :
    cellAt columns row name = .null := by
  rw [cellAt_fillListed h hname, cellAt]
  split
  · rw [getD_eq_getElem?_getD, getElem?_replicate]
    split <;> rfl
  · rfl

namespace FilteredTable

variable {tbl : FilteredTable} {msg : Wal2jsonChange} {changes : List Change}

/-- An update among the changes of an update has the new image, which satisfies the filter. -/
theorem image_of_updateChanges {before : Option Row} {after : Row} {c : Change}
    (hc : c ∈ tbl.updateChanges before after) (hop : c.op = .update) :
    c.image = after ∧ tbl.satisfies after = true := by
  have hdelete : ∀ {old : Row}, c ≠ tbl.change .delete old := by
    intro old heq
    rw [heq] at hop
    cases hop
  rw [updateChanges.eq_def] at hc
  split at hc
  · rename_i hsat
    refine ⟨?_, hsat⟩
    rcases mem_append.mp hc with hc | hc
    · cases before with
      | none => cases hc
      | some old =>
        rw [deleteChangedKey] at hc
        split at hc
        · exact absurd (mem_singleton.mp hc) hdelete
        · cases hc
    · rw [mem_singleton.mp hc]
      rfl
  · cases before with
    | none => cases hc
    | some old =>
      dsimp only at hc
      split at hc
      · exact absurd (mem_singleton.mp hc) hdelete
      · cases hc

/-- An emitted update is that of an update inside the filter, and has the row the message's
columns were read as. -/
theorem image_of_update {c : Change} (h : tbl.handleWal2jsonChange parseFloat msg = .ok changes)
    (hc : c ∈ changes) (hop : c.op = .update) :
    tbl.UpdatesInside parseFloat msg ∧
      wal2jsonRowPos parseFloat tbl.columns msg.columns = .ok c.image := by
  obtain ⟨after, hafter, hread⟩ := bind_eq_ok.mp h
  obtain ⟨before, -, hchanges⟩ := bind_eq_ok.mp hread
  -- only an update emits an update
  have hsingle : ∀ {row : Row} {op : Op} {kept : Bool},
      c ∈ (if kept then [tbl.change op row] else []) → op ≠ .update → False := by
    intro row op kept hmem hne
    split at hmem
    · rw [mem_singleton.mp hmem] at hop
      exact hne hop
    · cases hmem
  split at hchanges
  · obtain ⟨kept, -, hkept⟩ := bind_eq_ok.mp hchanges
    cases hkept
    exact (hsingle hc (by decide)).elim
  · rename_i hkind
    rw [decodedUpdate_eq_ok hchanges] at hc
    obtain ⟨himage, hsat⟩ := image_of_updateChanges hc hop
    refine ⟨⟨hkind, fun row hrow => ?_⟩, himage ▸ hafter⟩
    rw [hafter] at hrow
    exact Except.ok.inj hrow ▸ hsat
  · split at hchanges
    · cases hchanges
    · obtain ⟨kept, -, hkept⟩ := bind_eq_ok.mp hchanges
      cases hkept
      exact (hsingle hc (by decide)).elim
  · cases hchanges
    cases hc

/-- An update inside the filter is emitted as one. -/
theorem exists_update (h : tbl.handleWal2jsonChange parseFloat msg = .ok changes)
    (hinside : tbl.UpdatesInside parseFloat msg) : ∃ c ∈ changes, c.op = .update := by
  obtain ⟨hkind, hsat⟩ := hinside
  obtain ⟨after, hafter, hread⟩ := bind_eq_ok.mp h
  obtain ⟨before, -, hchanges⟩ := bind_eq_ok.mp hread
  rw [hkind] at hchanges
  rw [decodedUpdate_eq_ok hchanges, updateChanges.eq_def, if_pos (hsat after hafter)]
  exact ⟨_, mem_append_right _ mem_cons_self, rfl⟩

/-- **Unlisted columns keep their value exactly when that value is NULL.**  The columns an
update leaves out hold their old values in the row emitted for it if and only if the update
is not of a row inside the filter or the old image lists every one of them with null. -/
theorem keepsUnchanged_iff {schema : List String}
    (hschema : ∀ name ∈ schema, (findColumn tbl.columns name).isSome = true)
    (h : tbl.handleWal2jsonChange parseFloat msg = .ok changes) :
    tbl.KeepsUnchanged parseFloat schema msg changes ↔
      (tbl.UpdatesInside parseFloat msg → ∀ name ∈ schema, name ∉ msg.columns.names →
        ∃ old ∈ msg.oldKeys, listedValue old.names old.values name = some none) := by
  constructor
  · intro hkeeps hinside name hname hunlisted
    obtain ⟨c, hc, hop⟩ := exists_update h hinside
    obtain ⟨old, hold, v, j, hv, -, hcell⟩ := hkeeps c hc hop name hname hunlisted
    rw [cellAt_wal2jsonRowPos (image_of_update h hc hop).2 hunlisted] at hcell
    cases v with
    | none => exact ⟨old, hold, hv⟩
    | some v => exact absurd hcell (coerceWal2json_ne_null parseFloat _ v)
  · intro hnull c hc hop name hname hunlisted
    obtain ⟨hinside, hrow⟩ := image_of_update h hc hop
    obtain ⟨old, hold, hv⟩ := hnull hinside name hname hunlisted
    obtain ⟨j, hj⟩ := Option.isSome_iff_exists.mp (hschema name hname)
    refine ⟨old, hold, none, j, hv, hj, ?_⟩
    rw [cellAt_wal2jsonRowPos hrow hunlisted]
    rfl

end FilteredTable

/-! ## A document with a long body -/

/-- Documents: an id, a title and a body that may be stored out of line. -/
def documents : FilteredTable where
  target := "documents"
  columns := [⟨"id", "text"⟩, ⟨"title", "text"⟩, ⟨"body", "text"⟩]
  primaryKey := ["id"]
  upsert := true
  filter := none

/-- A new title under a full replica identity; the body is as it was and is left out. -/
def retitled (body : Option JsonValue) : Wal2jsonChange where
  kind := .update
  columns := ⟨["id", "title"], [some (.string [1]), some (.string [3])]⟩
  oldKeys := some ⟨["id", "title", "body"], [some (.string [1]), some (.string [2]), body]⟩

theorem FilteredTable.keepsUnchanged_iff_noBody :
    documents.handleWal2jsonChange (fun _ => none) (retitled none) =
        .ok [documents.change .update [.text [1], .text [3], .null]] ∧
      documents.KeepsUnchanged (fun _ => none) ["id", "title", "body"] (retitled none)
        [documents.change .update [.text [1], .text [3], .null]] := by
  have hread : documents.handleWal2jsonChange (fun _ => none) (retitled none) =
      .ok [documents.change .update [.text [1], .text [3], .null]] := by decide +kernel
  have hschema : ∀ name ∈ ["id", "title", "body"],
      (findColumn documents.columns name).isSome = true := by decide
  refine ⟨hread, (keepsUnchanged_iff hschema hread).mpr fun _ name hname hunlisted => ?_⟩
  simp only [mem_cons, not_mem_nil, or_false] at hname
  rcases hname with rfl | rfl | rfl
  · exact absurd (by decide) hunlisted
  · exact absurd (by decide) hunlisted
  · exact ⟨_, rfl, rfl⟩

/-- The old image has the body, and the emitted row has NULL. -/
theorem FilteredTable.unlisted_body_is_null :
    documents.handleWal2jsonChange (fun _ => none) (retitled (some (.string [9]))) =
        .ok [documents.change .update [.text [1], .text [3], .null]] ∧
      ¬ documents.KeepsUnchanged (fun _ => none) ["id", "title", "body"]
        (retitled (some (.string [9])))
        [documents.change .update [.text [1], .text [3], .null]] := by
  refine ⟨by decide +kernel, fun hkeeps => ?_⟩
  obtain ⟨old, hold, v, j, hv, hj, hcell⟩ := hkeeps _ mem_cons_self rfl "body"
    (by decide) (by decide)
  cases hold
  cases hv
  cases hj
  exact absurd hcell (coerceWal2json_ne_null _ _ _)

end Urutau
