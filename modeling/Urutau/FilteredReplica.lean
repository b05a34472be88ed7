import Urutau.Wal2json

/-!
# The replica of a filtered table

A source table takes inserts, updates and deletes under unique keys; each is written to the
log with as much of the old row as the replica identity says, read back, and folded into
the target by key.  The target then holds the source rows that satisfy the filter, in every
run in which the old images suffice.
-/

namespace Urutau

open List LastWrite Option Results Runs

/-! ## The source -/

/-- What an update or a delete is logged with of the old row: all of it, nothing, or the
columns of an identity, in a key tuple that lists some columns. -/
inductive ReplicaIdentity
  | full
  | nothing
  | key (identity listed : List String)
  deriving DecidableEq, Repr

/-- The setting of the spec, as validation admits it, and the identity the table has. -/
structure IdentitySetting where
  mode : String
  accepted : mode ∈ ["", "full", "keep"]
  current : ReplicaIdentity

/-- The identity the table is read under: only `keep` leaves it as it is. -/
def IdentitySetting.ensureReplicaIdentity (setting : IdentitySetting) : ReplicaIdentity :=
  if setting.mode = "keep" then setting.current else .full

/-- The log a table is read from: that of Postgres through pgoutput or through wal2json, or a
binlog, which has whole row images.  wal2json may print the identity's columns as old keys
also where the update left them as they were. -/
inductive Origin
  | postgres (fmt : TextFormat) (setting : IdentitySetting)
  | wal2json (fmt : JsonFormat) (setting : IdentitySetting) (printsKey : Bool)
  | mysql

def Origin.identity : Origin → ReplicaIdentity
  | .postgres _ setting | .wal2json _ setting _ => setting.ensureReplicaIdentity
  | .mysql => .full

/-- A change of the source table.  `unchanged` marks the columns an update logs as
unchanged. -/
inductive RowOp
  | insert (row : Row)
  | update (unchanged : List Bool) (old new : Row)
  | delete (old : Row)
  deriving DecidableEq, Repr

namespace FilteredTable

variable (tbl : FilteredTable)

/-- The identity's columns have the same values in both rows. -/
def sameIdentity (identity : List String) (old new : Row) : Bool :=
  identity.map (cellAt tbl.columns old) = identity.map (cellAt tbl.columns new)

/-- The old tuple of an update; under a key identity there is one only when a column of the
identity changed. -/
def updateOldTuple (fmt : TextFormat) (old new : Row) : ReplicaIdentity → Option OldTuple
  | .full => some ⟨false, tupleOf fmt tbl.columns [] old⟩
  | .nothing => none
  | .key identity listed =>
    if tbl.sameIdentity identity old new then none
    else some ⟨true, keyTupleOf fmt tbl.columns identity listed old⟩

def deleteOldTuple (fmt : TextFormat) (old : Row) : ReplicaIdentity → Option OldTuple
  | .full => some ⟨false, tupleOf fmt tbl.columns [] old⟩
  | .nothing => none
  | .key identity listed => some ⟨true, keyTupleOf fmt tbl.columns identity listed old⟩

/-- The names of the columns. -/
def names : List String := tbl.columns.map Column.name

/-- The old keys of a wal2json update. -/
def updateOldKeys (fmt : JsonFormat) (printsKey : Bool) (old new : Row) :
    ReplicaIdentity → Option Listed
  | .full => some (fmt.listed tbl.columns tbl.names old)
  | .nothing => none
  | .key identity _ =>
    if tbl.sameIdentity identity old new && !printsKey then none
    else some (fmt.listed tbl.columns identity old)

def deleteOldKeys (fmt : JsonFormat) (old : Row) : ReplicaIdentity → Option Listed
  | .full => some (fmt.listed tbl.columns tbl.names old)
  | .nothing => none
  | .key identity _ => some (fmt.listed tbl.columns identity old)

/-- The message of a change of the source.  The columns an update logs as unchanged are not
listed. -/
def wal2jsonMessage (fmt : JsonFormat) (printsKey : Bool) (identity : ReplicaIdentity) :
    RowOp → Wal2jsonChange
  | .insert row => ⟨.insert, fmt.listed tbl.columns tbl.names row, none⟩
  | .update unchanged old new =>
    ⟨.update, fmt.listed tbl.columns (unmarkedNames tbl.columns unchanged) new,
      tbl.updateOldKeys fmt printsKey old new identity⟩
  | .delete old => ⟨.delete, ⟨[], []⟩, tbl.deleteOldKeys fmt old identity⟩

/-- The changes the reader emits for a change of the source. -/
def changesOf (origin : Origin) (op : RowOp) : Except ReadError (List Change) :=
  match origin, op with
  | .postgres fmt _, .insert row => tbl.handleInsert fmt (tupleOf fmt tbl.columns [] row)
  | .postgres fmt setting, .update unchanged old new =>
    tbl.handleUpdate fmt (tupleOf fmt tbl.columns unchanged new)
      (tbl.updateOldTuple fmt old new setting.ensureReplicaIdentity)
  | .postgres fmt setting, .delete old =>
    tbl.handleDelete fmt (tbl.deleteOldTuple fmt old setting.ensureReplicaIdentity)
  | .wal2json fmt setting printsKey, op => tbl.handleWal2jsonChange fmt.parseFloat
      (tbl.wal2jsonMessage fmt printsKey setting.ensureReplicaIdentity op)
  | .mysql, .insert row => tbl.appendChange .insert row none
  | .mysql, .update _ old new => tbl.appendChange .update new (some old)
  | .mysql, .delete old => tbl.appendChange .delete old none

/-! ## The replica -/

/-- The source table and the target, by key. -/
structure Replica where
  source : LastWrite.Table (List Cell) Row
  target : LastWrite.Table (List Cell) Row

def Replica.empty : Replica := ⟨fun _ => none, fun _ => none⟩

/-- The write a change stands for in a table by key. -/
def write (c : Change) : LastWrite.Write (List Cell) Row :=
  ⟨tbl.key c.image, if c.op = .delete then none else some c.image⟩

/-- A row of the source table. -/
def RowFits (origin : Origin) (row : Row) : Prop :=
  match origin with
  | .postgres fmt _ => fmt.Fits tbl.columns row
  | .wal2json fmt _ _ => fmt.Fits tbl.columns row
  | .mysql => row.length = tbl.columns.length

instance decidableRowFits : ∀ (origin : Origin) (row : Row), Decidable (tbl.RowFits origin row)
  | .postgres fmt _, row => inferInstanceAs (Decidable (fmt.Fits tbl.columns row))
  | .wal2json fmt _ _, row => inferInstanceAs (Decidable (fmt.Fits tbl.columns row))
  | .mysql, row => inferInstanceAs (Decidable (row.length = tbl.columns.length))

/-- The source admits the change: rows have the table's columns, a key is never taken twice,
and a table without a replica identity takes no updates and no deletes. -/
def Admits (origin : Origin) (s : Replica) : RowOp → Prop
  | .insert row => tbl.RowFits origin row ∧ s.source (tbl.key row) = none
  | .update unchanged old new =>
    origin.identity ≠ .nothing ∧ tbl.RowFits origin new ∧ Unchanged unchanged old new ∧
      s.source (tbl.key old) = some old ∧
      (tbl.key new = tbl.key old ∨ s.source (tbl.key new) = none)
  | .delete old => origin.identity ≠ .nothing ∧ s.source (tbl.key old) = some old

instance decidableAdmits (origin : Origin) (s : Replica) : ∀ op, Decidable (tbl.Admits origin s op)
  | .insert _ => inferInstanceAs (Decidable (_ ∧ _))
  | .update _ _ _ => inferInstanceAs (Decidable (_ ∧ _ ∧ _ ∧ _ ∧ (_ ∨ _)))
  | .delete _ => inferInstanceAs (Decidable (_ ∧ _))

/-- The source after a change. -/
def sourceAfter (source : LastWrite.Table (List Cell) Row) : RowOp → LastWrite.Table (List Cell) Row
  | .insert row => apply source ⟨tbl.key row, some row⟩
  | .update _ old new =>
    apply (apply source ⟨tbl.key old, none⟩) ⟨tbl.key new, some new⟩
  | .delete old => apply source ⟨tbl.key old, none⟩

/-- A change of the source, read and folded into the target.  A reader that fails takes no
step. -/
def step (origin : Origin) (s : Replica) (op : RowOp) : Option Replica :=
  if tbl.Admits origin s op then
    match tbl.changesOf origin op with
    | .ok changes => some ⟨tbl.sourceAfter s.source op, fold s.target (changes.map tbl.write)⟩
    | .error _ => none
  else none

/-! ## When the old image suffices -/

/-- The two keys are told apart by their renderings. -/
def KeysTold (old new : Row) : Prop :=
  keyString (tbl.key old) = keyString (tbl.key new) →
    tbl.key old = tbl.key new

instance (old new : Row) : Decidable (tbl.KeysTold old new) := inferInstanceAs (Decidable (_ → _))

/-- A key tuple of the primary key's length lists the primary key, all of it of the
identity. -/
def ListsKey (identity listed : List String) : Prop :=
  listed = tbl.primaryKey ∧ ∀ name ∈ tbl.primaryKey, name ∈ identity

instance (identity listed : List String) : Decidable (tbl.ListsKey identity listed) :=
  inferInstanceAs (Decidable (_ ∧ _))

/-- A log of tuples says enough about the old row.

A row of the filter that moves to another key needs a key with a rendering of its own.
Without an old tuple the row must stay in the filter under its key, or never have been in
it; with the key alone the key must be the primary key, and a row that leaves the filter or
is deleted must satisfy it also with NULL in every other column. -/
def TupleSuffices (identity : ReplicaIdentity) (op : RowOp) : Prop :=
  match op, identity with
  | .update _ old new, .full =>
    tbl.satisfies old = true → tbl.satisfies new = true → tbl.KeysTold old new
  | .update _ old new, .key identity listed =>
    if tbl.sameIdentity identity old new then
      tbl.satisfies old = true → tbl.satisfies new = true ∧ tbl.key new = tbl.key old
    else
      listed.length = tbl.primaryKey.length → tbl.ListsKey identity listed ∧
        (tbl.satisfies old = true → if tbl.satisfies new then tbl.KeysTold old new
          else tbl.satisfies (keyImage tbl.columns tbl.primaryKey old) = true)
  | .delete old, .key identity listed =>
    listed.length = tbl.primaryKey.length → tbl.ListsKey identity listed ∧
      (tbl.satisfies old = true → tbl.satisfies (keyImage tbl.columns tbl.primaryKey old) = true)
  | _, _ => True

instance decidableTupleSuffices (identity : ReplicaIdentity) (op : RowOp) :
    Decidable (tbl.TupleSuffices identity op) :=
  match op, identity with
  | .insert _, .full | .insert _, .nothing | .insert _, .key _ _ => inferInstanceAs (Decidable True)
  | .update _ _ _, .full => inferInstanceAs (Decidable (_ → _ → _))
  | .update _ _ _, .nothing => inferInstanceAs (Decidable True)
  | .update _ _ _, .key _ _ => inferInstanceAs (Decidable (ite _ _ _))
  | .delete _, .full | .delete _, .nothing => inferInstanceAs (Decidable True)
  | .delete _, .key _ _ => inferInstanceAs (Decidable (_ → _))

/-- The identity has the primary key. -/
def CoversKey (identity : List String) : Prop := ∀ name ∈ tbl.primaryKey, name ∈ identity

instance (identity : List String) : Decidable (tbl.CoversKey identity) :=
  inferInstanceAs (Decidable (∀ name ∈ tbl.primaryKey, name ∈ identity))

/-- A log of wal2json says enough.  No column of the new row is left out, and old keys that
are those of an identity have the primary key and, of a row that leaves the filter or is
deleted, enough to satisfy it. -/
def ListSuffices (printsKey : Bool) (identity : ReplicaIdentity) : RowOp → Prop
  | .insert _ => True
  | .update unchanged old new => true ∉ unchanged ∧
    match identity with
    | .full => tbl.satisfies old = true → tbl.satisfies new = true → tbl.KeysTold old new
    | .nothing => True
    | .key identity _ =>
      if (tbl.sameIdentity identity old new && !printsKey) = true then
        tbl.satisfies old = true → tbl.satisfies new = true ∧ tbl.key new = tbl.key old
      else
        tbl.CoversKey identity ∧
          (tbl.satisfies old = true → if tbl.satisfies new then tbl.KeysTold old new
            else tbl.satisfies (keyImage tbl.columns identity old) = true)
  | .delete old =>
    match identity with
    | .full | .nothing => True
    | .key identity _ => tbl.CoversKey identity ∧
      (tbl.satisfies old = true → tbl.satisfies (keyImage tbl.columns identity old) = true)

/-- **The log says enough about the rows.** -/
def ImageSuffices (origin : Origin) (op : RowOp) : Prop :=
  match origin with
  | .wal2json _ setting printsKey => tbl.ListSuffices printsKey setting.ensureReplicaIdentity op
  | .postgres _ _ | .mysql => tbl.TupleSuffices origin.identity op

instance decidableListSuffices (printsKey : Bool) (identity : ReplicaIdentity) :
    ∀ op, Decidable (tbl.ListSuffices printsKey identity op)
  | .insert _ => inferInstanceAs (Decidable True)
  | .update _ _ _ =>
    match identity with
    | .full => inferInstanceAs (Decidable (_ ∧ (_ → _ → _)))
    | .nothing => inferInstanceAs (Decidable (_ ∧ True))
    | .key _ _ => inferInstanceAs (Decidable (_ ∧ ite _ _ _))
  | .delete _ =>
    match identity with
    | .full | .nothing => inferInstanceAs (Decidable True)
    | .key _ _ => inferInstanceAs (Decidable (_ ∧ (_ → _)))

instance decidableImageSuffices (origin : Origin) (op : RowOp) :
    Decidable (tbl.ImageSuffices origin op) :=
  match origin with
  | .wal2json _ setting printsKey =>
    tbl.decidableListSuffices printsKey setting.ensureReplicaIdentity op
  | .postgres fmt setting => tbl.decidableTupleSuffices (Origin.postgres fmt setting).identity op
  | .mysql => tbl.decidableTupleSuffices Origin.mysql.identity op

/-- What the decoded old image must say: it has the old key, it satisfies the filter when the
row leaves the filter, and its key is told from the new one when the row moves. -/
structure BeforeSuffices (before : Option Row) (old new : Row) : Prop where
  key : ∀ b ∈ before, tbl.key b = tbl.key old
  left : tbl.satisfies old = true → tbl.satisfies new = false → ∃ b ∈ before, tbl.satisfies b = true
  moved : tbl.satisfies old = true → tbl.satisfies new = true → tbl.key new ≠ tbl.key old →
    ∃ b ∈ before, keyString (tbl.key b) ≠ keyString (tbl.key new)

variable {tbl} {origin : Origin} {old new : Row} {changes : List Change}

/-- A complete old image suffices. -/
theorem BeforeSuffices.complete
    (h : tbl.satisfies old = true → tbl.satisfies new = true → tbl.KeysTold old new) :
    tbl.BeforeSuffices (some old) old new where
  key b hb := by rw [some.inj hb]
  left hold _ := ⟨old, rfl, hold⟩
  moved hold hnew hkey := ⟨old, rfl, fun heq => hkey (h hold hnew heq).symm⟩

/-- No old image suffices where the key stays. -/
theorem BeforeSuffices.absent
    (h : tbl.satisfies old = true → tbl.satisfies new = true ∧ tbl.key new = tbl.key old) :
    tbl.BeforeSuffices none old new where
  key := nofun
  left hold hnew := by
    rw [(h hold).1] at hnew
    cases hnew
  moved hold _ hkey := absurd (h hold).2 hkey

/-- A part of the old row with its key. -/
theorem BeforeSuffices.part {image : Row} (hkey : tbl.key image = tbl.key old)
    (h : tbl.satisfies old = true →
      if tbl.satisfies new then tbl.KeysTold old new else tbl.satisfies image = true) :
    tbl.BeforeSuffices (some image) old new where
  key b hb := by
    rw [← some.inj hb]
    exact hkey
  left hold hnew := by
    have himage := h hold
    rw [hnew] at himage
    exact ⟨_, rfl, himage⟩
  moved hold hnew hmoved := by
    have htold := h hold
    rw [hnew] at htold
    refine ⟨_, rfl, fun heq => hmoved (htold ?_).symm⟩
    rw [← heq, hkey]

variable {before : Row} {fmt : TextFormat} {P : List Cell → Row → Prop} {op : RowOp} {s : Replica}

/-- A key tuple is read as the key image, or refused. -/
theorem oldTupleRow_key {identity listed : List String} (hold : fmt.Fits tbl.columns old)
    (hlists : listed.length = tbl.primaryKey.length → tbl.ListsKey identity listed)
    (h : oldTupleRow fmt tbl.columns tbl.primaryKey
      ⟨true, keyTupleOf fmt tbl.columns identity listed old⟩ = .ok before) :
    listed.length = tbl.primaryKey.length ∧ before = keyImage tbl.columns tbl.primaryKey old := by
  have hlen : listed.length = tbl.primaryKey.length := by
    rw [oldTupleRow, if_pos rfl, keyTupleRow] at h
    split at h
    · cases h
    · rename_i hlen
      simpa [keyTupleOf] using hlen
  obtain ⟨rfl, hidentity⟩ := hlists hlen
  exact ⟨hlen, keyTupleRow_keyTupleOf hold hidentity h⟩

/-- A full old tuple is the old row. -/
theorem oldTupleRow_full (hold : fmt.Fits tbl.columns old)
    (h : oldTupleRow fmt tbl.columns tbl.primaryKey ⟨false, tupleOf fmt tbl.columns [] old⟩ =
      .ok before) : before = old :=
  tupleRow_whole hold h

/-- The identity's columns tell the key. -/
theorem key_keyImage {identity : List String} (h : tbl.CoversKey identity) (row : Row) :
    tbl.key (keyImage tbl.columns identity row) = tbl.key row :=
  map_congr_left fun name hname => cellAt_foldl_putCell length_replicate (.inl (h name hname))

section Wal2json

variable {jfmt : JsonFormat} {printsKey : Bool} {identity : ReplicaIdentity} {unchanged : List Bool}
  (hold : jfmt.Fits tbl.columns old)
include hold

/-- A wal2json update: the new row is read whole, and the old keys suffice. -/
theorem handleWal2jsonChange_update (hnew : jfmt.Fits tbl.columns new)
    (hidentity : identity ≠ .nothing)
    (hsuffices : tbl.ListSuffices printsKey identity (.update unchanged old new))
    (h : tbl.handleWal2jsonChange jfmt.parseFloat
      (tbl.wal2jsonMessage jfmt printsKey identity (.update unchanged old new)) = .ok changes) :
    ∃ before, changes = tbl.updateChanges before new ∧ tbl.BeforeSuffices before old new := by
  obtain ⟨hmarks, hsuffices⟩ := hsuffices
  obtain ⟨after, hafter, hread⟩ := bind_eq_ok.mp h
  obtain ⟨before, hbefore, hchanges⟩ := bind_eq_ok.mp hread
  simp only [wal2jsonMessage, unmarkedNames_eq hmarks] at hafter hbefore
  cases wal2jsonRowPos_all hnew hafter
  refine ⟨before, decodedUpdate_eq_ok hchanges, ?_⟩
  cases identity with
  | full =>
    obtain ⟨b, hb, hbefore⟩ := bind_eq_ok.mp hbefore
    cases hbefore
    rw [wal2jsonRowPos_all hold hb]
    exact .complete hsuffices
  | nothing => exact absurd rfl hidentity
  | key identity listed =>
    simp only [updateOldKeys] at hsuffices hbefore
    split at hsuffices
    · rename_i hsame
      rw [if_pos hsame] at hbefore
      cases hbefore
      exact .absent hsuffices
    · rename_i hsame
      rw [if_neg hsame] at hbefore
      obtain ⟨b, hb, hbefore⟩ := bind_eq_ok.mp hbefore
      cases hbefore
      cases wal2jsonRowPos_listed hold hb
      exact .part (key_keyImage hsuffices.1 old) hsuffices.2

/-- A wal2json delete is decided on an old image with the old key. -/
theorem handleWal2jsonChange_delete (hidentity : identity ≠ .nothing)
    (hsuffices : tbl.ListSuffices printsKey identity (.delete old))
    (h : tbl.handleWal2jsonChange jfmt.parseFloat
      (tbl.wal2jsonMessage jfmt printsKey identity (.delete old)) = .ok changes) :
    ∃ b kept, tbl.keep b = .ok kept ∧ tbl.key b = tbl.key old ∧
      (tbl.satisfies old = true → tbl.satisfies b = true) ∧
      changes = if kept then [tbl.change .delete b] else [] := by
  obtain ⟨after, -, hread⟩ := bind_eq_ok.mp h
  obtain ⟨before, hbefore, hchanges⟩ := bind_eq_ok.mp hread
  have hkept : ∀ b, before = some b → ∃ kept, tbl.keep b = .ok kept ∧
      changes = if kept then [tbl.change .delete b] else [] := by
    rintro b rfl
    obtain ⟨kept, hkept, hchanges⟩ := bind_eq_ok.mp hchanges
    exact ⟨kept, hkept, (Except.ok.inj hchanges).symm⟩
  cases identity with
  | full =>
    obtain ⟨b, hb, hbefore⟩ := bind_eq_ok.mp hbefore
    obtain ⟨kept, hkeep, hout⟩ := hkept b (Except.ok.inj hbefore).symm
    cases wal2jsonRowPos_all hold hb
    exact ⟨_, kept, hkeep, rfl, id, hout⟩
  | nothing => exact absurd rfl hidentity
  | key identity listed =>
    obtain ⟨b, hb, hbefore⟩ := bind_eq_ok.mp hbefore
    obtain ⟨kept, hkeep, hout⟩ := hkept b (Except.ok.inj hbefore).symm
    cases wal2jsonRowPos_listed hold hb
    exact ⟨_, kept, hkeep, key_keyImage hsuffices.1 old, hsuffices.2, hout⟩

end Wal2json

/-- **An update as it is read.**  The emitted changes are those of the new row and an old
image that suffices. -/
theorem changesOf_update {unchanged : List Bool} (hold : tbl.RowFits origin old)
    (hnew : tbl.RowFits origin new) (hunchanged : Unchanged unchanged old new)
    (hidentity : origin.identity ≠ .nothing)
    (hsuffices : tbl.ImageSuffices origin (.update unchanged old new))
    (h : tbl.changesOf origin (.update unchanged old new) = .ok changes) :
    ∃ before, changes = tbl.updateChanges before new ∧ tbl.BeforeSuffices before old new := by
  cases origin with
  | mysql => exact ⟨some old, appendChange_update_eq_ok h, .complete hsuffices⟩
  | wal2json fmt setting printsKey =>
    exact handleWal2jsonChange_update hold hnew hidentity hsuffices h
  | postgres fmt setting =>
    obtain ⟨row, hrow, hread⟩ := bind_eq_ok.mp h
    obtain ⟨before, hbefore, hchanges⟩ := bind_eq_ok.mp hread
    simp only [ImageSuffices, Origin.identity] at hsuffices hidentity
    have hrow' : row = new := by
      refine tupleRow_tupleOf hold hnew hunchanged (fun t ht => ?_) hrow
      cases hid : setting.ensureReplicaIdentity with
      | full =>
        rw [hid] at ht
        exact (some.inj ht).symm
      | nothing => exact absurd hid hidentity
      | key identity listed =>
        rw [hid, updateOldTuple] at ht
        split at ht <;> cases ht
    subst hrow'
    refine ⟨before, decodedUpdate_eq_ok hchanges, ?_⟩
    cases hid : setting.ensureReplicaIdentity with
    | full =>
      rw [hid] at hbefore hsuffices
      obtain ⟨b, hb, hbefore⟩ := bind_eq_ok.mp hbefore
      cases hbefore
      rw [oldTupleRow_full hold hb]
      exact .complete hsuffices
    | nothing => exact absurd hid hidentity
    | key identity listed =>
      rw [hid] at hbefore hsuffices
      simp only [TupleSuffices] at hsuffices
      rw [updateOldTuple] at hbefore
      split at hsuffices
      · rename_i hsame
        rw [if_pos hsame] at hbefore
        cases hbefore
        exact .absent hsuffices
      · rename_i hsame
        rw [if_neg hsame] at hbefore
        obtain ⟨b, hb, hbefore⟩ := bind_eq_ok.mp hbefore
        cases hbefore
        obtain ⟨hlen, rfl⟩ := oldTupleRow_key hold (fun hlen => (hsuffices hlen).1) hb
        exact .part (keyTuple_keyImage _ _) (hsuffices hlen).2

/-- **A delete as it is read.**  A row of the filter is deleted by its key; a row outside it
is deleted by its key or not at all. -/
theorem changesOf_delete (hold : tbl.RowFits origin old) (hidentity : origin.identity ≠ .nothing)
    (hsuffices : tbl.ImageSuffices origin (.delete old))
    (h : tbl.changesOf origin (.delete old) = .ok changes) :
    (changes = [] ∧ tbl.satisfies old = false) ∨
      ∃ b, changes = [tbl.change .delete b] ∧ tbl.key b = tbl.key old := by
  have hdecide : ∀ {b : Row} {kept : Bool}, tbl.keep b = .ok kept → tbl.key b = tbl.key old →
      (tbl.satisfies old = true → tbl.satisfies b = true) →
      changes = (if kept then [tbl.change .delete b] else []) →
      (changes = [] ∧ tbl.satisfies old = false) ∨
        ∃ b, changes = [tbl.change .delete b] ∧ tbl.key b = tbl.key old := by
    intro b kept hkept hkey hsat hchanges
    cases kept with
    | true => exact .inr ⟨b, hchanges, hkey⟩
    | false =>
      refine .inl ⟨hchanges, Bool.eq_false_iff.mpr fun hsatisfies => ?_⟩
      rw [keep_eq_ok hkept] at hsat
      exact nomatch hsat hsatisfies
  cases origin with
  | mysql =>
    obtain ⟨kept, hkept, h⟩ := bind_eq_ok.mp h
    exact hdecide hkept rfl id (Except.ok.inj h).symm
  | wal2json fmt setting printsKey =>
    obtain ⟨b, kept, hkept, hkey, hsat, hchanges⟩ :=
      handleWal2jsonChange_delete hold hidentity hsuffices h
    exact hdecide hkept hkey hsat hchanges
  | postgres fmt setting =>
    simp only [ImageSuffices, Origin.identity] at hsuffices hidentity
    simp only [changesOf] at h
    cases hid : setting.ensureReplicaIdentity with
    | full =>
      rw [hid] at h
      obtain ⟨b, hb, hread⟩ := bind_eq_ok.mp h
      obtain ⟨kept, hkept, hchanges⟩ := bind_eq_ok.mp hread
      have hbold := oldTupleRow_full hold hb
      subst hbold
      exact hdecide hkept rfl id (Except.ok.inj hchanges).symm
    | nothing => exact absurd hid hidentity
    | key identity listed =>
      rw [hid] at h hsuffices
      obtain ⟨b, hb, h⟩ := bind_eq_ok.mp h
      obtain ⟨kept, hkept, h⟩ := bind_eq_ok.mp h
      obtain ⟨hlen, rfl⟩ := oldTupleRow_key hold (fun hlen => (hsuffices hlen).1) hb
      exact hdecide hkept (keyTuple_keyImage _ _) (hsuffices hlen).2 (Except.ok.inj h).symm

/-- An insert is kept if the row satisfies the filter. -/
theorem changesOf_insert {row : Row} (hrow : tbl.RowFits origin row)
    (h : tbl.changesOf origin (.insert row) = .ok changes) :
    changes = if tbl.satisfies row then [tbl.change .insert row] else [] := by
  cases origin with
  | mysql =>
    obtain ⟨kept, hkept, h⟩ := bind_eq_ok.mp h
    rw [keep_eq_ok hkept]
    exact (Except.ok.inj h).symm
  | wal2json fmt setting printsKey =>
    obtain ⟨after, hafter, hread⟩ := bind_eq_ok.mp h
    obtain ⟨before, -, hinsert⟩ := bind_eq_ok.mp hread
    obtain ⟨kept, hkept, hchanges⟩ := bind_eq_ok.mp hinsert
    cases wal2jsonRowPos_all hrow hafter
    rw [keep_eq_ok hkept]
    exact (Except.ok.inj hchanges).symm
  | postgres fmt setting =>
    obtain ⟨decoded, hdecoded, hread⟩ := bind_eq_ok.mp h
    obtain ⟨kept, hkept, hchanges⟩ := bind_eq_ok.mp hread
    have hsame : decoded = row := tupleRow_whole hrow hdecoded
    subst hsame
    rw [keep_eq_ok hkept]
    exact (Except.ok.inj hchanges).symm

/-! ## The target in step with the source -/

/-- The target holds the source rows that satisfy the filter, each under its key. -/
structure InStep (tbl : FilteredTable) (origin : Origin) (s : Replica) : Prop where
  keyed : ∀ k row, s.source k = some row → tbl.key row = k
  fits : ∀ k row, s.source k = some row → tbl.RowFits origin row
  filtered : ∀ k, s.target k = (s.source k).filter tbl.satisfies

/-- Rows stay keyed when one is written under its own key. -/
theorem keyed_apply {source : LastWrite.Table (List Cell) Row}
    {k : List Cell} {value : Option Row} (h : ∀ k row, source k = some row → P k row)
    (hvalue : ∀ row ∈ value, P k row) :
    ∀ k' row, apply source ⟨k, value⟩ k' = some row → P k' row := by
  intro k' row hrow
  rw [apply] at hrow
  split at hrow
  · rename_i hk
    rw [hk]
    exact hvalue row hrow
  · exact h k' row hrow

/-- What the source holds has the property, if every row the change writes has it. -/
theorem source_after
    (hadmits : tbl.Admits origin s op) (h : ∀ k row, s.source k = some row → P k row)
    (hnew : ∀ row, tbl.RowFits origin row → P (tbl.key row) row) :
    ∀ k row, tbl.sourceAfter s.source op k = some row → P k row := by
  cases op with
  | insert row =>
    exact keyed_apply h fun r hr => some.inj hr ▸ hnew row hadmits.1
  | update unchanged old new =>
    exact keyed_apply (keyed_apply h nofun) fun r hr =>
      some.inj hr ▸ hnew new hadmits.2.1
  | delete old => exact keyed_apply h nofun

section

variable {t : LastWrite.Table (List Cell) Row} {before : Option Row} (hupsert : tbl.upsert = true)
  (hsuffices : tbl.BeforeSuffices before old new)
  (ht : t (tbl.key old) = (some old).filter tbl.satisfies)
include hupsert hsuffices ht

/-- The delete of the old key takes the old row out of the target, wherever the new row does
not take its place. -/
theorem fold_deleteChangedKey
    (hnew : tbl.satisfies new = true) {k : List Cell} (hk : k ≠ tbl.key new) :
    fold t ((tbl.deleteChangedKey before new).map tbl.write) k =
      if k = tbl.key old then none else t k := by
  -- with nothing emitted the old row was never in the target
  have hquiet : (∀ b ∈ before, keyString (tbl.key b) =
      keyString (tbl.key new)) → t k = if k = tbl.key old then none else t k := by
    intro hsame
    split
    · rename_i hkold
      subst hkold
      rw [ht, filter_some, if_neg]
      intro hold
      obtain ⟨b, hb, hne⟩ := hsuffices.moved hold hnew (Ne.symm hk)
      exact hne (hsame b hb)
    · rfl
  cases before with
  | none => exact hquiet nofun
  | some b =>
    rw [deleteChangedKey]
    split
    · rw [map_singleton, fold, foldl_cons, foldl_nil, apply]
      simp only [write, change, hsuffices.key b rfl, if_true]
    · rename_i hsame
      refine hquiet fun b' hb' => ?_
      rw [← some.inj hb']
      exact not_not.mp fun hne => hsame ⟨hupsert, hne⟩

/-- What an update's changes leave in the target. -/
theorem fold_updateChanges
    (htnew : tbl.key new = tbl.key old ∨ t (tbl.key new) = none) (k : List Cell) :
    fold t ((tbl.updateChanges before new).map tbl.write) k =
      if k = tbl.key new then (some new).filter tbl.satisfies
      else if k = tbl.key old then none else t k := by
  rw [updateChanges.eq_def]
  split
  · -- the new row is written, after a delete of the old key
    rename_i hnew
    rw [map_append, fold_append, map_singleton]
    rw [fold, foldl_cons, foldl_nil, apply]
    by_cases hk : k = tbl.key new
    · subst hk
      simp [write, change, filter_some, hnew]
    · rw [if_neg hk]
      exact (if_neg hk).trans (fold_deleteChangedKey hupsert hsuffices ht hnew hk)
  · -- the new row is not of the filter: the old one is deleted, if it was
    rename_i hnew
    have hnew : tbl.satisfies new = false := Bool.eq_false_iff.mpr hnew
    rw [filter_some, hnew]
    have hquiet : (∀ b ∈ before, tbl.satisfies b = false) → t (tbl.key old) = none := by
      intro hout
      rw [ht, filter_some, if_neg]
      intro hold
      obtain ⟨b, hb, hsat⟩ := hsuffices.left hold hnew
      rw [hout b hb] at hsat
      cases hsat
    have hgone : t (tbl.key old) = none → t k =
        if k = tbl.key new then none else if k = tbl.key old then none else t k := by
      intro hnone
      split
      · rename_i hk
        subst hk
        rcases htnew with heq | hfree
        · rw [heq, hnone]
        · exact hfree
      · split
        · rename_i hk
          rw [hk, hnone]
        · rfl
    cases before with
    | none => exact hgone (hquiet fun _ hb => by cases hb)
    | some b =>
      dsimp only
      split
      · rw [map_singleton, fold, foldl_cons, foldl_nil, apply]
        simp only [write, change, hsuffices.key b rfl]
        by_cases hk : k = tbl.key old
        · simp [hk]
        rw [if_neg hk]
        split
        · rename_i hknew
          subst hknew
          exact htnew.resolve_left hk
        · rfl
      · rename_i hout
        refine hgone (hquiet fun b' hb' => ?_)
        rw [← some.inj hb']
        exact Bool.eq_false_iff.mpr hout

end

theorem InStep.step {s' : Replica} (hupsert : tbl.upsert = true)
    (h : tbl.InStep origin s) (hsuffices : tbl.ImageSuffices origin op)
    (hstep : tbl.step origin s op = some s') : tbl.InStep origin s' := by
  obtain ⟨hadmits, hstep⟩ := ite_none_right_eq_some.mp hstep
  split at hstep
  · rename_i changes hchanges
    cases hstep
    refine ⟨source_after hadmits h.keyed fun _ _ => rfl,
      source_after hadmits h.fits fun _ => id, fun k => ?_⟩
    dsimp only
    cases op with
    | insert row =>
      obtain ⟨hrow, hfree⟩ := hadmits
      rw [changesOf_insert hrow hchanges, sourceAfter, apply]
      by_cases hsat : tbl.satisfies row = true
      · rw [if_pos hsat, map_singleton, fold, foldl_cons, foldl_nil, apply]
        by_cases hk : k = tbl.key row
        · simp [write, change, filter_some, hsat, hk]
        · simpa [write, change, hk] using h.filtered k
      · rw [if_neg hsat, map_nil, fold, foldl_nil, h.filtered k]
        split
        · rename_i hk
          rw [hk, hfree, filter_some, if_neg hsat]
          rfl
        · rfl
    | update unchanged old new =>
      obtain ⟨hidentity, hnew, hunchanged, hheld, hfree⟩ := hadmits
      obtain ⟨before, rfl, hbefore⟩ := changesOf_update (h.fits _ _ hheld) hnew hunchanged
        hidentity hsuffices hchanges
      have ht : s.target (tbl.key old) = (some old).filter tbl.satisfies := by
        rw [h.filtered, hheld]
      have htnew : tbl.key new = tbl.key old ∨ s.target (tbl.key new) = none := by
        rcases hfree with heq | hfree
        · exact .inl heq
        · exact .inr (by rw [h.filtered, hfree]; rfl)
      rw [fold_updateChanges hupsert hbefore ht htnew, sourceAfter, apply, apply]
      split
      · rfl
      · split
        · rfl
        · exact h.filtered k
    | delete old =>
      obtain ⟨hidentity, hheld⟩ := hadmits
      rw [sourceAfter, apply]
      rcases changesOf_delete (h.fits _ _ hheld) hidentity hsuffices hchanges with
        ⟨rfl, hout⟩ | ⟨b, rfl, hkey⟩
      · rw [map_nil, fold, foldl_nil, h.filtered k]
        split
        · rename_i hk
          rw [hk, hheld, filter_some, hout]
          rfl
        · rfl
      · rw [map_singleton, fold, foldl_cons, foldl_nil, apply]
        simp only [write, change, hkey]
        split
        · rfl
        · exact h.filtered k
  · cases hstep

end FilteredTable

/-! ## A row that leaves the filter -/

end Urutau
