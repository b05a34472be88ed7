import Urutau.TransactionReader

/-!
# Stamping the records of a closed transaction

A record that ends its table's rows of a transaction may carry the
transaction's own position: an ack of it then says the table holds all of the
transaction.  Every earlier record of the same table must stay at the previous
safe position and be marked partial.  `StampedRight` states this for the list
of batches a transaction becomes.

The MySQL reader establishes it for every transaction.  The Postgres reader
restamps the transaction's final record only and marks nothing, so it does so
exactly when the transaction fits one record, up to the degenerate case of a
commit position that equals the safe one.
-/

namespace Urutau

open List TableEncoder Buffer

section Close

variable {P : Type}

/-- Restamp every row of a record. -/
def withPosition (rows : List (EncodedRow P)) (pos : P) : List (EncodedRow P) :=
  rows.map (fun row => { row with position := pos })

/-- The records of the closing transaction: those already cut, then what is
left in the builders, in encoder order. -/
def Reader.held (r : Reader P) : List (HeldRec P) := r.pending ++ r.encoders.order.filterMap
    (fun target => (r.encoders.get target).bind materialize)

theorem TableEncoder.reset_target (te : TableEncoder P) : te.reset.target = te.target := by
  unfold reset
  split <;> rfl

/-- The builders after each was materialized. -/
def EncoderMap.resetAll (m : EncoderMap P) : EncoderMap P where
  get target := (m.get target).map reset
  order := m.order
  nodup := m.nodup
  mem_order target := by simpa using m.mem_order target
  target_eq target te h := by
    obtain ⟨te', hget, rfl⟩ := Option.map_eq_some_iff.mp h
    rw [reset_target, m.target_eq target te' hget]

/-- `last` of the MySQL reader: for each target the index of its last held
record. -/
def lastIndex (held : List (HeldRec P)) : String → Option Nat :=
  held.zipIdx.foldl (fun last hb => Function.update last hb.1.target (some hb.2)) (fun _ => none)

/-- The MySQL reader's stamps: a record that is not its table's last is
partial and keeps its rows' safe position. -/
def mysqlStamp (pos : P) (held : List (HeldRec P)) : List (Batch P) := held.zipIdx.map fun hb =>
    if lastIndex held hb.1.target ≠ some hb.2 then ⟨hb.1.target, hb.1.rows, true⟩
    else ⟨hb.1.target, withPosition hb.1.rows pos, false⟩

/-- The Postgres reader's stamps: the final record carries the commit
position, the others are emitted as they are. -/
def postgresStamp (pos : P) (held : List (HeldRec P)) : List (Batch P) := held.zipIdx.map fun hb =>
    if hb.2 + 1 = held.length then ⟨hb.1.target, withPosition hb.1.rows pos, false⟩
    else ⟨hb.1.target, hb.1.rows, false⟩

/-- The two database readers. -/
inductive ReaderKind
  | mysql
  | postgres
  deriving DecidableEq, Repr

def ReaderKind.dialect : ReaderKind → Dialect
  | .mysql => mysqlDialect
  | .postgres => postgresDialect

def ReaderKind.stamp : ReaderKind → P → List (HeldRec P) → List (Batch P)
  | .mysql => mysqlStamp
  | .postgres => postgresStamp

/-- `closeTxn`: emit every held record and advance the safe position.  A
transaction that held nothing leaves the safe position where it was. -/
def closeTxn (kind : ReaderKind) (r : Reader P) (pos : P) : Reader P × List (Batch P) :=
  if r.held = [] then ({ r with encoders := r.encoders.resetAll, pending := [] }, [])
  else
    ({ encoders := r.encoders.resetAll, pending := [], safePos := pos }, kind.stamp pos r.held)

/-- A source transaction: the row images kept of it and its commit
position. -/
structure Txn (P : Type) where
  changes : List Change
  commit : P
  deriving DecidableEq, Repr

/-- Decode one transaction and close it. -/
def decodeTxn (kind : ReaderKind) (cfg : String → Option TableConfig) (r : Reader P)
    (txn : Txn P) : Except String (Reader P × List (Batch P)) :=
  match appendAll kind.dialect cfg r txn.changes with
  | .error e => .error e
  | .ok r' => .ok (closeTxn kind r' txn.commit)

/-- The reader between two transactions: nothing pending, every builder
empty. -/
structure Reader.Idle (d : Dialect) (cfg : String → Option TableConfig) (r : Reader P) :
    Prop where
  built : r.Built d cfg
  pending_nil : r.pending = []
  buffer_empty : ∀ target, r.buffer target = .empty

/-- A batch carries a position when it has rows and each is stamped with
it. -/
def Batch.Carries (b : Batch P) (pos : P) : Prop := b.rows ≠ [] ∧ ∀ row ∈ b.rows, row.position = pos

/-- A later batch of the same table follows index `i`. -/
def Continued (out : List (Batch P)) (i : Nat) (table : String) : Prop :=
  ∃ j b, i < j ∧ out[j]? = some b ∧ b.table = table

/-- **Right stamps.**  The last batch of each table carries the commit
position and is not partial; every earlier one carries the safe position and
is partial. -/
def StampedRight (safe commit : P) (out : List (Batch P)) : Prop := ∀ i b, out[i]? = some b →
    (Continued out i b.table → b.isPartial = true ∧ b.Carries safe) ∧
    (¬ Continued out i b.table → b.isPartial = false ∧ b.Carries commit)

end Close

/-! ## Which records a table's rows are cut into -/

section Cutting

variable {P : Type}

/-- Cut a table's rows, each with its weight, into records: a builder that
crosses a ceiling is cut, and closing materializes what is left. -/
def cutRows : Buffer P → List (EncodedRow P × Nat) → List (List (EncodedRow P))
  | b, [] => b.records
  | b, (row, weight) :: rest =>
    let b' := b.push row weight
    if b'.full then b'.enc :: cutRows .empty rest else cutRows b' rest

/-- The counters never run ahead of the rows. -/
def Buffer.Counted (b : Buffer P) : Prop := b.rows = b.enc.length

theorem Buffer.counted_empty : (empty : Buffer P).Counted := rfl

variable {b : Buffer P}

theorem Buffer.Counted.push (h : b.Counted) (row : EncodedRow P) (w : Nat) :
    (b.push row w).Counted := by
  simp [Buffer.Counted, h.symm]

/-- The records are the rows, cut. -/
theorem Buffer.flatten_records (h : b.Counted) : b.records.flatten = b.enc := by
  unfold records
  split
  · rename_i h0
    have hlen : b.enc.length = 0 := h ▸ h0
    simp [length_eq_zero_iff.mp hlen]
  · simp

section

variable (h : b.Counted) (xs : List (EncodedRow P × Nat))
include h xs

/-- Cutting loses no row and keeps their order. -/
theorem flatten_cutRows : (cutRows b xs).flatten = b.enc ++ xs.map Prod.fst := by
  induction xs generalizing b with
  | nil => simp [cutRows, flatten_records h]
  | cons x rest ih =>
    obtain ⟨row, w⟩ := x
    simp only [cutRows]
    split
    · simp [ih counted_empty]
    · simp [ih (h.push row w)]

/-- No record is empty. -/
theorem ne_nil_of_mem_cutRows : ∀ rec ∈ cutRows b xs, rec ≠ [] := by
  induction xs generalizing b with
  | nil =>
    intro rec hrec
    simp only [cutRows, records] at hrec
    split at hrec
    · simp at hrec
    rename_i h0
    rw [mem_singleton] at hrec
    subst hrec
    intro hnil
    exact h0 (by rw [h, hnil]; rfl)
  | cons x rest ih =>
    obtain ⟨row, w⟩ := x
    intro rec hrec
    simp only [cutRows] at hrec
    split at hrec
    · rcases mem_cons.mp hrec with rfl | hrec
      · simp
      · exact ih counted_empty rec hrec
    · exact ih (h.push row w) rec hrec

/-- No record is cut of no row. -/
theorem cutRows_eq_nil_iff : cutRows b xs = [] ↔ b.enc = [] ∧ xs = [] := by
  constructor
  · intro hnil
    have hflat := flatten_cutRows h xs
    rw [hnil] at hflat
    simpa using hflat.symm
  · rintro ⟨hb, rfl⟩
    have h0 : b.rows = 0 := by rw [h, hb]; rfl
    simp [cutRows, records, h0]

/-- **One record.**  A table's rows end up in at most one record exactly when
no proper prefix of them crosses a ceiling. -/
theorem length_cutRows_le_one_iff : (cutRows b xs).length ≤ 1 ↔ ∀ n, 0 < n → n < xs.length →
        crossesCeiling (b.rows + n) (b.bytes + ((xs.take n).map Prod.snd).sum) = false := by
  induction xs generalizing b with
  | nil =>
    simp only [cutRows, records]
    split <;> simp
  | cons x rest ih =>
    obtain ⟨row, w⟩ := x
    have hone : crossesCeiling (b.rows + 1)
        (b.bytes + ((((row, w) :: rest).take 1).map Prod.snd).sum) = (b.push row w).full := by
      simp [full]
    simp only [cutRows]
    cases hfull : (b.push row w).full with
    | true =>
      -- The first row already fills a record: nothing may follow it.
      have hrest : (cutRows .empty rest).length + 1 ≤ 1 ↔ rest = [] := by
        have hnil := cutRows_eq_nil_iff (P := P) counted_empty rest
        simp only [empty_enc, true_and] at hnil
        rw [← hnil, ← length_eq_zero_iff]
        omega
      simp only [if_true, length_cons]
      rw [hrest]
      constructor
      · rintro rfl n hn hlt
        simp at hlt
        omega
      · intro hall
        by_contra hne
        have hlen : 1 < ((row, w) :: rest).length := by
          simpa using length_pos_iff.mpr hne
        have := hall 1 (by omega) hlen
        rw [hone, hfull] at this
        cases this
    | false =>
      simp only [Bool.false_eq_true, if_false]
      rw [ih (h.push row w)]
      constructor
      · intro hall n hn hlt
        by_cases h1 : n = 1
        · subst h1
          rw [hone, hfull]
        · obtain ⟨m, rfl⟩ : ∃ m, n = m + 1 := ⟨n - 1, by omega⟩
          have := hall m (by omega) (by simpa using hlt)
          simpa [Nat.add_assoc, Nat.add_comm, Nat.add_left_comm] using this
      · intro hall n hn hlt
        have := hall (n + 1) (by omega) (by simpa using hlt)
        simpa [Nat.add_assoc, Nat.add_comm, Nat.add_left_comm] using this

end

end Cutting

/-! ## The held records of one table -/

section Held

variable {P : Type} {d : Dialect} {cfg : String → Option TableConfig} {r r' : Reader P}

/-- The records pending for a table, as lists of rows. -/
def recordsOf (held : List (HeldRec P)) (table : String) : List (List (EncodedRow P)) :=
  (held.filter (fun h => h.target = table)).map HeldRec.rows

/-- The rows of a table in a list of changes, each with its weight. -/
def rowsOf (d : Dialect) (cfg : String → Option TableConfig) (pos : P) (changes : List Change)
    (table : String) : List (EncodedRow P × Nat) :=
  (changes.filter (fun c => c.target = table)).map (fun c => (rowOf d cfg pos c, weightOf d cfg c))

theorem recordsOf_append (xs ys : List (HeldRec P)) (table : String) :
    recordsOf (xs ++ ys) table = recordsOf xs table ++ recordsOf ys table := by
  simp [recordsOf]

/-- A table's last record is what its buffer holds. -/
private theorem recordsOf_materialized (m : EncoderMap P) (table : String)
    (order : List String) (hnodup : order.Nodup) :
    recordsOf (order.filterMap (fun target => (m.get target).bind materialize)) table
      = if table ∈ order then
          (((m.get table).map buffer).getD .empty).records
        else [] := by
  induction order with
  | nil => rfl
  | cons target rest ih =>
    obtain ⟨hnotin, hrest⟩ := nodup_cons.mp hnodup
    have hsplit : target :: rest = [target] ++ rest := rfl
    rw [hsplit, filterMap_append, recordsOf_append, ih hrest]
    -- The single builder contributes its own record, to its own table only.
    have hone : recordsOf ([target].filterMap (fun target => (m.get target).bind materialize)) table
        = if table = target then (((m.get table).map buffer).getD .empty).records
          else [] := by
      cases hget : m.get target with
      | none =>
        by_cases heq : table = target
        · subst heq
          simp [hget, recordsOf, records]
        · simp [hget, recordsOf, heq]
      | some te =>
        have htgt := m.target_eq _ _ hget
        by_cases heq : table = target
        · subst heq
          by_cases h0 : te.rows = 0 <;>
            simp [hget, materialize, h0, recordsOf, buffer, records, htgt]
        · have hne : ¬ target = table := fun h => heq h.symm
          by_cases h0 : te.rows = 0 <;>
            simp [hget, materialize, h0, recordsOf, htgt, hne, heq]
    rw [hone]
    by_cases heq : table = target
    · subst heq
      simp [hnotin]
    · simp [heq]

/-- A table's held records are its pending ones and what its buffer still
holds. -/
theorem recordsOf_held (r : Reader P) (table : String) :
    recordsOf r.held table = recordsOf r.pending table ++ (r.buffer table).records := by
  rw [Reader.held, recordsOf_append, recordsOf_materialized _ _ _ r.encoders.nodup]
  split
  · rfl
  rename_i hnot
  have hnone : r.encoders.get table = none := by
    rw [r.encoders.mem_order table] at hnot
    simpa using hnot
  simp [Reader.buffer, hnone, records]

variable {changes : List Change}

/-- **A transaction's records.**  What a table is held as when the transaction
closes is the cut of its own rows, whatever the other tables do. -/
theorem appendAll_records (hb : r.Built d cfg) (h : appendAll d cfg r changes = .ok r') :
    r'.Built d cfg ∧ r'.safePos = r.safePos ∧ ∀ table, recordsOf r'.held table =
        recordsOf r.pending table ++
          cutRows (r.buffer table) (rowsOf d cfg r.safePos changes table) := by
  induction changes generalizing r with
  | nil =>
    cases h
    refine ⟨hb, rfl, fun table => ?_⟩
    simp [recordsOf_held, rowsOf, cutRows]
  | cons c rest ih =>
    simp only [appendAll] at h
    cases happ : appendImage d cfg r c with
    | error e => simp [happ] at h
    | ok r₁ =>
      simp only [happ] at h
      obtain ⟨hb₁, hsafe, hother, hown⟩ := appendImage_spec hb happ
      obtain ⟨hb', hsafe', hrec⟩ := ih hb₁ h
      refine ⟨hb', hsafe'.trans hsafe, fun table => ?_⟩
      rw [hrec table, hsafe]
      by_cases heq : c.target = table
      · subst heq
        have hrows : rowsOf d cfg r.safePos (c :: rest) c.target =
            (rowOf d cfg r.safePos c, weightOf d cfg c) ::
              rowsOf d cfg r.safePos rest c.target := by
          simp [rowsOf]
        rw [hrows, cutRows]
        rcases hown with ⟨hfull, hbuf, hpend⟩ | ⟨hfull, hbuf, hpend⟩
        · simp [hfull, hbuf, hpend, recordsOf]
        · simp [hfull, hbuf, hpend]
      · have hrows : rowsOf d cfg r.safePos (c :: rest) table =
            rowsOf d cfg r.safePos rest table := by
          simp [rowsOf, heq]
        have hne : table ≠ c.target := fun h => heq h.symm
        rw [hrows, hother table hne]
        rcases hown with ⟨_, _, hpend⟩ | ⟨_, _, hpend⟩ <;>
          simp [hpend, recordsOf, heq]

/-- A buffer without rows is empty altogether. -/
def Reader.Tidy (r : Reader P) : Prop :=
  ∀ table, (r.buffer table).rows = 0 → r.buffer table = .empty

/-- A transaction keeps the buffers tidy. -/
theorem appendAll_tidy (hb : r.Built d cfg) (ht : r.Tidy) (h : appendAll d cfg r changes = .ok r') :
    r'.Tidy := by
  induction changes generalizing r with
  | nil =>
    cases h
    exact ht
  | cons c rest ih =>
    simp only [appendAll] at h
    cases happ : appendImage d cfg r c with
    | error e => simp [happ] at h
    | ok r₁ =>
      simp only [happ] at h
      obtain ⟨hb₁, -, hother, hown⟩ := appendImage_spec hb happ
      refine ih hb₁ (fun table h0 => ?_) h
      by_cases heq : table = c.target
      · subst heq
        rcases hown with ⟨-, hbuf, -⟩ | ⟨-, hbuf, -⟩
        · exact hbuf
        · rw [hbuf] at h0
          simp at h0
      · rw [hother table heq] at h0 ⊢
        exact ht table h0

/-- From an idle reader a table is held as the cut of its rows. -/
theorem recordsOf_held_of_idle (hi : r.Idle d cfg) (h : appendAll d cfg r changes = .ok r')
    (table : String) :
    recordsOf r'.held table = cutRows .empty (rowsOf d cfg r.safePos changes table) := by
  rw [(appendAll_records hi.built h).2.2 table, hi.pending_nil, hi.buffer_empty]
  rfl

theorem mem_recordsOf {held : List (HeldRec P)} {rec : HeldRec P} (h : rec ∈ held) :
    rec.rows ∈ recordsOf held rec.target := by
  exact mem_map.mpr ⟨rec, by simp [h], rfl⟩

/-- Every held record has rows, and each is stamped with the safe position. -/
theorem held_carries_safe (hi : r.Idle d cfg) (h : appendAll d cfg r changes = .ok r') :
    ∀ rec ∈ r'.held, rec.rows ≠ [] ∧ ∀ row ∈ rec.rows, row.position = r.safePos := by
  intro rec hrec
  have hmem := mem_recordsOf hrec
  rw [recordsOf_held_of_idle hi h] at hmem
  refine ⟨ne_nil_of_mem_cutRows counted_empty _ _ hmem, fun row hrow => ?_⟩
  have hflat : row ∈ (cutRows .empty (rowsOf d cfg r.safePos changes rec.target)).flatten :=
    mem_flatten.mpr ⟨_, hmem, hrow⟩
  rw [flatten_cutRows counted_empty] at hflat
  obtain ⟨c, -, rfl⟩ : ∃ c, c ∈ changes.filter (fun c => c.target = rec.target) ∧
      rowOf d cfg r.safePos c = row := by
    simpa [rowsOf] using hflat
  unfold rowOf
  split <;> rfl

end Held

/-! ## The two stamping loops -/

section Stamping

variable {P : Type} {held : List (HeldRec P)} {safe commit : P}

/-- Every held record has rows and each of them is stamped with `safe`. -/
def HeldAt (safe : P) (held : List (HeldRec P)) : Prop :=
  ∀ rec ∈ held, rec.rows ≠ [] ∧ ∀ row ∈ rec.rows, row.position = safe

/-- No record after index `i` is of the table. -/
def FinalAt (held : List (HeldRec P)) (i : Nat) (table : String) : Prop :=
  ∀ j rec, i < j → held[j]? = some rec → rec.target ≠ table

/-- The last record is its table's last. -/
theorem lastIndex_concat (xs : List (HeldRec P)) (x : HeldRec P) :
    lastIndex (xs ++ [x]) = Function.update (lastIndex xs) x.target (some xs.length) := by
  simp [lastIndex, zipIdx_append]

/-- The `last` map holds index `i` for a table exactly when the record there is
of that table and no later one is. -/
theorem lastIndex_eq_some_iff (held : List (HeldRec P)) (table : String) (i : Nat) :
    lastIndex held table = some i ↔
      (∃ rec, held[i]? = some rec ∧ rec.target = table) ∧ FinalAt held i table := by
  induction held using List.reverseRecOn generalizing i with
  | nil => simp [lastIndex]
  | append_singleton xs x ih =>
    rw [lastIndex_concat, Function.update_apply]
    by_cases heq : table = x.target
    · subst heq
      simp only [if_true, Option.some.injEq]
      constructor
      · rintro rfl
        refine ⟨⟨x, by simp, rfl⟩, fun j rec hj hrec => ?_⟩
        have hlt := (List.getElem?_eq_some_iff.mp hrec).1
        simp at hlt
        omega
      · rintro ⟨⟨rec, hrec, -⟩, hfinal⟩
        have hlt := (List.getElem?_eq_some_iff.mp hrec).1
        simp only [length_append, length_singleton] at hlt
        by_contra hne
        exact hfinal xs.length x (by omega) (by simp) rfl
    · rw [if_neg heq, ih]
      have hx : ∀ (j : Nat) rec, (xs ++ [x])[j]? = some rec → rec.target = table →
          xs[j]? = some rec := by
        intro j rec hrec htgt
        by_cases hj : j < xs.length
        · rwa [getElem?_append_left hj] at hrec
        · rw [getElem?_append_right (by omega)] at hrec
          have hmem : rec ∈ [x] := mem_of_getElem? hrec
          rw [mem_singleton] at hmem
          exact absurd (htgt.symm.trans (congrArg HeldRec.target hmem)) heq
      have hxs : ∀ (j : Nat) rec, xs[j]? = some rec → (xs ++ [x])[j]? = some rec := by
        intro j rec hrec
        rw [getElem?_append_left (List.getElem?_eq_some_iff.mp hrec).1, hrec]
      constructor
      · rintro ⟨⟨rec, hrec, htgt⟩, hfinal⟩
        refine ⟨⟨rec, hxs i rec hrec, htgt⟩, fun j rec' hj hrec' htgt' => ?_⟩
        exact hfinal j rec' hj (hx j rec' hrec' htgt') htgt'
      · rintro ⟨⟨rec, hrec, htgt⟩, hfinal⟩
        refine ⟨⟨rec, hx i rec hrec htgt, htgt⟩, fun j rec' hj hrec' => ?_⟩
        exact hfinal j rec' hj (hxs j rec' hrec')

/-- A stamping loop keeps each record's table in its place. -/
def KeepsTables (held : List (HeldRec P)) (out : List (Batch P)) : Prop :=
  ∀ j : Nat, (out[j]?).map Batch.table = (held[j]?).map HeldRec.target

/-- The MySQL stamping keeps each table's rows. -/
theorem mysqlStamp_keepsTables (pos : P) (held : List (HeldRec P)) :
    KeepsTables held (mysqlStamp pos held) := by
  intro j
  simp only [mysqlStamp, getElem?_map, getElem?_zipIdx, Option.map_map]
  congr 1
  funext rec
  simp only [Function.comp]
  split <;> rfl

/-- The Postgres stamping keeps each table's rows. -/
theorem postgresStamp_keepsTables (pos : P) (held : List (HeldRec P)) :
    KeepsTables held (postgresStamp pos held) := by
  intro j
  simp only [postgresStamp, getElem?_map, getElem?_zipIdx, Option.map_map]
  congr 1
  funext rec
  simp only [Function.comp]
  split <;> rfl

/-- A batch is continued exactly when the record it came from is not its
table's final one. -/
theorem KeepsTables.continued_iff {out : List (Batch P)} (hk : KeepsTables held out) (i : Nat)
    (table : String) : Continued out i table ↔ ¬ FinalAt held i table := by
  constructor
  · rintro ⟨j, b, hj, hb, rfl⟩ hfinal
    have hmap := hk j
    rw [hb] at hmap
    obtain ⟨rec, hrec, htgt⟩ := Option.map_eq_some_iff.mp hmap.symm
    exact hfinal j rec hj hrec htgt
  · intro hnot
    simp only [FinalAt, not_forall, not_not] at hnot
    obtain ⟨j, rec, hj, hrec, htgt⟩ := hnot
    have hmap := hk j
    rw [hrec] at hmap
    obtain ⟨b, hb, htab⟩ := Option.map_eq_some_iff.mp hmap
    exact ⟨j, b, hj, hb, htab.trans htgt⟩

/-- A record stamped carries the position. -/
theorem carries_withPosition {rec : HeldRec P} (hne : rec.rows ≠ []) (pos : P) (isPartial : Bool) :
    (⟨rec.target, withPosition rec.rows pos, isPartial⟩ : Batch P).Carries pos := by
  refine ⟨by simpa [withPosition] using hne, fun row hrow => ?_⟩
  obtain ⟨row', -, rfl⟩ := mem_map.mp hrow
  rfl

/-- **The MySQL loop stamps every transaction right.** -/
theorem mysqlStamp_stampedRight (hh : HeldAt safe held) :
    StampedRight safe commit (mysqlStamp commit held) := by
  intro i b hb
  have hk := mysqlStamp_keepsTables commit held
  simp only [mysqlStamp, getElem?_map, getElem?_zipIdx, Option.map_map] at hb
  obtain ⟨rec, hrec, hb⟩ := Option.map_eq_some_iff.mp hb
  simp only [Function.comp, Nat.zero_add] at hb
  obtain ⟨hne, hsafe⟩ := hh rec (mem_of_getElem? hrec)
  have hlast : lastIndex held rec.target = some i ↔ FinalAt held i rec.target := by
    rw [lastIndex_eq_some_iff]
    exact ⟨fun h => h.2, fun h => ⟨⟨rec, hrec, rfl⟩, h⟩⟩
  by_cases hfinal : FinalAt held i rec.target
  · rw [if_neg (by simpa using hlast.mpr hfinal)] at hb
    subst hb
    refine ⟨fun hc => absurd hfinal ((hk.continued_iff i _).mp hc), fun _ => ⟨rfl, ?_⟩⟩
    exact carries_withPosition hne commit false
  · rw [if_pos (fun h => hfinal (hlast.mp h))] at hb
    subst hb
    exact ⟨fun _ => ⟨rfl, hne, hsafe⟩, fun hc => absurd ((hk.continued_iff i _).mpr hfinal) hc⟩

/-- Distinct records of distinct tables: every record is its table's final
one. -/
theorem nodup_targets_iff (held : List (HeldRec P)) : (held.map HeldRec.target).Nodup ↔
      ∀ i rec, held[i]? = some rec → FinalAt held i rec.target := by
  rw [nodup_iff_pairwise_ne, pairwise_iff_getElem]
  constructor
  · intro h i rec hrec j rec' hj hrec' heq
    obtain ⟨hi, rfl⟩ := List.getElem?_eq_some_iff.mp hrec
    obtain ⟨hj', rfl⟩ := List.getElem?_eq_some_iff.mp hrec'
    exact h i j (by simpa using hi) (by simpa using hj') hj (by simpa using heq.symm)
  · intro h i j hi hj hij heq
    simp only [length_map] at hi hj
    simp only [getElem_map] at heq
    exact h i _ (getElem?_eq_getElem hi) j _ hij (getElem?_eq_getElem hj) heq.symm

/-- The batch at an index is the record there, restamped if it is the final one. -/
theorem postgresStamp_getElem? (pos : P) (held : List (HeldRec P)) (i : Nat) :
    (postgresStamp pos held)[i]? = (held[i]?).map (fun rec =>
      if i + 1 = held.length then ⟨rec.target, withPosition rec.rows pos, false⟩
      else ⟨rec.target, rec.rows, false⟩) := by
  simp [postgresStamp, Function.comp_def]

/-- The Postgres loop's final batch carries the commit position, the others the safe
one. -/
theorem postgresStamp_carries (hh : HeldAt safe held) {i : Nat} {b : Batch P}
    (hb : (postgresStamp commit held)[i]? = some b) :
    i + 1 = (postgresStamp commit held).length ∧ b.Carries commit ∨
      i + 1 < (postgresStamp commit held).length ∧ b.Carries safe := by
  have hlen : (postgresStamp commit held).length = held.length := by
    simp [postgresStamp]
  rw [postgresStamp_getElem?] at hb
  obtain ⟨rec, hrec, hb⟩ := Option.map_eq_some_iff.mp hb
  obtain ⟨hne, hsafe⟩ := hh rec (mem_of_getElem? hrec)
  have hlt := (List.getElem?_eq_some_iff.mp hrec).1
  rw [hlen]
  split at hb
  · rename_i hlast
    subst hb
    exact .inl ⟨hlast, carries_withPosition hne commit false⟩
  · subst hb
    exact .inr ⟨by omega, hne, hsafe⟩

/-- **The Postgres loop** stamps right exactly when no table has two records
and either the commit position is the safe one or there is a single record. -/
theorem postgresStamp_stampedRight_iff (hh : HeldAt safe held) :
    StampedRight safe commit (postgresStamp commit held) ↔
      (held.map HeldRec.target).Nodup ∧ (commit = safe ∨ held.length ≤ 1) := by
  have hk := postgresStamp_keepsTables commit held
  have hget := postgresStamp_getElem? commit held
  constructor
  · intro hright
    have hnodup : (held.map HeldRec.target).Nodup := by
      rw [nodup_targets_iff]
      intro i rec hrec
      by_contra hnot
      have hb := hget i
      rw [hrec] at hb
      split at hb
      · have := ((hright i _ hb).1 ((hk.continued_iff i _).mpr hnot)).1
        cases this
      · have := ((hright i _ hb).1 ((hk.continued_iff i _).mpr hnot)).1
        cases this
    refine ⟨hnodup, ?_⟩
    by_contra hnot
    simp only [not_or] at hnot
    obtain ⟨hcommit, hlen⟩ := hnot
    -- With two records the first one keeps the safe position, yet ends its table.
    obtain ⟨rec, hrec⟩ : ∃ rec, held[0]? = some rec := ⟨held[0], getElem?_eq_getElem (by omega)⟩
    have hb := hget 0
    rw [hrec, Option.map_some, if_neg (by omega)] at hb
    have hfinal := (nodup_targets_iff held).mp hnodup 0 rec hrec
    have hnc : ¬ Continued (postgresStamp commit held) 0 rec.target :=
      fun hc => (hk.continued_iff 0 _).mp hc hfinal
    obtain ⟨-, hne, hall⟩ := (hright 0 _ hb).2 hnc
    obtain ⟨row, hrow⟩ := exists_mem_of_ne_nil _ hne
    exact hcommit ((hall row hrow).symm.trans ((hh rec (mem_of_getElem? hrec)).2 row hrow))
  · rintro ⟨hnodup, hcase⟩ i b hb
    rw [hget i] at hb
    obtain ⟨rec, hrec, hb⟩ := Option.map_eq_some_iff.mp hb
    obtain ⟨hne, hsafe⟩ := hh rec (mem_of_getElem? hrec)
    have hfinal := (nodup_targets_iff held).mp hnodup i rec hrec
    have hlt := (List.getElem?_eq_some_iff.mp hrec).1
    split at hb
    · subst hb
      refine ⟨fun hc => absurd hfinal ((hk.continued_iff i _).mp hc), fun _ => ⟨rfl, ?_⟩⟩
      exact carries_withPosition hne commit false
    · subst hb
      refine ⟨fun hc => absurd hfinal ((hk.continued_iff i _).mp hc), fun _ => ⟨rfl, hne, ?_⟩⟩
      rcases hcase with rfl | hlen
      · exact hsafe
      · omega

end Stamping

/-! ## Whole transactions -/

section Transactions

variable {P : Type} {kind : ReaderKind} {cfg : String → Option TableConfig}
  {r r' : Reader P} {txn : Txn P} {out : List (Batch P)}

/-- The changes of one table. -/
def changesOf (changes : List Change) (table : String) : List Change :=
  changes.filter (fun c => c.target = table)

/-- A table's rows fit one record when no proper prefix of them crosses a
ceiling. -/
def FitsOneRecord (d : Dialect) (cfg : String → Option TableConfig) (changes : List Change)
    (table : String) : Prop :=
  ∀ n, 0 < n → n < (changesOf changes table).length →
    crossesCeiling n (((changesOf changes table).take n).map (weightOf d cfg)).sum = false

/-- All changes are of one table. -/
def OneTable (changes : List Change) : Prop := ∀ c ∈ changes, ∀ c' ∈ changes, c.target = c'.target

/-- The transactions a reader stamps right: any for MySQL; for Postgres those
whose tables each fit one record and that touch a single table, or that commit
at the safe position itself. -/
def StampsRight (kind : ReaderKind) (cfg : String → Option TableConfig) (safe : P)
    (txn : Txn P) : Prop :=
  kind = .mysql ∨ (∀ table, FitsOneRecord postgresDialect cfg txn.changes table) ∧
      (txn.commit = safe ∨ OneTable txn.changes)

/-- A decoded transaction is the stamped list of what was held. -/
theorem decodeTxn_ok (h : decodeTxn kind cfg r txn = .ok (r', out)) :
    ∃ r₁, appendAll kind.dialect cfg r txn.changes = .ok r₁ ∧
      out = kind.stamp txn.commit r₁.held ∧ r'.pending = [] ∧
      r'.encoders = r₁.encoders.resetAll ∧
      r'.safePos = if r₁.held = [] then r₁.safePos else txn.commit := by
  unfold decodeTxn at h
  cases happ : appendAll kind.dialect cfg r txn.changes with
  | error e => simp [happ] at h
  | ok r₁ =>
    simp only [happ, closeTxn] at h
    refine ⟨r₁, rfl, ?_⟩
    split at h
    · rename_i hnil
      cases h
      refine ⟨?_, rfl, rfl, by simp [hnil]⟩
      cases kind <;> simp [ReaderKind.stamp, mysqlStamp, postgresStamp, hnil]
    · rename_i hnil
      cases h
      exact ⟨rfl, rfl, rfl, by simp [hnil]⟩

/-- Closing leaves the reader idle again. -/
theorem decodeTxn_idle (hi : r.Idle kind.dialect cfg)
    (h : decodeTxn kind cfg r txn = .ok (r', out)) : r'.Idle kind.dialect cfg := by
  obtain ⟨r₁, happ, -, hpend, henc, -⟩ := decodeTxn_ok h
  have hbuilt := (appendAll_records hi.built happ).1
  refine ⟨?_, hpend, ?_⟩
  · intro target te hget
    rw [henc] at hget
    obtain ⟨te', hget', rfl⟩ := Option.map_eq_some_iff.mp hget
    have hlayout : te'.reset.layout = te'.layout := by
      unfold reset
      split <;> rfl
    rw [hlayout]
    exact hbuilt target te' hget'
  · intro target
    have htidy : r₁.Tidy := appendAll_tidy hi.built (fun table _ => hi.buffer_empty table) happ
    have hbuf := htidy target
    cases hget : r₁.encoders.get target with
    | none => simp [Reader.buffer, henc, EncoderMap.resetAll, hget]
    | some te =>
      simp only [Reader.buffer, hget] at hbuf
      simp only [Reader.buffer, henc, EncoderMap.resetAll, hget, Option.map_some, reset]
      split
      · rename_i h0
        exact hbuf h0
      · rfl

/-- The tables are distinct if each has one record. -/
theorem nodup_held_iff (held : List (HeldRec P)) :
    (held.map HeldRec.target).Nodup ↔ ∀ table, (recordsOf held table).length ≤ 1 := by
  rw [nodup_iff_count_le_one]
  refine forall_congr' fun table => ?_
  have hcount : (held.map HeldRec.target).count table = (recordsOf held table).length := by
    rw [List.count, countP_map, recordsOf, length_map, countP_eq_length_filter]
    rfl
  rw [hcount]

variable {changes : List Change}

section

variable {d : Dialect} {r₁ : Reader P} (hi : r.Idle d cfg)
  (happ : appendAll d cfg r changes = .ok r₁)
include hi happ

/-- A table has a held record exactly when the transaction changed it. -/
theorem exists_held_iff (table : String) :
    (∃ rec ∈ r₁.held, rec.target = table) ↔ ∃ c ∈ changes, c.target = table := by
  have hrec := recordsOf_held_of_idle hi happ table
  have hleft : (∃ rec ∈ r₁.held, rec.target = table) ↔ recordsOf r₁.held table ≠ [] := by
    simp [recordsOf]
  have hright : (∃ c ∈ changes, c.target = table) ↔ rowsOf d cfg r.safePos changes table ≠ [] := by
    simp [rowsOf]
  rw [hleft, hright, hrec, not_iff_not, cutRows_eq_nil_iff counted_empty]
  simp

/-- Where no table has two records, there is a single record exactly when the
transaction touched a single table. -/
theorem length_held_le_one_iff (hnodup : (r₁.held.map HeldRec.target).Nodup) :
    r₁.held.length ≤ 1 ↔ OneTable changes := by
  constructor
  · intro hlen c hc c' hc'
    obtain ⟨rec, hrec, htgt⟩ := (exists_held_iff hi happ c.target).mpr ⟨c, hc, rfl⟩
    obtain ⟨rec', hrec', htgt'⟩ := (exists_held_iff hi happ c'.target).mpr ⟨c', hc', rfl⟩
    have hsub : rec = rec' := by
      match hheld : r₁.held with
      | [] => simp [hheld] at hrec
      | [x] =>
        rw [hheld, mem_singleton] at hrec hrec'
        rw [hrec, hrec']
      | _ :: _ :: _ => simp [hheld] at hlen
    rw [← htgt, ← htgt', hsub]
  · intro hone
    by_contra hlen
    have h0 : 0 < r₁.held.length := by omega
    have h1 : 1 < r₁.held.length := by omega
    obtain ⟨c, hc, htgt⟩ := (exists_held_iff hi happ r₁.held[0].target).mp
      ⟨r₁.held[0], getElem_mem h0, rfl⟩
    obtain ⟨c', hc', htgt'⟩ := (exists_held_iff hi happ r₁.held[1].target).mp
      ⟨r₁.held[1], getElem_mem h1, rfl⟩
    have hfinal := (nodup_targets_iff r₁.held).mp hnodup 0 _ (getElem?_eq_getElem h0)
    apply hfinal 1 _ (by omega) (getElem?_eq_getElem h1)
    rw [← htgt, ← htgt']
    exact hone c' hc' c hc

/-- No table has two records exactly when each table's rows fit one. -/
theorem nodup_held_iff_fits :
    (r₁.held.map HeldRec.target).Nodup ↔ ∀ table, FitsOneRecord d cfg changes table := by
  rw [nodup_held_iff]
  refine forall_congr' fun table => ?_
  rw [recordsOf_held_of_idle hi happ, length_cutRows_le_one_iff counted_empty]
  simp only [rowsOf, length_map, empty_rows, empty_bytes, Nat.zero_add,
    ← map_take, map_map, Function.comp_def, FitsOneRecord, changesOf]

end

/-- **Transaction stamping.**  A decoded transaction is stamped right exactly
when it is one of those the reader stamps right. -/
theorem decodeTxn_stampedRight_iff (hi : r.Idle kind.dialect cfg)
    (h : decodeTxn kind cfg r txn = .ok (r', out)) :
    StampedRight r.safePos txn.commit out ↔ StampsRight kind cfg r.safePos txn := by
  obtain ⟨r₁, happ, rfl, -⟩ := decodeTxn_ok h
  have hheld : HeldAt r.safePos r₁.held := held_carries_safe hi happ
  cases kind with
  | mysql =>
    exact ⟨fun _ => .inl rfl, fun _ => mysqlStamp_stampedRight hheld⟩
  | postgres =>
    rw [StampsRight, ReaderKind.stamp, postgresStamp_stampedRight_iff hheld,
      nodup_held_iff_fits hi happ]
    have hkind : ¬ ReaderKind.postgres = ReaderKind.mysql := by decide
    simp only [hkind, false_or]
    refine and_congr_right fun hfits => ?_
    rw [length_held_le_one_iff hi happ ((nodup_held_iff_fits hi happ).mpr hfits)]

end Transactions

end Urutau
