import Urutau.GuardedRun
import Urutau.CommittedPrefix

/-!
# Transactions that are abandoned half-way

A transaction is lost when the connection is, or when the server begins another one
before its commit.  Either way the Postgres reader runs `resetTxn`: it drops the records
already cut and sets the builders' counters to zero, but the rows ended in a builder stay
there.  The next transaction appends behind them, and its first record of that table
holds both.

A builder whose counter is zero is not materialized, so what was left stays until a
transaction has a row of that table.
-/

namespace Urutau

open List Runs EncodedRow

section Reset

variable {P : Type}

/-- The counters start over; the rows stay in the builder. -/
def TableEncoder.zeroCounters (te : TableEncoder P) : TableEncoder P :=
  { te with rows := 0, bytes := 0 }

def EncoderMap.zeroCounters (m : EncoderMap P) : EncoderMap P where
  get target := (m.get target).map TableEncoder.zeroCounters
  order := m.order
  nodup := m.nodup
  mem_order target := by simpa using m.mem_order target
  target_eq target te h := by
    obtain ⟨te', hget, rfl⟩ := Option.map_eq_some_iff.mp h
    exact m.target_eq target te' hget

/-- `resetTxn`. -/
def Reader.resetTxn (r : Reader P) : Reader P :=
  { r with encoders := r.encoders.zeroCounters, pending := [] }

theorem Reader.buffer_resetTxn (r : Reader P) (target : String) :
    r.resetTxn.buffer target = ⟨(r.buffer target).enc, 0, 0⟩ := by
  change (((r.encoders.get target).map TableEncoder.zeroCounters).map TableEncoder.buffer).getD
    .empty = _
  unfold Reader.buffer
  cases r.encoders.get target with
  | none => rfl
  | some te => rfl

variable {d : Dialect} {cfg : String → Option TableConfig} {r r' : Reader P}

theorem Reader.Built.resetTxn (h : r.Built d cfg) : r.resetTxn.Built d cfg := by
  intro target te hget
  obtain ⟨te', hget', rfl⟩ := Option.map_eq_some_iff.mp hget
  exact h target te' hget'

theorem Reader.Built.closeTxn (h : r.Built d cfg) (kind : ReaderKind) (pos : P) :
    (Urutau.closeTxn kind r pos).1.Built d cfg := by
  have hreset : ∀ target te, r.encoders.resetAll.get target = some te →
      resolveLayout d cfg target = .ok te.layout := by
    intro target te hget
    obtain ⟨te', hget', rfl⟩ := Option.map_eq_some_iff.mp hget
    rw [h target te' hget']
    unfold TableEncoder.reset
    split <;> rfl
  unfold Urutau.closeTxn
  split
  · exact hreset
  · exact hreset

theorem appendAll_concat (changes : List Change) (c : Change) :
    appendAll d cfg r (changes ++ [c]) = (appendAll d cfg r changes).bind fun r' =>
      appendImage d cfg r' c := by
  induction changes generalizing r with
  | nil =>
    simp only [nil_append, appendAll, Except.bind]
    cases appendImage d cfg r c <;> rfl
  | cons c' rest ih =>
    simp only [cons_append, appendAll]
    cases appendImage d cfg r c' with
    | error e => rfl
    | ok r' => exact ih

/-! ## The cut of a builder that was not empty -/

/-- Once a row is counted, everything in the builder comes out. -/
theorem flatten_cutRows_of_counted {b : Buffer P} (h : b.rows ≠ 0)
    (xs : List (EncodedRow P × Nat)) : (cutRows b xs).flatten = b.enc ++ xs.map Prod.fst := by
  induction xs generalizing b with
  | nil => simp [cutRows, Buffer.records, h]
  | cons x rest ih =>
    simp only [cutRows]
    split
    · simp [flatten_cutRows Buffer.counted_empty]
    · rw [ih (by simp)]
      simp

/-- What was left in a builder comes out with the table's first row, or not at all. -/
theorem flatten_cutRows_stale (stale : List (EncodedRow P)) (xs : List (EncodedRow P × Nat)) :
    (cutRows ⟨stale, 0, 0⟩ xs).flatten = if xs = [] then [] else stale ++ xs.map Prod.fst := by
  cases xs with
  | nil => simp [cutRows, Buffer.records]
  | cons x rest =>
    simp only [cutRows]
    split
    · simp [flatten_cutRows Buffer.counted_empty]
    · rw [flatten_cutRows_of_counted (by simp)]
      simp

end Reset

/-! ## The stream -/

/-- What the reader acts on: the begin of a transaction, a row it keeps, a commit, and a
connection that is lost and dialled again. -/
inductive StreamMessage (P : Type)
  | beginTxn
  | row (c : Change)
  | commit (pos : P)
  | lost
  deriving DecidableEq, Repr

/-- A transaction under way: the rows kept of it, and what each builder held at its
begin. -/
structure OpenTxn (P : Type) where
  atBegin : String → List (EncodedRow P)
  changes : List Change

/-- A transaction committed, with the batches emitted for it. -/
structure Emission (P : Type) where
  atBegin : String → List (EncodedRow P)
  changes : List Change
  batches : List (Batch P)

/-- The reader with the transaction it decodes.  History: what it has emitted. -/
structure Streaming (P : Type) where
  reader : Reader P
  txn : Option (OpenTxn P)
  emitted : List (Emission P)

namespace Streaming

variable {P : Type}

def start (safe : P) : Streaming P := ⟨⟨.empty, [], safe⟩, none, []⟩

/-- Rows and commits come inside a transaction; an error ends the reader. -/
def step (cfg : String → Option TableConfig) (s : Streaming P) :
    StreamMessage P → Option (Streaming P)
  | .beginTxn =>
    some { s with
      reader := s.reader.resetTxn
      txn := some ⟨fun t => (s.reader.buffer t).enc, []⟩ }
  | .row c =>
    match s.txn with
    | none => none
    | some txn =>
      match appendImage postgresDialect cfg s.reader c with
      | .error _ => none
      | .ok reader => some { s with reader, txn := some { txn with changes := txn.changes ++ [c] } }
  | .commit pos =>
    match s.txn with
    | none => none
    | some txn =>
      let (reader, batches) := closeTxn .postgres s.reader pos
      some {
        reader
        txn := none
        emitted := s.emitted ++ [⟨txn.atBegin, txn.changes, batches⟩] }
  | .lost => some { s with reader := s.reader.resetTxn, txn := none }

end Streaming

/-! ## What a transaction's batches hold -/

section Contents

variable {P : Type}

/-- **Isolation.**  Each table's batches hold the transaction's own rows of it, in order. -/
def Emission.Exact (cfg : String → Option TableConfig) (e : Emission P) : Prop :=
  ∀ table, contentsOf e.batches table =
    (changesOf e.changes table).map (contentOf postgresDialect cfg)

variable {cfg : String → Option TableConfig} {r r' : Reader P} {changes : List Change}
  {stale : String → List (EncodedRow P)}

section

variable (hb : r.Built postgresDialect cfg) (hpending : r.pending = [])
  (hstale : ∀ t, r.buffer t = ⟨stale t, 0, 0⟩)
  (happend : appendAll postgresDialect cfg r changes = .ok r') (pos : P)
include hb hpending hstale happend pos

/-- A transaction decoded behind what the builders held. -/
theorem contents_closeTxn (table : String) : contentsOf (closeTxn .postgres r' pos).2 table =
      if changesOf changes table = [] then []
      else (stale table).map content ++
        (changesOf changes table).map (contentOf postgresDialect cfg) := by
  obtain ⟨-, -, hrecords⟩ := appendAll_records hb happend
  have hrows : (rowsOf postgresDialect cfg r.safePos changes table).map Prod.fst =
      (changesOf changes table).map (rowOf postgresDialect cfg r.safePos) := by
    unfold rowsOf changesOf
    rw [map_map]
    rfl
  have hflat : (recordsOf r'.held table).flatten.map content =
      if changesOf changes table = [] then []
      else (stale table).map content ++
        (changesOf changes table).map (contentOf postgresDialect cfg) := by
    rw [hrecords table, hpending, hstale table]
    change (cutRows ⟨stale table, 0, 0⟩ _).flatten.map content = _
    rw [flatten_cutRows_stale, hrows]
    have hnil : rowsOf postgresDialect cfg r.safePos changes table = [] ↔
        changesOf changes table = [] := map_eq_nil_iff
    simp only [hnil]
    split
    · rfl
    · rw [map_append, map_map]
      congr 1
      exact map_congr_left fun c _ => rowOf_content postgresDialect cfg r.safePos c
  rw [← hflat, ← contentsOf_stamp .postgres pos]
  unfold closeTxn
  split
  · rename_i hheld
    rw [hheld]
    rfl
  · rfl

/-- Its rows are alone in their batches exactly when the builders of its tables held
nothing. -/
theorem exact_closeTxn_iff : Emission.Exact cfg ⟨stale, changes, (closeTxn .postgres r' pos).2⟩ ↔
      ∀ c ∈ changes, stale c.target = [] := by
  have hcontents := contents_closeTxn hb hpending hstale happend pos
  constructor
  · intro hexact c hc
    have htable := (hcontents c.target).symm.trans (hexact c.target)
    have hmem : c ∈ changesOf changes c.target := mem_filter.mpr ⟨hc, by simp⟩
    rw [if_neg (ne_nil_of_mem hmem)] at htable
    simpa using htable
  · intro hempty table
    rw [hcontents table]
    split
    · rename_i hnil
      rw [hnil]
      rfl
    · rename_i hne
      obtain ⟨c, hc⟩ := exists_mem_of_ne_nil _ hne
      obtain ⟨hc, htable⟩ := mem_filter.mp hc
      have heq : c.target = table := by simpa using htable
      rw [← heq, hempty c hc]
      rfl

end

end Contents

namespace Streaming

variable {P : Type} {cfg : String → Option TableConfig} {s s' : Streaming P}

/-- **The invariant.**  The transaction under way has been decoded behind what the
builders held at its begin, and every emission is settled by the same. -/
structure Consistent (cfg : String → Option TableConfig) (s : Streaming P) : Prop where
  built : s.reader.Built postgresDialect cfg
  decoding : ∀ txn, s.txn = some txn → ∃ r : Reader P, r.Built postgresDialect cfg ∧
    r.pending = [] ∧ (∀ t, r.buffer t = ⟨txn.atBegin t, 0, 0⟩) ∧
    appendAll postgresDialect cfg r txn.changes = .ok s.reader
  settled : ∀ e ∈ s.emitted, e.Exact cfg ↔ ∀ c ∈ e.changes, e.atBegin c.target = []

theorem consistent_start (cfg : String → Option TableConfig) (safe : P) :
    Consistent cfg (start safe) where
  built := nofun
  decoding := nofun
  settled := nofun

theorem Consistent.step (h : Consistent cfg s) {m : StreamMessage P}
    (hs : Streaming.step cfg s m = some s') : Consistent cfg s' := by
  cases m with
  | beginTxn =>
    cases hs
    refine ⟨h.built.resetTxn, fun txn htxn => ?_, h.settled⟩
    cases htxn
    exact ⟨s.reader.resetTxn, h.built.resetTxn, rfl, s.reader.buffer_resetTxn, rfl⟩
  | row c =>
    simp only [Streaming.step] at hs
    split at hs
    · cases hs
    rename_i txn htxn
    split at hs
    · cases hs
    rename_i reader happend
    cases hs
    refine ⟨(appendImage_spec h.built happend).1, fun txn' htxn' => ?_, h.settled⟩
    cases htxn'
    obtain ⟨r, hb, hpending, hstale, hall⟩ := h.decoding txn htxn
    refine ⟨r, hb, hpending, hstale, ?_⟩
    rw [appendAll_concat, hall]
    exact happend
  | commit pos =>
    simp only [Streaming.step] at hs
    split at hs
    · cases hs
    rename_i txn htxn
    cases hs
    obtain ⟨r, hb, hpending, hstale, hall⟩ := h.decoding txn htxn
    exact ⟨h.built.closeTxn .postgres pos, nofun, forall_mem_concat.mpr
      ⟨h.settled, exact_closeTxn_iff hb hpending hstale hall pos⟩⟩
  | lost =>
    cases hs
    exact ⟨h.built.resetTxn, nofun, h.settled⟩

/-- **Which transactions are isolated.**  In every stream, whatever is lost or abandoned,
the batches of a committed transaction hold exactly its kept rows if and only if the
builders of its tables held no row when it began. -/
theorem emitted_exact_iff {safe : P} {messages : List (StreamMessage P)} {s : Streaming P}
    (hrun : run (Streaming.step cfg) (start safe) messages = some s) :
    ∀ e ∈ s.emitted, e.Exact cfg ↔ ∀ c ∈ e.changes, e.atBegin c.target = [] :=
  (invariant_of_run (Consistent cfg) (fun _ _ _ h hs => h.step hs)
    (consistent_start cfg safe) hrun).settled

/-! ## A connection lost inside a transaction -/

/-- One table with a key. -/
def ordersConfig (target : String) : Option TableConfig :=
  if target = "orders" then some ⟨"shop.orders", ["id"], ["id"], ["id"]⟩ else none

/-- An order is inserted. -/
def insertOrder (id : Int) : Change := ⟨"orders", .insert, [.scalar id], 1⟩

/-- A loss between two transactions leaves nothing behind. -/
theorem emitted_exact_iff_lostBetween : ∃ s, run (Streaming.step ordersConfig) (start (⟨0⟩ : LSN))
        [.beginTxn, .row (insertOrder 1), .commit ⟨10⟩, .lost,
          .beginTxn, .row (insertOrder 2), .commit ⟨20⟩] = some s ∧
      s.emitted.length = 2 ∧ ∀ e ∈ s.emitted, e.Exact ordersConfig := by
  have heval : (run (Streaming.step ordersConfig) (start (⟨0⟩ : LSN))
      [.beginTxn, .row (insertOrder 1), .commit ⟨10⟩, .lost,
        .beginTxn, .row (insertOrder 2), .commit ⟨20⟩]).map
        (fun s => s.emitted.map fun e => e.changes.map fun c => e.atBegin c.target) =
      some [[[]], [[]]] := by decide +kernel
  obtain ⟨s, hrun, heq⟩ := Option.map_eq_some_iff.mp heval
  refine ⟨s, hrun, ?_, fun e he => (emitted_exact_iff hrun e he).mpr fun c hc => ?_⟩
  · simpa using congrArg List.length heq
  have hmem : (e.changes.map fun c => e.atBegin c.target) ∈ [[[]], [[]]] := by
    rw [← heq]
    exact mem_map.mpr ⟨e, he, rfl⟩
  have hall : (e.changes.map fun c => e.atBegin c.target) = [[]] := by simpa using hmem
  have hc : e.atBegin c.target ∈ e.changes.map fun c => e.atBegin c.target :=
    mem_map.mpr ⟨c, hc, rfl⟩
  rw [hall] at hc
  exact mem_singleton.mp hc

/-- The connection is lost after the first order of a transaction, which is then read
again whole: its record holds that order twice. -/
theorem emitted_rows_of_lost_read : ∃ s e, run (Streaming.step ordersConfig) (start (⟨0⟩ : LSN))
        [.beginTxn, .row (insertOrder 1), .lost,
          .beginTxn, .row (insertOrder 1), .row (insertOrder 2), .commit ⟨10⟩] = some s ∧
      e ∈ s.emitted ∧ e.changes = [insertOrder 1, insertOrder 2] ∧
      contentsOf e.batches "orders" =
        [(.insert, [.scalar 1]), (.insert, [.scalar 1]), (.insert, [.scalar 2])] ∧
      ¬ e.Exact ordersConfig := by
  have heval : (run (Streaming.step ordersConfig) (start (⟨0⟩ : LSN))
      [.beginTxn, .row (insertOrder 1), .lost,
        .beginTxn, .row (insertOrder 1), .row (insertOrder 2), .commit ⟨10⟩]).map
        (fun s => s.emitted.map fun e => (e.changes, contentsOf e.batches "orders")) =
      some [([insertOrder 1, insertOrder 2],
        [(.insert, [.scalar 1]), (.insert, [.scalar 1]), (.insert, [.scalar 2])])] := by
    decide +kernel
  obtain ⟨s, hrun, heq⟩ := Option.map_eq_some_iff.mp heval
  obtain ⟨e, rest, hemitted⟩ : ∃ e rest, s.emitted = e :: rest :=
    exists_cons_of_ne_nil fun hnil => by rw [hnil] at heq; cases heq
  rw [hemitted] at heq
  obtain ⟨hchanges, hcontents⟩ := Prod.mk.inj (List.cons.inj heq).1
  refine ⟨s, e, hrun, by rw [hemitted]; exact mem_cons_self, hchanges, hcontents, ?_⟩
  intro hexact
  have horders := hexact "orders"
  rw [hcontents, hchanges] at horders
  exact absurd horders (by decide)

end Streaming

end Urutau
