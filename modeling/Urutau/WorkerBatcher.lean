import Urutau.GuardedRun

/-!
# The batcher and the committer of one table

A worker runs two goroutines for a table.  The batcher takes what the receiver
hands over (data batches, Closes markers, the snapshot's completion), joins it
with the reference tables, buffers it, and flushes the buffer into a channel.
The committer takes the channel's items in order: it commits a batch, or stages
it and ships its descriptor, then acks the batch's position; an item without a
batch acks the Closes markers it names.

A flush concatenates the buffered batches.  The concatenation skips the batches
without rows, and there is nothing to concatenate when none has any: the next
line of the source reads the row count of a batch that is not there.  A handler
here returns nothing exactly when the source panics on that line.
-/

namespace Urutau.WorkerBatcher

open List Option

/-- `__op`, as far as the batcher reads it: a delete may carry a before image. -/
inductive Op
  | upsert
  | delete (image : Bool)
  deriving DecidableEq, Repr

/-- One row of a wire batch; a snapshot window's row has no position. -/
structure Row (K P : Type) where
  key : K
  op : Op
  pos : Option P
  deriving DecidableEq, Repr

/-- `Batch`.  `bytes` is what Arrow reports for the record.  `owes` is no field of the
source: it names the Closes markers (by their place among the ingests) whose windows the
batch stands for, and no decision reads it. -/
structure Batch (K P : Type) where
  rows : List (Row K P)
  bytes : Nat
  watermark : Option P
  seq : Nat
  staged : Bool
  owes : List Nat
  deriving DecidableEq, Repr

/-- The table's settings: its attach-time commit mode, its write mode, what its append
mode does with deletes, and the limits of the buffer. -/
structure Settings where
  staged : Bool
  append : Bool
  appendDropDeletes : Bool
  maxRows : Nat
  maxBytes : Nat
  /-- What Arrow reports for a record without rows in the table's schema. -/
  emptyBytes : Nat
  deriving DecidableEq, Repr

/-- The outcome of the reference joins on a batch: there is no enricher, a reference is
cold and drops the whole batch, or every row that is no delete is kept or dropped. -/
inductive Join (K P : Type)
  | absent
  | cold
  | lookup (keeps : Row K P → Bool)

/-- A queued Closes marker; `place` is the marker's place among the ingests. -/
structure Marker where
  id : Nat
  place : Nat
  deriving DecidableEq, Repr

/-- `readyBatch`: a batch with the position its ack overrides, or markers alone. -/
inductive Ready (K P : Type)
  | batch (b : Batch K P) (ackPos : Option P)
  | markers (ms : List Marker)
  deriving DecidableEq, Repr

/-- `Ingest`.  The window of a Closes marker is given by the keys of the rows the live
changes left in it, or by nothing when this process does not hold it.  `bytes` is the
size of the batch once joined. -/
inductive Ingest (K P : Type)
  | data (rows : List (Row K P)) (bytes : Nat) (watermark : Option P) (seq : Nat)
      (staged : Bool) (join : Join K P)
  | closes (markerId : Nat) (position : Option P) (seq : Nat) (staged : Bool)
      (window : Option (List K)) (bytes : Nat) (join : Join K P)
  | snapshotDone (position : Option P) (seq : Nat) (staged : Bool)

/-- The two goroutines' state.  `done` is what the committer committed or shipped, `acks`
and `ackedMarkers` what it acked, `ingested` what the batcher has taken. -/
structure State (K P : Type) where
  pending : List (Batch K P)
  pendingSeq : Nat
  pendingMarkers : List Marker
  ready : List (Ready K P)
  done : List (Batch K P)
  acks : List P
  ackedMarkers : List Marker
  ingested : List (Ingest K P)
  panicked : Bool

/-- A worker just started. -/
def State.start (K P : Type) : State K P where
  pending := []
  pendingSeq := 0
  pendingMarkers := []
  ready := []
  done := []
  acks := []
  ackedMarkers := []
  ingested := []
  panicked := false

variable {K P : Type} (cfg : Settings)

def Op.isDelete : Op → Bool
  | .upsert => false
  | .delete _ => true

/-- The rows of a batch the join leaves; a delete bypasses every lookup. -/
def Join.rows : Join K P → List (Row K P) → List (Row K P)
  | .absent, rows => rows
  | .cold, _ => []
  | .lookup keeps, rows => rows.filter fun r => r.op.isDelete || keeps r

/-- `stage`: a batch of a cycle carries the coordinator's decision, any other takes the
attach-time mode. -/
def stage (b : Batch K P) : Bool := if b.seq = 0 then cfg.staged else b.staged

/-- `EmptyBatch`. -/
def emptyBatch (b : Batch K P) : Batch K P := { b with rows := [], bytes := cfg.emptyBytes }

/-- `LastRowPos`: the last positioned row's position. -/
def lastRowPos (rows : List (Row K P)) : Option P := rows.reverse.findSome? Row.pos

/-- `ConcatBatches`: the batches with rows, under the first one's metadata. -/
def concatBatches (bs : List (Batch K P)) : Option (Batch K P) :=
  let parts := bs.filter fun b => !b.rows.isEmpty
  match parts with
  | [] => none
  | first :: _ => some {
      rows := parts.flatMap Batch.rows
      bytes := (parts.map Batch.bytes).sum
      watermark := first.watermark
      seq := first.seq
      staged := parts.any Batch.staged
      owes := bs.flatMap Batch.owes }

/-- `Collapse`, its scan: of each key the last row, in the order the keys appear. -/
def winners [DecidableEq K] (rows : List (Row K P)) : List (Row K P) :=
  (rows.map Row.key).eraseDups.filterMap fun k =>
    rows.reverse.find? fun r => decide (r.key = k)

/-- `Collapse` and `MergeBatches`: the upserts ahead of the deletes. -/
def collapse [DecidableEq K] (rows : List (Row K P)) : List (Row K P) :=
  (winners rows).filter (fun r => !r.op.isDelete) ++ (winners rows).filter fun r => r.op.isDelete

/-- `appendRowsToKeep`, on one row. -/
def keepsRow (r : Row K P) : Bool :=
  match r.op with
  | .upsert => true
  | .delete image => !cfg.appendDropDeletes && image

/-- `deliverEmpty`: the empty descriptor of a cycle whose batch produced no data. -/
def deliverEmpty (b : Batch K P) : List (Ready K P) :=
  if stage cfg b = false ∨ b.seq = 0 then [] else [.batch (emptyBatch cfg b) none]

/-- `commitAppend`: the position is the merged batch's, also of the rows dropped here. -/
def commitAppend (merged : Batch K P) : List (Ready K P) :=
  let kept := merged.rows.filter (keepsRow cfg)
  if kept = [] then deliverEmpty cfg merged
  else [.batch { merged with rows := kept, watermark := lastRowPos merged.rows } none]

/-- `collapseAndSend`. -/
def collapseAndSend [DecidableEq K] (merged : Batch K P) : List (Ready K P) :=
  let combined := collapse merged.rows
  if combined = [] then deliverEmpty cfg merged
  else [.batch { merged with rows := combined, watermark := lastRowPos merged.rows } none]

/-- `queueMarkers`. -/
def queueMarkers (ms : List Marker) : List (Ready K P) := if ms = [] then [] else [.markers ms]

variable [DecidableEq K] (s : State K P)

/-- `commitPending`: what a flush hands the committer. -/
def commitPending (pending : List (Batch K P)) : Option (List (Ready K P)) :=
  if pending = [] then some []
  else (concatBatches pending).map fun merged =>
    if cfg.append then commitAppend cfg merged else collapseAndSend cfg merged

/-- `flush`, on the ticker and at the end of the channel too. -/
def flush : Option (State K P) := (commitPending cfg s.pending).map fun out =>
    { s with
      pending := []
      pendingSeq := 0
      pendingMarkers := []
      ready := s.ready ++ out ++ queueMarkers s.pendingMarkers }

/-- The limits of the buffer: a row limit of zero is none. -/
def full (pending : List (Batch K P)) : Bool :=
  (decide (0 < cfg.maxRows) && decide (cfg.maxRows ≤ (pending.map fun b => b.rows.length).sum)) ||
    decide (cfg.maxBytes ≤ (pending.map Batch.bytes).sum)

/-- A batch of another cycle than the buffered one. -/
def changesCycle (b : Batch K P) : Bool :=
  stage cfg b && !s.pending.isEmpty && decide (b.seq ≠ s.pendingSeq)

def push (b : Batch K P) : State K P := { s with pending := s.pending ++ [b], pendingSeq := b.seq }

/-- The second half of `addPending`: buffer the batch, and flush when a limit is reached. -/
def buffer (b : Batch K P) : Option (State K P) :=
  if full cfg (push s b).pending then flush cfg (push s b) else some (push s b)

/-- `addPending`. -/
def addPending (b : Batch K P) : Option (State K P) :=
  (if changesCycle cfg s b then flush cfg s else some s).bind fun s' => buffer cfg s' b

/-- `applyEnrich`: the joined batch goes to `next`.  When the join left nothing, a cycle's
empty batch is buffered and `dropped` goes on. -/
def applyEnrich (b : Batch K P) (join : Join K P)
    (next : Batch K P → Option (State K P)) (dropped : State K P → Option (State K P)) :
    Option (State K P) :=
  if join.rows b.rows = [] then
    if stage cfg b = true ∧ b.seq ≠ 0 then (addPending cfg s (emptyBatch cfg b)).bind dropped
    else dropped s
  else next { b with rows := join.rows b.rows }

/-- `handleData`.  A batch without rows is released and forgotten. -/
def handleData (b : Batch K P) (join : Join K P) : Option (State K P) :=
  if b.rows = [] then some s
  else applyEnrich cfg s b join (addPending cfg s) some

/-- The rows a window emits, as upserts without a position. -/
def windowRows (keys : List K) : List (Row K P) :=
  keys.map fun k => { key := k, op := .upsert, pos := none }

/-- The markers a Closes marker without rows in the buffer queues at once. -/
def queueAtOnce (m : Marker) (s : State K P) : Option (State K P) :=
  some { s with ready := s.ready ++ queueMarkers (if m.id = 0 then [] else [m]) }

/-- `handleCloses` with the `closesBatch` it calls.  A window that emits nothing owes its
cycle an empty delivery.  A window with rows registers its marker with the buffer first,
then buffers the rows. -/
def handleCloses (m : Marker) (position : Option P)
    (seq : Nat) (staged : Bool) (window : Option (List K)) (bytes : Nat) (join : Join K P) :
    Option (State K P) :=
  let owner : Batch K P :=
    { rows := [], bytes := cfg.emptyBytes, watermark := position, seq := seq,
      staged := staged, owes := [m.place] }
  match window.getD [] with
  | [] => queueAtOnce m { s with ready := s.ready ++ deliverEmpty cfg owner }
  | k :: ks =>
    let cb := { owner with rows := windowRows (k :: ks), bytes := bytes, watermark := none }
    applyEnrich cfg s cb join (addPending cfg
        { s with pendingMarkers := s.pendingMarkers ++ if m.id = 0 then [] else [m] })
      (queueAtOnce m)

/-- `handleSnapshotDone`: the completion goes out behind the buffer, without a position of
its own; its ack carries the marker's. -/
def handleSnapshotDone (position : Option P) (seq : Nat) (staged : Bool) : Option (State K P) :=
  (flush cfg s).map fun s' =>
    { s' with
      ready := s'.ready ++ [.batch
        { rows := [], bytes := cfg.emptyBytes, watermark := none, seq := seq,
          staged := staged, owes := [] } position] }

/-- `handleIngest`. -/
def handleIngest : Ingest K P → Option (State K P)
  | .data rows bytes watermark seq staged join =>
    handleData cfg s
      { rows := rows, bytes := bytes, watermark := watermark, seq := seq, staged := staged,
        owes := [] } join
  | .closes markerId position seq staged window bytes join =>
    handleCloses cfg s { id := markerId, place := s.ingested.length } position seq staged
      window bytes join
  | .snapshotDone position seq staged => handleSnapshotDone cfg s position seq staged

/-- One item of `runCommitter`. -/
def commitNext : Option (State K P) :=
  match s.ready with
  | [] => none
  | .markers ms :: rest =>
    some { s with ready := rest, ackedMarkers := s.ackedMarkers ++ ms }
  | .batch b ackPos :: rest =>
    some { s with
      ready := rest
      done := s.done ++ [b]
      acks := s.acks ++ (ackPos.or b.watermark).toList }

/-- What the two goroutines do, one thing at a time.  An ingest is counted as received when
the batcher takes it: the channel ahead of it keeps the order. -/
inductive Action (K P : Type)
  | ingest (i : Ingest K P)
  | flush
  | commit

/-- A panic ends the process: the state it is found in takes no further action. -/
def settle : Option (State K P) → State K P
  | none => { s with panicked := true }
  | some s' => s'

/-- One step of the pair. -/
def step (a : Action K P) : Option (State K P) :=
  if s.panicked then none
  else match a with
  | .ingest i =>
    let s' := settle s (handleIngest cfg s i)
    some { s' with ingested := s.ingested ++ [i] }
  | .flush => some (settle s (flush cfg s))
  | .commit => commitNext s

/-- A cycle's sequence number, zero for what is no cycle. -/
def Ingest.seq : Ingest K P → Nat
  | .data _ _ _ seq _ _ => seq
  | .closes _ _ seq _ _ _ _ => seq
  | .snapshotDone _ seq _ => seq

/-- The coordinator's decision for an ingest. -/
def Ingest.staged : Ingest K P → Bool
  | .data _ _ _ _ staged _ => staged
  | .closes _ _ _ staged _ _ _ => staged
  | .snapshotDone _ _ staged => staged

/-- An inner join with a reference table that knows key 1 only. -/
def innerJoin : Join Nat Nat := .lookup fun r => decide (r.key = 1)

/-! ## What each function can do -/

omit [DecidableEq K] in
/-- The last position is that of the later rows. -/
theorem lastRowPos_append (l l' : List (Row K P)) :
    lastRowPos (l ++ l') = (lastRowPos l').or (lastRowPos l) := by
  simp [lastRowPos, findSome?_append]

omit [DecidableEq K] in
@[simp] theorem Join.rows_nil (join : Join K P) : join.rows [] = [] := by
  cases join <;> rfl

omit [DecidableEq K] in
/-- What the join leaves of a window is upserts still. -/
theorem Join.exists_upsert (join : Join K P) {keys : List K}
    (hleft : join.rows (windowRows keys) ≠ []) :
    ∃ r ∈ join.rows (windowRows keys), r.op = .upsert := by
  obtain ⟨r, hr⟩ := exists_mem_of_ne_nil _ hleft
  refine ⟨r, hr, ?_⟩
  have hrow : r ∈ windowRows keys := by
    cases join with
    | absent => exact hr
    | cold => cases hr
    | lookup keeps => exact (mem_filter.mp hr).1
  obtain ⟨k, _, rfl⟩ := mem_map.mp hrow
  rfl

variable {s s' : State K P} {cfg : Settings} {b : Batch K P}

variable {dropped : State K P → Option (State K P)} {join : Join K P}
  {next : Batch K P → Option (State K P)} {bs : List (Batch K P)} {a : Action K P}

/-- A batch the join leaves a row of. -/
theorem applyEnrich_kept (hleft : join.rows b.rows ≠ []) :
    applyEnrich cfg s b join next dropped = next { b with rows := join.rows b.rows } := by
  rw [applyEnrich, if_neg hleft]

/-- Where no cycle is owed a delivery, a batch the join swallows leaves no trace. -/
theorem applyEnrich_dropped (hleft : join.rows b.rows = [])
    (hnone : stage cfg b = false ∨ b.seq = 0) :
    applyEnrich cfg s b join next dropped = dropped s := by
  rw [applyEnrich, if_pos hleft, if_neg]
  intro hcycle
  rcases hnone with hdirect | hzero
  · exact absurd (hcycle.1.symm.trans hdirect) (by decide)
  · exact hcycle.2 hzero

/-- A collapse keeps a row of every key. -/
theorem collapse_ne_nil {rows : List (Row K P)} (h : rows ≠ []) : collapse rows ≠ [] := by
  obtain ⟨r, rest, hcons⟩ := exists_cons_of_ne_nil h
  have hr : r ∈ rows := hcons ▸ mem_cons_self
  have hkey : r.key ∈ (rows.map Row.key).eraseDups := by
    simpa using ⟨r, hr, rfl⟩
  cases hfind : rows.reverse.find? fun r' => decide (r'.key = r.key) with
  | none => simpa using find?_eq_none.mp hfind r (mem_reverse.mpr hr)
  | some w =>
    have hwin : w ∈ winners rows := mem_filterMap.mpr ⟨r.key, hkey, hfind⟩
    intro hnil
    obtain ⟨hup, hdel⟩ := append_eq_nil_iff.mp hnil
    cases hop : w.op.isDelete with
    | true => exact not_mem_nil (hdel ▸ mem_filter.mpr ⟨hwin, hop⟩)
    | false =>
      exact not_mem_nil (hup ▸ mem_filter.mpr ⟨hwin, by simp [hop]⟩)

omit [DecidableEq K] in
/-- A concatenation holds the rows of all its parts, under the metadata of one of them. -/
theorem concatBatches_some {merged : Batch K P} (h : concatBatches bs = some merged) :
    merged.rows = bs.flatMap Batch.rows ∧ merged.rows ≠ [] ∧ merged.owes = bs.flatMap Batch.owes ∧
      ∃ first ∈ bs, merged.seq = first.seq ∧
        merged.staged = (bs.filter fun b => !b.rows.isEmpty).any Batch.staged ∧
        first ∈ bs.filter fun b => !b.rows.isEmpty := by
  have hrows : ∀ l : List (Batch K P),
      (l.filter fun b => !b.rows.isEmpty).flatMap Batch.rows = l.flatMap Batch.rows := by
    intro l
    induction l with
    | nil => rfl
    | cons b rest ih =>
      cases hb : b.rows with
      | nil => simp [hb, ih]
      | cons r rs => simp [hb, ih]
  cases hparts : bs.filter fun b => !b.rows.isEmpty with
  | nil => simp [concatBatches, hparts] at h
  | cons first rest =>
    have hmem : first ∈ bs.filter fun b => !b.rows.isEmpty := hparts ▸ mem_cons_self
    obtain ⟨hbs, hfirst⟩ := mem_filter.mp hmem
    simp only [concatBatches, hparts, some.injEq] at h
    subst h
    refine ⟨?_, ?_, rfl, first, hbs, rfl, rfl, mem_cons_self⟩
    · rw [← hrows bs, hparts]
    · intro hnil
      simp [(append_eq_nil_iff.mp hnil).1] at hfirst

omit [DecidableEq K] in
/-- There is something to concatenate as soon as one batch has a row. -/
theorem concatBatches_isSome (hb : b ∈ bs) (hrows : b.rows ≠ []) :
    ∃ merged, concatBatches bs = some merged := by
  have hmem : b ∈ bs.filter fun b => !b.rows.isEmpty := mem_filter.mpr ⟨hb, by simpa using hrows⟩
  cases hparts : bs.filter fun b => !b.rows.isEmpty with
  | nil => exact absurd (hparts ▸ hmem) not_mem_nil
  | cons first rest => exact ⟨_, by simp only [concatBatches, hparts]; rfl⟩

/-- A flush of a buffer hands over one batch with rows, unless the append mode kept none of
them: then it hands over the empty delivery, if one is owed. -/
theorem commitPending_some {pending : List (Batch K P)} {out : List (Ready K P)}
    (hne : pending ≠ []) (h : commitPending cfg pending = some out) :
    ∃ merged, concatBatches pending = some merged ∧ ((∃ rows, rows ≠ [] ∧
          out = [.batch { merged with rows := rows, watermark := lastRowPos merged.rows } none]) ∨
        (cfg.append = true ∧ (∀ r ∈ merged.rows, keepsRow cfg r = false) ∧
          out = deliverEmpty cfg merged)) := by
  rw [commitPending, if_neg hne, map_eq_some_iff] at h
  obtain ⟨merged, hmerged, rfl⟩ := h
  refine ⟨merged, hmerged, ?_⟩
  have hrows := (concatBatches_some hmerged).2.1
  by_cases happend : cfg.append = true
  · rw [if_pos happend]
    by_cases hkept : merged.rows.filter (keepsRow cfg) = []
    · refine .inr ⟨happend, ?_, by simp [commitAppend, hkept]⟩
      intro r hr
      simpa using filter_eq_nil_iff.mp hkept r hr
    · exact .inl ⟨_, hkept, by simp [commitAppend, hkept]⟩
  · rw [if_neg happend]
    exact .inl ⟨_, collapse_ne_nil hrows, by simp [collapseAndSend, collapse_ne_nil hrows]⟩

/-- A flush sends what it commits and empties the buffer. -/
theorem flush_some (h : flush cfg s = some s') : ∃ out, commitPending cfg s.pending = some out ∧
      s' = { s with
        pending := []
        pendingSeq := 0
        pendingMarkers := []
        ready := s.ready ++ out ++ queueMarkers s.pendingMarkers } := by
  obtain ⟨out, hout, rfl⟩ := map_eq_some_iff.mp h
  exact ⟨out, hout, rfl⟩

theorem flush_ingested (h : flush cfg s = some s') : s'.ingested = s.ingested := by
  obtain ⟨out, _, rfl⟩ := flush_some h
  rfl

/-- A flush panics only on a buffer of batches without rows. -/
theorem flush_isSome (cfg : Settings) (h : ∀ b ∈ s.pending, b.rows ≠ []) :
    ∃ s', flush cfg s = some s' := by
  cases hpending : s.pending with
  | nil => exact ⟨_, by simp only [flush, hpending]; rfl⟩
  | cons b rest =>
    have hb : b ∈ s.pending := hpending ▸ mem_cons_self
    obtain ⟨merged, hmerged⟩ := concatBatches_isSome hb (h b hb)
    have hne : s.pending ≠ [] := ne_nil_of_mem hb
    exact ⟨_, by simp only [flush, commitPending, hne, hmerged]; rfl⟩

/-- `addPending` flushes first when the cycle changes, buffers the batch, and may flush
again. -/
theorem addPending_some (h : addPending cfg s b = some s') :
    ∃ t, ((changesCycle cfg s b = false ∧ t = s) ∨
        (changesCycle cfg s b = true ∧ flush cfg s = some t)) ∧
      (s' = push t b ∨ flush cfg (push t b) = some s') := by
  obtain ⟨t, ht, hbuffer⟩ := bind_eq_some_iff.mp h
  refine ⟨t, ?_, ?_⟩
  · cases hchange : changesCycle cfg s b with
    | false =>
      simp only [hchange, Bool.false_eq_true, if_false, some.injEq] at ht
      exact .inl ⟨rfl, ht.symm⟩
    | true =>
      simp only [hchange] at ht
      exact .inr ⟨rfl, ht⟩
  · rw [buffer] at hbuffer
    split at hbuffer
    · exact .inr hbuffer
    · exact .inl (some.inj hbuffer).symm

/-- Batches with rows can be added without a panic. -/
theorem addPending_isSome (cfg : Settings) (h : ∀ b ∈ s.pending, b.rows ≠ []) (hb : b.rows ≠ []) :
    ∃ s', addPending cfg s b = some s' := by
  have hbuffer : ∀ t : State K P, (∀ c ∈ t.pending, c.rows ≠ []) →
      ∃ s', buffer cfg t b = some s' := by
    intro t ht
    rw [buffer]
    split
    · exact flush_isSome cfg (Runs.forall_mem_concat.mpr ⟨ht, hb⟩)
    · exact ⟨_, rfl⟩
  rw [addPending]
  split
  · obtain ⟨t, ht⟩ := flush_isSome cfg h
    obtain ⟨out, _, rfl⟩ := flush_some ht
    rw [ht]
    exact hbuffer _ (by simp)
  · exact hbuffer s h

omit [DecidableEq K] in
/-- A commit takes the first item. -/
theorem commitNext_some (h : commitNext s = some s') : (∃ ms rest, s.ready = .markers ms :: rest ∧
        s' = { s with ready := rest, ackedMarkers := s.ackedMarkers ++ ms }) ∨
      ∃ b ackPos rest, s.ready = .batch b ackPos :: rest ∧ s' = { s with
          ready := rest
          done := s.done ++ [b]
          acks := s.acks ++ (ackPos.or b.watermark).toList } := by
  rw [commitNext] at h
  split at h
  · cases h
  · exact .inl ⟨_, _, ‹_›, (some.inj h).symm⟩
  · exact .inr ⟨_, _, _, ‹_›, (some.inj h).symm⟩

omit [DecidableEq K] in
theorem commitNext_ingested (h : commitNext s = some s') : s'.ingested = s.ingested := by
  rcases commitNext_some h with ⟨_, _, _, rfl⟩ | ⟨_, _, _, _, rfl⟩ <;> rfl

/-- A step is an ingest handled, an ingest that ends in a panic, a flush, a flush that ends
in one, or an item committed. -/
theorem step_some (h : step cfg s a = some s') : s.panicked = false ∧
      ((∃ i t, a = .ingest i ∧ handleIngest cfg s i = some t ∧
          s' = { t with ingested := s.ingested ++ [i] }) ∨
        (∃ i, a = .ingest i ∧ handleIngest cfg s i = none ∧
          s' = { s with panicked := true, ingested := s.ingested ++ [i] }) ∨
        (a = .flush ∧ flush cfg s = some s') ∨
        (a = .flush ∧ flush cfg s = none ∧ s' = { s with panicked := true }) ∨
        (a = .commit ∧ commitNext s = some s')) := by
  cases hpanicked : s.panicked with
  | true => simp [step, hpanicked] at h
  | false =>
    simp only [step, hpanicked, Bool.false_eq_true, if_false] at h
    refine ⟨rfl, ?_⟩
    cases a with
    | ingest i =>
      cases ht : handleIngest cfg s i with
      | none =>
        simp only [ht, some.injEq] at h
        exact .inr (.inl ⟨i, rfl, ht, h.symm⟩)
      | some t =>
        simp only [ht, some.injEq] at h
        exact .inl ⟨i, t, rfl, ht, h.symm⟩
    | flush =>
      cases ht : flush cfg s with
      | none =>
        simp only [ht, some.injEq] at h
        exact .inr (.inr (.inr (.inl ⟨rfl, rfl, h.symm⟩)))
      | some t =>
        simp only [ht, some.injEq] at h
        exact .inr (.inr (.inl ⟨rfl, congrArg some h⟩))
    | commit => exact .inr (.inr (.inr (.inr ⟨rfl, h⟩)))

/-- The committer empties the channel. -/
theorem commits_drain (cfg : Settings) :
    ∀ (items : List (Ready K P)) (s : State K P), s.ready = items → s.panicked = false →
      ∃ t, Runs.run (step cfg) s (List.replicate items.length .commit) = some t ∧
        t.pending = s.pending ∧ t.ready = [] ∧ t.ingested = s.ingested := by
  intro items
  induction items with
  | nil => exact fun s hready _ => ⟨s, rfl, rfl, hready, rfl⟩
  | cons item rest ih =>
    intro s hready halive
    have hnext : ∃ s', commitNext s = some s' := by
      cases item <;> simp [commitNext, hready]
    obtain ⟨s', hs'⟩ := hnext
    have hstep : step cfg s .commit = some s' := by simp [step, halive, hs']
    have hkeeps : s'.ready = rest ∧ s'.panicked = false ∧ s'.pending = s.pending ∧
        s'.ingested = s.ingested := by
      rcases commitNext_some hs' with ⟨ms, more, hhead, rfl⟩ | ⟨b, ackPos, more, hhead, rfl⟩
      · exact ⟨(List.cons.inj (hready.symm.trans hhead)).2.symm, halive, rfl, rfl⟩
      · exact ⟨(List.cons.inj (hready.symm.trans hhead)).2.symm, halive, rfl, rfl⟩
    obtain ⟨hready', halive', hpending, hingested⟩ := hkeeps
    obtain ⟨t, ht, htp, htr, hti⟩ := ih s' hready' halive'
    refine ⟨t, ?_, htp.trans hpending, htr, hti.trans hingested⟩
    rw [length_cons, replicate_succ, Runs.run_cons hstep]
    exact ht

omit [DecidableEq K] in
theorem flush_or_commit {n : Nat}
    (ha : a ∈ (.flush :: List.replicate n .commit : List (Action K P))) :
    a = .flush ∨ a = .commit := by
  rcases mem_cons.mp ha with rfl | ha
  · exact .inl rfl
  · exact .inr (mem_replicate.mp ha).2

/-- From a state whose buffer can be flushed, the end of the channel and the committer
empty everything. -/
theorem drains (halive : s.panicked = false) (hflush : ∃ s', flush cfg s = some s') :
    ∃ n t, Runs.run (step cfg) s (.flush :: List.replicate n .commit) = some t ∧
      t.pending = [] ∧ t.ready = [] ∧ t.ingested = s.ingested := by
  obtain ⟨s', hs'⟩ := hflush
  obtain ⟨out, hout, hs'eq⟩ := flush_some hs'
  have hstep : step cfg s .flush = some s' := by
    simp [step, halive, hs', settle]
  have halive' : s'.panicked = false := by rw [hs'eq]; exact halive
  obtain ⟨t, ht, htp, htr, hti⟩ := commits_drain cfg s'.ready s' rfl halive'
  refine ⟨s'.ready.length, t, ?_, ?_, htr, ?_⟩
  · rw [Runs.run_cons hstep]
    exact ht
  · rw [htp, hs'eq]
  · rw [hti, hs'eq]

end Urutau.WorkerBatcher
