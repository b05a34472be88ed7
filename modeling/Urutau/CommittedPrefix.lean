import Urutau.InFlightIndex
import Urutau.TransactionStamping

/-!
# What a committed position says about a table

A worker commits a table's batches in the order they were emitted, so what is
durable is a prefix of them, and the committed position is the high position
of the last batch of that prefix.  When the transactions were stamped right,
every batch behind the prefix belongs to a transaction that commits strictly
beyond the committed position.  A batch that is not partial and lies at or
before the committed position therefore holds durable rows only, in the same
run or in any replay of the log, however the replay interleaves its tables.
-/

namespace Urutau

open List EncodedRow Position Batch

section Contents

variable {P : Type} {kind : ReaderKind} {cfg : String → Option TableConfig}
  {r r' : Reader P} {txn : Txn P} {out : List (Batch P)}

/-- What the rows of a batch say. -/
def Batch.contents (b : Batch P) : List (Op × List Cell) := b.rows.map content

/-- What a change says once it is a row of its table. -/
def contentOf (d : Dialect) (cfg : String → Option TableConfig) (c : Change) : Op × List Cell :=
  (rowOf d cfg () c).content

/-- The contents of one table in a list of batches. -/
def contentsOf (out : List (Batch P)) (table : String) : List (Op × List Cell) :=
  (out.filter (fun b => b.table = table)).flatMap contents

theorem rowOf_content (d : Dialect) (cfg : String → Option TableConfig) (pos : P) (c : Change) :
    (rowOf d cfg pos c).content = contentOf d cfg c := by
  unfold contentOf rowOf
  split <;> rfl

theorem withPosition_content (rows : List (EncodedRow P)) (pos : P) :
    (withPosition rows pos).map content = rows.map content := by
  rw [withPosition, map_map]
  rfl

/-- The batches of the held records have their contents. -/
private theorem contentsOf_zipIdx (f : HeldRec P × Nat → Batch P)
    (htable : ∀ x, (f x).table = x.1.target) (hrows : ∀ x, (f x).contents = x.1.rows.map content)
    (held : List (HeldRec P)) (n : Nat) (table : String) :
    contentsOf ((held.zipIdx n).map f) table = (recordsOf held table).flatten.map content := by
  induction held generalizing n with
  | nil => rfl
  | cons rec rest ih =>
    have ih := ih (n + 1)
    simp only [contentsOf, recordsOf] at ih ⊢
    by_cases heq : rec.target = table <;>
      simp [zipIdx_cons, htable, hrows, heq, ih]

/-- Stamping changes no content. -/
theorem contentsOf_stamp (kind : ReaderKind) (pos : P) (held : List (HeldRec P)) (table : String) :
    contentsOf (kind.stamp pos held) table = (recordsOf held table).flatten.map content := by
  cases kind with
  | mysql =>
    refine contentsOf_zipIdx _ (fun x => ?_) (fun x => ?_) held 0 table
    · split <;> rfl
    · split
      · rfl
      · exact withPosition_content _ _
  | postgres =>
    refine contentsOf_zipIdx _ (fun x => ?_) (fun x => ?_) held 0 table
    · split <;> rfl
    · split
      · exact withPosition_content _ _
      · rfl

/-- **No row is lost or added by decoding**: a table's batches hold the
table's changes of the transaction, in order. -/
theorem decodeTxn_contents (hi : r.Idle kind.dialect cfg)
    (h : decodeTxn kind cfg r txn = .ok (r', out)) (table : String) :
    contentsOf out table = (changesOf txn.changes table).map (contentOf kind.dialect cfg) := by
  obtain ⟨r₁, happ, rfl, -⟩ := decodeTxn_ok h
  rw [contentsOf_stamp, recordsOf_held_of_idle hi happ, flatten_cutRows Buffer.counted_empty]
  simp [rowsOf, changesOf, rowOf_content]

theorem mem_contentsOf {b : Batch P} {table : String} {x : Op × List Cell} (hb : b ∈ out)
    (htable : b.table = table) (hx : x ∈ b.contents) : x ∈ contentsOf out table :=
  mem_flatMap.mpr ⟨b, by simp [hb, htable], hx⟩

/-- A transaction that changed nothing leaves the safe position alone; any
other moves it to its commit. -/
theorem decodeTxn_safePos (hi : r.Idle kind.dialect cfg)
    (h : decodeTxn kind cfg r txn = .ok (r', out)) :
    r'.safePos = if txn.changes = [] then r.safePos else txn.commit := by
  obtain ⟨r₁, happ, -, -, -, hsafe⟩ := decodeTxn_ok h
  have hkeep := (appendAll_records hi.built happ).2.1
  have hiff : r₁.held = [] ↔ txn.changes = [] := by
    constructor
    · intro hnil
      by_contra hne
      obtain ⟨c, hc⟩ := exists_mem_of_ne_nil _ hne
      obtain ⟨rec, hrec, -⟩ := (exists_held_iff hi happ c.target).mpr ⟨c, hc, rfl⟩
      simp [hnil] at hrec
    · intro hnil
      by_contra hne
      obtain ⟨rec, hrec⟩ := exists_mem_of_ne_nil _ hne
      obtain ⟨c, hc, -⟩ := (exists_held_iff hi happ rec.target).mp ⟨rec, hrec, rfl⟩
      simp [hnil] at hc
  rw [hsafe, hkeep]
  simp only [hiff]

end Contents

/-! ## Logs -/

section Logs

variable {P : Type} {kind : ReaderKind} {cfg : String → Option TableConfig}
  {r r' : Reader P} {txns : List (Txn P)} {outs : List (List (Batch P))}

/-- Decode a log; the batches are kept by transaction. -/
def decodeLog (kind : ReaderKind) (cfg : String → Option TableConfig) (r : Reader P) :
    List (Txn P) → Except String (Reader P × List (List (Batch P)))
  | [] => .ok (r, [])
  | txn :: rest =>
    match decodeTxn kind cfg r txn with
    | .error e => .error e
    | .ok (r₁, out) =>
      match decodeLog kind cfg r₁ rest with
      | .error e => .error e
      | .ok (r', outs) => .ok (r', out :: outs)

/-- Every transaction of a log is one the reader stamps right, from the safe
position it is decoded at. -/
def AllStampRight (kind : ReaderKind) (cfg : String → Option TableConfig) : P → List (Txn P) → Prop
  | _, [] => True
  | safe, txn :: rest =>
    StampsRight kind cfg safe txn ∧
      AllStampRight kind cfg (if txn.changes = [] then safe else txn.commit) rest

/-- Each batch with the commit position of its transaction. -/
def tagged (txns : List (Txn P)) (outs : List (List (Batch P))) : List (P × Batch P) :=
  (txns.zip outs).flatMap (fun x => x.2.map (fun b => (x.1.commit, b)))

variable {txn : Txn P} {commit safe : P}

/-- The first transaction is decoded first. -/
theorem decodeLog_cons {rest : List (Txn P)}
    (h : decodeLog kind cfg r (txn :: rest) = .ok (r', outs)) :
    ∃ r₁ out outs', decodeTxn kind cfg r txn = .ok (r₁, out) ∧
      decodeLog kind cfg r₁ rest = .ok (r', outs') ∧ outs = out :: outs' := by
  simp only [decodeLog] at h
  cases htxn : decodeTxn kind cfg r txn with
  | error e => simp [htxn] at h
  | ok x =>
    obtain ⟨r₁, out⟩ := x
    simp only [htxn] at h
    cases hlog : decodeLog kind cfg r₁ rest with
    | error e => simp [hlog] at h
    | ok y =>
      obtain ⟨r₂, outs'⟩ := y
      simp only [hlog] at h
      obtain ⟨rfl, rfl⟩ := h
      exact ⟨r₁, out, outs', rfl, hlog, rfl⟩

theorem tagged_map_snd (h : decodeLog kind cfg r txns = .ok (r', outs)) :
    (tagged txns outs).map Prod.snd = outs.flatten := by
  induction txns generalizing r outs with
  | nil =>
    cases h
    rfl
  | cons txn rest ih =>
    obtain ⟨r₁, out, outs', -, hlog, rfl⟩ := decodeLog_cons h
    have hrest := ih hlog
    simp only [tagged] at hrest
    simp [tagged, hrest, Function.comp_def]

variable {b : Batch P}

/-- A batch's high position is the one it carries. -/
theorem Batch.Carries.highPos {pos : P} (h : b.Carries pos) : b.highPos = some pos := by
  obtain ⟨hne, hall⟩ := h
  rw [Batch.highPos, getLast?_eq_some_getLast hne, Option.map_some, hall _ (getLast_mem hne)]

variable {out : List (Batch P)}

section

variable (h : StampedRight safe commit out) (hb : b ∈ out)
include h hb

/-- In a batch list stamped right, a batch that is not partial carries the
commit position. -/
theorem StampedRight.carries_commit (hp : b.isPartial = false) : b.Carries commit := by
  obtain ⟨i, hi⟩ := mem_iff_getElem?.mp hb
  by_cases hc : Continued out i b.table
  · rw [((h i b hi).1 hc).1] at hp
    cases hp
  · exact ((h i b hi).2 hc).2

/-- A batch stamped right carries the safe or the commit position. -/
theorem StampedRight.carries : b.Carries safe ∨ b.Carries commit := by
  obtain ⟨i, hi⟩ := mem_iff_getElem?.mp hb
  by_cases hc : Continued out i b.table
  · exact .inl ((h i b hi).1 hc).2
  · exact .inr ((h i b hi).2 hc).2

end

theorem mem_tagged {x : P × Batch P} (h : x ∈ tagged txns outs) :
    ∃ txn ∈ txns, ∃ out ∈ outs, x.1 = txn.commit ∧ x.2 ∈ out := by
  obtain ⟨⟨txn, out⟩, hmem, hx⟩ := mem_flatMap.mp h
  obtain ⟨b, hb, rfl⟩ := mem_map.mp hx
  exact ⟨txn, (of_mem_zip hmem).1, out, (of_mem_zip hmem).2, rfl, hb⟩

section

variable (hi : r.Idle kind.dialect cfg) (h : decodeLog kind cfg r txns = .ok (r', outs))
include hi h

/-- Each batch of a decoded log comes from one of its transactions, with the
table's changes of that transaction for contents, and carries its commit
position unless it is partial. -/
theorem decodeLog_mem (hright : AllStampRight kind cfg r.safePos txns) (hb : b ∈ outs.flatten) :
    ∃ txn ∈ txns, (b.isPartial = false → b.Carries txn.commit) ∧
      ∀ x ∈ b.contents, x ∈ (changesOf txn.changes b.table).map (contentOf kind.dialect cfg) := by
  induction txns generalizing r outs with
  | nil =>
    cases h
    simp at hb
  | cons txn rest ih =>
    obtain ⟨r₁, out, outs', htxn, hlog, rfl⟩ := decodeLog_cons h
    obtain ⟨hone, hrest⟩ := hright
    rw [flatten_cons, mem_append] at hb
    rcases hb with hb | hb
    · refine ⟨txn, mem_cons_self, fun hp => ?_, fun x hx => ?_⟩
      · exact ((decodeTxn_stampedRight_iff hi htxn).mpr hone).carries_commit hb hp
      · rw [← decodeTxn_contents hi htxn]
        exact mem_contentsOf hb rfl hx
    · obtain ⟨txn', hmem, hrest'⟩ := ih (decodeTxn_idle hi htxn) hlog
        (decodeTxn_safePos hi htxn ▸ hrest) hb
      exact ⟨txn', mem_cons_of_mem _ hmem, hrest'⟩

/-- Every change of a decoded log is in one of its batches, tagged with its
transaction's commit position. -/
theorem decodeLog_complete (htxn : txn ∈ txns) {table : String} {x : Op × List Cell}
    (hx : x ∈ (changesOf txn.changes table).map (contentOf kind.dialect cfg)) :
    ∃ b, (txn.commit, b) ∈ tagged txns outs ∧ b.table = table ∧ x ∈ b.contents := by
  induction txns generalizing r outs with
  | nil => cases htxn
  | cons txn' rest ih =>
    obtain ⟨r₁, out, outs', hdec, hlog, rfl⟩ := decodeLog_cons h
    rcases mem_cons.mp htxn with rfl | htxn
    · rw [← decodeTxn_contents hi hdec] at hx
      obtain ⟨b, hb, hxb⟩ := mem_flatMap.mp hx
      simp only [mem_filter, decide_eq_true_eq] at hb
      exact ⟨b, mem_append_left _ (mem_map.mpr ⟨b, hb.1, rfl⟩), hb.2, hxb⟩
    · obtain ⟨b, hmem, hrest⟩ := ih (decodeTxn_idle hi hdec) hlog htxn
      exact ⟨b, mem_append_right _ hmem, hrest⟩

end

variable [Position P]

/-- The commit positions of a log advance, and all lie beyond its start. -/
def Ascending (start : P) (txns : List (Txn P)) : Prop :=
  (start :: txns.map Txn.commit).Pairwise (fun p q => advances q p = true)

/-- The later of two batches of one table belongs to a transaction that
commits strictly beyond the earlier one's high position. -/
def Outruns (x y : P × Batch P) : Prop :=
  x.2.table = y.2.table → ∀ pos, x.2.highPos = some pos → advances y.1 pos = true

/-- The commit lies beyond all but a table's last batch. -/
private theorem outruns_within {safe commit : P} (h : StampedRight safe commit out)
    (hadv : advances commit safe = true) : (out.map (fun b => (commit, b))).Pairwise Outruns := by
  rw [pairwise_map, pairwise_iff_getElem]
  intro i j hi hj hij htable pos hpos
  have hcont : Continued out i (out[i]).table :=
    ⟨j, out[j], hij, getElem?_eq_getElem hj, htable.symm⟩
  have hcarries := ((h i _ (getElem?_eq_getElem hi)).1 hcont).2
  rw [hcarries.highPos, Option.some.injEq] at hpos
  exact hpos ▸ hadv

/-- **The order of a stamped log.**  Batches of one table outrun each other in
emission order. -/
theorem decodeLog_outruns (hi : r.Idle kind.dialect cfg)
    (h : decodeLog kind cfg r txns = .ok (r', outs))
    (hright : AllStampRight kind cfg r.safePos txns) (hasc : Ascending r.safePos txns) :
    (tagged txns outs).Pairwise Outruns := by
  induction txns generalizing r outs with
  | nil =>
    exact .nil
  | cons txn rest ih =>
    obtain ⟨r₁, out, outs', htxn, hlog, rfl⟩ := decodeLog_cons h
    obtain ⟨hone, hrest⟩ := hright
    have hstamped := (decodeTxn_stampedRight_iff hi htxn).mpr hone
    have hsafe₁ := decodeTxn_safePos hi htxn
    -- The commit positions of the rest lie beyond both stamps of this transaction.
    simp only [Ascending, map_cons, pairwise_cons, mem_cons, forall_eq_or_imp] at hasc
    obtain ⟨⟨hcommit, hbeyondSafe⟩, hbeyond, hascRest⟩ := hasc
    have hasc₁ : Ascending r₁.safePos rest := by
      rw [hsafe₁, Ascending, pairwise_cons]
      refine ⟨fun q hq => ?_, hascRest⟩
      split
      · exact hbeyondSafe q hq
      · exact hbeyond q hq
    have hih := ih (decodeTxn_idle hi htxn) hlog (hsafe₁ ▸ hrest) hasc₁
    have hcons : tagged (txn :: rest) (out :: outs') =
        out.map (fun b => (txn.commit, b)) ++ tagged rest outs' := by
      simp [tagged]
    rw [hcons, pairwise_append]
    refine ⟨outruns_within hstamped hcommit, hih, fun x hx y hy htable pos hpos => ?_⟩
    obtain ⟨b, hb, rfl⟩ := mem_map.mp hx
    obtain ⟨txn', htxn', _, _, hy1, _⟩ := mem_tagged hy
    have hmem : y.1 ∈ rest.map Txn.commit := mem_map.mpr ⟨txn', htxn', hy1.symm⟩
    rcases hstamped.carries hb with hc | hc
    · rw [hc.highPos, Option.some.injEq] at hpos
      exact hpos ▸ hbeyondSafe y.1 hmem
    · rw [hc.highPos, Option.some.injEq] at hpos
      exact hpos ▸ hbeyond y.1 hmem

end Logs

/-! ## Skipping and acking what a commit covers -/

section Durable

/-- A first run over a log and how far a table of it is durable: the batches
committed are a prefix of the table's batches, the last of them at
`position`. -/
structure CommittedRun (P : Type) [Position P] (kind : ReaderKind)
    (cfg : String → Option TableConfig) where
  start : Reader P
  txns : List (Txn P)
  outs : List (List (Batch P))
  idle : start.Idle kind.dialect cfg
  decoded : ∃ final, decodeLog kind cfg start txns = .ok (final, outs)
  stampRight : AllStampRight kind cfg start.safePos txns
  ascending : Ascending start.safePos txns
  table : String
  committed : List (Batch P)
  committed_isPrefix : committed <+: outs.flatten.filter (fun b => b.table = table)
  position : P
  last_committed : committed.getLast?.bind highPos = some position

/-- A later decoding of the same log from a transaction boundary: a restart's
replay, or the same run again. -/
structure Replay {P : Type} [Position P] {kind : ReaderKind}
    {cfg : String → Option TableConfig} (run : CommittedRun P kind cfg) where
  skipped : Nat
  start : Reader P
  outs : List (List (Batch P))
  idle : start.Idle kind.dialect cfg
  decoded : ∃ final, decodeLog kind cfg start (run.txns.drop skipped) = .ok (final, outs)
  stampRight : AllStampRight kind cfg start.safePos (run.txns.drop skipped)

/-- The metadata a batch is sent with. -/
def Batch.info {P : Type} (b : Batch P) (id : Nat) (window : Option WindowTag) : BatchMeta P :=
  ⟨id, b.table, b.highPos, b.isPartial, window⟩

/-- The in-flight entry of a batch. -/
def Batch.inFlight {P : Type} (b : Batch P) (id bytes : Nat) (oversized : Bool) : InFlightBatch P :=
  ⟨id, b.table, b.highPos, bytes, oversized, false, b.isPartial⟩

variable {P : Type} [Position P] {kind : ReaderKind} {cfg : String → Option TableConfig}

/-- **What a committed position covers is durable.**  A batch of the table that
is not partial and lies at or before the committed position holds only rows of
committed batches. -/
theorem Replay.durable_of_covered {run : CommittedRun P kind cfg} (replay : Replay run)
    {b : Batch P} (hb : b ∈ replay.outs.flatten) (htable : b.table = run.table)
    (hp : b.isPartial = false) {high : P} (hhigh : b.highPos = some high)
    (hcov : Position.covered high run.position = true) :
    ∀ x ∈ b.contents, x ∈ run.committed.flatMap contents := by
  intro x hx
  obtain ⟨_, hdecoded⟩ := run.decoded
  obtain ⟨_, hreplayed⟩ := replay.decoded
  obtain ⟨txn, htxn, hcarries, hsub⟩ := decodeLog_mem replay.idle hreplayed replay.stampRight hb
  have hcommit : txn.commit = high := by
    have := (hcarries hp).highPos
    rw [hhigh, Option.some.injEq] at this
    exact this.symm
  obtain ⟨b₁, hb₁, htable₁, hx₁⟩ :=
    decodeLog_complete run.idle hdecoded (mem_of_mem_drop htxn) (hsub x hx)
  rw [htable] at htable₁
  -- Split the table's tagged batches where the committed prefix ends.
  have hsnd : ((tagged run.txns run.outs).filter (fun y => y.2.table = run.table)).map Prod.snd
      = run.outs.flatten.filter (fun b => b.table = run.table) := by
    rw [← tagged_map_snd hdecoded, filter_map]
    rfl
  obtain ⟨rest, hrest⟩ := run.committed_isPrefix
  rw [← hsnd] at hrest
  obtain ⟨done, behind, hsplit, hdone, -⟩ := map_eq_append_iff.mp hrest.symm
  have hmem : (txn.commit, b₁) ∈ done ++ behind := by
    rw [← hsplit]
    exact mem_filter.mpr ⟨hb₁, by simpa using htable₁⟩
  rcases mem_append.mp hmem with hin | hout
  · exact mem_flatMap.mpr ⟨b₁, hdone ▸ mem_map.mpr ⟨_, hin, rfl⟩, hx₁⟩
  -- A batch behind the prefix commits beyond the committed position.
  have hpair : (done ++ behind).Pairwise Outruns :=
    hsplit ▸ (decodeLog_outruns run.idle hdecoded run.stampRight run.ascending).filter _
  obtain ⟨c, hc, hpos⟩ : ∃ c, c ∈ done ∧ c.2.highPos = some run.position := by
    have hlast := run.last_committed
    rw [← hdone] at hlast
    cases hl : done.getLast? with
    | none => simp [hl] at hlast
    | some c => exact ⟨c, mem_of_getLast? hl, by simpa [hl] using hlast⟩
  have hctable : c.2.table = run.table := by
    have : c ∈ done ++ behind := mem_append_left _ hc
    rw [← hsplit] at this
    simpa using (mem_filter.mp this).2
  have hbeyond := (pairwise_append.mp hpair).2.2 c hc _ hout
    (hctable.trans htable₁.symm) run.position hpos
  rw [hcommit] at hbeyond
  rw [not_covered_of_advances hbeyond] at hcov
  cases hcov

/-- **Transaction stamping.**  A decoded transaction is stamped right exactly
when the reader is the MySQL one, or the transaction changes one table only
and fits one record (or commits at the safe position).  Over a log of such
transactions the worker's skip and the index's release lose no row: a batch
that is not partial and lies at or before the committed position of its table
holds committed rows only. -/
theorem transaction_stamping (kind : ReaderKind) (cfg : String → Option TableConfig) :
    (∀ (r : Reader P) (txn : Txn P) (r' : Reader P) (out : List (Batch P)),
      r.Idle kind.dialect cfg → decodeTxn kind cfg r txn = .ok (r', out) →
      (StampedRight r.safePos txn.commit out ↔ StampsRight kind cfg r.safePos txn)) ∧
    (∀ (run : CommittedRun P kind cfg) (replay : Replay run),
      ∀ b ∈ replay.outs.flatten, b.table = run.table → b.isPartial = false →
      (∀ (committed : String → Option P) (id : Nat) (window : Option WindowTag),
        committed run.table = some run.position →
        Urutau.covered committed (b.info id window) = true →
        ∀ x ∈ b.contents, x ∈ run.committed.flatMap contents) ∧
      (∀ (idx : PositionIndex P) (id bytes : Nat) (oversized : Bool),
        idx.acked run.table = some run.position →
        b.inFlight id bytes oversized ∈ idx.popCovered.1 →
        ∀ x ∈ b.contents, x ∈ run.committed.flatMap contents)) := by
  refine ⟨fun r txn r' out hi h => decodeTxn_stampedRight_iff hi h, ?_⟩
  intro run replay b hb htable hp
  refine ⟨fun committed id window hcommitted hcov => ?_,
    fun idx id bytes oversized hacked hpop => ?_⟩
  · obtain ⟨cp, high, hcp, hhigh, hcov⟩ := covered_spec hcov hp
    have hcp' : committed b.table = some cp := hcp
    rw [htable, hcommitted, Option.some.injEq] at hcp'
    exact replay.durable_of_covered hb htable hp hhigh (hcp' ▸ hcov)
  · obtain ⟨_, hreplayed⟩ := replay.decoded
    obtain ⟨txn, -, hcarries, -⟩ := decodeLog_mem replay.idle hreplayed replay.stampRight hb
    have hhigh := (hcarries hp).highPos
    obtain ⟨cur, hcur, hcov⟩ :=
      PositionIndex.releasable_spec (PositionIndex.mem_popCovered hpop) hhigh
    have hcur' : idx.acked b.table = some cur := hcur
    rw [htable, hacked, Option.some.injEq] at hcur'
    exact replay.durable_of_covered hb htable hp hhigh (hcur' ▸ hcov)

end Durable

/-! ### A transaction over two tables -/

/-- Two tables of one key column. -/
def shopConfig (target : String) : Option TableConfig :=
  if target = "orders" ∨ target = "lines" then
    some ⟨"shop." ++ target, ["id"], ["id"], ["id"]⟩
  else none

/-- A reader that has decoded nothing yet. -/
def freshReader {P : Type} (safe : P) : Reader P := ⟨.empty, [], safe⟩

/-- A new reader is idle. -/
theorem freshReader_idle {P : Type} (d : Dialect) (cfg : String → Option TableConfig) (safe : P) :
    (freshReader safe).Idle d cfg where
  built target te h := by simp [freshReader, EncoderMap.empty] at h
  pending_nil := rfl
  buffer_empty _ := rfl

/-- One order and one line of it, committed at 20. -/
def shopTxn : Txn LSN :=
  ⟨[⟨"orders", .insert, [.scalar 1], 1⟩, ⟨"lines", .insert, [.scalar 7], 1⟩], ⟨20⟩⟩

def ordersBatch (pos : LSN) : Batch LSN := ⟨"orders", [⟨.insert, [.scalar 1], pos⟩], false⟩

def linesBatch (pos : LSN) : Batch LSN := ⟨"lines", [⟨.insert, [.scalar 7], pos⟩], false⟩

/-- The MySQL reader's run over it, with the order committed. -/
def shopRun : CommittedRun LSN .mysql shopConfig where
  start := freshReader ⟨10⟩
  txns := [shopTxn]
  outs := [[ordersBatch ⟨20⟩, linesBatch ⟨20⟩]]
  idle := freshReader_idle _ _ _
  decoded := ⟨_, rfl⟩
  stampRight := ⟨.inl rfl, trivial⟩
  ascending := by
    simp only [Ascending, shopTxn, freshReader, map_cons, map_nil,
      pairwise_cons, mem_singleton, forall_eq, not_mem_nil, false_imp_iff,
      implies_true, List.Pairwise.nil, and_true]
    decide
  table := "orders"
  committed := [ordersBatch ⟨20⟩]
  committed_isPrefix := by decide
  position := ⟨20⟩
  last_committed := rfl

def shopReplay : Replay shopRun where
  skipped := 0
  start := freshReader ⟨10⟩
  outs := [[ordersBatch ⟨20⟩, linesBatch ⟨20⟩]]
  idle := freshReader_idle _ _ _
  decoded := ⟨_, rfl⟩
  stampRight := ⟨.inl rfl, trivial⟩

/-- The MySQL reader stamps both tables of the transaction with its commit
position, and the order skipped at 20 is committed. -/
theorem transaction_stamping_shop :
    StampedRight (P := LSN) ⟨10⟩ ⟨20⟩ [ordersBatch ⟨20⟩, linesBatch ⟨20⟩] ∧
      ∀ x ∈ (ordersBatch ⟨20⟩).contents, x ∈ shopRun.committed.flatMap contents := by
  obtain ⟨r', hdecoded⟩ : ∃ r', decodeTxn .mysql shopConfig (freshReader ⟨10⟩) shopTxn =
      .ok (r', [ordersBatch ⟨20⟩, linesBatch ⟨20⟩]) := ⟨_, rfl⟩
  obtain ⟨hstamp, hskip⟩ := transaction_stamping (P := LSN) .mysql shopConfig
  exact ⟨(hstamp _ _ r' _ (freshReader_idle _ _ _) hdecoded).mpr (.inl rfl),
    (hskip shopRun shopReplay (ordersBatch ⟨20⟩) (by decide) rfl rfl).1
      (fun _ => some ⟨20⟩) 1 none rfl (by decide)⟩

/-- **The Postgres reader misstamps it.**  The order leaves at the safe
position 10, unmarked, so a worker whose table is committed at 10 skips it. -/
theorem postgres_two_tables_misstamped :
    ∃ r' out, decodeTxn .postgres shopConfig (freshReader ⟨10⟩) shopTxn = .ok (r', out) ∧
      ¬ StampedRight (freshReader (P := LSN) ⟨10⟩).safePos shopTxn.commit out ∧
      ordersBatch ⟨10⟩ ∈ out ∧
      Urutau.covered (fun _ => some ⟨10⟩) ((ordersBatch ⟨10⟩).info 1 none) = true := by
  refine ⟨_, [ordersBatch ⟨10⟩, linesBatch ⟨20⟩], rfl, fun h => ?_, by decide, by decide⟩
  have hends : ¬ Continued [ordersBatch ⟨10⟩, linesBatch ⟨20⟩] 0 "orders" := by
    rintro ⟨j, b, hj, hb, htable⟩
    match j, hb with
    | 1, hb =>
      cases hb
      revert htable
      decide
  have hcarries := ((h 0 (ordersBatch ⟨10⟩) rfl).2 hends).2
  have hpos := hcarries.2 ⟨.insert, [.scalar 1], ⟨10⟩⟩ (by decide)
  revert hpos
  decide

end Urutau
