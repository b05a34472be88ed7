import Urutau.WorkerBatcher

/-!
# The positions acked for a directly committed table

The coordinator keeps a batch in flight until an ack covers its high position.  A
directly committed table has no other answer to give than the position of a
commit, and a commit needs rows.  The position is read from the last positioned
row of a flush, after the join and ahead of what the append mode drops.  So it
reaches a batch's high position when the join leaves the row that carries it and
the flush keeps some row; a batch the join swallows whole is never answered for.
-/

namespace Urutau.WorkerBatcher

open List State Runs

variable {K P : Type}

/-- The position an item of the channel is acked with. -/
def Ready.ack : Ready K P → Option P
  | .batch b ackPos => ackPos.or b.watermark
  | .markers _ => none

/-- The rows waiting in the buffer. -/
def bufferedRows (s : State K P) : List (Row K P) := s.pending.flatMap Batch.rows

/-- The acks sent, those the channel will send, and the one the buffer will. -/
def onTheWay (s : State K P) : List P :=
  s.acks ++ s.ready.filterMap Ready.ack ++ (lastRowPos (bufferedRows s)).toList

/-- The position an in-flight entry of a data batch waits for. -/
def Ingest.high : Ingest K P → Option P
  | .data _ _ watermark _ _ _ => watermark
  | .closes _ _ _ _ _ _ _ => none
  | .snapshotDone _ _ _ => none

def highs (received : List (Ingest K P)) : List P := received.filterMap Ingest.high

/-- The last position acked covers every batch received. -/
def Covered [LE P] (s : State K P) : Prop :=
  ∀ p ∈ highs s.ingested, ∃ a, s.acks.getLast? = some a ∧ p ≤ a

/-- The worker receives data batches the coordinator wants committed directly. -/
def DirectData : Action K P → Prop
  | .ingest (.data _ _ _ _ staged _) => staged = false
  | .ingest (.closes _ _ _ _ _ _ _) => False
  | .ingest (.snapshotDone _ _ _) => False
  | .flush => True
  | .commit => True

/-- What the join leaves of a batch reaches the batch's high position, and in append mode
some row buffered with it is one the table keeps. -/
def ReachesHigh (cfg : Settings) (s : State K P) : Action K P → Prop
  | .ingest (.data rows _ watermark _ _ join) =>
    lastRowPos (join.rows rows) = watermark ∧ (cfg.append = true → watermark.isSome = true →
        ∃ r ∈ bufferedRows s ++ join.rows rows, keepsRow cfg r = true)
  | .ingest (.closes _ _ _ _ _ _ _) => True
  | .ingest (.snapshotDone _ _ _) => True
  | .flush => True
  | .commit => True

instance decidableReachesHigh [DecidableEq P] (cfg : Settings) (s : State K P) :
    ∀ a, Decidable (ReachesHigh cfg s a)
  | .ingest (.data rows _ watermark _ _ join) =>
    inferInstanceAs (Decidable (lastRowPos (join.rows rows) = watermark ∧
      (cfg.append = true → watermark.isSome = true →
        ∃ r ∈ bufferedRows s ++ join.rows rows, keepsRow cfg r = true)))
  | .ingest (.closes _ _ _ _ _ _ _) => inferInstanceAs (Decidable True)
  | .ingest (.snapshotDone _ _ _) => inferInstanceAs (Decidable True)
  | .flush => inferInstanceAs (Decidable True)
  | .commit => inferInstanceAs (Decidable True)

/-- The next position to be last acked is `high`, the last batch's. -/
structure Reaching (cfg : Settings) (high : Option P) (s : State K P) : Prop where
  alive : s.panicked = false
  direct : ∀ b ∈ s.pending, b.rows ≠ [] ∧ b.staged = false
  reaches : (onTheWay s).getLast? = high
  kept : cfg.append = true → (lastRowPos (bufferedRows s)).isSome = true →
    ∃ r ∈ bufferedRows s, keepsRow cfg r = true

variable {cfg : Settings}

variable {b : Batch K P}

theorem stage_eq_false (hcfg : cfg.staged = false) (hb : b.staged = false) :
    stage cfg b = false := by
  simp [stage, hcfg, hb]

theorem filterMap_ack_queueMarkers (ms : List Marker) :
    (queueMarkers (K := K) (P := P) ms).filterMap Ready.ack = [] := by
  rw [queueMarkers]
  split <;> rfl

variable [DecidableEq K] {s s' : State K P} {high : Option P}

section

variable (hcfg : cfg.staged = false) (h : Reaching cfg high s)
include hcfg h

/-- What a flush of a direct table's buffer hands over is acked with the position of the
buffer's last positioned row. -/
theorem commitPending_acks
    {out : List (Ready K P)} (hout : commitPending cfg s.pending = some out) :
    out.filterMap Ready.ack = (lastRowPos (bufferedRows s)).toList := by
  by_cases hne : s.pending = []
  · rw [commitPending, if_pos hne] at hout
    cases hout
    simp [bufferedRows, hne, lastRowPos]
  obtain ⟨merged, hmerged, ⟨rows, _, rfl⟩ | ⟨happend, hnone, rfl⟩⟩ := commitPending_some hne hout
  · have hrows : merged.rows = bufferedRows s := (concatBatches_some hmerged).1
    rw [← hrows]
    cases lastRowPos merged.rows <;> simp [Ready.ack]
  -- Nothing is kept: then no row of the buffer has a position, and nothing is sent.
  obtain ⟨hrows, -, -, first, _, _, hstaged, _⟩ := concatBatches_some hmerged
  have hdirect : merged.staged = false := by
    rw [hstaged, any_eq_false]
    intro b hb
    simp [(h.direct b (mem_filter.mp hb).1).2]
  have hnopos : lastRowPos (bufferedRows s) = none := by
    cases hlast : lastRowPos (bufferedRows s) with
    | none => rfl
    | some p =>
      obtain ⟨r, hr, hkeeps⟩ := h.kept happend (by simp [hlast])
      have hdropped := hnone r (hrows ▸ hr)
      exact absurd (hkeeps.symm.trans hdropped) (by decide)
  simp [deliverEmpty, stage_eq_false hcfg hdirect, hnopos]

/-- A flush keeps the last position on its way. -/
theorem flush_reaching (hflush : flush cfg s = some s') : Reaching cfg high s' := by
  obtain ⟨out, hout, rfl⟩ := flush_some hflush
  have hacks := commitPending_acks hcfg h hout
  refine ⟨h.alive, by simp, ?_, by simp [bufferedRows, lastRowPos]⟩
  rw [← h.reaches]
  simp only [onTheWay, filterMap_append, hacks, filterMap_ack_queueMarkers]
  simp [bufferedRows, lastRowPos]

end

omit [DecidableEq K] in
/-- A batch buffered brings its position along. -/
theorem push_reaching (h : Reaching cfg high s) (hrows : b.rows ≠ [])
    (hdirect : b.staged = false) (hkept : cfg.append = true → (lastRowPos b.rows).isSome = true →
      ∃ r ∈ bufferedRows s ++ b.rows, keepsRow cfg r = true) :
    Reaching cfg ((lastRowPos b.rows).or high) (push s b) := by
  have hbuffered : bufferedRows (push s b) = bufferedRows s ++ b.rows := by
    simp [bufferedRows, push]
  refine ⟨h.alive, ?_, ?_, ?_⟩
  · exact forall_mem_concat.mpr ⟨h.direct, hrows, hdirect⟩
  · rw [onTheWay, hbuffered, lastRowPos_append]
    cases hlast : lastRowPos b.rows with
    | none => simpa [onTheWay, push] using h.reaches
    | some p => simp
  · intro happend hsome
    rw [hbuffered] at hsome ⊢
    rw [lastRowPos_append] at hsome
    cases hlast : lastRowPos b.rows with
    | some p => exact hkept happend (by simp [hlast])
    | none =>
      obtain ⟨r, hr, hkeeps⟩ := h.kept happend (by simpa [hlast] using hsome)
      exact ⟨r, mem_append_left _ hr, hkeeps⟩

/-- Whatever the limits flush, the position is on its way. -/
theorem addPending_reaching (hcfg : cfg.staged = false) (h : Reaching cfg high s)
    (hrows : b.rows ≠ []) (hdirect : b.staged = false)
    (hkept : cfg.append = true → (lastRowPos b.rows).isSome = true →
      ∃ r ∈ bufferedRows s ++ b.rows, keepsRow cfg r = true) :
    ∃ s', addPending cfg s b = some s' ∧ Reaching cfg ((lastRowPos b.rows).or high) s' := by
  obtain ⟨s', hs'⟩ := addPending_isSome cfg (fun c hc => (h.direct c hc).1) hrows
  refine ⟨s', hs', ?_⟩
  have hpush := push_reaching h hrows hdirect hkept
  obtain ⟨t, ⟨_, rfl⟩ | ⟨hchange, _⟩, hend⟩ := addPending_some hs'
  · rcases hend with rfl | hflush
    · exact hpush
    · exact flush_reaching hcfg hpush hflush
  · simp [changesCycle, stage_eq_false hcfg hdirect] at hchange

/-- A data batch is taken without a panic, and moves the position to its own. -/
theorem handleData_reaching {high watermark : Option P} {rows : List (Row K P)} {bytes seq : Nat}
    {staged : Bool} {join : Join K P} (hcfg : cfg.staged = false) (h : Reaching cfg high s)
    (hdirect : DirectData (.ingest (.data rows bytes watermark seq staged join)))
    (hok : ReachesHigh cfg s (.ingest (.data rows bytes watermark seq staged join))) :
    ∃ s', handleIngest cfg s (.data rows bytes watermark seq staged join) = some s' ∧
      Reaching cfg (watermark.or high) s' := by
  obtain ⟨hlast, hkept⟩ := hok
  have hstaged : staged = false := hdirect
  rw [handleIngest, handleData]
  by_cases hleft : join.rows rows = []
  · -- Nothing is left, so the batch had no position to answer for.
    have hnone : watermark = none := by
      rw [← hlast, hleft]
      rfl
    refine ⟨s, ?_, by simpa [hnone] using h⟩
    rw [applyEnrich_dropped hleft (.inl (stage_eq_false hcfg hstaged))]
    exact ite_self _
  · have hrows : rows ≠ [] := fun hnil => hleft (by rw [hnil, Join.rows_nil])
    rw [if_neg hrows, applyEnrich_kept hleft, ← hlast]
    rw [← hlast] at hkept
    exact addPending_reaching hcfg h hleft hstaged hkept

omit [DecidableEq K] in
/-- A commit acks the position it carries. -/
theorem commitNext_reaching (h : Reaching cfg high s) (hnext : commitNext s = some s') :
    Reaching cfg high s' := by
  have hway : onTheWay s' = onTheWay s := by
    rcases commitNext_some hnext with ⟨ms, rest, hready, rfl⟩ | ⟨b, ackPos, rest, hready, rfl⟩
    · simp [onTheWay, bufferedRows, hready, filterMap_cons, Ready.ack]
    · cases hack : ackPos.or b.watermark <;>
        simp [onTheWay, bufferedRows, hready, Ready.ack, hack]
  have hframe : s'.panicked = s.panicked ∧ s'.pending = s.pending := by
    rcases commitNext_some hnext with ⟨ms, rest, _, rfl⟩ | ⟨b, ackPos, rest, _, rfl⟩ <;>
      exact ⟨rfl, rfl⟩
  obtain ⟨halive, hpending⟩ := hframe
  refine ⟨halive.trans h.alive, hpending ▸ h.direct, hway ▸ h.reaches, ?_⟩
  rw [bufferedRows, hpending]
  exact h.kept

omit [DecidableEq K] in
theorem highs_concat (received : List (Ingest K P)) (i : Ingest K P) :
    (highs (received ++ [i])).getLast? = i.high.or (highs received).getLast? := by
  cases hi : i.high <;> simp [highs, hi]

/-- A step of a direct table keeps the next position the last batch's. -/
theorem step_reaching (hcfg : cfg.staged = false) {a : Action K P}
    (h : Reaching cfg (highs s.ingested).getLast? s) (hok : ReachesHigh cfg s a ∧ DirectData a)
    (hstep : step cfg s a = some s') :
    Reaching cfg (highs s'.ingested).getLast? s' := by
  have hingest : ∀ i, a = .ingest i → ∃ t, handleIngest cfg s i = some t ∧
      Reaching cfg (i.high.or (highs s.ingested).getLast?) t := by
    intro i hi
    subst hi
    cases i with
    | data rows bytes watermark seq staged join =>
      exact handleData_reaching hcfg h hok.2 hok.1
    | closes => exact absurd hok.2 id
    | snapshotDone => exact absurd hok.2 id
  obtain ⟨_, ⟨i, t, ha, ht, rfl⟩ | ⟨i, ha, ht, rfl⟩ | ⟨_, hflush⟩ | ⟨_, hflush, rfl⟩ |
    ⟨_, hnext⟩⟩ := step_some hstep
  · obtain ⟨t', ht', hreach⟩ := hingest i ha
    cases ht.symm.trans ht'
    rw [highs_concat]
    exact ⟨hreach.alive, hreach.direct, hreach.reaches, hreach.kept⟩
  · obtain ⟨t', ht', _⟩ := hingest i ha
    exact absurd (ht.symm.trans ht') (by simp)
  · rw [flush_ingested hflush]
    exact flush_reaching hcfg h hflush
  · obtain ⟨s', hs'⟩ := flush_isSome cfg fun b hb => (h.direct b hb).1
    exact absurd (hflush.symm.trans hs') (by simp)
  · rw [commitNext_ingested hnext]
    exact commitNext_reaching h hnext

omit [DecidableEq K] in
theorem reaching_start (cfg : Settings) :
    Reaching cfg (highs (start K P).ingested).getLast? (start K P) :=
  ⟨rfl, by simp [start], rfl, by simp [start, bufferedRows, lastRowPos]⟩

/-- In every run the last high position is on its way. -/
theorem run_reaching (hcfg : cfg.staged = false) {s t : State K P} {actions : List (Action K P)}
    (h : Reaching cfg (highs s.ingested).getLast? s) (hactions : ∀ a ∈ actions, DirectData a)
    (hrun : run (step cfg) s actions = some t)
    (hok : Runs.Guarded (step cfg) (ReachesHigh cfg) s actions) :
    Reaching cfg (highs t.ingested).getLast? t :=
  invariant_of_guarded (fun u => Reaching cfg (highs u.ingested).getLast? u)
    (fun _ _ _ hs hstepOk hstep => step_reaching hcfg hs hstepOk hstep) h hrun
    (hok.and (guarded_of_forall fun _ a ha => hactions a ha))

omit [DecidableEq K] in
/-- With nothing on its way any more, the last ack is the last batch's high position, which
no earlier batch is beyond. -/
theorem Reaching.covered [Preorder P] (h : Reaching cfg (highs s.ingested).getLast? s)
    (hstream : (highs s.ingested).Pairwise (· ≤ ·)) (hpending : s.pending = [])
    (hready : s.ready = []) : Covered s := by
  intro p hp
  have hlast : s.acks.getLast? = (highs s.ingested).getLast? := by
    rw [← h.reaches]
    simp [onTheWay, bufferedRows, hpending, hready, lastRowPos]
  rcases eq_nil_or_concat (highs s.ingested) with hnil | ⟨front, a, hconcat⟩
  · exact absurd (hnil ▸ hp) not_mem_nil
  rw [concat_eq_append] at hconcat
  rw [hconcat] at hp hlast hstream
  refine ⟨a, by simpa using hlast, ?_⟩
  rcases mem_append.mp hp with hp | hp
  · exact (pairwise_append.mp hstream).2.2 p hp a mem_cons_self
  · exact le_of_eq (mem_singleton.mp hp)

/-- **Ack completeness.**  While the join leaves the row at the high position of every batch
and the append mode keeps some row beside it, a worker whose buffer and channel are empty
has acked a position that covers every batch it received; and from every state the end of
the channel and the committer bring it there. -/
theorem acks_cover_reached_batches [Preorder P] {cfg : Settings} (hcfg : cfg.staged = false)
    {actions : List (Action K P)} {s : State K P} (hactions : ∀ a ∈ actions, DirectData a)
    (hrun : run (step cfg) (start K P) actions = some s)
    (hstream : (highs s.ingested).Pairwise (· ≤ ·))
    (hok : Runs.Guarded (step cfg) (ReachesHigh cfg) (start K P) actions) :
    (s.pending = [] → s.ready = [] → Covered s) ∧
      ∃ n t, run (step cfg) s (.flush :: List.replicate n .commit) = some t ∧
        t.pending = [] ∧ t.ready = [] ∧ t.ingested = s.ingested ∧ Covered t := by
  have hreach := run_reaching hcfg (reaching_start cfg) hactions hrun hok
  refine ⟨hreach.covered hstream, ?_⟩
  obtain ⟨n, t, hend, hpending, hready, hingested⟩ :=
    drains hreach.alive (flush_isSome cfg fun b hb => (hreach.direct b hb).1)
  have hreach' : Reaching cfg (highs t.ingested).getLast? t := by
    refine run_reaching hcfg hreach (fun a ha => ?_) hend (guarded_of_forall fun u a ha => ?_)
    · rcases flush_or_commit ha with rfl | rfl <;> trivial
    · rcases flush_or_commit ha with rfl | rfl <;> trivial
  exact ⟨n, t, hend, hpending, hready, hingested,
    hreach'.covered (hingested ▸ hstream) hpending hready⟩

/-- A directly committed append table. -/
def directAppend : Settings where
  staged := false
  append := true
  appendDropDeletes := false
  maxRows := 1000
  maxBytes := 1048576
  emptyBytes := 0

/-- A live batch of one row, at its own position. -/
def oneRow (key : Nat) (op : Op) (high : Nat) (join : Join Nat Nat) : Action Nat Nat :=
  .ingest (.data [{ key := key, op := op, pos := some high }] 40 (some high) high false join)

/-- A tombstone that the flush drops beside a row it keeps. -/
def besideTombstone : List (Action Nat Nat) :=
  [oneRow 1 .upsert 5 innerJoin, oneRow 2 (.delete false) 7 innerJoin, .flush, .commit]

/-- A tombstone flushed with a row is covered by its ack. -/
theorem acks_cover_besideTombstone :
    ∃ s, run (step directAppend) (start Nat Nat) besideTombstone = some s ∧
      highs s.ingested = [5, 7] ∧ s.pending = [] ∧ s.ready = [] ∧ Covered s := by
  refine exists_run_of (by decide +kernel) fun s hrun
    (hseen : highs s.ingested = [5, 7] ∧ s.pending = [] ∧ s.ready = []) => ?_
  obtain ⟨hhighs, hpending, hready⟩ := hseen
  have hactions : ∀ a ∈ besideTombstone, DirectData a := by
    intro a ha
    simp only [besideTombstone, mem_cons, not_mem_nil, or_false] at ha
    rcases ha with rfl | rfl | rfl | rfl <;> trivial
  have hcover := acks_cover_reached_batches rfl hactions hrun
    (by rw [hhighs]; decide) (by decide +kernel)
  exact ⟨hhighs, hpending, hready, hcover.1 hpending hready⟩

/-- Everything is committed and the last ack does not cover the batches received. -/
def Unanswered (cfg : Settings) (actions : List (Action Nat Nat)) : Prop :=
  ∃ s, run (step cfg) (start Nat Nat) actions = some s ∧ s.pending = [] ∧ s.ready = [] ∧ ¬ Covered s

/-- **A batch that vanishes is never acked.**  The join drops the only row of the second
batch, whose position is 7: the last ack stays at 5.  A tombstone flushed on its own leaves
an append table without an ack. -/
theorem vanished_batch_unanswered : Unanswered directAppend
        [oneRow 1 .upsert 5 innerJoin, oneRow 2 .upsert 7 innerJoin, .flush, .commit] ∧
      Unanswered directAppend [oneRow 2 (.delete false) 7 .absent, .flush] := by
  have hjoin : (run (step directAppend) (start Nat Nat)
      [oneRow 1 .upsert 5 innerJoin, oneRow 2 .upsert 7 innerJoin, .flush, .commit]).map
      (fun s => (s.pending, s.ready, highs s.ingested, s.acks)) = some ([], [], [5, 7], [5]) := by
    decide +kernel
  have hdrop : (run (step directAppend) (start Nat Nat)
      [oneRow 2 (.delete false) 7 .absent, .flush]).map
      (fun s => (s.pending, s.ready, highs s.ingested, s.acks)) = some ([], [], [7], []) := by
    decide +kernel
  obtain ⟨s, hs, hsEnd⟩ := Option.map_eq_some_iff.mp hjoin
  obtain ⟨t, ht, htEnd⟩ := Option.map_eq_some_iff.mp hdrop
  simp only [Prod.mk.injEq] at hsEnd htEnd
  refine ⟨⟨s, hs, hsEnd.1, hsEnd.2.1, ?_⟩, ⟨t, ht, htEnd.1, htEnd.2.1, ?_⟩⟩
  · intro hcovered
    obtain ⟨a, ha, hle⟩ := hcovered 7 (by simp [hsEnd.2.2.1])
    simp only [hsEnd.2.2.2, getLast?_singleton, Option.some.injEq] at ha
    omega
  · intro hcovered
    obtain ⟨a, ha, _⟩ := hcovered 7 (by simp [htEnd.2.2.1])
    simp [htEnd.2.2.2] at ha

end Urutau.WorkerBatcher
