import Urutau.WorkerBatcher

/-!
# One delivery for each cycle of a staged table

The coordinator sends a staged table cycle by cycle and waits, for each sequence
number, for one descriptor.  A cycle's rows are buffered, flushed together and
shipped once; a window without rows is answered with an empty descriptor at once.
A batch whose rows the join drops takes a third way: an empty batch is buffered in
its place, for the next flush to deliver.  But a flush finds nothing to
concatenate in a buffer of empty batches, and the worker panics.
-/

namespace Urutau.WorkerBatcher

open List State Runs

variable {K P : Type}

/-- The cycles the items of the channel deliver. -/
def Ready.cycles : Ready K P → List Nat
  | .batch b _ => [b.seq]
  | .markers _ => []

/-- The cycle the buffer is going to deliver. -/
def bufferedCycle (s : State K P) : List Nat := if s.pending = [] then [] else [s.pendingSeq]

/-- The cycles delivered, by the committer, the channel and the buffer. -/
def deliveries (s : State K P) : List Nat :=
  s.done.map Batch.seq ++ s.ready.flatMap Ready.cycles ++ bufferedCycle s

/-- The sequence numbers received. -/
def received (s : State K P) : List Nat := s.ingested.map Ingest.seq

/-- The staged deliveries made, by their sequence numbers. -/
def shipped (cfg : Settings) (s : State K P) : List Nat := (s.done.filter (stage cfg)).map Batch.seq

/-- What carries a sequence number carries the coordinator's word that it is staged.  What carries
none is staged since the worker attached, or does not come into the buffer of a cycle: the survivor
of a scale to several workers takes its direct batches before the first cycle. -/
def StagedCycle (cfg : Settings) (s : State K P) : Action K P → Prop
  | .ingest i => if i.seq = 0 then cfg.staged = true ∨ s.pendingSeq = 0 else i.staged = true
  | .flush => True
  | .commit => True

instance decidableStagedCycle (cfg : Settings) (s : State K P) :
    ∀ a, Decidable (StagedCycle cfg s a)
  | .ingest i => inferInstanceAs (Decidable (if i.seq = 0 then _ else _))
  | .flush | .commit => inferInstanceAs (Decidable True)

/-- The cycle has not been received, or is the one in the buffer. -/
def OpenCycle (s : State K P) (seq : Nat) : Prop :=
  seq ∉ received s ∨ s.pending ≠ [] ∧ s.pendingSeq = seq

/-- The join leaves a row of every cycle's batch and of every cycle's window with rows, and
no cycle comes back once it has left the buffer. -/
def LeavesRows (s : State K P) : Action K P → Prop
  | .ingest (.data rows _ _ seq _ join) =>
    seq = 0 ∨ join.rows rows ≠ [] ∧ OpenCycle s seq
  | .ingest (.closes _ _ seq _ window _ join) =>
    seq = 0 ∨ (window.getD [] = [] ∧ seq ∉ received s) ∨
      (join.rows (windowRows (window.getD [])) ≠ [] ∧ OpenCycle s seq)
  | .ingest (.snapshotDone _ seq _) => seq = 0 ∨ seq ∉ received s
  | .flush => True
  | .commit => True

instance decidableOpenCycle (s : State K P) (seq : Nat) : Decidable (OpenCycle s seq) :=
  inferInstanceAs (Decidable (_ ∨ _))

instance decidableLeavesRows (s : State K P) : ∀ a, Decidable (LeavesRows s a)
  | .ingest (.data rows _ _ seq _ join) =>
    inferInstanceAs (Decidable (seq = 0 ∨ join.rows rows ≠ [] ∧ OpenCycle s seq))
  | .ingest (.closes _ _ seq _ window _ join) =>
    inferInstanceAs (Decidable (seq = 0 ∨ (window.getD [] = [] ∧ seq ∉ received s) ∨
      (join.rows (windowRows (window.getD [])) ≠ [] ∧ OpenCycle s seq)))
  | .ingest (.snapshotDone _ seq _) =>
    inferInstanceAs (Decidable (seq = 0 ∨ seq ∉ received s))
  | .flush => inferInstanceAs (Decidable True)
  | .commit => inferInstanceAs (Decidable True)

/-- A batch of a cycle is staged. -/
def Numbered (cfg : Settings) (b : Batch K P) : Prop := b.seq = 0 ∨ stage cfg b = true

/-- The buffer holds rows of one cycle, every cycle is staged, and each of the cycles `seqs`
is delivered once. -/
structure OneEach (cfg : Settings) (seqs : List Nat) (s : State K P) : Prop where
  alive : s.panicked = false
  filled : ∀ b ∈ s.pending, b.rows ≠ [] ∧ b.seq = s.pendingSeq ∧ Numbered cfg b
  queued : ∀ b ackPos, .batch b ackPos ∈ s.ready → Numbered cfg b
  staged : ∀ b ∈ s.done, Numbered cfg b
  once : ∀ q, q ≠ 0 → (deliveries s).count q = if q ∈ seqs then 1 else 0

variable {cfg : Settings} {s s' : State K P} {seqs : List Nat}

/-- What has no number is no cycle. -/
theorem OneEach.zero (h : OneEach cfg seqs s) : OneEach cfg (seqs ++ [0]) s := by
  refine ⟨h.alive, h.filled, h.queued, h.staged, fun q hq => ?_⟩
  rw [h.once q hq]
  simp [hq]

attribute [local simp] bufferedCycle deliveries deliverEmpty start

/-- The markers make no difference to the deliveries. -/
theorem OneEach.markers (h : OneEach cfg seqs s) (ms pending : List Marker) : OneEach cfg seqs
      { s with ready := s.ready ++ queueMarkers ms, pendingMarkers := pending } := by
  have hcycles : (queueMarkers (K := K) (P := P) ms).flatMap Ready.cycles = [] := by
    rw [queueMarkers]
    split <;> rfl
  refine ⟨h.alive, h.filled, fun b ackPos hb => ?_, h.staged, fun q hq => ?_⟩
  · rcases mem_append.mp hb with hb | hb
    · exact h.queued b ackPos hb
    · rw [queueMarkers] at hb
      split at hb <;> simp at hb
  · rw [← h.once q hq]
    simp [hcycles]

/-- A cycle not received before may be handed to the committer at once. -/
theorem OneEach.deliver (h : OneEach cfg seqs s) (b : Batch K P) (ackPos : Option P)
    (hstaged : Numbered cfg b) (hfresh : b.seq = 0 ∨ b.seq ∉ seqs) :
    OneEach cfg (seqs ++ [b.seq]) { s with ready := s.ready ++ [.batch b ackPos] } := by
  refine ⟨h.alive, h.filled, fun c pos hc => ?_, h.staged, fun q hq => ?_⟩
  · rcases mem_append.mp hc with hc | hc
    · exact h.queued c pos hc
    · cases mem_singleton.mp hc
      exact hstaged
  have hcount : (deliveries { s with ready := s.ready ++ [.batch b ackPos] }).count q =
      (deliveries s).count q + [b.seq].count q := by
    simp only [deliveries, bufferedCycle, flatMap_append, count_append,
      flatMap_cons, flatMap_nil, Ready.cycles, append_nil]
    omega
  rw [hcount, h.once q hq]
  by_cases hsame : b.seq = q
  · subst hsame
    have hnew : b.seq ∉ seqs := hfresh.resolve_left hq
    simp [hnew]
  · simp [hsame, Ne.symm hsame]

variable {b : Batch K P}

/-- A batch joins the buffer of its own cycle, or an empty one. -/
theorem OneEach.pushed (h : OneEach cfg seqs s) (hrows : b.rows ≠ [])
    (hstaged : Numbered cfg b) (hcycle : s.pending = [] ∨ b.seq = s.pendingSeq)
    (hopen : b.seq = 0 ∨ b.seq ∉ seqs ∨ s.pending ≠ []) :
    OneEach cfg (seqs ++ [b.seq]) (push s b) := by
  refine ⟨h.alive, fun c hc => ?_, h.queued, h.staged, fun q hq => ?_⟩
  · rcases mem_append.mp hc with hc | hc
    · have hseq : b.seq = s.pendingSeq := hcycle.resolve_left (ne_nil_of_mem hc)
      obtain ⟨hne, hcseq, hcstaged⟩ := h.filled c hc
      exact ⟨hne, hcseq.trans hseq.symm, hcstaged⟩
    · cases mem_singleton.mp hc
      exact ⟨hrows, rfl, hstaged⟩
  · have hold := h.once q hq
    have hbuffered : bufferedCycle (push s b) = [b.seq] := by
      simp [push]
    simp only [deliveries, hbuffered, count_append] at hold ⊢
    simp only [push]
    by_cases hnil : s.pending = []
    · rw [bufferedCycle, if_pos hnil, count_nil, Nat.add_zero] at hold
      rw [hold]
      by_cases hsame : b.seq = q
      · subst hsame
        have hnew : b.seq ∉ seqs := by
          rcases hopen with hzero | hnew | hne
          · exact absurd hzero hq
          · exact hnew
          · exact absurd hnil hne
        simp [hnew]
      · simp [hsame, Ne.symm hsame]
    · have hseq : b.seq = s.pendingSeq := hcycle.resolve_left hnil
      rw [bufferedCycle, if_neg hnil, ← hseq] at hold
      rw [hold]
      by_cases hsame : b.seq = q
      · -- The buffer already delivers the cycle, so it was received.
        subst hsame
        have hmem : b.seq ∈ seqs := by
          by_contra hnew
          rw [if_neg hnew] at hold
          simp at hold
        simp [hmem]
      · simp [Ne.symm hsame]

/-- A merged batch keeps its cycle's number. -/
theorem numbered_merged {bs : List (Batch K P)} {merged : Batch K P} {seq : Nat}
    (hall : ∀ b ∈ bs, b.rows ≠ [] ∧ b.seq = seq ∧ Numbered cfg b)
    (hmerged : concatBatches bs = some merged) : merged.seq = seq ∧ Numbered cfg merged := by
  obtain ⟨_, _, _, first, hfirst, hseq, hstaged, hpart⟩ := concatBatches_some hmerged
  obtain ⟨_, hfirstSeq, hnumbered⟩ := hall first hfirst
  refine ⟨hseq.trans hfirstSeq, ?_⟩
  rcases hnumbered with hzero | hfirstStaged
  · exact .inl (hseq.trans hzero)
  by_cases hzero : merged.seq = 0
  · exact .inl hzero
  · rw [stage, if_neg (hseq ▸ hzero)] at hfirstStaged
    refine .inr ?_
    rw [stage, if_neg hzero, hstaged]
    exact any_eq_true.mpr ⟨first, hpart, hfirstStaged⟩

variable [DecidableEq K]

section

variable (h : OneEach cfg seqs s)
include h

/-- A flush delivers the buffered cycle once, with rows or without. -/
theorem commitPending_cycles {out : List (Ready K P)}
    (hout : commitPending cfg s.pending = some out) :
    (∀ b ackPos, .batch b ackPos ∈ out → Numbered cfg b) ∧
      ∀ q, q ≠ 0 → (out.flatMap Ready.cycles).count q = (bufferedCycle s).count q := by
  by_cases hne : s.pending = []
  · rw [commitPending, if_pos hne] at hout
    cases hout
    simp [hne]
  obtain ⟨merged, hmerged, hsent⟩ := commitPending_some hne hout
  obtain ⟨hseq, hstaged⟩ := numbered_merged h.filled hmerged
  rw [bufferedCycle, if_neg hne, ← hseq]
  rcases hsent with ⟨rows, _, rfl⟩ | ⟨_, _, rfl⟩
  · refine ⟨fun b ackPos hb => ?_, fun q _ => rfl⟩
    cases mem_singleton.mp hb
    exact hstaged
  · -- The append mode kept nothing: a cycle is still owed its descriptor.
    by_cases hzero : merged.seq = 0
    · refine ⟨by simp [hzero], fun q hq => ?_⟩
      simp [hzero, Ne.symm hq]
    · rw [deliverEmpty, if_neg (by simp [hstaged.resolve_left hzero, hzero])]
      refine ⟨fun b ackPos hb => ?_, fun q _ => rfl⟩
      cases mem_singleton.mp hb
      exact hstaged

/-- A flush sends the buffered cycle once. -/
theorem flush_oneEach (hflush : flush cfg s = some s') : OneEach cfg seqs s' := by
  obtain ⟨out, hout, rfl⟩ := flush_some hflush
  obtain ⟨hstaged, hcycles⟩ := commitPending_cycles h hout
  refine OneEach.markers (s := { s with pending := [], pendingSeq := 0, ready := s.ready ++ out })
    ⟨h.alive, by simp, fun b ackPos hb => ?_, h.staged, fun q hq => ?_⟩ _ _
  · rcases mem_append.mp hb with hb | hb
    · exact h.queued b ackPos hb
    · exact hstaged b ackPos hb
  · have hempty : bufferedCycle
        { s with pending := [], pendingSeq := 0, ready := s.ready ++ out } = [] := rfl
    have hsent := hcycles q hq
    rw [← h.once q hq, deliveries, hempty]
    simp only [deliveries, flatMap_append, count_append, count_nil] at hsent ⊢
    omega

/-- A cycle's rows are buffered without a panic, behind a flush of the cycle before. -/
theorem addPending_oneEach (hrows : b.rows ≠ []) (hstaged : Numbered cfg b)
    (hdirect : stage cfg b = true ∨ s.pendingSeq = 0)
    (hopen : b.seq = 0 ∨ b.seq ∉ seqs ∨ s.pending ≠ [] ∧ s.pendingSeq = b.seq) :
    ∃ s', addPending cfg s b = some s' ∧ OneEach cfg (seqs ++ [b.seq]) s' := by
  obtain ⟨s', hs'⟩ := addPending_isSome cfg (fun c hc => (h.filled c hc).1) hrows
  refine ⟨s', hs', ?_⟩
  obtain ⟨t, hfirst, hlast⟩ := addPending_some hs'
  have hpush : OneEach cfg (seqs ++ [b.seq]) (push t b) := by
    rcases hfirst with ⟨hsame, rfl⟩ | ⟨hchange, hflush⟩
    · have hcycle : t.pending = [] ∨ b.seq = t.pendingSeq := by
        by_cases hmode : stage cfg b = true
        · simpa [changesCycle, hmode, or_iff_not_imp_left] using hsame
        · exact .inr ((hstaged.resolve_right hmode).trans (hdirect.resolve_left hmode).symm)
      refine h.pushed hrows hstaged hcycle ?_
      rcases hopen with hzero | hnew | ⟨hne, _⟩
      · exact .inl hzero
      · exact .inr (.inl hnew)
      · exact .inr (.inr hne)
    · have hother : b.seq ≠ s.pendingSeq := by
        simp only [changesCycle, Bool.and_eq_true, decide_eq_true_eq] at hchange
        exact hchange.2
      have hempty : t.pending = [] := by
        obtain ⟨out, _, rfl⟩ := flush_some hflush
        rfl
      refine (flush_oneEach h hflush).pushed hrows hstaged (.inl hempty) ?_
      rcases hopen with hzero | hnew | ⟨_, hseq⟩
      · exact .inl hzero
      · exact .inr (.inl hnew)
      · exact absurd hseq.symm hother
  rcases hlast with rfl | hflush
  · exact hpush
  · exact flush_oneEach hpush hflush

end

/-- A data batch of a staged table. -/
theorem handleData_oneEach {join : Join K P} (h : OneEach cfg (received s) s)
    (hstaged : Numbered cfg b) (hdirect : stage cfg b = true ∨ s.pendingSeq = 0)
    (hok : b.seq = 0 ∨ join.rows b.rows ≠ [] ∧ OpenCycle s b.seq) :
    ∃ s', handleData cfg s b join = some s' ∧ OneEach cfg (received s ++ [b.seq]) s' := by
  rw [handleData]
  by_cases hleft : join.rows b.rows = []
  · have hzero : b.seq = 0 := hok.resolve_right fun hrows => hrows.1 hleft
    refine ⟨s, ?_, hzero ▸ h.zero⟩
    rw [applyEnrich_dropped hleft (.inr hzero)]
    exact ite_self _
  · have hrows : b.rows ≠ [] := fun hnil => hleft (by rw [hnil, Join.rows_nil])
    rw [if_neg hrows, applyEnrich_kept hleft]
    exact addPending_oneEach (b := { b with rows := join.rows b.rows }) h hleft hstaged hdirect
      (hok.imp_right And.right)

section

variable {position : Option P} {seq : Nat} {staged : Bool} (h : OneEach cfg (received s) s)
  (hstaged : seq = 0 ∨ (if seq = 0 then cfg.staged else staged) = true)
include h hstaged

/-- A Closes marker of a staged table: an empty window is answered at once. -/
theorem handleCloses_oneEach {m : Marker} {window : Option (List K)} {bytes : Nat}
    {join : Join K P}
    (hdirect : (if seq = 0 then cfg.staged else staged) = true ∨ s.pendingSeq = 0)
    (hok : seq = 0 ∨ (window.getD [] = [] ∧ seq ∉ received s) ∨
      (join.rows (windowRows (window.getD [])) ≠ [] ∧ OpenCycle s seq)) :
    ∃ s', handleCloses cfg s m position seq staged window bytes join = some s' ∧
      OneEach cfg (received s ++ [seq]) s' := by
  rw [handleCloses]
  cases hwindow : window.getD [] with
  | nil =>
    rw [hwindow] at hok
    refine ⟨_, rfl, ?_⟩
    by_cases hzero : seq = 0
    · subst hzero
      simpa using (h.markers (if m.id = 0 then [] else [m]) s.pendingMarkers).zero
    have hfresh : seq ∉ received s := by
      rcases hok with hz | ⟨_, hnew⟩ | ⟨hrows, _⟩
      · exact absurd hz hzero
      · exact hnew
      · exact absurd (Join.rows_nil join) hrows
    let owner : Batch K P :=
      { rows := [], bytes := cfg.emptyBytes, watermark := position, seq := seq,
        staged := staged, owes := [m.place] }
    have hsent := h.deliver owner none hstaged (.inr hfresh)
    have hdeliver : deliverEmpty cfg owner = [.batch owner none] := by
      have howes : ¬ (stage cfg owner = false ∨ owner.seq = 0) := by
        simp [show stage cfg owner = true from hstaged.resolve_left hzero, owner, hzero]
      rw [deliverEmpty, if_neg howes]
      rfl
    rw [hdeliver]
    exact hsent.markers _ s.pendingMarkers
  | cons k ks =>
    rw [hwindow] at hok
    by_cases hleft : join.rows (windowRows (P := P) (k :: ks)) = []
    · have hzero : seq = 0 := by
        rcases hok with hz | ⟨hnil, _⟩ | ⟨hrows, _⟩
        · exact hz
        · cases hnil
        · exact absurd hleft hrows
      refine ⟨_, applyEnrich_dropped hleft (.inr hzero), ?_⟩
      exact hzero ▸ (h.markers (if m.id = 0 then [] else [m]) s.pendingMarkers).zero
    · have hopen : seq = 0 ∨ OpenCycle s seq := by
        rcases hok with hz | ⟨hnil, _⟩ | ⟨_, hopen⟩
        · exact .inl hz
        · cases hnil
        · exact .inr hopen
      simp only
      rw [applyEnrich_kept hleft]
      exact addPending_oneEach ⟨h.alive, h.filled, h.queued, h.staged, h.once⟩ hleft hstaged
        hdirect hopen

/-- The completion of a staged table's snapshot is a cycle of its own. -/
theorem handleSnapshotDone_oneEach (hok : seq = 0 ∨ seq ∉ received s) :
    ∃ s', handleSnapshotDone cfg s position seq staged = some s' ∧
      OneEach cfg (received s ++ [seq]) s' := by
  obtain ⟨t, ht⟩ := flush_isSome cfg fun b hb => (h.filled b hb).1
  let completion : Batch K P :=
    { rows := [], bytes := cfg.emptyBytes, watermark := none, seq := seq, staged := staged,
      owes := [] }
  refine ⟨_, by rw [handleSnapshotDone, ht]; rfl, ?_⟩
  exact (flush_oneEach h ht).deliver completion position hstaged hok

end

/-- Whatever a staged table's worker takes, it takes without a panic. -/
theorem handleIngest_oneEach {i : Ingest K P} (h : OneEach cfg (received s) s)
    (hstaged : StagedCycle cfg s (.ingest i)) (hok : LeavesRows s (.ingest i)) :
    ∃ s', handleIngest cfg s i = some s' ∧ OneEach cfg (received s ++ [i.seq]) s' := by
  obtain ⟨hmode, hdirect⟩ : (i.seq = 0 ∨ (if i.seq = 0 then cfg.staged else i.staged) = true) ∧
      ((if i.seq = 0 then cfg.staged else i.staged) = true ∨ s.pendingSeq = 0) := by
    simp only [StagedCycle] at hstaged
    by_cases hzero : i.seq = 0
    · rw [if_pos hzero] at hstaged ⊢
      exact ⟨.inl hzero, hstaged⟩
    · rw [if_neg hzero] at hstaged ⊢
      exact ⟨.inr hstaged, .inl hstaged⟩
  cases i with
  | data rows bytes watermark seq staged join => exact handleData_oneEach h hmode hdirect hok
  | closes markerId position seq staged window bytes join =>
    exact handleCloses_oneEach h hmode hdirect hok
  | snapshotDone position seq staged => exact handleSnapshotDone_oneEach h hmode hok

omit [DecidableEq K] in
/-- A commit ships the first batch once. -/
theorem commitNext_oneEach (h : OneEach cfg seqs s) (hnext : commitNext s = some s') :
    OneEach cfg seqs s' := by
  rcases commitNext_some hnext with ⟨ms, rest, hready, rfl⟩ | ⟨b, ackPos, rest, hready, rfl⟩
  · refine ⟨h.alive, h.filled, fun b ackPos hb => ?_, h.staged, fun q hq => ?_⟩
    · exact h.queued b ackPos (hready ▸ mem_cons_of_mem _ hb)
    · rw [← h.once q hq]
      simp [hready, Ready.cycles]
  · refine ⟨h.alive, h.filled, fun c pos hc => ?_, ?_, fun q hq => ?_⟩
    · exact h.queued c pos (hready ▸ mem_cons_of_mem _ hc)
    · exact forall_mem_concat.mpr ⟨h.staged, h.queued b ackPos (hready ▸ mem_cons_self)⟩
    · rw [← h.once q hq]
      simp [hready, Ready.cycles]

/-- A step of a staged table keeps one delivery for each cycle received. -/
theorem step_oneEach {a : Action K P} (h : OneEach cfg (received s) s)
    (hok : LeavesRows s a ∧ StagedCycle cfg s a) (hstep : step cfg s a = some s') :
    OneEach cfg (received s') s' := by
  obtain ⟨_, ⟨i, t, rfl, ht, rfl⟩ | ⟨i, rfl, ht, rfl⟩ | ⟨_, hflush⟩ | ⟨_, hflush, rfl⟩ |
    ⟨_, hnext⟩⟩ := step_some hstep
  · obtain ⟨t', ht', heach⟩ := handleIngest_oneEach h hok.2 hok.1
    cases ht.symm.trans ht'
    have hreceived : received { t with ingested := s.ingested ++ [i] } = received s ++ [i.seq] := by
      simp [received]
    rw [hreceived]
    exact ⟨heach.alive, heach.filled, heach.queued, heach.staged, heach.once⟩
  · obtain ⟨t', ht', _⟩ := handleIngest_oneEach h hok.2 hok.1
    exact absurd (ht.symm.trans ht') (by simp)
  · rw [received, flush_ingested hflush]
    exact flush_oneEach h hflush
  · obtain ⟨s', hs'⟩ := flush_isSome cfg fun b hb => (h.filled b hb).1
    exact absurd (hflush.symm.trans hs') (by simp)
  · rw [received, commitNext_ingested hnext]
    exact commitNext_oneEach h hnext

/-- In every run each cycle is on its way once. -/
theorem run_oneEach {s t : State K P} {actions : List (Action K P)}
    (h : OneEach cfg (received s) s) (hrun : run (step cfg) s actions = some t)
    (hok : Runs.Guarded (step cfg) (fun u a => LeavesRows u a ∧ StagedCycle cfg u a) s actions) :
    OneEach cfg (received t) t :=
  invariant_of_guarded (fun u => OneEach cfg (received u) u)
    (fun _ _ _ hs hstepOk hstep => step_oneEach hs hstepOk hstep) h hrun hok

omit [DecidableEq K] in
/-- The cycles among what the committer has done are shipped. -/
theorem OneEach.count_shipped (h : OneEach cfg seqs s) {q : Nat} (hq : q ≠ 0) :
    (shipped cfg s).count q = (s.done.map Batch.seq).count q := by
  have hdone := h.staged
  unfold shipped
  generalize s.done = done at hdone ⊢
  induction done with
  | nil => rfl
  | cons b rest ih =>
    obtain ⟨hb, hrest⟩ := forall_mem_cons.mp hdone
    by_cases hstage : stage cfg b = true
    · simp only [filter_cons_of_pos hstage, map_cons, count_cons, ih hrest]
    · have hzero := hb.resolve_right hstage
      simp only [filter_cons_of_neg hstage, map_cons, count_cons, ih hrest, hzero, beq_iff_eq,
        if_neg hq.symm, Nat.add_zero]

/-- **One delivery for each staged cycle.**  While the join leaves a row of every cycle and
no cycle comes back once flushed, the worker never panics, no cycle is shipped twice, and
the end of the channel finds every cycle received shipped exactly once. -/
theorem staged_cycles_shipped_once {cfg : Settings} {actions : List (Action K P)} {s : State K P}
    (hactions : Runs.Guarded (step cfg) (StagedCycle cfg) (start K P) actions)
    (hrun : run (step cfg) (start K P) actions = some s)
    (hok : Runs.Guarded (step cfg) LeavesRows (start K P) actions) :
    s.panicked = false ∧ (∀ q ∈ received s, q ≠ 0 → (shipped cfg s).count q ≤ 1) ∧
      ∃ n t, run (step cfg) s (.flush :: List.replicate n .commit) = some t ∧
        t.panicked = false ∧ t.pending = [] ∧ t.ready = [] ∧ received t = received s ∧
        ∀ q ∈ received s, q ≠ 0 → (shipped cfg t).count q = 1 := by
  have hstart : OneEach cfg (received (start K P)) (start K P) := ⟨rfl, by simp, by simp, by simp,
      fun q _ => by simp [received]⟩
  have heach := run_oneEach hstart hrun (hok.and hactions)
  refine ⟨heach.alive, fun q hq hne => ?_, ?_⟩
  · have honce := heach.once q hne
    rw [if_pos hq, deliveries, count_append, count_append] at honce
    rw [heach.count_shipped hne]
    omega
  obtain ⟨n, t, hend, hpending, hready, hingested⟩ :=
    drains heach.alive (flush_isSome cfg fun b hb => (heach.filled b hb).1)
  have heach' : OneEach cfg (received t) t := by
    refine run_oneEach heach hend (guarded_of_forall fun u a ha => ?_)
    rcases flush_or_commit ha with rfl | rfl <;> exact ⟨trivial, trivial⟩
  have hreceived : received t = received s := by rw [received, hingested, received]
  refine ⟨n, t, hend, heach'.alive, hpending, hready, hreceived, fun q hq hne => ?_⟩
  have honce := heach'.once q hne
  rw [hreceived, if_pos hq] at honce
  rw [heach'.count_shipped hne, ← honce]
  simp [hpending, hready]

/-- A staged upsert table. -/
def stagedUpsert : Settings where
  staged := true
  append := false
  appendDropDeletes := false
  maxRows := 1000
  maxBytes := 1048576
  emptyBytes := 0

/-- A live batch of one row, with the coordinator's sequence number. -/
def cycleRow (seq key : Nat) (join : Join Nat Nat) : Action Nat Nat :=
  .ingest (.data [{ key := key, op := .upsert, pos := some seq }] 40 (some seq) seq true join)

/-- Two cycles and the marker of a window that is empty. -/
def threeCycles : List (Action Nat Nat) := [cycleRow 4 1 innerJoin, cycleRow 5 1 innerJoin,
    .ingest (.closes 6 none 6 true (some []) 0 innerJoin)]

/-- Three cycles, each shipped once. -/
theorem staged_threeCycles_shipped_once :
    ∃ s, run (step stagedUpsert) (start Nat Nat) threeCycles = some s ∧
      received s = [4, 5, 6] ∧ s.panicked = false ∧
      ∃ n t, run (step stagedUpsert) s (.flush :: List.replicate n .commit) = some t ∧
        ∀ q ∈ received s, q ≠ 0 → (shipped stagedUpsert t).count q = 1 := by
  refine exists_run_and (by decide +kernel) fun s hrun _ => ?_
  obtain ⟨halive, _, n, t, hend, _, _, _, _, honce⟩ :=
    staged_cycles_shipped_once (by decide +kernel) hrun (by decide +kernel)
  exact ⟨halive, n, t, hend, honce⟩

/-- **A cycle the join swallows panics the worker.**  The join drops the only row of cycle
5.  Its empty batch is all the buffer holds when the ticker flushes. -/
theorem swallowed_cycle_panics : ∃ s, run (step stagedUpsert) (start Nat Nat)
        [cycleRow 4 1 innerJoin, cycleRow 5 2 innerJoin, .commit, .flush] = some s ∧
      received s = [4, 5] ∧ s.panicked = true ∧ (shipped stagedUpsert s).count 5 = 0 := by
  exact exists_run (by decide +kernel)

end Urutau.WorkerBatcher
