import Urutau.FifoOrder
import Urutau.WorkerBatcher

/-!
# A Closes marker is acked last

A marker's ack tells the coordinator that the window is done with: it is not sent
again.  So the ack must stand behind what the window owes, its surviving rows or
the empty delivery of its cycle, and only the order of the committer's channel
puts it there.  Two ways through the batcher break the order.  When the join drops
all rows of a window, its empty delivery waits in the buffer while the marker is
queued at once.  And a window with rows registers its marker with the buffer before
the rows are added: when they are of another cycle than the buffer, the flush that
makes room for them sends the marker out ahead of them.
-/

namespace Urutau.WorkerBatcher

open List WorkerBatcher.Ready State Runs

variable {K P : Type}

/-- The places of the markers an item of the channel answers for with rows or a delivery. -/
def Ready.owed : Ready K P → List Nat
  | .batch b _ => b.owes
  | .markers _ => []

/-- The markers an item of the channel acks. -/
def Ready.acking : Ready K P → List Marker
  | .batch _ _ => []
  | .markers ms => ms

/-- What the committer has committed or shipped, by the markers it was owed for. -/
def settled (s : State K P) : List Nat := s.done.flatMap Batch.owes

/-- What is owed and still waits, in the channel or in the buffer. -/
def waiting (s : State K P) : List Nat := s.ready.flatMap owed ++ s.pending.flatMap Batch.owes

/-- The id of a Closes marker. -/
def Ingest.marker : Ingest K P → Option Nat
  | .closes markerId _ _ _ _ _ _ => some markerId
  | .data _ _ _ _ _ _ => none
  | .snapshotDone _ _ _ => none

/-- A marker's window owes its surviving rows, or the empty delivery of its cycle. -/
def Ingest.owing (cfg : Settings) : Ingest K P → Bool
  | .closes _ _ seq staged window _ join =>
    !(join.rows (windowRows (window.getD []))).isEmpty ||
      ((if seq = 0 then cfg.staged else staged) && decide (seq ≠ 0))
  | .data _ _ _ _ _ _ => false
  | .snapshotDone _ _ _ => false

/-- Every marker acked was received, and what its window owes is committed or shipped and
waits nowhere. -/
def AckedLast (cfg : Settings) (s : State K P) : Prop :=
  ∀ m ∈ s.ackedMarkers, ∃ i, s.ingested[m.place]? = some i ∧ i.marker = some m.id ∧
    (i.owing cfg = true → m.place ∈ settled s ∧ m.place ∉ waiting s)

/-- A window of a staged table has no rows, or the join leaves one of them and the buffer
holds no other cycle; a window that is no cycle may lose them all. -/
def KeepsOrder (cfg : Settings) (s : State K P) : Action K P → Prop
  | .ingest (.closes _ _ seq staged window _ join) =>
    window.getD [] = [] ∨ (if seq = 0 then cfg.staged else staged) = false ∨
      (join.rows (windowRows (window.getD [])) = [] ∧ seq = 0) ∨
      (join.rows (windowRows (window.getD [])) ≠ [] ∧ (s.pending = [] ∨ seq = s.pendingSeq))
  | .ingest (.data _ _ _ _ _ _) => True
  | .ingest (.snapshotDone _ _ _) => True
  | .flush => True
  | .commit => True

instance decidableKeepsOrder (cfg : Settings) (s : State K P) : ∀ a, Decidable (KeepsOrder cfg s a)
  | .ingest (.closes _ _ seq staged window _ join) =>
    inferInstanceAs (Decidable (window.getD [] = [] ∨
      (if seq = 0 then cfg.staged else staged) = false ∨
      (join.rows (windowRows (window.getD [])) = [] ∧ seq = 0) ∨
      (join.rows (windowRows (window.getD [])) ≠ [] ∧ (s.pending = [] ∨ seq = s.pendingSeq))))
  | .ingest (.data _ _ _ _ _ _) => inferInstanceAs (Decidable True)
  | .ingest (.snapshotDone _ _ _) => inferInstanceAs (Decidable True)
  | .flush => inferInstanceAs (Decidable True)
  | .commit => inferInstanceAs (Decidable True)

/-- A marker of `received` that finds what its window owes among `before`. -/
def Answered (cfg : Settings) (received : List (Ingest K P)) (before : List Nat)
    (m : Marker) : Prop :=
  ∃ i, received[m.place]? = some i ∧ i.marker = some m.id ∧ (i.owing cfg = true → m.place ∈ before)

variable {cfg : Settings} {m : Marker}

variable {before : List Nat} {i : Ingest K P} {join : Join K P}

theorem Answered.mono {received : List (Ingest K P)} {after : List Nat}
    (h : Answered cfg received before m) (hsub : ∀ n ∈ before, n ∈ after) :
    Answered cfg received after m := by
  obtain ⟨i, hi, hid, howes⟩ := h
  exact ⟨i, hi, hid, fun howing => hsub _ (howes howing)⟩

theorem Answered.received {received : List (Ingest K P)}
    (h : Answered cfg received before m) (i : Ingest K P) :
    Answered cfg (received ++ [i]) before m := by
  obtain ⟨j, hj, hid, howes⟩ := h
  have hlt : m.place < received.length := (List.getElem?_eq_some_iff.mp hj).1
  exact ⟨j, by rw [getElem?_append_left hlt]; exact hj, hid, howes⟩

/-- All that is owed, in the order it was or will be settled. -/
def line (s : State K P) : List Nat := settled s ++ waiting s

/-- Each window stands in line once, and every marker behind its window. -/
structure InLine (cfg : Settings) (received : List (Ingest K P)) (s : State K P) : Prop where
  nodup : (line s).Nodup
  bound : ∀ n ∈ line s, n < received.length
  acked : ∀ m ∈ s.ackedMarkers, Answered cfg received (settled s) m
  queued : Fifo.Holds owed
    (fun before item => ∀ m ∈ item.acking, Answered cfg received before m) (settled s) s.ready
  buffered : ∀ m ∈ s.pendingMarkers, Answered cfg received (line s) m
  upserts : ∀ b ∈ s.pending, b.owes ≠ [] → ∃ r ∈ b.rows, r.op = .upsert

variable {s s' : State K P}

/-- With every window in line once, a marker behind its window is acked last. -/
theorem InLine.ackedLast (h : InLine cfg s.ingested s) : AckedLast cfg s := by
  intro m hm
  obtain ⟨i, hi, hid, howes⟩ := h.acked m hm
  refine ⟨i, hi, hid, fun howing => ⟨howes howing, fun hwait => ?_⟩⟩
  exact (nodup_append.mp h.nodup).2.2 _ (howes howing) _ hwait rfl

/-- Receiving something more changes nothing for the markers already in line. -/
theorem InLine.received {received : List (Ingest K P)} (h : InLine cfg received s)
    (i : Ingest K P) : InLine cfg (received ++ [i]) s := by
  refine ⟨h.nodup, fun n hn => ?_, fun m hm => (h.acked m hm).received i, ?_,
    fun m hm => (h.buffered m hm).received i, h.upserts⟩
  · have hlt := h.bound n hn
    rw [length_append]
    omega
  · exact h.queued.mono fun before item _ hitem m hm => (hitem m hm).received i

variable {received : List (Ingest K P)} (h : InLine cfg received s)

include h

attribute [local simp] waiting settled line start

/-- Items that owe nothing and ack nobody may join the channel. -/
theorem InLine.quiet {item : Ready K P} (howed : item.owed = []) (hacking : item.acking = []) :
    InLine cfg received { s with ready := s.ready ++ [item] } := by
  have hline : line { s with ready := s.ready ++ [item] } = line s := by
    simp [howed]
  refine ⟨hline ▸ h.nodup, hline ▸ h.bound, h.acked, h.queued.concat ?_, hline ▸ h.buffered,
    h.upserts⟩
  simp [hacking]

/-- A marker may be queued when its window is settled or ahead of it in the channel. -/
theorem InLine.queue {ms : List Marker}
    (hms : ∀ m ∈ ms, Answered cfg received (settled s ++ s.ready.flatMap owed) m) :
    InLine cfg received { s with ready := s.ready ++ queueMarkers ms } := by
  rw [queueMarkers]
  split
  · simpa using h
  · have hline : line { s with ready := s.ready ++ [.markers ms] } = line s := by
      simp [owed]
    exact ⟨hline ▸ h.nodup, hline ▸ h.bound, h.acked, h.queued.concat hms, hline ▸ h.buffered,
      h.upserts⟩

variable {b : Batch K P}

/-- A batch that stands for no window joins the buffer. -/
theorem InLine.pushed (howes : b.owes = []) : InLine cfg received (push s b) := by
  have hline : line (push s b) = line s := by
    simp [push, howes]
  refine ⟨hline ▸ h.nodup, hline ▸ h.bound, h.acked, h.queued, hline ▸ h.buffered, ?_⟩
  intro c hc hne
  rcases mem_append.mp hc with hc | hc
  · exact h.upserts c hc hne
  · cases mem_singleton.mp hc
    exact absurd howes hne

/-- The window of the marker just received, place and all, joins the buffer. -/
theorem InLine.window
    (hplace : m.place = received.length) (hid : i.marker = some m.id) (howes : b.owes = [m.place])
    (hupsert : ∃ r ∈ b.rows, r.op = .upsert) :
    InLine cfg (received ++ [i])
      (push { s with pendingMarkers := s.pendingMarkers ++ if m.id = 0 then [] else [m] } b) := by
  let s' := push { s with pendingMarkers := s.pendingMarkers ++ if m.id = 0 then [] else [m] } b
  have hline : line s' = line s ++ [m.place] := by
    simp [s', push, howes]
  have hext := h.received i
  refine ⟨?_, ?_, hext.acked, hext.queued, ?_, ?_⟩
  · rw [hline]
    refine pairwise_concat.mpr ⟨h.nodup, fun n hn => ?_⟩
    rw [hplace]
    exact Nat.ne_of_lt (h.bound n hn)
  · rw [hline]
    refine forall_mem_concat.mpr ⟨hext.bound, ?_⟩
    rw [hplace]
    simp
  · intro m' hm'
    rw [hline]
    rcases mem_append.mp hm' with hm' | hm'
    · exact (hext.buffered m' hm').mono fun n hn => mem_append_left _ hn
    have hsame : m' = m := by
      split at hm'
      · cases hm'
      · exact mem_singleton.mp hm'
    subst hsame
    exact ⟨i, by simp [hplace], hid, fun _ => by simp⟩
  · intro c hc hne
    rcases mem_append.mp hc with hc | hc
    · exact h.upserts c hc hne
    · cases mem_singleton.mp hc
      exact hupsert

/-- The delivery an empty window owes its cycle goes straight to the channel. -/
theorem InLine.delivered
    (i : Ingest K P) {place : Nat} (hplace : place = received.length) (howes : b.owes = [place]) :
    InLine cfg (received ++ [i]) { s with ready := s.ready ++ [.batch b none] } := by
  let s' : State K P := { s with ready := s.ready ++ [.batch b none] }
  have hline : line s' = (settled s ++ s.ready.flatMap owed) ++
      place :: s.pending.flatMap Batch.owes := by
    simp [s', owed, howes]
  have hmem : ∀ n, n ∈ line s' ↔ n ∈ line s ∨ n = place := by
    rw [hline]
    simp only [line, waiting]
    grind
  have hext := h.received i
  refine ⟨?_, ?_, hext.acked, hext.queued.concat ?_, ?_, h.upserts⟩
  · rw [hline, nodup_middle, nodup_cons, append_assoc]
    refine ⟨fun hin => ?_, h.nodup⟩
    have hlt := h.bound place hin
    omega
  · intro n hn
    rcases (hmem n).mp hn with hn | rfl
    · exact hext.bound n hn
    · rw [hplace]
      simp
  · simp [acking]
  · intro m hm
    exact (hext.buffered m hm).mono fun n hn => (hmem n).mpr (.inl hn)

/-- The marker of a window that owes nothing, or whose delivery is in the channel, is queued
at once. -/
theorem queueAtOnce_inLine (hm : Answered cfg received (settled s ++ s.ready.flatMap owed) m)
    (hqueue : queueAtOnce m s = some s') : InLine cfg received s' := by
  cases hqueue
  refine h.queue fun m' hm' => ?_
  split at hm'
  · cases hm'
  · cases mem_singleton.mp hm'
    exact hm

/-- A commit answers from the front. -/
theorem commitNext_inLine (hnext : commitNext s = some s') : InLine cfg received s' := by
  have hqueued := h.queued
  rcases commitNext_some hnext with ⟨ms, rest, hready, rfl⟩ | ⟨b, ackPos, rest, hready, rfl⟩
  · rw [hready] at hqueued
    have hline : line { s with ready := rest, ackedMarkers := s.ackedMarkers ++ ms } = line s := by
      simp [hready, owed]
    refine ⟨hline ▸ h.nodup, hline ▸ h.bound, fun m hm => ?_, ?_, hline ▸ h.buffered, h.upserts⟩
    · rcases mem_append.mp hm with hm | hm
      · exact h.acked m hm
      · exact hqueued.1 m hm
    · have hrest := hqueued.2
      rwa [owed, append_nil] at hrest
  · rw [hready] at hqueued
    let s' : State K P := { s with
      ready := rest
      done := s.done ++ [b]
      acks := s.acks ++ (ackPos.or b.watermark).toList }
    have hsettled : settled s' = settled s ++ b.owes := by simp [s']
    have hline : line s' = line s := by
      simp [s', hready, owed]
    refine ⟨hline ▸ h.nodup, hline ▸ h.bound, fun m hm => ?_, hsettled ▸ hqueued.2,
      hline ▸ h.buffered, h.upserts⟩
    exact hsettled ▸ (h.acked m hm).mono fun n hn => mem_append_left b.owes hn

variable [DecidableEq K]

/-- A flush hands over all the buffer owes: the rows of a window are upserts, which the
append mode keeps too. -/
theorem commitPending_owed
    {out : List (Ready K P)} (hout : commitPending cfg s.pending = some out) :
    out.flatMap owed = s.pending.flatMap Batch.owes ∧ ∀ item ∈ out, item.acking = [] := by
  by_cases hne : s.pending = []
  · rw [commitPending, if_pos hne] at hout
    cases hout
    simp [hne]
  obtain ⟨merged, hmerged, ⟨rows, _, rfl⟩ | ⟨_, hnone, rfl⟩⟩ := commitPending_some hne hout
  · have howes := (concatBatches_some hmerged).2.2.1
    simp [owed, acking, howes]
  obtain ⟨hrows, _, howes, _⟩ := concatBatches_some hmerged
  rw [deliverEmpty]
  split
  · refine ⟨?_, by simp⟩
    symm
    rw [flatMap_nil, flatMap_eq_nil_iff]
    intro b hb
    by_contra howing
    obtain ⟨r, hr, hop⟩ := h.upserts b hb howing
    have hdropped := hnone r (hrows ▸ mem_flatMap.mpr ⟨b, hb, hr⟩)
    simp [keepsRow, hop] at hdropped
  · simp [owed, acking, emptyBatch, howes]

/-- A flush keeps the line. -/
theorem flush_inLine (hflush : flush cfg s = some s') : InLine cfg received s' := by
  obtain ⟨out, hout, rfl⟩ := flush_some hflush
  obtain ⟨howed, hacking⟩ := commitPending_owed h hout
  let t := { s with pending := [], pendingSeq := 0, pendingMarkers := [], ready := s.ready ++ out }
  have hline : line t = line s := by
    simp [t, howed]
  have hqueued : Fifo.Holds owed
      (fun before item => ∀ m ∈ item.acking, Answered cfg received before m)
      (settled s) (s.ready ++ out) := by
    refine Fifo.holds_append.mpr ⟨h.queued, Fifo.holds_of_forall fun _ item hitem m hm => ?_⟩
    exact absurd (hacking item hitem ▸ hm) not_mem_nil
  have ht : InLine cfg received t :=
    ⟨hline ▸ h.nodup, hline ▸ h.bound, h.acked, hqueued, by simp [t], by simp [t]⟩
  refine ht.queue fun m hm => ?_
  have hall : settled t ++ t.ready.flatMap owed = line s := by
    rw [← hline]
    simp [t]
  rw [hall]
  exact h.buffered m hm

/-- Buffering a batch that stands for no window, with the flushes around it. -/
theorem addPending_inLine
    (howes : b.owes = []) (hadd : addPending cfg s b = some s') : InLine cfg received s' := by
  obtain ⟨t, hfirst, hlast⟩ := addPending_some hadd
  have ht : InLine cfg received t := by
    rcases hfirst with ⟨_, rfl⟩ | ⟨_, hflush⟩
    · exact h
    · exact flush_inLine h hflush
  rcases hlast with rfl | hflush
  · exact ht.pushed howes
  · exact flush_inLine (ht.pushed howes) hflush

/-- Data joins the end of the line. -/
theorem handleData_inLine (howes : b.owes = []) (hdata : handleData cfg s b join = some s') :
    InLine cfg received s' := by
  rw [handleData] at hdata
  split at hdata
  · cases hdata
    exact h
  rw [applyEnrich] at hdata
  split at hdata
  · split at hdata
    · obtain ⟨t, ht, hsame⟩ := Option.bind_eq_some_iff.mp hdata
      cases hsame
      exact addPending_inLine (b := emptyBatch cfg b) h howes ht
    · cases hdata
      exact h
  · exact addPending_inLine (b := { b with rows := join.rows b.rows }) h howes hdata

/-- A marker stays behind its window where the window's rows keep the cycle of the buffer. -/
theorem handleCloses_inLine {markerId : Nat} {position : Option P}
    {seq : Nat} {staged : Bool} {window : Option (List K)} {bytes : Nat}
    (hok : KeepsOrder cfg s (.ingest (.closes markerId position seq staged window bytes join)))
    (hcloses : handleCloses cfg s { id := markerId, place := received.length } position seq
      staged window bytes join = some s') :
    InLine cfg (received ++ [.closes markerId position seq staged window bytes join]) s' := by
  let i : Ingest K P := .closes markerId position seq staged window bytes join
  let m : Marker := { id := markerId, place := received.length }
  have hplace : (received ++ [i])[m.place]? = some i := by simp [m]
  -- What the marker's window owes, when its rows are gone and no cycle waits for it.
  have hnothing : join.rows (windowRows (P := P) (window.getD [])) = [] →
      ((if seq = 0 then cfg.staged else staged) = false ∨ seq = 0) →
      ∀ before, Answered cfg (received ++ [i]) before m := by
    intro hleft hnone before
    refine ⟨i, hplace, rfl, fun howing => ?_⟩
    rcases hnone with hdirect | hzero
    · simp [i, Ingest.owing, hleft, hdirect] at howing
    · simp [i, Ingest.owing, hleft, hzero] at howing
  rw [handleCloses] at hcloses
  cases hwindow : window.getD [] with
  | nil =>
    simp only [hwindow] at hcloses
    rw [hwindow] at hnothing
    rw [deliverEmpty] at hcloses
    split at hcloses
    · rename_i hnone
      rw [append_nil] at hcloses
      exact queueAtOnce_inLine (h.received i) (hnothing (Join.rows_nil join) hnone _) hcloses
    · refine queueAtOnce_inLine (h.delivered i rfl rfl) ⟨i, hplace, rfl, fun _ => ?_⟩ hcloses
      simp [m, owed, emptyBatch]
  | cons k ks =>
    simp only [hwindow] at hcloses
    rw [KeepsOrder, hwindow] at hok
    by_cases hleft : join.rows (windowRows (P := P) (k :: ks)) = []
    · have hnone : (if seq = 0 then cfg.staged else staged) = false ∨ seq = 0 := by
        rcases hok with hnil | hdirect | ⟨_, hzero⟩ | ⟨hrows, _⟩
        · cases hnil
        · exact .inl hdirect
        · exact .inr hzero
        · exact absurd hleft hrows
      rw [applyEnrich_dropped
        (b := ⟨windowRows (k :: ks), bytes, none, seq, staged, [m.place]⟩) hleft hnone] at hcloses
      exact queueAtOnce_inLine (h.received i) (hnothing (hwindow ▸ hleft) hnone _) hcloses
    · rw [applyEnrich_kept hleft] at hcloses
      obtain ⟨t, hfirst, hlast⟩ := addPending_some hcloses
      have hpush := h.window (i := i) (m := m)
        (b := ⟨join.rows (windowRows (k :: ks)), bytes, none, seq, staged, [m.place]⟩)
        rfl rfl rfl (join.exists_upsert hleft)
      have hsame : t = { s with
          pendingMarkers := s.pendingMarkers ++ if m.id = 0 then [] else [m] } := by
        rcases hfirst with ⟨_, rfl⟩ | ⟨hchange, _⟩
        · rfl
        -- The guard leaves no room for a flush ahead of the rows.
        simp only [changesCycle, Bool.and_eq_true, Bool.not_eq_true',
          isEmpty_eq_false_iff, decide_eq_true_eq] at hchange
        rcases hok with hnil | hdirect | ⟨hgone, _⟩ | ⟨_, hempty | hseq⟩
        · cases hnil
        · exact absurd (hchange.1.1.symm.trans hdirect) (by decide)
        · exact absurd hgone hleft
        · exact absurd hempty hchange.1.2
        · exact absurd hseq hchange.2
      subst hsame
      rcases hlast with rfl | hflush
      · exact hpush
      · exact flush_inLine hpush hflush

omit h

/-- Every unit joins the end of the line. -/
theorem handleIngest_inLine (h : InLine cfg s.ingested s)
    (hok : KeepsOrder cfg s (.ingest i)) (hingest : handleIngest cfg s i = some s') :
    InLine cfg (s.ingested ++ [i]) s' := by
  cases i with
  | data rows bytes watermark seq staged join =>
    exact handleData_inLine (h.received _) rfl hingest
  | closes markerId position seq staged window bytes join =>
    exact handleCloses_inLine h hok hingest
  | snapshotDone position seq staged =>
    obtain ⟨t, ht, rfl⟩ := Option.map_eq_some_iff.mp hingest
    exact (flush_inLine (h.received _) ht).quiet rfl rfl

/-- A step that keeps the order keeps every marker behind its window. -/
theorem step_inLine {a : Action K P} (h : InLine cfg s.ingested s) (hok : KeepsOrder cfg s a)
    (hstep : step cfg s a = some s') :
    InLine cfg s'.ingested s' := by
  obtain ⟨_, ⟨i, t, rfl, ht, rfl⟩ | ⟨i, rfl, _, rfl⟩ | ⟨_, hflush⟩ | ⟨_, _, rfl⟩ |
    ⟨_, hnext⟩⟩ := step_some hstep
  · have hline := handleIngest_inLine h hok ht
    exact ⟨hline.nodup, hline.bound, hline.acked, hline.queued, hline.buffered, hline.upserts⟩
  · have hline := h.received i
    exact ⟨hline.nodup, hline.bound, hline.acked, hline.queued, hline.buffered, hline.upserts⟩
  · rw [flush_ingested hflush]
    exact flush_inLine h hflush
  · exact ⟨h.nodup, h.bound, h.acked, h.queued, h.buffered, h.upserts⟩
  · rw [commitNext_ingested hnext]
    exact commitNext_inLine h hnext

/-- **A Closes marker is acked last.**  While every window with rows of a staged table keeps
one of them through the join and finds no other cycle in the buffer, a marker is acked only
when what its window owes is committed or shipped. -/
theorem markers_acked_last {cfg : Settings} {actions : List (Action K P)} {s : State K P}
    (hrun : run (step cfg) (start K P) actions = some s)
    (hok : Runs.Guarded (step cfg) (KeepsOrder cfg) (start K P) actions) :
    AckedLast cfg s := by
  have hstart : InLine cfg (start K P).ingested (start K P) :=
    ⟨by simp, by simp, by simp, trivial, by simp, by simp⟩
  have hline := invariant_of_guarded (fun u => InLine cfg u.ingested u)
    (fun _ _ _ hs hstepOk hstep => step_inLine hs hstepOk hstep) hstart hrun hok
  exact hline.ackedLast

/-- A staged append table. -/
def stagedAppend : Settings where
  staged := true
  append := true
  appendDropDeletes := false
  maxRows := 1000
  maxBytes := 1048576
  emptyBytes := 0

/-- A live batch of cycle 4. -/
def liveCycle : Action Nat Nat :=
  .ingest (.data [{ key := 1, op := .upsert, pos := some 4 }] 40 (some 4) 4 true .absent)

/-- The Closes marker of cycle 6, with the rows its window still has. -/
def closesSix (keys : List Nat) (join : Join Nat Nat) : Action Nat Nat :=
  .ingest (.closes 6 none 6 true (some keys) 40 join)

/-- The live cycle is flushed before the window's marker arrives. -/
def windowAfterFlush : List (Action Nat Nat) :=
  [liveCycle, .flush, closesSix [1, 2] innerJoin, .flush, .commit, .commit, .commit]

/-- The marker is acked after the batch before it. -/
theorem markers_acked_last_afterFlush :
    ∃ s, run (step stagedAppend) (start Nat Nat) windowAfterFlush = some s ∧
      s.ackedMarkers = [{ id := 6, place := 1 }] ∧ s.done.map Batch.seq = [4, 6] ∧
      AckedLast stagedAppend s := by
  exact exists_run_of (by decide +kernel) fun s hrun
    (hseen : s.ackedMarkers = [{ id := 6, place := 1 }] ∧ s.done.map Batch.seq = [4, 6]) =>
    ⟨hseen.1, hseen.2, markers_acked_last hrun (by decide +kernel)⟩

/-- The run ends with a marker acked while what its window owes waits. -/
def AckedEarly (cfg : Settings) (actions : List (Action Nat Nat)) : Prop :=
  ∃ s, run (step cfg) (start Nat Nat) actions = some s ∧ ¬ AckedLast cfg s

theorem ackedEarly_of_waiting {actions : List (Action Nat Nat)}
    (h : (run (step cfg) (start Nat Nat) actions).map (fun s =>
      decide (m ∈ s.ackedMarkers) && (s.ingested[m.place]?).any (Ingest.owing cfg) &&
        decide (m.place ∈ waiting s)) = some true) : AckedEarly cfg actions := by
  obtain ⟨s, hrun, hs⟩ := Option.map_eq_some_iff.mp h
  simp only [Bool.and_eq_true, decide_eq_true_eq, Option.any_eq_true] at hs
  obtain ⟨⟨hacked, i, hi, howing⟩, hwaiting⟩ := hs
  refine ⟨s, hrun, fun hlast => ?_⟩
  obtain ⟨j, hj, _, howes⟩ := hlast m hacked
  cases hi.symm.trans hj
  exact (howes howing).2 hwaiting

/-- **A marker is acked ahead of its window.**  The join drops the window's only row: the
marker's ack is out while the empty delivery of cycle 6 is in the buffer.  And without any
join, a window that finds cycle 4 in the buffer has its marker flushed out with that cycle,
ahead of its own rows. -/
theorem marker_acked_before_window : AckedEarly stagedAppend [closesSix [2] innerJoin, .commit] ∧
      AckedEarly stagedAppend [liveCycle, closesSix [2] .absent, .commit, .commit] := by
  refine ⟨ackedEarly_of_waiting (m := { id := 6, place := 0 }) ?_,
    ackedEarly_of_waiting (m := { id := 6, place := 1 }) ?_⟩
  · decide +kernel
  · decide +kernel

end Urutau.WorkerBatcher
