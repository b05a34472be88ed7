import Urutau.RelayPlumbing

/-!
# What the windows hold

An open window holds the rows of its chunk's SELECT, and belongs to the chunk
the orchestrator is at or to one whose marker is queued.  Each chunk of the
plan is still to do, has its marker queued, or is closed, and it passes through
these once.  When a window is closed, each of its rows is emitted or was
superseded by a live change emitted before.

All of this holds in every run.  Most steps do not come near the windows:
`quiet_step` says so once for all of them.
-/

namespace Urutau

open List LastWrite

namespace Pipeline

section Streams

variable {K V : Type}

/-- The chunks whose markers are queued, in order. -/
def closesOf (ingest : List Ingest) : List Nat := ingest.filterMap fun x => match x with
    | .live _ _ => none
    | .closes c => some c

theorem mem_closesOf {ingest : List Ingest} {c : Nat} :
    c ∈ closesOf ingest ↔ .closes c ∈ ingest := by
  simp only [closesOf, mem_filterMap]
  constructor
  · intro ⟨x, hx, heq⟩
    cases x with
    | live batch tag => cases heq
    | closes c' =>
      cases heq
      exact hx
  · intro hc
    exact ⟨_, hc, rfl⟩

theorem closesOf_append (xs ys : List Ingest) : closesOf (xs ++ ys) = closesOf xs ++ closesOf ys :=
  filterMap_append

theorem closesOf_tagged (tag : Nat) (items : List (List Nat)) :
    closesOf (items.map (fun b => Ingest.live b (some tag))) = [] := by
  induction items with
  | nil => rfl
  | cons b rest ih => exact ih

theorem mem_batchKeys {su : Setup K V} {batch : List Nat} {k : K} :
    k ∈ batchKeys su batch ↔ ∃ i ∈ batch, su.keyOf i = some k := by
  simp [batchKeys]

end Streams

variable {K V : Type} [LinearOrder K] {su : Setup K V} {s s' : Pipeline K V} {chunk : Nat}

variable {c n : Nat} {k : K} {v : V} {keys : List K}

/-- A SELECT returns the rows the table has in the chunk's range. -/
theorem mem_selectChunk :
    (k, v) ∈ su.selectChunk c n ↔ su.inChunk c k = true ∧ su.tableAt n k = some v := by
  simp only [Setup.selectChunk, mem_filterMap, mem_dedup]
  constructor
  · intro ⟨k', _, hk⟩
    split at hk
    · rename_i hin
      obtain ⟨v', hv, heq⟩ := Option.map_eq_some_iff.mp hk
      cases heq
      exact ⟨hin, hv⟩
    · cases hk
  · intro ⟨hin, hv⟩
    refine ⟨k, ?_, by simp [hin, hv]⟩
    by_contra hnot
    have hnone : su.tableAt n k = none := by
      apply fold_of_untouched
      intro w hw hkey
      exact hnot (mem_map.mpr ⟨w, hw, hkey⟩)
    rw [hv] at hnone
    cases hnone

variable {w : Window K V}

/-- A live change touches the keys the window has. -/
theorem mem_touch : k ∈ (Window.touch w keys).touched ↔
      k ∈ w.touched ∨ k ∈ keys ∧ k ∈ w.rows.map Prod.fst := by
  simp [Window.touch]

/-- A window keeps the rows that were not touched. -/
theorem mem_kept {c' : Nat} : .row c' k v n ∈ Window.kept c w ↔
      (k, v) ∈ w.rows ∧ k ∉ w.touched ∧ c' = c ∧ n = w.selectAt := by
  simp only [Window.kept, mem_map, mem_filter, decide_eq_true_eq]
  constructor
  · rintro ⟨r, ⟨hr, hnot⟩, heq⟩
    cases heq
    exact ⟨hr, hnot, rfl, rfl⟩
  · rintro ⟨hr, hnot, hc, hn⟩
    exact ⟨(k, v), ⟨hr, hnot⟩, by rw [hc, hn]⟩

/-- A window emits no live change. -/
theorem live_not_mem_kept {i : Nat} : Emit.live i ∉ Window.kept c w := by
  intro h
  have := mem_liveOf.mpr h
  rw [liveOf_kept] at this
  cases this

/-- A window after a batch is one before it, perhaps with more keys touched. -/
theorem window_of_touched {windows : Nat → Option (Window K V)} {tag : Option Nat} {w' : Window K V}
    (hw : (if tag.isSome then fun c => (windows c).map (fun w => Window.touch w keys)
      else windows) c = some w') :
    ∃ w, windows c = some w ∧ w'.rows = w.rows ∧ w'.selectAt = w.selectAt ∧ ∀ k, k ∈ w'.touched ↔
        k ∈ w.touched ∨ tag.isSome ∧ k ∈ keys ∧ k ∈ w.rows.map Prod.fst := by
  split at hw
  · rename_i htag
    obtain ⟨w, hold, rfl⟩ := Option.map_eq_some_iff.mp hw
    exact ⟨w, hold, rfl, rfl, fun k => by rw [mem_touch]; simp [htag]⟩
  · rename_i htag
    exact ⟨w', hw, rfl, rfl, fun k => by simp [htag]⟩

/-! ## Steps that stay away from the windows -/

/-- The step leaves windows, queue and output alone; the orchestrator may have
moved on, claiming no window and dropping no chunk.  Only the chunk it is about
to read may be read. -/
structure Quiet (su : Setup K V) (s s' : Pipeline K V) : Prop where
  windows : s'.windows = s.windows
  ingest : s'.ingest = s.ingest
  emitted : s'.emitted = s.emitted
  closed : s'.closed = s.closed
  hand : s'.hand = s.hand
  committed : s.committed ≤ s'.committed
  current : s'.phase.current = s.phase.current
  remaining : (s'.phase.remaining su.plan).Sublist (s.phase.remaining su.plan)
  valid : ∀ c, c < (chunksOf su.bounds).length → c ∈ s.phase.remaining su.plan →
    c ∈ s'.phase.remaining su.plan
  selected : ∀ c rest rows n, s'.phase = .selected c rest rows n →
    s.phase = .selected c rest rows n ∨
      rows = su.selectChunk c n ∧ n = s.committed ∧ s'.selects c = some n
  selects : ∀ c, (∀ rest, s.phase ≠ .gated c rest) → s'.selects c = s.selects c

/-- A step that touches no window. -/
theorem quiet_same {t : Pipeline K V} (hw : t.windows = s.windows) (hi : t.ingest = s.ingest)
    (he : t.emitted = s.emitted) (hc : t.closed = s.closed) (hh : t.hand = s.hand)
    (hn : s.committed ≤ t.committed) (hp : t.phase = s.phase) (hs : t.selects = s.selects) :
    Quiet su s t where
  windows := hw
  ingest := hi
  emitted := he
  closed := hc
  hand := hh
  committed := hn
  current := by rw [hp]
  remaining := by rw [hp]
  valid c _ hc := by rwa [hp]
  selected c rest rows n h := .inl (hp ▸ h)
  selects c _ := by rw [hs]

/-- The orchestrator moves on within a chunk, or between chunks. -/
theorem quiet_setPhase {phase : Phase K V} (hcur : phase.current = s.phase.current)
    (hrem : phase.remaining su.plan = s.phase.remaining su.plan)
    (hsel : ∀ c rest rows n, phase ≠ .selected c rest rows n) : Quiet su s { s with phase } where
  windows := rfl
  ingest := rfl
  emitted := rfl
  closed := rfl
  hand := rfl
  committed := le_rfl
  current := hcur
  remaining := by rw [hrem]
  valid c _ hc := by rwa [hrem]
  selected c rest rows n h := absurd h (hsel c rest rows n)
  selects _ _ := rfl

/-- The actions that reach the windows or the batcher's queue. -/
def reachesWindows : Action → Bool
  | .relayTake | .relaySend | .relayDrainGate | .relayAckGateFlush | .addWindowRows
  | .sendMarker | .handleIngest => true
  | _ => false

/-- **Every other step is quiet.** -/
theorem quiet_step {a : Action} (ha : reachesWindows a = false) (hs : s.step su a = some s') :
    Quiet su s s' := by
  cases moves_of_step hs with
  | sourceCommit => exact quiet_same rfl rfl rfl rfl rfl (Nat.le_succ _) rfl rfl
  | readerDecode | pull | drainAccept | relayTakeFlushReq | beginFlush | flush | commit =>
    exact quiet_same rfl rfl rfl rfl rfl le_rfl rfl rfl
  | drainTimeout hphase | drainDone hphase | startSnapshot hphase | resume hphase | persist hphase
  | gateOn hphase | gateFlush hphase | master hphase | release hphase | waitCaughtUp hphase =>
    refine { quiet_setPhase ?_ ?_ ?_ with } <;> simp [hphase, Phase.current, Phase.remaining]
  | @callback chunk rest hphase =>
    have hq : Quiet su s { s with phase := .between rest } :=
      quiet_setPhase (by rw [hphase]; rfl) (by rw [hphase]; rfl) (by simp)
    exact { hq with }
  | finish hphase =>
    have hq : Quiet su s { s with phase := .done } :=
      quiet_setPhase (by rw [hphase]; rfl) (by rw [hphase]; rfl) (by simp)
    exact { hq with }
  | @skipChunk chunk rest hphase hgone =>
    refine ⟨rfl, rfl, rfl, rfl, rfl, le_rfl, by rw [hphase]; rfl, ?_, ?_, ?_, fun _ _ => rfl⟩
    · rw [hphase]
      exact sublist_cons_self chunk rest
    · intro c hlt hc
      rw [hphase] at hc
      rcases mem_cons.mp hc with hc | hc
      · omega
      · exact hc
    · intro c rest' rows n heq
      cases heq
  | @select chunk rest hphase =>
    refine ⟨rfl, rfl, rfl, rfl, rfl, le_rfl, by rw [hphase]; rfl, ?_, ?_, ?_, fun c hc => ?_⟩
    · rw [hphase]
      exact .refl _
    · intro c _ hc
      rw [hphase] at hc
      exact hc
    · intro c rest' rows n heq
      cases heq
      exact .inr ⟨rfl, rfl, if_pos rfl⟩
    · exact if_neg fun heq : c = chunk => hc rest (heq ▸ hphase)
  | _ => cases ha

/-! ## The invariant -/

/-- A row read for the chunk at that point is with the orchestrator, in the worker's window,
or emitted. -/
def ReadAt (s : Pipeline K V) (c n : Nat) : Prop :=
  (∃ rest rows, s.phase = .selected c rest rows n) ∨
    (∃ w, s.windows c = some w ∧ w.selectAt = n) ∨ ∃ k v, .row c k v n ∈ s.emitted

/-- **What the windows hold.** -/
structure Stored (su : Setup K V) (s : Pipeline K V) : Prop where
  markers : (s.closed ++ closesOf s.ingest ++ s.phase.remaining su.plan).Sublist su.plan
  accounted : ∀ c ∈ su.plan, c < (chunksOf su.bounds).length →
    c ∈ s.phase.remaining su.plan ∨ .closes c ∈ s.ingest ∨ c ∈ s.closed
  opened : ∀ c w, s.windows c = some w → s.phase.current = some c ∨ .closes c ∈ s.ingest
  held : ∀ c, s.phase.current = some c ∨ .closes c ∈ s.ingest → (s.windows c).isSome
  selected : ∀ c rest rows n, s.phase = .selected c rest rows n →
    rows = su.selectChunk c n ∧ n ≤ s.committed
  window_rows : ∀ c w, s.windows c = some w →
    w.rows = su.selectChunk c w.selectAt ∧ w.selectAt ≤ s.committed
  touched : ∀ c w, s.windows c = some w → ∀ k ∈ w.touched,
    ∃ i, .live i ∈ s.emitted ∧ su.keyOf i = some k
  rows_true : ∀ c k v n, .row c k v n ∈ s.emitted → su.tableAt n k = some v
  rows_closed : ∀ c k v n, .row c k v n ∈ s.emitted → c ∈ s.closed
  recorded : ∀ c n, ReadAt s c n → s.selects c = some n
  complete : ∀ c ∈ s.closed, ∃ n, s.selects c = some n ∧ ∀ k v, (k, v) ∈ su.selectChunk c n →
    .row c k v n ∈ s.emitted ∨ ∃ i, .live i ∈ s.emitted ∧ su.keyOf i = some k

section Steps

variable (h : Stored su s)

include h

/-- A chunk is closed once: its marker is not queued again, nor is it read
again. -/
theorem Stored.closed_once (hc : chunk ∈ s.closed) :
    .closes chunk ∉ s.ingest ∧ chunk ∉ s.phase.remaining su.plan := by
  have hnodup := h.markers.nodup su.plan_nodup
  rw [append_assoc, nodup_append] at hnodup
  refine ⟨fun hin => ?_, fun hrem => ?_⟩
  · exact hnodup.2.2 chunk hc chunk (mem_append_left _ (mem_closesOf.mpr hin)) rfl
  · exact hnodup.2.2 chunk hc chunk (mem_append_right _ hrem) rfl

/-- An open window is of a planned chunk. -/
theorem Stored.window_plan (hw : s.windows chunk = some w) : chunk ∈ su.plan := by
  apply h.markers.subset
  rcases h.opened chunk w hw with hc | hc
  · exact mem_append_right _ (Phase.mem_remaining_of_current hc)
  · exact mem_append_left _ (mem_append_right _ (mem_closesOf.mpr hc))

/-- A chunk about to be read has no window and is not closed. -/
theorem Stored.unread {rest : List Nat} (hphase : s.phase = .gated chunk rest) :
    s.windows chunk = none ∧ chunk ∉ s.closed := by
  have hrem : chunk ∈ s.phase.remaining su.plan := by
    rw [hphase]
    exact mem_cons_self
  refine ⟨?_, fun hc => (h.closed_once hc).2 hrem⟩
  cases hw : s.windows chunk with
  | none => rfl
  | some w =>
    rcases h.opened chunk w hw with hc | hc
    · rw [hphase] at hc
      cases hc
    · have hnodup := h.markers.nodup su.plan_nodup
      rw [nodup_append] at hnodup
      exact absurd rfl
        (hnodup.2.2 chunk (mem_append_right _ (mem_closesOf.mpr hc)) chunk hrem)

/-- So what was read before keeps its point. -/
theorem Stored.selects_quiet (hq : Quiet su s s') {n : Nat} (hread : ReadAt s c n) :
    s'.selects c = some n := by
  rw [hq.selects c fun rest hphase => ?_]
  · exact h.recorded c n hread
  obtain ⟨hnone, hopen⟩ := h.unread hphase
  rcases hread with ⟨rest', rows, hsel⟩ | ⟨w, hw, -⟩ | ⟨k, v, hrow⟩
  · rw [hphase] at hsel
    cases hsel
  · rw [hnone] at hw
    cases hw
  · exact hopen (h.rows_closed c k v n hrow)

/-- A quiet step keeps the windows. -/
theorem Stored.of_quiet (hq : Quiet su s s') : Stored su s' := by
  have hle := hq.committed
  refine
    { markers := ?_, accounted := ?_, opened := ?_, held := ?_, selected := ?_,
      window_rows := ?_, touched := ?_, rows_true := ?_, rows_closed := ?_, recorded := ?_,
      complete := ?_ }
  · rw [hq.closed, hq.ingest]
    exact ((List.Sublist.refl _).append hq.remaining).trans h.markers
  · intro c hc hlt
    rw [hq.ingest, hq.closed]
    exact (h.accounted c hc hlt).imp_left (hq.valid c hlt)
  · rw [hq.windows, hq.ingest, hq.current]
    exact h.opened
  · rw [hq.windows, hq.ingest, hq.current]
    exact h.held
  · intro c rest rows n hp
    rcases hq.selected c rest rows n hp with hold | ⟨hrows, hn⟩
    · obtain ⟨hrows, hn⟩ := h.selected c rest rows n hold
      exact ⟨hrows, by omega⟩
    · exact ⟨hrows, hn.1 ▸ hle⟩
  · intro c w hw
    rw [hq.windows] at hw
    obtain ⟨hrows, hn⟩ := h.window_rows c w hw
    exact ⟨hrows, by omega⟩
  · rw [hq.windows, hq.emitted]
    exact h.touched
  · rw [hq.emitted]
    exact h.rows_true
  · rw [hq.emitted, hq.closed]
    exact h.rows_closed
  · intro c n hread
    rcases hread with ⟨rest, rows, hp⟩ | hread
    · rcases hq.selected c rest rows n hp with hold | ⟨-, -, hsel⟩
      · exact h.selects_quiet hq (.inl ⟨rest, rows, hold⟩)
      · exact hsel
    · rw [hq.windows, hq.emitted] at hread
      exact h.selects_quiet hq (.inr hread)
  · rw [hq.closed, hq.emitted]
    intro c hc
    obtain ⟨n, hn, hrows⟩ := h.complete c hc
    refine ⟨n, ?_, hrows⟩
    rw [hq.selects c fun rest hphase => (h.unread hphase).2 hc]
    exact hn

/-- Live batches join the queue. -/
theorem Stored.enqueue (units : List Ingest) (hunits : closesOf units = []) :
    Stored su { s with ingest := s.ingest ++ units } := by
  have hcloses : ∀ c, .closes c ∈ s.ingest ++ units ↔ .closes c ∈ s.ingest := by
    intro c
    rw [← mem_closesOf, closesOf_append, hunits, append_nil, mem_closesOf]
  refine { h with markers := ?_, accounted := ?_, opened := ?_, held := ?_ }
  · simpa only [closesOf_append, hunits, append_nil] using h.markers
  · intro c hc hlt
    rw [hcloses c]
    exact h.accounted c hc hlt
  · intro c w hw
    rw [hcloses c]
    exact h.opened c w hw
  · intro c hc
    rw [hcloses c] at hc
    exact h.held c hc

/-- A drained gate keeps the windows. -/
theorem Stored.drainGate : Stored su s.drainGate := by
  unfold Pipeline.drainGate
  split
  · exact { h.enqueue _ (closesOf_tagged s.gateChk s.gate.buf) with }
  · exact h

variable {rest : List Ingest}

/-- A batch of live changes touches windows and is emitted. -/
theorem Stored.handleLive {batch : List Nat} {tag : Option Nat}
    (hin : s.ingest = .live batch tag :: rest) :
    Stored su (({ s with ingest := rest }.markBatchSideEffects su batch tag).addPending su
      (batch.map .live)) := by
  have hcloses : ∀ c, .closes c ∈ rest ↔ .closes c ∈ s.ingest := by
    simp [hin]
  rw [markBatchSideEffects_eq]
  refine
    { markers := ?_, accounted := ?_, opened := ?_, held := ?_, selected := h.selected,
      window_rows := ?_, touched := ?_, rows_true := ?_, rows_closed := ?_, recorded := ?_,
      complete := ?_ }
  · have hmarkers := h.markers
    rw [hin] at hmarkers
    exact hmarkers
  · intro c hc hlt
    exact (h.accounted c hc hlt).imp_right (Or.imp_left (hcloses c).mpr)
  · intro c w' hw'
    obtain ⟨w, hw, -⟩ := window_of_touched hw'
    exact (h.opened c w hw).imp_right (hcloses c).mpr
  · intro c hc
    have hsome := h.held c (hc.imp_right (hcloses c).mp)
    dsimp only [addPending]
    split
    · rwa [Option.isSome_map]
    · exact hsome
  · intro c w' hw'
    obtain ⟨w, hw, hrows, hat, -⟩ := window_of_touched hw'
    rw [hrows, hat]
    exact h.window_rows c w hw
  · intro c w' hw' k hk
    obtain ⟨w, hw, -, -, htouch⟩ := window_of_touched hw'
    rcases (htouch k).mp hk with hk | ⟨-, hk, -⟩
    · obtain ⟨i, hi, hkey⟩ := h.touched c w hw k hk
      exact ⟨i, mem_append_left _ hi, hkey⟩
    · obtain ⟨i, hi, hkey⟩ := mem_batchKeys.mp hk
      exact ⟨i, mem_append_right _ (mem_map.mpr ⟨i, hi, rfl⟩), hkey⟩
  · intro c k v n hrow
    rcases mem_append.mp hrow with hrow | hrow
    · exact h.rows_true c k v n hrow
    · obtain ⟨j, -, heq⟩ := mem_map.mp hrow
      cases heq
  · intro c k v n hrow
    rcases mem_append.mp hrow with hrow | hrow
    · exact h.rows_closed c k v n hrow
    · obtain ⟨j, -, heq⟩ := mem_map.mp hrow
      cases heq
  · intro c n hread
    refine h.recorded c n (hread.imp_right (Or.imp ?_ ?_))
    · rintro ⟨w', hw', hat⟩
      obtain ⟨w, hw, -, hsame, -⟩ := window_of_touched hw'
      exact ⟨w, hw, hsame.symm.trans hat⟩
    · rintro ⟨k, v, hrow⟩
      rcases mem_append.mp hrow with hrow | hrow
      · exact ⟨k, v, hrow⟩
      · obtain ⟨j, -, heq⟩ := mem_map.mp hrow
        cases heq
  · intro c hc
    obtain ⟨n, hn, hrows⟩ := h.complete c hc
    refine ⟨n, hn, fun k v hkv => (hrows k v hkv).imp (mem_append_left _) ?_⟩
    intro ⟨i, hi, hkey⟩
    exact ⟨i, mem_append_left _ hi, hkey⟩

/-- Each row of an open window is one its closing keeps, or was superseded by
an emitted change. -/
theorem Stored.kept_or_superseded {c : Nat} (hw : s.windows c = some w) {k : K}
    {v : V} (hkv : (k, v) ∈ su.selectChunk c w.selectAt) :
    .row c k v w.selectAt ∈ Window.kept c w ∨ ∃ i, .live i ∈ s.emitted ∧ su.keyOf i = some k := by
  by_cases htouch : k ∈ w.touched
  · exact .inr (h.touched c w hw k htouch)
  · rw [← (h.window_rows c w hw).1] at hkv
    exact .inl (mem_kept.mpr ⟨hkv, htouch, rfl, rfl⟩)

/-- A marker closes the window it names, which the worker holds. -/
theorem Stored.handleCloses (hin : s.ingest = .closes chunk :: rest) :
    Stored su ({ s with ingest := rest }.handleCloses su chunk) := by
  have hqueued : ∀ c, .closes c ∈ rest → .closes c ∈ s.ingest := by
    intro c hc
    rw [hin]
    exact mem_cons_of_mem _ hc
  have hmarkers : (s.closed ++ [chunk] ++ closesOf rest ++ s.phase.remaining su.plan).Sublist
      su.plan := by
    have hold := h.markers
    rw [hin] at hold
    simpa [closesOf] using hold
  -- The chunk is closed once, so neither the orchestrator nor the queue names it again.
  have hother : ∀ c, s.phase.current = some c ∨ .closes c ∈ rest → c ≠ chunk := by
    intro c hc heq
    have hnodup := hmarkers.nodup su.plan_nodup
    rw [append_assoc, nodup_append] at hnodup
    refine hnodup.2.2 chunk (by simp) c ?_ heq.symm
    rcases hc with hc | hc
    · exact mem_append_right _ (Phase.mem_remaining_of_current hc)
    · exact mem_append_left _ (mem_closesOf.mpr hc)
  have hheld := h.held chunk (.inr (by simp [hin]))
  rcases handleCloses_cases su { s with ingest := rest } chunk with
    ⟨hnone, -⟩ | ⟨w₀, bytes, hw₀, heq⟩
  · rw [hnone] at hheld
    cases hheld
  rw [heq]
  have hopen : ∀ c w, (if c = chunk then none else s.windows c) = some w →
      c ≠ chunk ∧ s.windows c = some w := by
    intro c w hw
    split at hw
    · cases hw
    · rename_i hne
      exact ⟨hne, hw⟩
  refine
    { markers := hmarkers, accounted := ?_, opened := ?_, held := ?_, selected := h.selected,
      window_rows := ?_, touched := ?_, rows_true := ?_, rows_closed := ?_, recorded := ?_,
      complete := ?_ }
  · intro c hc hlt
    have hacc := h.accounted c hc hlt
    rw [hin, mem_cons] at hacc
    rcases hacc with hacc | (hacc | hacc) | hacc
    · exact .inl hacc
    · cases hacc
      exact .inr (.inr mem_concat_self)
    · exact .inr (.inl hacc)
    · exact .inr (.inr (mem_append_left _ hacc))
  · intro c w hw
    obtain ⟨hne, hw⟩ := hopen c w hw
    refine (h.opened c w hw).imp_right fun hc => ?_
    rw [hin] at hc
    rcases mem_cons.mp hc with hc | hc
    · cases hc
      exact absurd rfl hne
    · exact hc
  · intro c hc
    dsimp only
    rw [if_neg (hother c hc)]
    exact h.held c (hc.imp_right (hqueued c))
  · intro c w hw
    exact h.window_rows c w (hopen c w hw).2
  · intro c w hw k hk
    obtain ⟨i, hi, hkey⟩ := h.touched c w (hopen c w hw).2 k hk
    exact ⟨i, mem_append_left _ hi, hkey⟩
  · intro c k v n hrow
    rcases mem_append.mp hrow with hrow | hrow
    · exact h.rows_true c k v n hrow
    · obtain ⟨hkv, -, -, rfl⟩ := mem_kept.mp hrow
      rw [(h.window_rows chunk w₀ hw₀).1] at hkv
      exact (mem_selectChunk.mp hkv).2
  · intro c k v n hrow
    rcases mem_append.mp hrow with hrow | hrow
    · exact mem_append_left _ (h.rows_closed c k v n hrow)
    · obtain ⟨-, -, rfl, -⟩ := mem_kept.mp hrow
      exact mem_concat_self
  · intro c n hread
    rcases hread with hread | ⟨w, hw, hat⟩ | ⟨k, v, hrow⟩
    · exact h.recorded c n (.inl hread)
    · exact h.recorded c n (.inr (.inl ⟨w, (hopen c w hw).2, hat⟩))
    · rcases mem_append.mp hrow with hrow | hrow
      · exact h.recorded c n (.inr (.inr ⟨k, v, hrow⟩))
      · obtain ⟨-, -, rfl, rfl⟩ := mem_kept.mp hrow
        exact h.recorded c _ (.inr (.inl ⟨w₀, hw₀, rfl⟩))
  · intro c hc
    rcases mem_append.mp hc with hc | hc
    · obtain ⟨n, hn, hrows⟩ := h.complete c hc
      refine ⟨n, hn, fun k v hkv => (hrows k v hkv).imp (mem_append_left _) ?_⟩
      intro ⟨i, hi, hkey⟩
      exact ⟨i, mem_append_left _ hi, hkey⟩
    · rw [mem_singleton.mp hc]
      refine ⟨w₀.selectAt, h.recorded chunk _ (.inr (.inl ⟨w₀, hw₀, rfl⟩)), fun k v hkv => ?_⟩
      refine (h.kept_or_superseded hw₀ hkv).imp (mem_append_right _) ?_
      intro ⟨i, hi, hkey⟩
      exact ⟨i, mem_append_left _ hi, hkey⟩

/-- A unit handled keeps the windows. -/
theorem Stored.handleIngest (hs : s.handleIngest su = some s') : Stored su s' := by
  rcases handleIngest_cases hs with ⟨batch, tag, rest, hin, rfl⟩ | ⟨chunk, rest, hin, rfl⟩
  · exact h.handleLive hin
  · exact h.handleCloses hin

/-- The orchestrator stores the rows of a chunk it has not read before. -/
theorem Stored.addWindowRows {rest : List Nat} {rows : List (K × V)} {selectAt : Nat}
    (hphase : s.phase = .selected chunk rest rows selectAt) :
    s.windows chunk = none ∧
      Stored su { s.addWindowRows chunk rows selectAt with phase := .stored chunk rest } := by
  have hcur : s.phase.current = none := by
    rw [hphase]
    rfl
  have hrem : s.phase.remaining su.plan = chunk :: rest := by
    rw [hphase]
    rfl
  have hnew : .closes chunk ∉ s.ingest := by
    intro hin
    have hnodup := h.markers.nodup su.plan_nodup
    rw [nodup_append, hrem] at hnodup
    exact hnodup.2.2 chunk (mem_append_right _ (mem_closesOf.mpr hin)) chunk mem_cons_self rfl
  have hnone : s.windows chunk = none := by
    cases hw : s.windows chunk with
    | none => rfl
    | some w =>
      rcases h.opened chunk w hw with hc | hc
      · rw [hcur] at hc
        cases hc
      · exact absurd hc hnew
  have hcases : ∀ c w, (if c = chunk then some ⟨rows, selectAt, []⟩ else s.windows c) = some w →
      (c = chunk ∧ w = ⟨rows, selectAt, []⟩) ∨ s.windows c = some w := by
    intro c w hw
    split at hw
    · rename_i heq
      cases hw
      exact .inl ⟨heq, rfl⟩
    · exact .inr hw
  refine ⟨hnone, ?_⟩
  simp only [Pipeline.addWindowRows, hnone]
  refine { h with
    markers := ?_, accounted := ?_, opened := ?_, held := ?_, selected := ?_,
    window_rows := ?_, touched := ?_, recorded := ?_ }
  · have hmarkers := h.markers
    rw [hrem] at hmarkers
    exact hmarkers
  · intro c hc hlt
    have hacc := h.accounted c hc hlt
    rw [hrem] at hacc
    exact hacc
  · intro c w hw
    rcases hcases c w hw with ⟨rfl, -⟩ | hw
    · exact .inl rfl
    · refine (h.opened c w hw).imp_left fun hc => ?_
      rw [hcur] at hc
      cases hc
  · intro c hc
    dsimp only
    by_cases heq : c = chunk
    · rw [if_pos heq]
      rfl
    rw [if_neg heq]
    rcases hc with hc | hc
    · cases hc
      exact absurd rfl heq
    · exact h.held c (.inr hc)
  · intro c rest' rows' n hp
    cases hp
  · intro c w hw
    rcases hcases c w hw with ⟨rfl, rfl⟩ | hw
    · exact h.selected c rest rows selectAt hphase
    · exact h.window_rows c w hw
  · intro c w hw k hk
    rcases hcases c w hw with ⟨rfl, rfl⟩ | hw
    · cases hk
    · exact h.touched c w hw k hk
  · intro c n hread
    rcases hread with ⟨rest', rows', hp⟩ | ⟨w, hw, hat⟩ | hrow
    · cases hp
    · rcases hcases c w hw with ⟨rfl, rfl⟩ | hw
      · exact h.recorded c n (.inl ⟨rest, rows, hat ▸ hphase⟩)
      · exact h.recorded c n (.inr (.inl ⟨w, hw, hat⟩))
    · exact h.recorded c n (.inr (.inr hrow))

/-- The orchestrator queues a chunk's marker. -/
theorem Stored.sendMarker {rest : List Nat} (hphase : s.phase = .drained chunk rest) :
    Stored su { s with phase := .released chunk rest, ingest := s.ingest ++ [.closes chunk] } := by
  have hcur : s.phase.current = some chunk := by
    rw [hphase]
    rfl
  have hrem : s.phase.remaining su.plan = chunk :: rest := by
    rw [hphase]
    rfl
  refine { h with
    markers := ?_, accounted := ?_, opened := ?_, held := ?_, selected := ?_, recorded := ?_ }
  · have hmarkers := h.markers
    rw [hrem] at hmarkers
    simpa [closesOf, Phase.remaining] using hmarkers
  · intro c hc hlt
    have hacc := h.accounted c hc hlt
    rw [hrem, mem_cons] at hacc
    rcases hacc with (rfl | hacc) | hacc | hacc
    · exact .inr (.inl mem_concat_self)
    · exact .inl hacc
    · exact .inr (.inl (mem_append_left _ hacc))
    · exact .inr (.inr hacc)
  · intro c w hw
    rcases h.opened c w hw with hc | hc
    · rw [hcur] at hc
      cases hc
      exact .inr mem_concat_self
    · exact .inr (mem_append_left _ hc)
  · intro c hc
    rcases hc with hc | hc
    · cases hc
    · rcases mem_append.mp hc with hc | hc
      · exact h.held c (.inr hc)
      · cases mem_singleton.mp hc
        exact h.held chunk (.inl hcur)
  · intro c rest' rows n hp
    cases hp
  · intro c n hread
    refine h.recorded c n (hread.imp_left ?_)
    rintro ⟨rest', rows, hp⟩
    cases hp

/-- **Every step keeps what the windows hold.** -/
theorem Stored.step {a : Action} (hs : s.step su a = some s') : Stored su s' := by
  cases moves_of_step hs with
  | @takeFull _ _ tag => exact { h.enqueue _ (closesOf_tagged tag s.gate.buf) with }
  | takeHeld | takeDirect => exact { h with }
  | @relaySend b => exact { h.enqueue [.live b none] rfl with }
  | handleIngest hs => exact h.handleIngest hs
  | relayDrainGate => exact h.drainGate
  | relayAckGateFlush hphase =>
    have hsame := (drainGate_phase s).trans hphase
    exact h.drainGate.of_quiet (quiet_setPhase (by rw [hsame]; rfl) (by rw [hsame]; rfl) (by simp))
  | addWindowRows hphase => exact (h.addWindowRows hphase).2
  | sendMarker hphase => exact h.sendMarker hphase
  | _ => exact h.of_quiet (quiet_step rfl hs)

end Steps

end Pipeline

end Urutau
