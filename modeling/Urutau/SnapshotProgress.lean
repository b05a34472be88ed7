import Urutau.WindowContents

/-!
# The snapshot progress the sink holds

Every commit of the worker carries the snapshot's progress: a state and the
chunks still to do.  A restart reads the chunks the sink names and no others,
so a commit must not leave out a chunk whose rows are not durable with it.

The progress a flush commits is the worker's at that moment, and the
orchestrator advances it as soon as a chunk's marker is queued.  A flush can
therefore carry a progress that is ahead of the rows it commits, and a flush
that is split in two carries the same progress on both halves.  `SafeFlush`
rules out just that, at the first flush that leaves a chunk out; under it the
sink names every chunk it has not got whole.
-/

namespace Urutau

open List Runs

variable {K V : Type}

/-- A restart reads the chunk again: the snapshot starts over when it was never
started or has no bounds to resume from, and otherwise reads what is pending. -/
def Durable.names (d : Durable K V) (c : Nat) : Prop :=
  match d.state with
  | .notStarted => True
  | .inProgress => d.hasBounds = false ∨ c ∈ d.pending
  | .complete => False

instance (d : Durable K V) (c : Nat) : Decidable (d.names c) := by
  unfold Durable.names
  split <;> infer_instance

/-- The chunk a buffered row belongs to. -/
def Emit.chunk : Emit K V → Option Nat
  | .live _ => none
  | .row c _ _ _ => some c

namespace Pipeline

/-- A commit with this progress stops the sink from naming the chunk. -/
def Omits (state : Option SnapshotState) (pending : Option (List Nat)) (c : Nat) : Prop :=
  state = some .complete ∨ ∃ left ∈ pending, c ∉ left

instance (state : Option SnapshotState) (pending : Option (List Nat)) (c : Nat) :
    Decidable (Omits state pending c) :=
  inferInstanceAs (Decidable (_ ∨ _))

/-- A progress the worker can have: it never says not started, and it has a
pending list only once it has a state. -/
def Sound (state : Option SnapshotState) (pending : Option (List Nat)) : Prop :=
  state ≠ some .notStarted ∧ (state = none → pending = none)

/-- The progress a flush commits: what it read when it began, unless it is an
unsplit upsert. -/
def flushProgress (su : Setup K V) (s : Pipeline K V) (p : Prepared K) :
    Option SnapshotState × Option (List Nat) :=
  if p.split then (p.state, p.pending)
  else
    match su.mode with
    | .append => (p.state, p.pending)
    | .upsert => (s.snapState, s.snapPending)

variable {items : List (Emit K V)}

variable {cm : Commit K V} {p : Prepared K} {s : Pipeline K V} {su : Setup K V} {e : Emit K V}

/-- A commit sent has the items and the state given. -/
theorem mem_sendReady {state : Option SnapshotState} {pending : Option (List Nat)}
    (h : cm ∈ sendReady items state pending) :
    cm = ⟨items, state, pending⟩ := by
  unfold sendReady at h
  split at h
  · cases h
  · exact mem_singleton.mp h

/-- The commits sent have the items. -/
theorem flatMap_sendReady (items : List (Emit K V)) (state : Option SnapshotState)
    (pending : Option (List Nat)) :
    (sendReady items state pending).flatMap Commit.items = items := by
  unfold sendReady
  split
  · rename_i hnil
    rw [hnil]
    rfl
  · simp

/-- Every commit of a flush carries the flush's progress. -/
theorem progress_of_commit (h : cm ∈ commitsOf su s p) :
    cm.state = (flushProgress su s p).1 ∧ cm.pending = (flushProgress su s p).2 := by
  unfold commitsOf at h
  unfold flushProgress
  split at h
  · rename_i hsplit
    rw [if_pos hsplit]
    rcases mem_append.mp h with h | h <;> rw [mem_sendReady h] <;> exact ⟨rfl, rfl⟩
  · rename_i hsplit
    rw [if_neg hsplit]
    cases hmode : su.mode with
    | append | upsert =>
      rw [hmode] at h
      rw [mem_sendReady h]
      exact ⟨rfl, rfl⟩

/-- Either half of a split flush takes an item. -/
theorem mem_untouched_or_rest (he : e ∈ items) :
    e ∈ untouchedRows su p items ∨ e ∈ restRows su p items := by
  cases e with
  | live i => exact .inr (mem_filter.mpr ⟨he, rfl⟩)
  | row c k v n =>
    cases hg : su.guardHits p.guard k with
    | false => exact .inl (mem_filter.mpr ⟨he, by simp [hg]⟩)
    | true => exact .inr (mem_filter.mpr ⟨he, by simp [hg]⟩)

/-- A delete that an append table does not keep. -/
def Dropped (su : Setup K V) (e : Emit K V) : Prop :=
  su.mode = .append ∧ e ∉ appendRowsToKeep su [e]

/-- A flush commits every buffered item, but for the deletes that are dropped. -/
theorem mem_commitsOf (he : e ∈ s.buffered) (hkept : ¬ Dropped su e) :
    e ∈ (commitsOf su s p).flatMap Commit.items := by
  unfold commitsOf
  split
  · rw [flatMap_append, flatMap_sendReady, flatMap_sendReady, mem_append]
    exact mem_untouched_or_rest he
  · split
    · rename_i hmode
      have hmem : e ∈ appendRowsToKeep su [e] := not_not.mp fun hnot => hkept ⟨hmode, hnot⟩
      rw [flatMap_sendReady]
      exact mem_filter.mpr ⟨he, (mem_filter.mp hmem).2⟩
    · rw [flatMap_sendReady]
      exact he

/-- A commit that does not leave the chunk out keeps it named. -/
theorem names_of_commit {d : Durable K V} {c : Nat}
    (hsound : Sound cm.state cm.pending) (hunstarted : d.state = .notStarted → d.hasBounds = false)
    (hkept : ¬ Omits cm.state cm.pending c) (hnames : d.names c) :
    Durable.names ⟨items, cm.state.getD d.state, d.hasBounds, cm.pending.getD d.pending⟩ c := by
  unfold Durable.names at hnames ⊢
  cases hstate : cm.state with
  | none =>
    rw [hsound.2 hstate]
    exact hnames
  | some state =>
    cases state with
    | notStarted => exact absurd hstate hsound.1
    | complete => exact absurd (.inl hstate) hkept
    | inProgress =>
      cases hpending : cm.pending with
      | some left =>
        right
        by_contra hnot
        exact hkept (.inr ⟨left, hpending, hnot⟩)
      | none =>
        split at hnames
        · rename_i hnew
          exact .inl (hunstarted hnew)
        · exact hnames
        · exact hnames.elim

section Landing

variable [LinearOrder K]

/-- The chunk's window has nothing left to emit. -/
def Emptied (s : Pipeline K V) (c : Nat) : Prop :=
  c ∈ s.closed ∨ ∃ w ∈ s.windows c, Window.kept c w = []

/-- The item is a row of the chunk, or a live change of a key in its range. -/
def Concerns (su : Setup K V) (c : Nat) : Emit K V → Prop
  | .row c' _ _ _ => c' = c
  | .live i => ∃ k ∈ su.keyOf i, su.inChunk c k = true

instance (su : Setup K V) (c : Nat) : DecidablePred (Concerns su c)
  | .row c' _ _ _ => inferInstanceAs (Decidable (c' = c))
  | .live i => inferInstanceAs (Decidable (∃ k ∈ su.keyOf i, su.inChunk c k = true))

/-- The sink, or a commit on its way, leaves the chunk out already. -/
def LeftOut (s : Pipeline K V) (c : Nat) : Prop :=
  ¬ s.durable.names c ∨ ∃ cm ∈ s.ready, Omits cm.state cm.pending c

instance (s : Pipeline K V) (c : Nat) : Decidable (LeftOut s c) :=
  inferInstanceAs (Decidable (_ ∨ _))

/-- **The safe-flush condition.**  Every chunk that the flush's progress is the
first to leave out has nothing left in its window, and neither a row of it nor a
live change of a key in its range goes out in the second half of a split
flush. -/
def SafeFlush (su : Setup K V) (s : Pipeline K V) : Prop :=
  ∀ p ∈ s.prepared, ∀ c ∈ su.plan, c < (chunksOf su.bounds).length →
    Omits (flushProgress su s p).1 (flushProgress su s p).2 c → ¬ LeftOut s c →
    Emptied s c ∧ (p.split = true → untouchedRows su p s.buffered ≠ [] →
        ∀ e ∈ restRows su p s.buffered, ¬ Concerns su c e)

instance (s : Pipeline K V) (c : Nat) [DecidableEq V] : Decidable (Emptied s c) :=
  inferInstanceAs (Decidable (_ ∨ ∃ w ∈ s.windows c, Window.kept c w = []))

instance (su : Setup K V) (s : Pipeline K V) [DecidableEq V] : Decidable (SafeFlush su s) :=
  inferInstanceAs (Decidable (∀ p ∈ s.prepared, ∀ c ∈ su.plan,
    c < (chunksOf su.bounds).length → _ → _ → _ ∧ (_ → _ → ∀ e ∈ _, _)))

/-- The guard of a run: every flush is safe. -/
def SafeFlushes (su : Setup K V) (s : Pipeline K V) : Action → Prop
  | .flush => SafeFlush su s
  | _ => True

instance (su : Setup K V) (s : Pipeline K V) (a : Action) [DecidableEq V] :
    Decidable (SafeFlushes su s a) := by
  cases a <;> unfold SafeFlushes <;> infer_instance

/-- A live change of the key is among the items, or was a delete that an append
table does not keep. -/
def Superseded (su : Setup K V) (s : Pipeline K V) (items : List (Emit K V)) (k : K) : Prop :=
  ∃ i, su.keyOf i = some k ∧ (.live i ∈ items ∨ .live i ∈ s.emitted ∧ Dropped su (.live i))

/-- The chunk has nothing left to emit; its rows are among the items, and so are
the changes that superseded the others. -/
def LandedIn (su : Setup K V) (s : Pipeline K V) (items : List (Emit K V)) (c : Nat) : Prop :=
  Emptied s c ∧ (∀ e ∈ s.emitted, e.chunk = some c → e ∈ items) ∧
    ∃ n, s.selects c = some n ∧ ∀ k v, (k, v) ∈ su.selectChunk c n →
      .row c k v n ∈ s.emitted ∨ Superseded su s items k

/-- It has landed once the commits `before` are made. -/
def Landed (su : Setup K V) (s : Pipeline K V) (before : List (Commit K V)) (c : Nat) : Prop :=
  LandedIn su s (s.durable.items ++ before.flatMap Commit.items) c

/-- Each of the commits, made after `before`, leaves out only chunks that have
landed with it. -/
def Covers (su : Setup K V) (s : Pipeline K V) (before : List (Commit K V)) :
    List (Commit K V) → Prop
  | [] => True
  | cm :: rest =>
    (∀ c ∈ su.plan, c < (chunksOf su.bounds).length → Omits cm.state cm.pending c →
      Landed su s (before ++ [cm]) c) ∧ Covers su s (before ++ [cm]) rest

variable {su : Setup K V} {s s' : Pipeline K V} {c : Nat}

theorem covers_append (before xs ys : List (Commit K V)) :
    Covers su s before (xs ++ ys) ↔ Covers su s before xs ∧ Covers su s (before ++ xs) ys := by
  induction xs generalizing before with
  | nil => simp [Covers]
  | cons cm rest ih =>
    simp only [cons_append, Covers, ih, and_assoc, append_assoc, nil_append]

variable {xs : List (Commit K V)}

theorem Covers.mono {a b : List (Commit K V)} (h : Covers su s a xs)
    (hmono : ∀ c more, Landed su s (a ++ more) c → Landed su s' (b ++ more) c) :
    Covers su s' b xs := by
  induction xs generalizing a b with
  | nil => trivial
  | cons cm rest ih =>
    refine ⟨fun c hc hlt ho => hmono c [cm] (h.1 c hc hlt ho), ih h.2 fun c more hl => ?_⟩
    rw [append_assoc] at hl ⊢
    exact hmono c _ hl

theorem LandedIn.mono {items more : List (Emit K V)} (h : LandedIn su s items c)
    (hsub : ∀ e ∈ items, e ∈ more) : LandedIn su s more c := by
  obtain ⟨hempty, hrows, n, hn, hwhole⟩ := h
  refine ⟨hempty, fun e he hc => hsub e (hrows e he hc), n, hn, fun k v hkv => ?_⟩
  refine (hwhole k v hkv).imp_right fun ⟨i, hi, hlive⟩ => ⟨i, hi, hlive.imp_left (hsub _)⟩

/-- What a commit leaves out has landed once the commits up to it are made. -/
theorem Covers.landed {before : List (Commit K V)} (h : Covers su s before xs)
    {cm : Commit K V} (hcm : cm ∈ xs) (hc : c ∈ su.plan) (hlt : c < (chunksOf su.bounds).length)
    (ho : Omits cm.state cm.pending c) : Landed su s (before ++ xs) c := by
  induction xs generalizing before with
  | nil => cases hcm
  | cons first rest ih =>
    rcases mem_cons.mp hcm with rfl | hcm
    · refine (h.1 c hc hlt ho).mono fun e he => ?_
      simp only [flatMap_append, flatMap_cons, mem_append] at he ⊢
      tauto
    · have hrest := ih h.2 hcm
      rwa [append_assoc] at hrest

/-- With nothing left to emit, every row the SELECT returned is emitted or superseded. -/
theorem Emptied.whole (h : Emptied s c) (hst : Stored su s) :
    ∃ n, s.selects c = some n ∧ ∀ k v, (k, v) ∈ su.selectChunk c n →
      .row c k v n ∈ s.emitted ∨ ∃ i, .live i ∈ s.emitted ∧ su.keyOf i = some k := by
  rcases h with hclosed | ⟨w, hw, hkept⟩
  · exact hst.complete c hclosed
  refine ⟨w.selectAt, hst.recorded c _ (.inr (.inl ⟨w, hw, rfl⟩)), fun k v hkv => .inr ?_⟩
  rcases hst.kept_or_superseded hw hkv with hk | hk
  · rw [hkept] at hk
    cases hk
  · exact hk

/-! ## What a chunk with nothing left to emit stays -/

/-- A window that keeps no row keeps none. -/
theorem kept_touch {w : Window K V} (keys : List K) (hkept : Window.kept c w = []) :
    Window.kept c (Window.touch w keys) = [] := by
  rw [Window.kept, map_eq_nil_iff, filter_eq_nil_iff] at hkept ⊢
  intro r hr hnot
  have hold := hkept r hr
  simp only [decide_eq_true_eq, not_not] at hold hnot
  exact hnot (mem_touch.mpr (.inl hold))

variable {a : Action}

/-- Only the batcher and the storing of rows change windows and output. -/
theorem still_step (hin : a ≠ .handleIngest) (hadd : a ≠ .addWindowRows)
    (hs : s.step su a = some s') :
    s'.windows = s.windows ∧ s'.closed = s.closed ∧ s'.emitted = s.emitted := by
  cases moves_of_step hs with
  | handleIngest => exact absurd rfl hin
  | addWindowRows => exact absurd rfl hadd
  | takeFull | takeHeld | takeDirect | relaySend | sendMarker => exact ⟨rfl, rfl, rfl⟩
  | relayDrainGate | relayAckGateFlush =>
    simp only [drainGate]
    split <;> exact ⟨rfl, rfl, rfl⟩
  | _ =>
    have hq : Quiet su s _ := quiet_step rfl hs
    exact ⟨hq.windows, hq.closed, hq.emitted⟩

/-- What was emitted stays so. -/
theorem emitted_step (hs : s.step su a = some s') {e : Emit K V} (he : e ∈ s.emitted) :
    e ∈ s'.emitted := by
  by_cases hin : a = .handleIngest
  · subst hin
    rcases handleIngest_cases hs with ⟨batch, tag, rest, -, rfl⟩ | ⟨chunk, rest, -, rfl⟩
    · rw [markBatchSideEffects_eq]
      exact mem_append_left _ he
    · rcases handleCloses_cases su { s with ingest := rest } chunk with
        ⟨-, heq⟩ | ⟨w, bytes, -, heq⟩ <;> rw [heq]
      · exact he
      · exact mem_append_left _ he
  · by_cases hadd : a = .addWindowRows
    · subst hadd
      cases moves_of_step hs
      exact he
    · rw [(still_step hin hadd hs).2.2]
      exact he

/-- A chunk with nothing left to emit is not read again. -/
theorem Emptied.selects_step (h : Emptied s c) (hst : Stored su s) (hs : s.step su a = some s') :
    s'.selects c = s.selects c := by
  have hunread : ∀ rest, s.phase ≠ .gated c rest := by
    intro rest hphase
    obtain ⟨hnone, hopen⟩ := hst.unread hphase
    rcases h with hclosed | ⟨w, hw, -⟩
    · exact hopen hclosed
    · rw [hnone] at hw
      cases hw
  cases moves_of_step hs with
  | @select chunk rest hphase => exact if_neg fun heq : c = chunk => hunread rest (heq ▸ hphase)
  | relayDrainGate | relayAckGateFlush =>
    simp only [drainGate]
    split <;> rfl
  | handleIngest hs =>
    rcases handleIngest_cases hs with ⟨batch, tag, rest, -, rfl⟩ | ⟨chunk, rest, -, rfl⟩
    · rw [markBatchSideEffects_eq]
      rfl
    · rcases handleCloses_cases su { s with ingest := rest } chunk with
        ⟨-, heq⟩ | ⟨w, bytes, -, heq⟩ <;> rw [heq]
  | _ => rfl

/-- It stays so in every step, and no row of it is emitted again. -/
theorem Emptied.step (h : Emptied s c) (hst : Stored su s) (hs : s.step su a = some s') :
    Emptied s' c ∧ ∀ e ∈ s'.emitted, e.chunk = some c → e ∈ s.emitted := by
  by_cases hin : a = .handleIngest
  · subst hin
    rcases handleIngest_cases hs with ⟨batch, tag, rest, hq, rfl⟩ | ⟨chunk, rest, hq, rfl⟩
    · rw [markBatchSideEffects_eq]
      refine ⟨?_, ?_⟩
      · refine h.imp_right fun ⟨w, hw, hkept⟩ => ?_
        split
        · exact ⟨_, Option.mem_map_of_mem _ hw, kept_touch _ hkept⟩
        · exact ⟨w, hw, hkept⟩
      · intro e he hc
        rcases mem_append.mp he with he | he
        · exact he
        · obtain ⟨i, -, rfl⟩ := mem_map.mp he
          cases hc
    · rcases handleCloses_cases su { s with ingest := rest } chunk with
        ⟨-, heq⟩ | ⟨w₀, bytes, hw₀, heq⟩
      · rw [heq]
        exact ⟨h.imp_left (mem_append_left _), fun e he _ => he⟩
      rw [heq]
      refine ⟨?_, ?_⟩
      · by_cases heq : c = chunk
        · exact .inl (mem_append_right _ (by rw [heq]; exact mem_cons_self))
        · refine h.imp (mem_append_left _) fun ⟨w, hw, hkept⟩ => ⟨w, ?_, hkept⟩
          simpa only [if_neg heq] using hw
      intro e he hc
      rcases mem_append.mp he with he | he
      · exact he
      -- A kept row of the chunk's own window: the window had none.
      cases e with
      | live i => cases hc
      | row c' k v n =>
        cases hc
        obtain ⟨-, -, rfl, -⟩ := mem_kept.mp he
        rcases h with hclosed | ⟨w, hw, hkept⟩
        · exact absurd (by simp [hq]) (hst.closed_once hclosed).1
        · cases (Option.mem_def.mp hw).symm.trans hw₀
          rw [hkept] at he
          cases he
  · by_cases hadd : a = .addWindowRows
    · subst hadd
      cases moves_of_step hs with
      | @addWindowRows chunk rest rows selectAt hphase =>
        have hnone := (hst.addWindowRows hphase).1
        refine ⟨h.imp_right fun ⟨w, hw, hkept⟩ => ⟨w, ?_, hkept⟩, fun e he _ => he⟩
        have hne : c ≠ chunk := by
          intro heq
          rw [heq, hnone] at hw
          cases hw
        simpa only [Pipeline.addWindowRows, hnone, if_neg hne] using hw
    · obtain ⟨hwin, hclosed, hemit⟩ := still_step hin hadd hs
      unfold Emptied
      rw [hwin, hclosed, hemit]
      exact ⟨h, fun e he _ => he⟩

/-- A chunk that has landed stays so while no item is lost. -/
theorem Landed.step {before before' : List (Commit K V)} (h : Landed su s before c)
    (hst : Stored su s) (hs : s.step su a = some s')
    (hkeep : ∀ e ∈ s.durable.items ++ before.flatMap Commit.items,
      e ∈ s'.durable.items ++ before'.flatMap Commit.items) : Landed su s' before' c := by
  obtain ⟨hempty, hrows, n, hn, hwhole⟩ := h
  obtain ⟨hempty', hold⟩ := hempty.step hst hs
  refine ⟨hempty', fun e he hc => hkeep e (hrows e (hold e he hc) hc), n,
    (hempty.selects_step hst hs).trans hn, fun k v hkv => ?_⟩
  refine (hwhole k v hkv).imp (emitted_step hs) fun ⟨i, hi, hlive⟩ => ⟨i, hi, ?_⟩
  exact hlive.imp (hkeep _) (And.imp_left (emitted_step hs))

/-! ## The invariant -/

/-- **The progress invariant.**  Every emitted item is durable, in a commit or buffered, but for the
deletes that are dropped; no commit on its way leaves out a chunk that will not have landed with it;
and the sink names every chunk that has not landed. -/
structure Progressed (su : Setup K V) (s : Pipeline K V) : Prop where
  flight : ∀ e ∈ s.emitted, ¬ Dropped su e →
    e ∈ s.durable.items ++ s.ready.flatMap Commit.items ++ s.buffered
  commits : Covers su s [] s.ready
  named : ∀ c ∈ su.plan, c < (chunksOf su.bounds).length → s.durable.names c ∨ Landed su s [] c
  unstarted : s.durable.state = .notStarted → s.durable.hasBounds = false
  worker : Sound s.snapState s.snapPending
  begun : ∀ p ∈ s.prepared, Sound p.state p.pending
  sound : ∀ cm ∈ s.ready, Sound cm.state cm.pending

/-- The commits on their way keep covering while the sink loses no row. -/
theorem Covers.step (h : Covers su s [] xs) (hst : Stored su s)
    (hs : s.step su a = some s') (hkeep : ∀ e ∈ s.durable.items, e ∈ s'.durable.items) :
    Covers su s' [] xs := by
  refine h.mono fun c more hl => hl.step hst hs fun e he => ?_
  rcases mem_append.mp he with he | he
  · exact mem_append_left _ (hkeep e he)
  · exact mem_append_right _ he

/-- A landed chunk stays landed. -/
theorem Landed.keep (h : Landed su s [] c) (hst : Stored su s) (hs : s.step su a = some s')
    (hkeep : ∀ e ∈ s.durable.items, e ∈ s'.durable.items) :
    Landed su s' [] c := by
  refine h.step hst hs fun e he => ?_
  simpa using hkeep e (by simpa using he)

/-- The actions that reach the worker's buffer, its progress, or the sink. -/
def reachesWorker : Action → Bool
  | .startSnapshot | .persist | .callback | .finish | .handleIngest | .beginFlush | .flush
  | .commit => true
  | _ => false

/-- The step leaves the worker's buffer, its progress and the sink alone. -/
structure Away (s s' : Pipeline K V) : Prop where
  emitted : s'.emitted = s.emitted
  buffered : s'.buffered = s.buffered
  ready : s'.ready = s.ready
  durable : s'.durable = s.durable
  snapState : s'.snapState = s.snapState
  snapPending : s'.snapPending = s.snapPending
  prepared : s'.prepared = s.prepared

theorem away_step (ha : reachesWorker a = false) (hs : s.step su a = some s') : Away s s' := by
  cases moves_of_step hs with
  | startSnapshot | resume | persist | callback | finish | handleIngest | beginFlush | flush
  | commit => cases ha
  | relayDrainGate | relayAckGateFlush =>
    simp only [drainGate]
    split <;> exact ⟨rfl, rfl, rfl, rfl, rfl, rfl, rfl⟩
  | addWindowRows =>
    simp only [Pipeline.addWindowRows]
    split <;> exact ⟨rfl, rfl, rfl, rfl, rfl, rfl, rfl⟩
  | _ => exact ⟨rfl, rfl, rfl, rfl, rfl, rfl, rfl⟩

section Steps

variable (h : Progressed su s)

include h

/-- The orchestrator sets the worker's progress. -/
theorem Progressed.of_progress (hst : Stored su s)
    (hs : s.step su a = some s') (hf : ∀ e ∈ s'.emitted, ¬ Dropped su e →
      e ∈ s'.durable.items ++ s'.ready.flatMap Commit.items ++ s'.buffered)
    (hr : s'.ready = s.ready) (hd : s'.durable = s.durable) (hp : s'.prepared = s.prepared)
    (hw : Sound s'.snapState s'.snapPending) : Progressed su s' := by
  have hkeep : ∀ e ∈ s.durable.items, e ∈ s'.durable.items := by
    rw [hd]
    exact fun e he => he
  refine
    { flight := hf, commits := ?_, named := ?_, unstarted := ?_, worker := hw, begun := ?_,
      sound := ?_ }
  · rw [hr]
    exact h.commits.step hst hs hkeep
  · intro c hc hlt
    rw [hd]
    exact (h.named c hc hlt).imp_right fun hl => hl.keep hst hs hkeep
  · rw [hd]
    exact h.unstarted
  · rw [hp]
    exact h.begun
  · rw [hr]
    exact h.sound

/-- Such a step keeps the progress. -/
theorem Progressed.of_away (hst : Stored su s) (hs : s.step su a = some s')
    (ha : Away s s') : Progressed su s' :=
  h.of_progress hst hs
    (by rw [ha.emitted, ha.durable, ha.ready, ha.buffered]; exact h.flight)
    ha.ready ha.durable ha.prepared (by rw [ha.snapState, ha.snapPending]; exact h.worker)

/-- What the batcher emits it buffers. -/
theorem Progressed.handleIngest (hst : Stored su s)
    (hs : s.step su .handleIngest = some s') : Progressed su s' := by
  have hkeep : ∃ items, s'.emitted = s.emitted ++ items ∧ s'.buffered = s.buffered ++ items ∧
      s'.ready = s.ready ∧ s'.durable = s.durable ∧ s'.snapState = s.snapState ∧
      s'.snapPending = s.snapPending ∧ s'.prepared = s.prepared := by
    rcases handleIngest_cases hs with ⟨batch, tag, rest, -, rfl⟩ | ⟨chunk, rest, -, rfl⟩
    · rw [markBatchSideEffects_eq]
      exact ⟨_, rfl, rfl, rfl, rfl, rfl, rfl, rfl⟩
    · rcases handleCloses_cases su { s with ingest := rest } chunk with
        ⟨-, heq⟩ | ⟨w, bytes, -, heq⟩ <;> rw [heq]
      · exact ⟨[], by simp⟩
      · exact ⟨_, rfl, rfl, rfl, rfl, rfl, rfl, rfl⟩
  obtain ⟨items, hemit, hbuf, hready, hdur, hstate, hpend, hprep⟩ := hkeep
  refine h.of_progress hst hs ?_ hready hdur hprep ?_
  · rw [hemit, hbuf, hready, hdur, ← append_assoc]
    intro e he hc
    rcases mem_append.mp he with he | he
    · exact mem_append_left _ (h.flight e he hc)
    · exact mem_append_right _ he
  · rw [hstate, hpend]
    exact h.worker

/-! ## Flushes and commits -/

omit h in
/-- A commit sent is covered, if what it omits has landed with it. -/
theorem covers_sendReady {before : List (Commit K V)} {items : List (Emit K V)}
    {state : Option SnapshotState} {pending : Option (List Nat)}
    (h : items ≠ [] → ∀ c ∈ su.plan, c < (chunksOf su.bounds).length → Omits state pending c →
      LandedIn su s (s.durable.items ++ before.flatMap Commit.items ++ items) c) :
    Covers su s before (sendReady items state pending) := by
  unfold sendReady
  split
  · trivial
  rename_i hne
  refine ⟨fun c hc hlt ho => ?_, trivial⟩
  have hlanded := h hne c hc hlt ho
  unfold Landed
  simpa using hlanded

/-- A chunk with nothing left to emit lands with the items of the buffer that
concern it. -/
theorem Progressed.landedIn (hst : Stored su s) (hempty : Emptied s c) {items : List (Emit K V)}
    (hitems : ∀ e ∈ s.buffered, Concerns su c e → ¬ Dropped su e → e ∈ items) :
    LandedIn su s (s.durable.items ++ s.ready.flatMap Commit.items ++ items) c := by
  have hflight : ∀ e ∈ s.emitted, Concerns su c e → ¬ Dropped su e →
      e ∈ s.durable.items ++ s.ready.flatMap Commit.items ++ items := by
    intro e he hc hkept
    rcases mem_append.mp (h.flight e he hkept) with he | he
    · exact mem_append_left _ he
    · exact mem_append_right _ (hitems e he hc hkept)
  obtain ⟨n, hn, hwhole⟩ := hempty.whole hst
  refine ⟨hempty, fun e he hchunk => ?_, n, hn, fun k v hkv => ?_⟩
  · cases e with
    | live i => cases hchunk
    | row c' k v n => exact hflight _ he (Option.some.inj hchunk) fun hdrop => hdrop.2 (by
        simp [appendRowsToKeep])
  · refine (hwhole k v hkv).imp_right fun ⟨i, hi, hkey⟩ => ⟨i, hkey, ?_⟩
    by_cases hdrop : Dropped su (.live i)
    · exact .inr ⟨hi, hdrop⟩
    · exact .inl (hflight _ hi ⟨k, hkey, (mem_selectChunk.mp hkv).1⟩ hdrop)

/-- A chunk that is left out already has landed with the commits on their way. -/
theorem Progressed.landed_leftOut (hout : LeftOut s c) (hc : c ∈ su.plan)
    (hlt : c < (chunksOf su.bounds).length) : Landed su s s.ready c := by
  rcases hout with hnot | ⟨cm, hcm, ho⟩
  · refine ((h.named c hc hlt).resolve_left hnot).mono fun e he => ?_
    rw [flatMap_nil, append_nil] at he
    exact mem_append_left _ he
  · exact h.commits.landed hcm hc hlt ho

/-- A safe flush sends commits that leave out only what has landed. -/
theorem Progressed.covers_commitsOf {p : Prepared K} (hst : Stored su s)
    (hsafe : SafeFlush su s) (hp : p ∈ s.prepared) :
    Covers su s s.ready (commitsOf su s p) := by
  -- Whatever half of the buffer goes out, a chunk that was left out before has landed.
  have hland : ∀ (items : List (Emit K V)) (c : Nat), c ∈ su.plan →
      c < (chunksOf su.bounds).length → (¬ LeftOut s c → Emptied s c ∧
        ∀ e ∈ s.buffered, Concerns su c e → ¬ Dropped su e → e ∈ items) →
      LandedIn su s (s.durable.items ++ s.ready.flatMap Commit.items ++ items) c := by
    intro items c hc hlt hnew
    by_cases hout : LeftOut s c
    · exact (h.landed_leftOut hout hc hlt).mono fun e he => mem_append_left _ he
    · obtain ⟨hempty, hitems⟩ := hnew hout
      exact h.landedIn hst hempty hitems
  have hflush := hsafe p hp
  unfold flushProgress at hflush
  unfold commitsOf
  split
  · rename_i hsplit
    rw [if_pos hsplit] at hflush
    rw [covers_append]
    refine ⟨covers_sendReady fun hne c hc hlt ho => ?_, covers_sendReady fun _ c hc hlt ho => ?_⟩
    · -- The first half goes out alone: nothing of the chunk is left to the second.
      refine hland _ c hc hlt fun hout => ?_
      obtain ⟨hempty, hrest⟩ := hflush c hc hlt ho hout
      refine ⟨hempty, fun e he hcon _ => ?_⟩
      rcases mem_untouched_or_rest he with he | he
      · exact he
      · exact absurd hcon (hrest hsplit hne e he)
    · rw [flatMap_append, flatMap_sendReady, ← append_assoc, append_assoc]
      exact hland _ c hc hlt fun hout => ⟨(hflush c hc hlt ho hout).1, fun e he _ _ =>
        mem_append.mpr (mem_untouched_or_rest he)⟩
  · rename_i hsplit
    rw [if_neg hsplit] at hflush
    split
    · rename_i hmode
      rw [hmode] at hflush
      refine covers_sendReady fun _ c hc hlt ho => hland _ c hc hlt fun hout =>
        ⟨(hflush c hc hlt ho hout).1, fun e he _ hkept => ?_⟩
      have hmem : e ∈ appendRowsToKeep su [e] := not_not.mp fun hnot => hkept ⟨hmode, hnot⟩
      exact mem_filter.mpr ⟨he, (mem_filter.mp hmem).2⟩
    · rename_i hmode
      rw [hmode] at hflush
      exact covers_sendReady fun _ c hc hlt ho => hland _ c hc hlt fun hout =>
        ⟨(hflush c hc hlt ho hout).1, fun e he _ _ => he⟩

/-- A safe flush sends commits that are covered. -/
theorem Progressed.flush (hst : Stored su s) (hsafe : SafeFlush su s)
    (hs : s.step su .flush = some s') : Progressed su s' := by
  cases moves_of_step hs with
  | @flush p hp =>
    refine { h with flight := ?_, commits := ?_, named := ?_, begun := nofun, sound := ?_ }
    · intro e he hrow
      rw [flatMap_append, append_nil]
      rcases mem_append.mp (h.flight e he hrow) with hold | hbuf
      · rcases mem_append.mp hold with hold | hold
        · exact mem_append_left _ hold
        · exact mem_append_right _ (mem_append_left _ hold)
      · exact mem_append_right _ (mem_append_right _ (mem_commitsOf hbuf hrow))
    · rw [covers_append]
      exact ⟨h.commits.step hst hs fun e he => he,
        (h.covers_commitsOf hst hsafe hp).mono fun c more hl => hl⟩
    · exact fun c hc hlt => (h.named c hc hlt).imp_right fun hl => hl.keep hst hs fun e he => he
    · intro cm hcm
      rcases mem_append.mp hcm with hcm | hcm
      · exact h.sound cm hcm
      obtain ⟨hstate, hpend⟩ := progress_of_commit hcm
      rw [hstate, hpend]
      unfold flushProgress
      split
      · exact h.begun p hp
      · split
        · exact h.begun p hp
        · exact h.worker

/-- **A commit keeps the sink's progress behind its rows.** -/
theorem Progressed.commit (hst : Stored su s)
    (hs : s.step su .commit = some s') : Progressed su s' := by
  cases moves_of_step hs with
  | @commit cm rest hready =>
    have hcommits := h.commits
    rw [hready] at hcommits
    have hsound := h.sound cm (by rw [hready]; exact mem_cons_self)
    -- A commit that is made takes its place in front of those that remain.
    have hmove : ∀ c more, Landed su s ([cm] ++ more) c → Landed su _ ([] ++ more) c :=
      fun c more hl => hl.step hst hs fun e he => by simpa using he
    refine { h with flight := ?_, commits := hcommits.2.mono hmove, named := ?_,
                    unstarted := ?_, sound := ?_ }
    · intro e he hrow
      have hold := h.flight e he hrow
      rw [hready] at hold
      simpa using hold
    · intro c hc hlt
      by_cases ho : Omits cm.state cm.pending c
      · exact .inr (hmove c [] (hcommits.1 c hc hlt ho))
      · exact (h.named c hc hlt).imp (names_of_commit hsound h.unstarted ho)
          fun hl => hl.keep hst hs fun e he => mem_append_left _ he
    · intro hnew
      apply h.unstarted
      cases hstate : cm.state with
      | none =>
        rw [hstate] at hnew
        exact hnew
      | some state =>
        rw [hstate] at hnew
        exact absurd (hstate.trans (congrArg some hnew)) hsound.1
    · intro cm' hcm'
      exact h.sound cm' (by rw [hready]; exact mem_cons_of_mem _ hcm')

/-- **Every guarded step keeps the progress invariant.** -/
theorem Progressed.step (hst : Stored su s) (hsafe : SafeFlushes su s a)
    (hs : s.step su a = some s') : Progressed su s' := by
  cases moves_of_step hs with
  | handleIngest => exact h.handleIngest hst hs
  | flush => exact h.flush hst hsafe hs
  | commit => exact h.commit hst hs
  | resume => exact h.of_progress hst hs h.flight rfl rfl rfl h.worker
  | persist =>
    -- The bounds are persisted with every chunk pending.
    refine { h with commits := h.commits.step hst hs fun e he => he, named := ?_,
                    unstarted := nofun }
    intro c hc _
    have hne : su.plan ≠ [] := ne_nil_of_mem hc
    exact .inl (.inr (by simpa [hne] using hc))
  | beginFlush =>
    refine { h with commits := h.commits.step hst hs fun e he => he, named := ?_, begun := ?_ }
    · exact fun c hc hlt => (h.named c hc hlt).imp_right fun hl => hl.keep hst hs fun e he => he
    · intro p hp
      cases hp
      exact h.worker
  | startSnapshot _ hstate =>
    exact h.of_progress hst hs h.flight rfl rfl rfl (hstate ▸ ⟨nofun, nofun⟩)
  | callback | finish => exact h.of_progress hst hs h.flight rfl rfl rfl ⟨nofun, nofun⟩
  | _ => exact h.of_away hst hs (away_step rfl hs)

end Steps

end Landing

/-- A table of one row, in whose range the source inserts another. -/
def growing : Setup Nat Nat where
  history := [⟨1, some 10⟩]
  log := [⟨2, some 5⟩]
  bounds := [1]
  plan := [0]
  plan_nodup := by decide
  boundsAt := 0
  resuming := false
  begun := false
  heldRows := false
  mode := .upsert
  maxRows := 0
  maxBytes := 1000
  batchBytes items := 8 * items.length
  liveBytes batch := 8 * batch.length
  keepsDelete _ := false
  guardHits keys k := decide (k ∈ keys)

end Pipeline

end Urutau
