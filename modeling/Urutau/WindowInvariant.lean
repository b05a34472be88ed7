import Urutau.WindowContents

/-!
# The window invariant

An open window holds the rows of its chunk as of the SELECT.  When its Closes
marker is handled the rows that no tagged change touched are emitted, so what
matters is that no change of such a key, newer than the SELECT, was emitted
before or is queued ahead of the marker without a tag.

The gate holds the live changes from before the SELECT until the window is
stored and releases them tagged.  It is sealed at that flush, though, and the
marker follows only after the catch-up wait: what the relay forwards in
between reaches the worker untagged and removes nothing.  `QuietSend` is the
condition that such a batch holds no newer change of a key the window still
has; under it every step keeps the invariant.
-/

namespace Urutau

open List LastWrite

namespace Pipeline

variable {K V : Type}

section

variable (su : Setup K V) (chunk : Nat)

/-- The unit ends what a chunk's window may still emit for `k`: it is the
chunk's marker, or a tagged change of the key. -/
def Stops (k : K) : Ingest → Prop
  | .closes c => c = chunk
  | .live batch tag => tag.isSome ∧ k ∈ batchKeys su batch

/-- Such a unit is queued. -/
def Stopped (k : K) (ingest : List Ingest) : Prop := ∃ x ∈ ingest, Stops su chunk k x

/-- **The quiet-send condition.**  The batch about to be forwarded untagged
holds no change newer than an open window's SELECT of a key whose row that
window will still emit. -/
def QuietSend (s : Pipeline K V) : Prop :=
  ∀ batch ∈ s.hand, ∀ chunk ∈ su.plan, ∀ w ∈ s.windows chunk,
    ∀ k ∈ w.rows.map Prod.fst, k ∉ w.touched → ¬ Stopped su chunk k s.ingest →
      ∀ i ∈ batch, su.keyOf i = some k → i < w.selectAt

instance decidableStops [DecidableEq K] (su : Setup K V) (chunk : Nat) (k : K) :
    (x : Ingest) → Decidable (Stops su chunk k x)
  | .closes c => inferInstanceAs (Decidable (c = chunk))
  | .live batch tag => inferInstanceAs (Decidable (tag.isSome ∧ k ∈ batchKeys su batch))

instance decidableStopped [DecidableEq K] (su : Setup K V) (chunk : Nat) (k : K)
    (ingest : List Ingest) : Decidable (Stopped su chunk k ingest) :=
  inferInstanceAs (Decidable (∃ x ∈ ingest, Stops su chunk k x))

instance decidableQuietSend [DecidableEq K] (su : Setup K V) (s : Pipeline K V) :
    Decidable (QuietSend su s) :=
  inferInstanceAs (Decidable (∀ batch ∈ s.hand, ∀ chunk ∈ su.plan, ∀ w ∈ s.windows chunk,
    ∀ k ∈ w.rows.map Prod.fst, k ∉ w.touched → ¬ Stopped su chunk k s.ingest →
      ∀ i ∈ batch, su.keyOf i = some k → i < w.selectAt))

/-- The guard of a run: every untagged send is quiet. -/
def QuietSends (s : Pipeline K V) : Action → Prop
  | .relaySend => QuietSend su s
  | _ => True

instance decidableQuietSends [DecidableEq K] (su : Setup K V) (s : Pipeline K V) (a : Action) :
    Decidable (QuietSends su s a) :=
  decidable_of_iff (a matches .relaySend → QuietSend su s) (by cases a <;> simp [QuietSends])

/-- No window row is emitted after a live change of the same key that is newer
than its SELECT. -/
def NeverOverwrites (items : List (Emit K V)) : Prop := items.Pairwise fun x y =>
    ∀ i chunk k v selectAt, x = .live i → y = .row chunk k v selectAt →
      su.keyOf i = some k → i < selectAt

end

variable {su : Setup K V} {s s' : Pipeline K V} {chunk : Nat} {k : K} {n : Nat}

/-- Nothing queued ahead of the chunk's marker can bring a change of `k` at or
past `n` to the worker without touching the window first. -/
def SafeAhead (su : Setup K V) (chunk : Nat) (k : K) (n : Nat) : List Ingest → Prop
  | [] => True
  | .closes c :: rest => c = chunk ∨ SafeAhead su chunk k n rest
  | .live batch (some _) :: rest => k ∈ batchKeys su batch ∨ SafeAhead su chunk k n rest
  | .live batch none :: rest =>
    (∀ i ∈ batch, su.keyOf i = some k → i < n) ∧ SafeAhead su chunk k n rest

theorem SafeAhead.append {xs ys : List Ingest} (hx : SafeAhead su chunk k n xs)
    (hy : Stopped su chunk k xs ∨ SafeAhead su chunk k n ys) :
    SafeAhead su chunk k n (xs ++ ys) := by
  induction xs with
  | nil =>
    rcases hy with ⟨x, hmem, -⟩ | hy
    · simp at hmem
    · exact hy
  | cons x rest ih =>
    have hrest : Stopped su chunk k (x :: rest) → Stops su chunk k x ∨ Stopped su chunk k rest := by
      rintro ⟨y, hmem, hstop⟩
      rcases mem_cons.mp hmem with rfl | hmem
      · exact .inl hstop
      · exact .inr ⟨y, hmem, hstop⟩
    match x, hx with
    | .closes c, hx =>
      rcases hx with hx | hx
      · exact .inl hx
      rcases hy with hy | hy
      · rcases hrest hy with hc | hstop
        · exact .inl hc
        · exact .inr (ih hx (.inl hstop))
      · exact .inr (ih hx (.inr hy))
    | .live batch (some tag), hx =>
      rcases hx with hx | hx
      · exact .inl hx
      rcases hy with hy | hy
      · rcases hrest hy with ⟨-, hkey⟩ | hstop
        · exact .inl hkey
        · exact .inr (ih hx (.inl hstop))
      · exact .inr (ih hx (.inr hy))
    | .live batch none, hx =>
      refine ⟨hx.1, ih hx.2 ?_⟩
      rcases hy with hy | hy
      · rcases hrest hy with ⟨htag, -⟩ | hstop
        · simp at htag
        · exact .inl hstop
      · exact .inr hy

theorem safeAhead_tagged (tag : Nat) (items : List (List Nat)) :
    SafeAhead su chunk k n (items.map (fun b => Ingest.live b (some tag))) := by
  induction items with
  | nil => trivial
  | cons b rest ih => exact .inr ih

/-- A queue whose changes are all older is safe. -/
theorem safeAhead_of_old {xs : List Ingest} (h : ∀ i ∈ ingestLive xs, i < n) :
    SafeAhead su chunk k n xs := by
  induction xs with
  | nil => trivial
  | cons x rest ih =>
    have hrest : SafeAhead su chunk k n rest := by
      apply ih
      intro i hi
      exact h i (by simp only [ingestLive] at hi ⊢; simp [hi])
    rcases x with ⟨batch, _ | tag⟩ | c
    · refine ⟨fun i hi _ => h i ?_, hrest⟩
      simp only [ingestLive]
      simp [hi]
    · exact .inr hrest
    · exact .inr hrest

/-- Live changes overwrite no row. -/
private theorem neverOverwrites_live {items : List (Emit K V)} (batch : List Nat)
    (h : NeverOverwrites su items) : NeverOverwrites su (items ++ batch.map .live) := by
  rw [NeverOverwrites, pairwise_append]
  refine ⟨h, ?_, ?_⟩
  · rw [pairwise_map]
    exact pairwise_of_forall nofun
  · intro x _ y hy i c k v selectAt _ hrow
    obtain ⟨j, -, rfl⟩ := mem_map.mp hy
    cases hrow

/-- **The window invariant.**  Nothing emitted or queued ahead of a window's
marker is newer than a row the window will still emit, and what was emitted so
far is in order. -/
structure Windowed (su : Setup K V) (s : Pipeline K V) : Prop where
  fresh : ∀ c rest rows n, s.phase = .selected c rest rows n →
    ∀ i ∈ liveOf s.emitted ++ ingestLive s.ingest ++ s.hand.getD [], i < n
  safe : ∀ c w, s.windows c = some w → ∀ k ∈ w.rows.map Prod.fst, k ∉ w.touched →
    (∀ i, .live i ∈ s.emitted → su.keyOf i = some k → i < w.selectAt) ∧
      SafeAhead su c k w.selectAt s.ingest
  never : NeverOverwrites su s.emitted

section Steps

variable (h : Windowed su s)

include h

/-- Batches that leave the gate go out tagged and endanger no window. -/
theorem Windowed.sendWindowed (tag : Nat) (items : List (List Nat))
    (hread : s.phase.unread = false) : Windowed su (s.sendWindowed tag items) := by
  refine { h with fresh := ?_, safe := ?_ }
  · intro c rest rows n hphase
    have hold : s.phase = .selected c rest rows n := hphase
    rw [hold] at hread
    cases hread
  · intro c w hw k hk hnot
    obtain ⟨hemit, hahead⟩ := h.safe c w hw k hk hnot
    exact ⟨hemit, hahead.append (.inr (safeAhead_tagged tag items))⟩

/-- The gate's changes reach the window before its marker. -/
theorem Windowed.drainGate (hp : Plumbing su s) : Windowed su s.drainGate := by
  unfold Pipeline.drainGate
  split
  · rename_i hflag
    obtain ⟨c, rest, hphase⟩ := hp.flag hflag
    exact { h.sendWindowed s.gateChk s.gate.buf (by rw [hphase]; rfl) with }
  · exact h

variable [LinearOrder K]

omit h in
/-- The rows kept overwrite no later change. -/
private theorem neverOverwrites_rows {items : List (Emit K V)} (c : Nat) (w : Window K V)
    (h : NeverOverwrites su items) (hsafe : ∀ k ∈ w.rows.map Prod.fst, k ∉ w.touched →
      ∀ i, .live i ∈ items → su.keyOf i = some k → i < w.selectAt) :
    NeverOverwrites su (items ++ Window.kept c w) := by
  rw [NeverOverwrites, pairwise_append]
  refine ⟨h, ?_, ?_⟩
  · rw [Window.kept, pairwise_map]
    exact pairwise_of_forall fun _ _ _ _ _ _ _ hlive => by cases hlive
  · intro x hx y hy i c' k v n hxi hrow hkey
    subst hxi hrow
    obtain ⟨hkv, hnot, -, rfl⟩ := mem_kept.mp hy
    exact hsafe k (mem_map.mpr ⟨(k, v), hkv, rfl⟩) hnot i hx hkey

/-- A SELECT sees every change the relay has let through so far. -/
theorem Windowed.of_quiet (hp : Plumbing su s) (hq : Quiet su s s') : Windowed su s' := by
  refine { fresh := ?_, safe := ?_, never := ?_ }
  · intro c rest rows n hphase
    rw [hq.emitted, hq.ingest, hq.hand]
    rcases hq.selected c rest rows n hphase with hold | ⟨-, rfl, -⟩
    · exact h.fresh c rest rows n hold
    intro i hi
    -- What the relay has let through was read, so committed, before.
    have hlt : i ∈ List.range s.pulled := by
      rw [← hp.order]
      simp only [mem_append] at hi ⊢
      tauto
    have := mem_range.mp hlt
    have := hp.pulled_le
    have := hp.read_le
    omega
  · rw [hq.windows, hq.emitted, hq.ingest]
    exact h.safe
  · rw [hq.emitted]
    exact h.never

/-- An untagged send endangers no window when it is quiet. -/
theorem Windowed.relaySend (hst : Stored su s) (hq : QuietSend su s)
    (hs : relaySend s = some s') : Windowed su s' := by
  unfold Pipeline.relaySend at hs
  split at hs
  · cases hs
  rename_i b hhand
  cases hs
  refine { h with fresh := ?_, safe := ?_ }
  · intro c rest rows n hphase i hi
    apply h.fresh c rest rows n hphase i
    simpa [hhand, ingestLive] using hi
  · intro c w hw k hk hnot
    obtain ⟨hemit, hahead⟩ := h.safe c w hw k hk hnot
    refine ⟨hemit, hahead.append ?_⟩
    by_cases hstop : Stopped su c k s.ingest
    · exact .inl hstop
    · exact .inr ⟨hq b hhand c (hst.window_plan hw) w hw k hk hnot hstop, trivial⟩

/-- A batch of live changes touches, in every window it overtakes, what it
overtakes there. -/
theorem Windowed.handleLive {batch : List Nat} {tag : Option Nat} {rest : List Ingest}
    (hin : s.ingest = .live batch tag :: rest) :
    Windowed su (({ s with ingest := rest }.markBatchSideEffects su batch tag).addPending su
      (batch.map .live)) := by
  rw [markBatchSideEffects_eq]
  refine { fresh := ?_, safe := ?_, never := neverOverwrites_live batch h.never }
  · intro c rest' rows n hphase i hi
    apply h.fresh c rest' rows n hphase i
    simpa [addPending, liveOf_append, liveOf_live, hin, ingestLive] using hi
  intro c w' hw' k hk hnot
  obtain ⟨w, hw, hrows, hat, htouch⟩ := window_of_touched hw'
  rw [hrows] at hk
  rw [htouch k] at hnot
  obtain ⟨hemit, hahead⟩ := h.safe c w hw k hk (fun hmem => hnot (.inl hmem))
  rw [hat]
  have hbatch : (∀ i ∈ batch, su.keyOf i = some k → i < w.selectAt) ∧
      SafeAhead su c k w.selectAt rest := by
    rw [hin] at hahead
    cases tag with
    | none => exact hahead
    | some t =>
      have hkey : k ∉ batchKeys su batch := fun hmem => hnot (.inr ⟨rfl, hmem, hk⟩)
      rcases hahead with hmem | hrest
      · exact absurd hmem hkey
      · exact ⟨fun i hi hi' => absurd (mem_batchKeys.mpr ⟨i, hi, hi'⟩) hkey, hrest⟩
  refine ⟨fun i hi hkey => ?_, hbatch.2⟩
  rcases mem_append.mp hi with hi | hi
  · exact hemit i hi hkey
  · obtain ⟨j, hj, heq⟩ := mem_map.mp hi
    cases heq
    exact hbatch.1 i hj hkey

/-- A marker emits the untouched rows of its window, which nothing emitted so
far is newer than. -/
theorem Windowed.handleCloses {rest : List Ingest} (hst : Stored su s)
    (hin : s.ingest = .closes chunk :: rest) :
    Windowed su ({ s with ingest := rest }.handleCloses su chunk) := by
  have hheld := hst.held chunk (.inr (by simp [hin]))
  rcases handleCloses_cases su { s with ingest := rest } chunk with
    ⟨hnone, -⟩ | ⟨w₀, bytes, hw₀, heq⟩
  · rw [hnone] at hheld
    cases hheld
  rw [heq]
  refine
    { fresh := ?_
      safe := ?_
      never := neverOverwrites_rows chunk w₀ h.never
        (fun k hk hnot => (h.safe chunk w₀ hw₀ k hk hnot).1) }
  · intro c rest' rows n hphase i hi
    apply h.fresh c rest' rows n hphase i
    simpa [liveOf_append, liveOf_kept, hin, ingestLive] using hi
  intro c w hw k hk hnot
  dsimp only at hw
  split at hw
  · cases hw
  rename_i hne
  obtain ⟨hemit, hahead⟩ := h.safe c w hw k hk hnot
  rw [hin] at hahead
  refine ⟨fun i hi => hemit i ?_, ?_⟩
  · rcases mem_append.mp hi with hi | hi
    · exact hi
    · exact absurd hi live_not_mem_kept
  · rcases hahead with heq | hahead
    · exact absurd heq.symm hne
    · exact hahead

/-- A unit handled keeps the windows safe. -/
theorem Windowed.handleIngest (hst : Stored su s)
    (hs : s.handleIngest su = some s') : Windowed su s' := by
  rcases handleIngest_cases hs with ⟨batch, tag, rest, hin, rfl⟩ | ⟨chunk, rest, hin, rfl⟩
  · exact h.handleLive hin
  · exact h.handleCloses hst hin

/-- Storing a chunk's rows opens a window that everything emitted or queued so
far is older than. -/
theorem Windowed.addWindowRows {rest : List Nat} {rows : List (K × V)} {selectAt : Nat}
    (hst : Stored su s) (hphase : s.phase = .selected chunk rest rows selectAt) :
    Windowed su { s.addWindowRows chunk rows selectAt with phase := .stored chunk rest } := by
  have hold := h.fresh chunk rest rows selectAt hphase
  simp only [Pipeline.addWindowRows, (hst.addWindowRows hphase).1]
  refine { h with fresh := ?_, safe := ?_ }
  · intro c rest' rows' n hp
    cases hp
  intro c w hw k hk hnot
  dsimp only at hw
  split at hw
  · cases hw
    refine ⟨fun i hi _ => hold i ?_, safeAhead_of_old fun i hi => hold i ?_⟩
    · simp [mem_liveOf.mpr hi]
    · simp [hi]
  · exact h.safe c w hw k hk hnot

/-- **Every guarded step keeps the window invariant.** -/
theorem Windowed.step {a : Action} (hp : Plumbing su s) (hst : Stored su s)
    (hq : QuietSends su s a) (hs : s.step su a = some s') : Windowed su s' := by
  cases moves_of_step hs with
  | @takeFull _ _ tag _ _ _ hready =>
    have hread : s.phase.unread = false := by
      by_contra hne
      rw [hp.ready_of_unread (by simpa using hne)] at hready
      cases hready
    exact { h.sendWindowed tag s.gate.buf hread with }
  | takeHeld => exact { h with }
  | takeDirect _ _ hoff =>
    refine { h with fresh := ?_ }
    intro c rest' rows n hphase
    have hold : s.phase = .selected c rest' rows n := hphase
    simp [hp.gate_on, hold, Phase.gateOn] at hoff
  | relaySend => exact h.relaySend hst hq hs
  | handleIngest hs => exact h.handleIngest hst hs
  | relayDrainGate => exact h.drainGate hp
  | relayAckGateFlush =>
    exact { h.drainGate hp with fresh := fun c rest rows n hphase => by cases hphase }
  | addWindowRows hphase => exact h.addWindowRows hst hphase
  | sendMarker =>
    refine { h with fresh := ?_, safe := ?_ }
    · intro c rest' rows n heq
      cases heq
    · intro c w hw k hk hnot
      obtain ⟨hemit, hahead⟩ := h.safe c w hw k hk hnot
      exact ⟨hemit, hahead.append (.inr (.inr trivial))⟩
  | _ => exact h.of_quiet hp (quiet_step rfl hs)

end Steps

end Pipeline

end Urutau
