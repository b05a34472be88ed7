import Urutau.PipelineMoves

/-!
# The relay's plumbing

Between the reader and the batcher a live change sits in one of five places:
the puller's channel, the relay's hand, the gate's buffer, the ingest channel,
or it has been emitted.  Read in the right order these places always hold the
stream read so far, and the gate's window is open exactly from the GateOn of a
chunk to the relay's drain of its flush.
-/

namespace Urutau

open List LastWrite

namespace Pipeline

variable {K V : Type}

/-- The live changes among emitted items, in order. -/
def liveOf (items : List (Emit K V)) : List Nat := items.filterMap fun e => match e with
    | .live i => some i
    | .row _ _ _ _ => none

/-- The live changes on their way to the batcher, in order. -/
def ingestLive (ingest : List Ingest) : List Nat := ingest.flatMap fun x => match x with
    | .live batch _ => batch
    | .closes _ => []

end Pipeline

namespace Phase

variable {K V : Type}

/-- The chunks whose Closes marker is not queued yet. -/
def remaining (plan : List Nat) : Phase K V → List Nat
  | .boot | .started => plan
  | .between rest | .released _ rest => rest
  | .gated chunk rest | .selected chunk rest _ _ | .stored chunk rest | .flushing chunk rest
  | .flushed chunk rest | .waiting chunk rest _ | .caughtUp chunk rest
  | .releasing chunk rest | .drained chunk rest => chunk :: rest
  | .done => []

/-- The chunk whose rows are in the worker's window and whose marker is still
to come. -/
def current : Phase K V → Option Nat
  | .stored chunk _ | .flushing chunk _ | .flushed chunk _ | .waiting chunk _ _
  | .caughtUp chunk _ | .releasing chunk _ | .drained chunk _ => some chunk
  | _ => none

/-- Whether the gate's window is open; during a flush it is until the relay has
drained it. -/
def gateOn (flushGate : Bool) : Phase K V → Bool
  | .gated _ _ | .selected _ _ _ _ | .stored _ _ => true
  | .flushing _ _ => flushGate
  | _ => false

/-- The chunk's rows are not in the worker's window yet. -/
def unread : Phase K V → Bool
  | .gated _ _ | .selected _ _ _ _ => true
  | _ => false

/-- The chunk under way is still to do. -/
theorem mem_remaining_of_current {phase : Phase K V} {plan : List Nat} {c : Nat}
    (h : phase.current = some c) : c ∈ phase.remaining plan := by
  cases phase <;> cases h <;> exact mem_cons_self

end Phase

namespace Pipeline

section Streams

variable {K V : Type}

theorem liveOf_append (xs ys : List (Emit K V)) : liveOf (xs ++ ys) = liveOf xs ++ liveOf ys := by
  simp [liveOf]

theorem liveOf_live (batch : List Nat) :
    liveOf (batch.map (Emit.live : Nat → Emit K V)) = batch := by
  induction batch with
  | nil => rfl
  | cons i rest ih =>
    simp only [liveOf, map_cons, filterMap_cons] at ih ⊢
    rw [ih]

theorem mem_liveOf {items : List (Emit K V)} {i : Nat} : i ∈ liveOf items ↔ .live i ∈ items := by
  simp only [liveOf, mem_filterMap]
  constructor
  · rintro ⟨e, he, hi⟩
    cases e with
    | live j => cases hi; exact he
    | row _ _ _ _ => cases hi
  · intro h
    exact ⟨_, h, rfl⟩

theorem ingestLive_append (xs ys : List Ingest) :
    ingestLive (xs ++ ys) = ingestLive xs ++ ingestLive ys := by
  simp [ingestLive]

theorem ingestLive_tagged (tag : Nat) (items : List (List Nat)) :
    ingestLive (items.map (fun b => Ingest.live b (some tag))) = items.flatten := by
  induction items with
  | nil => rfl
  | cons b rest ih =>
    simp only [ingestLive, map_cons, flatMap_cons, flatten_cons] at ih ⊢
    rw [ih]

/-- What is read and what is still to read. -/
private theorem range_append_drop {m n : Nat} (h : m ≤ n) :
    List.range m ++ (List.range n).drop m = List.range n := by
  conv_rhs => rw [← take_append_drop m (List.range n)]
  rw [take_range, Nat.min_eq_left h]

end Streams

variable {K V : Type} {su : Setup K V} {s s' : Pipeline K V}

/-- **The plumbing.**  Live changes are neither lost nor reordered between the
reader and the batcher, and the gate's window is open exactly in the phases
that mean it to be. -/
structure Plumbing (su : Setup K V) (s : Pipeline K V) : Prop where
  order : liveOf s.emitted ++ ingestLive s.ingest ++ s.gate.buf.flatten ++ s.hand.getD [] ++
    s.batchCh.flatten = List.range s.pulled
  buf_of_off : s.gate.on = false → s.gate.buf = []
  buf_of_hand : s.hand ≠ none → s.gate.buf = []
  pulled_le : s.pulled ≤ s.read
  read_le : s.read ≤ s.committed
  committed_le : s.committed ≤ su.log.length
  gate_on : s.gate.on = s.phase.gateOn s.flushGate
  flag : s.flushGate = true → ∃ chunk rest, s.phase = .flushing chunk rest
  ready_of_off : s.gate.on = false → s.gate.ready = none
  ready_of_unread : s.phase.unread = true → s.gate.ready = none
  plan : ∀ chunk ∈ s.phase.remaining su.plan, chunk ∈ su.plan

theorem plumbing_init (su : Setup K V) : Plumbing su (init su) where
  order := rfl
  buf_of_off _ := rfl
  buf_of_hand _ := rfl
  pulled_le := le_rfl
  read_le := le_rfl
  committed_le := Nat.zero_le _
  gate_on := rfl
  flag h := by simp [init] at h
  ready_of_off _ := rfl
  ready_of_unread _ := rfl
  plan _ h := h

theorem drainGate_phase (s : Pipeline K V) : s.drainGate.phase = s.phase := by
  unfold drainGate
  split <;> rfl

attribute [local simp] ingestLive_append Phase.gateOn sendWindowed

/-- The gate's changes go to the worker in order. -/
theorem Plumbing.drainGate (h : Plumbing su s) : Plumbing su s.drainGate := by
  unfold Pipeline.drainGate
  split
  · rename_i hflag
    obtain ⟨chunk, rest, hphase⟩ := h.flag hflag
    refine { h with
      order := ?_, buf_of_off := fun _ => rfl, buf_of_hand := fun _ => rfl,
      gate_on := ?_, flag := ?_, ready_of_off := fun _ => rfl, ready_of_unread := fun _ => rfl }
    · have horder := h.order
      simpa [ingestLive_tagged] using horder
    · simp [hphase]
    · simp
  · exact h

/-- A phase that wants the same of the gate, outside a flush. -/
structure Follows (plan : List Nat) (p q : Phase K V) : Prop where
  flushing : ∀ chunk rest, p ≠ .flushing chunk rest
  gate : q.gateOn false = p.gateOn false
  unread : q.unread = true → p.unread = true
  plan : ∀ chunk ∈ q.remaining plan, chunk ∈ p.remaining plan

/-- Outside a flush the flag is down. -/
theorem Plumbing.flag_down (h : Plumbing su s)
    (hphase : ∀ chunk rest, s.phase ≠ .flushing chunk rest) : s.flushGate = false := by
  by_contra hne
  obtain ⟨chunk, rest, hp⟩ := h.flag (by simpa using hne)
  exact hphase chunk rest hp

/-- The orchestrator may move on to such a phase. -/
theorem Plumbing.follows {p q : Phase K V} (h : Plumbing su s) (hphase : s.phase = p)
    (hf : Follows su.plan p q) : Plumbing su { s with phase := q } := by
  subst hphase
  have hdown := h.flag_down hf.flushing
  refine { h with
    gate_on := ?_
    flag := fun hup => absurd (hdown.symm.trans hup) Bool.false_ne_true
    ready_of_unread := fun hu => h.ready_of_unread (hf.unread hu)
    plan := fun chunk hc => h.plan chunk (hf.plan chunk hc) }
  rw [h.gate_on, hdown]
  exact hf.gate.symm

variable [LinearOrder K]

/-- A window keeps no live change. -/
theorem liveOf_kept (chunk : Nat) (w : Window K V) : liveOf (Window.kept chunk w) = [] := by
  simp [liveOf, Window.kept]

/-- The side effects of a batch are on the guard and the windows only. -/
theorem markBatchSideEffects_eq (su : Setup K V) (s : Pipeline K V) (batch : List Nat)
    (tag : Option Nat) :
    s.markBatchSideEffects su batch tag = { s with
        guard := if s.snapState = some .inProgress
          then s.guard.map (fun g => g ++ batchKeys su batch) else s.guard
        windows := if tag.isSome
          then fun c => (s.windows c).map (fun w => Window.touch w (batchKeys su batch))
          else s.windows } := by
  unfold markBatchSideEffects
  split <;> split <;> simp_all

/-- What the batcher takes up next: a batch of live changes or a marker. -/
theorem handleIngest_cases (hs : s.handleIngest su = some s') :
    (∃ batch tag rest, s.ingest = .live batch tag :: rest ∧
      s' = ({ s with ingest := rest }.markBatchSideEffects su batch tag).addPending su
        (batch.map .live)) ∨
    ∃ chunk rest, s.ingest = .closes chunk :: rest ∧
      s' = { s with ingest := rest }.handleCloses su chunk := by
  unfold Pipeline.handleIngest at hs
  split at hs
  · split at hs
    · cases hs
    · rename_i batch tag rest hin
      cases hs
      exact .inl ⟨batch, tag, rest, hin, rfl⟩
    · rename_i chunk rest hin
      cases hs
      exact .inr ⟨chunk, rest, hin, rfl⟩
  · cases hs

/-- The state after a marker: the chunk's window is gone and its untouched rows
are buffered. -/
theorem handleCloses_cases (su : Setup K V) (s : Pipeline K V) (chunk : Nat) :
    (s.windows chunk = none ∧ s.handleCloses su chunk = { s with closed := s.closed ++ [chunk] }) ∨
    ∃ w bytes, s.windows chunk = some w ∧ s.handleCloses su chunk = { s with
        windows := fun c => if c = chunk then none else s.windows c
        closed := s.closed ++ [chunk]
        buffered := s.buffered ++ Window.kept chunk w
        bufferedBytes := bytes
        emitted := s.emitted ++ Window.kept chunk w } := by
  unfold Pipeline.handleCloses
  split
  · rename_i hnone
    exact .inl ⟨hnone, rfl⟩
  rename_i w hw
  refine .inr ⟨w, ?_⟩
  split
  · rename_i hkept
    exact ⟨s.bufferedBytes, hw, by simp [hkept]⟩
  · exact ⟨_, hw, rfl⟩

/-- A unit handled is emitted in order. -/
theorem Plumbing.handleIngest (h : Plumbing su s) (hs : s.handleIngest su = some s') :
    Plumbing su s' := by
  have horder := h.order
  rcases handleIngest_cases hs with ⟨batch, tag, rest, hin, rfl⟩ | ⟨chunk, rest, hin, rfl⟩
  · rw [markBatchSideEffects_eq]
    refine { h with order := ?_ }
    simp only [hin] at horder
    simpa [addPending, liveOf_append, liveOf_live, ingestLive] using horder
  · simp only [hin] at horder
    rcases handleCloses_cases su { s with ingest := rest } chunk with
      ⟨-, heq⟩ | ⟨w, bytes, -, heq⟩ <;> rw [heq]
    · exact { h with order := horder }
    · refine { h with order := ?_ }
      simpa [liveOf_append, liveOf_kept, ingestLive] using horder

/-- **Every step keeps the plumbing.** -/
theorem Plumbing.step {a : Action} (h : Plumbing su s) (hs : s.step su a = some s') :
    Plumbing su s' := by
  have hpulled := h.pulled_le
  have hread := h.read_le
  have horder := h.order
  cases moves_of_step hs with
  | sourceCommit =>
    exact { h with read_le := by dsimp only; omega, committed_le := by dsimp only; omega }
  | readerDecode =>
    exact { h with pulled_le := by dsimp only; omega, read_le := by dsimp only; omega }
  | @pull more =>
    refine { h with order := ?_, pulled_le := by dsimp only; omega }
    have hrange := range_append_drop (m := s.pulled) (n := s.pulled + more + 1) (by omega)
    rw [← h.order] at hrange
    simpa using hrange
  | takeFull hhand hch hon =>
    simp only [hch] at horder
    refine { h with
      order := ?_, buf_of_off := fun hoff => ?_, buf_of_hand := fun hne => absurd hhand hne }
    · simpa [ingestLive_tagged, hhand] using horder
    · simp [hon] at hoff
  | takeHeld hhand hch hon =>
    simp only [hch] at horder
    refine { h with
      order := ?_, buf_of_off := fun hoff => ?_, buf_of_hand := fun hne => absurd hhand hne }
    · simpa [hhand] using horder
    · simp [hon] at hoff
  | takeDirect hhand hch hoff =>
    simp only [hhand, hch] at horder
    refine { h with order := ?_, buf_of_hand := fun _ => h.buf_of_off hoff }
    simpa using horder
  | relaySend hhand =>
    have hbuf : s.gate.buf = [] := h.buf_of_hand (by simp [hhand])
    refine { h with order := ?_, buf_of_hand := fun hne => absurd rfl hne }
    simp only [hhand] at horder
    simpa [ingestLive, hbuf] using horder
  | relayDrainGate hidle => exact h.drainGate
  | relayAckGateFlush hphase hidle =>
    have hd := h.drainGate
    have hflag : s.drainGate.flushGate = false := by
      unfold Pipeline.drainGate
      split
      · rfl
      · rename_i hflag
        simpa using hflag
    have hsame := (drainGate_phase s).trans hphase
    exact { hd with
      gate_on := by rw [hd.gate_on, hsame]; exact hflag
      flag := fun hup => absurd (hflag.symm.trans hup) Bool.false_ne_true
      ready_of_unread := nofun
      plan := fun c hc => hd.plan c (by rw [hsame]; exact hc) }
  | drainTimeout hphase | drainDone hphase
  | startSnapshot hphase | resume hphase | persist hphase | callback hphase =>
    refine { h.follows hphase ?_ with }
    exact ⟨nofun, rfl, nofun, fun _ => id⟩
  | drainAccept =>
    refine { h with order := ?_, pulled_le := le_rfl }
    have hrange := range_append_drop (m := s.pulled) (n := s.read) hpulled
    rw [← h.order] at hrange
    split
    · simpa using hrange
    · have heq : s.pulled = s.read := by omega
      rw [← heq]
      exact h.order
  | skipChunk hphase =>
    exact h.follows hphase ⟨nofun, rfl, nofun, fun _ => mem_cons_of_mem _⟩
  | gateOn hphase =>
    have hdown := h.flag_down (by simp [hphase])
    have hoff : s.gate.on = false := by simp [h.gate_on, hphase]
    exact { h with
      gate_on := rfl, flag := by simp [hdown], buf_of_off := by simp,
      ready_of_off := by simp, ready_of_unread := fun _ => h.ready_of_off hoff,
      plan := fun c hc => h.plan c (by simpa [hphase, Phase.remaining] using hc) }
  | @select chunk rest hphase =>
    refine { h.follows (q := .selected chunk rest (su.selectChunk chunk s.committed) s.committed)
      hphase ?_ with }
    exact ⟨nofun, rfl, fun _ => rfl, fun _ => id⟩
  | @addWindowRows chunk rest rows selectAt hphase =>
    have hon : s.gate.on = true := by simp [h.gate_on, hphase]
    have hp := h.follows (q := .stored chunk rest) hphase ⟨nofun, rfl, nofun, fun _ => id⟩
    simp only [Pipeline.addWindowRows, hon]
    exact { hp with
      gate_on := rfl
      buf_of_off := fun hoff => by simp at hoff
      ready_of_off := fun hoff => by simp at hoff
      ready_of_unread := nofun }
  | gateFlush hphase =>
    exact { h with
      gate_on := by simp [h.gate_on, hphase]
      flag := fun _ => ⟨_, _, rfl⟩
      ready_of_unread := nofun
      plan := fun c hc => h.plan c (by simpa [hphase, Phase.remaining] using hc) }
  | master hphase | release hphase | waitCaughtUp hphase =>
    exact h.follows hphase ⟨nofun, rfl, nofun, fun _ => id⟩
  | @sendMarker chunk rest hphase =>
    have hp := h.follows (q := .released chunk rest) hphase
      ⟨nofun, rfl, nofun, fun _ => mem_cons_of_mem _⟩
    refine { hp with order := ?_ }
    simpa [ingestLive] using horder
  | finish hphase =>
    refine { h.follows hphase ?_ with }
    exact ⟨nofun, rfl, nofun, nofun⟩
  | handleIngest hs => exact h.handleIngest hs
  | relayTakeFlushReq | beginFlush | flush | commit => exact { h with }

/-- **Live changes stay in line.**  Whatever the interleaving, what the batcher has taken and
what waits in its queue, the gate, the relay's hand and the channel are the changes pulled, each
once and in order. -/
theorem live_in_line (s : Runs.Reachable (step su) (init su)) :
    liveOf s.1.emitted ++ ingestLive s.1.ingest ++ s.1.gate.buf.flatten ++ s.1.hand.getD [] ++
      s.1.batchCh.flatten = List.range s.1.pulled :=
  (s.keeps (plumbing_init su) fun _ _ _ h hs => h.step hs).order

end Pipeline

end Urutau
