import Urutau.CollapsedPipeline

/-!
# What a step of the collapsed pipeline can do

The step function read backwards: each way a step is taken, with what it asks of the state
before and the state it leads to.
-/

namespace Urutau

namespace Pipeline

variable {K V : Type} [LinearOrder K]

/-- The ways a step is taken. -/
inductive Moves (su : Setup K V) (s : Pipeline K V) : Action → Pipeline K V → Prop
  | sourceCommit (hmore : s.committed < su.log.length) :
      Moves su s .sourceCommit { s with committed := s.committed + 1 }
  | readerDecode (hmore : s.read < s.committed) :
      Moves su s .readerDecode { s with read := s.read + 1 }
  | pull {more} (hmore : s.pulled + more < s.read) : Moves su s (.pull more) { s with
        pulled := s.pulled + more + 1
        batchCh := s.batchCh ++ [(List.range (s.pulled + more + 1)).drop s.pulled] }
  | takeFull {b rest chunk} (hhand : s.hand = none) (hch : s.batchCh = b :: rest)
      (hon : s.gate.on) (hready : s.gate.ready = some chunk) : Moves su s .relayTake
      { s.sendWindowed chunk s.gate.buf with batchCh := rest, gate := { s.gate with buf := [b] } }
  | takeHeld {b rest} (hhand : s.hand = none) (hch : s.batchCh = b :: rest) (hon : s.gate.on) :
      Moves su s .relayTake
      { s with batchCh := rest, gate := { s.gate with buf := s.gate.buf ++ [b] } }
  | takeDirect {b rest} (hhand : s.hand = none) (hch : s.batchCh = b :: rest)
      (hoff : s.gate.on = false) :
      Moves su s .relayTake { s with batchCh := rest, hand := some b }
  | relaySend {b} (hhand : s.hand = some b) :
      Moves su s .relaySend { s with hand := none, ingest := s.ingest ++ [.live b none] }
  | relayDrainGate (hidle : s.flushGate ∧ s.hand = none ∧ s.drain = .idle) :
      Moves su s .relayDrainGate s.drainGate
  | relayAckGateFlush {chunk rest} (hphase : s.phase = .flushing chunk rest)
      (hidle : s.hand = none ∧ s.drain = .idle) :
      Moves su s .relayAckGateFlush { s.drainGate with phase := .flushed chunk rest }
  | relayTakeFlushReq : Moves su s .relayTakeFlushReq { s with drain := .requested }
  | drainTimeout {chunk rest} (hphase : s.phase = .releasing chunk rest) :
      Moves su s .drainTimeout { s with drain := .idle, phase := .drained chunk rest }
  | drainAccept : Moves su s .drainAccept { s with
        drain := .accepted
        pulled := s.read
        batchCh := if s.pulled < s.read
          then s.batchCh ++ [(List.range s.read).drop s.pulled] else s.batchCh }
  | drainDone {chunk rest} (hphase : s.phase = .releasing chunk rest) :
      Moves su s .drainDone { s with drain := .idle, phase := .drained chunk rest }
  | startSnapshot {snapState snapPending snapResumed guard} (hphase : s.phase = .boot)
      (hstate : snapState = some .inProgress) : Moves su s .startSnapshot
      { s with snapState, snapPending, snapResumed, guard, phase := .started }
  | resume (hphase : s.phase = .started) (hresuming : su.resuming) :
      Moves su s .persist { s with phase := .between su.plan }
  | persist (hphase : s.phase = .started) : Moves su s .persist { s with
        phase := .between su.plan
        durable := { s.durable with
          state := .inProgress
          hasBounds := s.durable.hasBounds || !su.bounds.isEmpty
          pending := if su.plan = [] then s.durable.pending else su.plan } }
  | skipChunk {chunk rest} (hphase : s.phase = .between (chunk :: rest))
      (hgone : (chunksOf su.bounds).length ≤ chunk) :
      Moves su s .skipChunk { s with phase := .between rest }
  | gateOn {chunk rest} (hphase : s.phase = .between (chunk :: rest)) : Moves su s .gateOn
      { s with phase := .gated chunk rest, gate := { s.gate with on := true }, gateChk := chunk }
  | select {chunk rest} (hphase : s.phase = .gated chunk rest) : Moves su s .select
      { s with
        phase := .selected chunk rest (su.selectChunk chunk s.committed) s.committed
        selects := fun c => if c = chunk then some s.committed else s.selects c }
  | addWindowRows {chunk rest rows selectAt}
      (hphase : s.phase = .selected chunk rest rows selectAt) :
      Moves su s .addWindowRows
      { s.addWindowRows chunk rows selectAt with phase := .stored chunk rest }
  | gateFlush {chunk rest} (hphase : s.phase = .stored chunk rest) :
      Moves su s .gateFlush { s with phase := .flushing chunk rest, flushGate := true }
  | master {chunk rest} (hphase : s.phase = .flushed chunk rest) :
      Moves su s .master { s with phase := .waiting chunk rest s.committed }
  | waitCaughtUp {chunk rest high} (hphase : s.phase = .waiting chunk rest high) :
      Moves su s .waitCaughtUp { s with phase := .caughtUp chunk rest }
  | release {chunk rest} (hphase : s.phase = .caughtUp chunk rest) :
      Moves su s .release { s with phase := .releasing chunk rest }
  | sendMarker {chunk rest} (hphase : s.phase = .drained chunk rest) : Moves su s .sendMarker
      { s with phase := .released chunk rest, ingest := s.ingest ++ [.closes chunk] }
  | callback {chunk rest} (hphase : s.phase = .released chunk rest) : Moves su s .callback
      { s.setSnapshotState .inProgress (some (removeFromPending su.plan chunk)) with
        phase := .between rest }
  | finish (hphase : s.phase = .between []) :
      Moves su s .finish { s.setSnapshotState .complete none with phase := .done }
  | handleIngest {s'} (hs : s.handleIngest su = some s') : Moves su s .handleIngest s'
  | beginFlush {split guard} : Moves su s .beginFlush
      { s with prepared := some ⟨split, s.snapState, s.snapPending, guard⟩ }
  | flush {p} (hp : s.prepared = some p) : Moves su s .flush { s with
        ready := s.ready ++ commitsOf su s p, buffered := [], bufferedBytes := 0, prepared := none }
  | commit {cm rest} (hready : s.ready = cm :: rest) : Moves su s .commit { s with
        ready := rest
        durable := { s.durable with
          items := s.durable.items ++ cm.items
          state := cm.state.getD s.durable.state
          pending := cm.pending.getD s.durable.pending } }

/-- **A step is taken in one of these ways.** -/
theorem moves_of_step {su : Setup K V} {s s' : Pipeline K V} {a : Action}
    (hs : s.step su a = some s') : Moves su s a s' := by
  cases a with
  | handleIngest => exact .handleIngest hs
  | relayTake =>
    simp only [step, relay, relayTake] at hs
    split at hs
    · split at hs
      · cases hs
      split at hs
      · split at hs
        · split at hs <;> cases hs
          constructor <;> assumption
        · cases hs
          constructor <;> assumption
      · rename_i hoff
        cases hs
        exact .takeDirect ‹_› ‹_› (Bool.eq_false_iff.mpr hoff)
    · cases hs
  | startSnapshot =>
    simp only [step, orchestrate] at hs
    split at hs <;> cases hs
    split <;> exact .startSnapshot ‹_› rfl
  | persist =>
    simp only [step, orchestrate] at hs
    split at hs
    · split at hs
      · cases hs
        exact .resume ‹_› ‹_›
      · obtain ⟨-, hs⟩ := Option.ite_none_right_eq_some.mp hs
        cases hs
        exact .persist ‹_›
    · cases hs
  | drainAccept =>
    obtain ⟨-, hs⟩ := Option.ite_none_right_eq_some.mp hs
    cases hs
    exact .drainAccept
  | _ =>
    simp only [step, relay, orchestrate, Pipeline.relaySend, Pipeline.beginFlush, Pipeline.flush,
      commitNext] at hs
    repeat' split at hs
    all_goals cases hs
    all_goals constructor
    all_goals assumption

end Pipeline

end Urutau
