import Urutau.RangePath

/-!
# What a step of the range snapshot can do

The step function read backwards: each way a step is taken, with what it asks of the state
before and the state it leads to.
-/

namespace Urutau

open RangeState

namespace RangeState

variable {K : Type} [LinearOrder K]

/-- The ways a step is taken. -/
inductive Moves (su : RangeSetup K) (s : RangeState K) : RangeAction K → RangeState K → Prop
  | sourceCommit : Moves su s .sourceCommit { s with now := s.now + 1 }
  | pump (keys : List K) (tagged : Bool) : Moves su s (.pump keys tagged)
      { s with queue := s.queue ++ [.live s.nextId keys tagged], nextId := s.nextId + 1 }
  | fetch {d rest} (hq : s.queue = d :: rest) : Moves su s .fetch { s with
        queue := rest
        sent := s.sent ++ [d]
        session := { s.session with stream := s.session.stream ++ [d] } }
  | receive {d rest} (hq : s.session.stream = d :: rest) : Moves su s .receive
      { s with session := { s.session with stream := rest, ingest := s.session.ingest ++ [d] } }
  | live {id keys tagged rest} (hq : s.session.ingest = .live id keys tagged :: rest) :
      Moves su s .handleIngest (handleLive (s.taken rest) id keys tagged)
  | closes {id pending wo rest} (hq : s.session.ingest = .closes id pending wo :: rest) :
      Moves su s .handleIngest (handleCloses (s.taken rest) id pending wo)
  | flush (hne : s.session.pending ≠ []) : Moves su s .flush { s with session := { s.session with
        pending := [], pendingMarkers := [], pendingProgress := none
        ready := s.session.ready ++ [.commit s.session.pending s.session.pendingProgress] ++
          (if s.session.pendingMarkers = [] then [] else [.markers s.session.pendingMarkers]) } }
  | commit {items pending rest} (hready : s.session.ready = .commit items pending :: rest) :
      Moves su s .commit
      { s with
        session := { s.session with ready := rest }
        sink :=
          { rows := s.sink.rows ++ rowKeys items
            live := s.sink.live ++ liveKeys items
            pending := (pending.map Prod.snd).getD s.sink.pending } }
  | markers {ids rest} (hready : s.session.ready = .markers ids :: rest) : Moves su s .commit
      { s with session := { s.session with ready := rest, acks := s.session.acks ++ ids } }
  | deliverAck {id rest} (hacks : s.session.acks = id :: rest) : Moves su s .deliverAck
      (onMarkerAck { s with session := { s.session with acks := rest } } id)
  | ackLive {id} (hacked : ∀ d ∈ s.sent, d.id = id → d.committedIn s.sink.live) :
      Moves su s (.ackLive id) { s with sent := s.sent.filter (fun d => d.id ≠ id) }
  | startRead {r rest} (hexec : s.session.exec = .idle) (hreq : s.session.requests = r :: rest) :
      Moves su s .startRead
      { s with session := { s.session with
        requests := rest
        exec := .reading r.chunkId (su.select s.now r.low r.high)
        chunkLive := some [] } }
  | announce {chunk rest} (rows : Nat) (hexec : s.session.exec = .reading chunk rest)
      (hroom : openWindows s.session < su.maxOpen) : Moves su s (.announce rows)
      { s with
        session := { s.session with
          windowSeq := s.session.windowSeq + 1
          exec := .storing chunk (s.session.windowSeq + 1) (rest.take rows) (rest.drop rows)
          opened := s.session.opened ++ [(chunk, rest.take rows)] }
        opens := s.opens ++ [
          { chunkId := chunk
            attempt := s.session.epoch
            seq := s.session.windowSeq + 1
            highKey := (rest.take rows).getLast?
            session := s.session.number
            page := rest.take rows }] }
  | store {chunk seq page rest} (hexec : s.session.exec = .storing chunk seq page rest) :
      Moves su s .store
      { s with session :=
        { addWindowRows s.session chunk seq page with exec := .reading chunk rest } }
  | finishRead {chunk} (hexec : s.session.exec = .reading chunk []) : Moves su s .finishRead
      { s with
        session := { s.session with exec := .idle, chunkLive := none }
        readies := s.readies ++ [⟨chunk, s.session.epoch⟩] }
  | finished (hphase : s.phase = .top) (hend : su.chunks.length ≤ s.index) :
      Moves su s .top { s with phase := .done }
  | skip (hphase : s.phase = .top) (hmore : s.index < su.chunks.length)
      (hdone : chunkRef 0 s.index ∉ s.todo) : Moves su s .top { s with index := s.index + 1 }
  | redo (hphase : s.phase = .top) (hmore : s.index < su.chunks.length)
      (htodo : chunkRef 0 s.index ∈ s.todo) (hstale : s.isStale) : Moves su s .top
      { s.redo with loopEpoch := some s.epoch, seenLosses := s.losses, phase := .pacing }
  | begin (hphase : s.phase = .top) (hmore : s.index < su.chunks.length)
      (htodo : chunkRef 0 s.index ∈ s.todo) (hfresh : s.isStale = false) : Moves su s .top
      { s with loopEpoch := some s.epoch, seenLosses := s.losses, phase := .pacing }
  | request {ch} (hphase : s.phase = .pacing) (hchunk : su.chunks[s.index]? = some ch)
      (hfree : s.held.length < maxUncommittedChunks ∧ s.link.attached = true) : Moves su s .request
      { s with
        queued := s.held
        phase := .waiting false
        session := { s.session with
          requests := s.session.requests ++
            [⟨chunkRef 0 s.index, (s.lows s.index).getD ch.low, ch.high⟩] } }
  | takeOpen {draining wo rest} (hphase : s.phase = .waiting draining)
      (hopens : s.opens = wo :: rest)
      (hown : wo.chunkId = chunkRef 0 s.index ∧ s.loopEpoch = some wo.attempt) :
      Moves su s .takeOpen
      { s with
        opens := rest
        windowChunk := fun q => if q = wo.seq then some s.index else s.windowChunk q
        phase := .closing wo draining }
  | dropOpen {draining wo rest} (hphase : s.phase = .waiting draining)
      (hopens : s.opens = wo :: rest)
      (hother : ¬ (wo.chunkId = chunkRef 0 s.index ∧ s.loopEpoch = some wo.attempt)) :
      Moves su s .takeOpen { s with opens := rest }
  | takeReady {cr rest} (hphase : s.phase = .waiting false) (hreadies : s.readies = cr :: rest)
      (hown : cr.chunkId = chunkRef 0 s.index ∧ s.loopEpoch = some cr.epoch) :
      Moves su s .takeReady { s with readies := rest, phase := .waiting true }
  | dropReady {cr rest} (hphase : s.phase = .waiting false) (hreadies : s.readies = cr :: rest)
      (hother : ¬ (cr.chunkId = chunkRef 0 s.index ∧ s.loopEpoch = some cr.epoch)) :
      Moves su s .takeReady { s with readies := rest }
  | drainedLast (hphase : s.phase = .waiting true) (hopens : s.opens = [])
      (hlast : s.index + 1 = su.chunks.length) :
      Moves su s .drained { s with phase := .lastCommits }
  | drained (hphase : s.phase = .waiting true) (hopens : s.opens = [])
      (hmore : s.index + 1 ≠ su.chunks.length) :
      Moves su s .drained { s with index := s.index + 1, phase := .top }
  | enqueueMarker {wo draining} (hphase : s.phase = .closing wo draining) :
      Moves su s .enqueueMarker
      { s with
        queue := s.queue ++ [.closes s.nextId (pendingAfter s.todo 0 s.index) wo]
        inFlight := s.inFlight ++ [s.nextId]
        nextId := s.nextId + 1
        phase := .queued wo s.nextId draining
        sentMarkers := s.sentMarkers ++ [(s.nextId, wo)] }
  | noteMarker {wo id draining} (hphase : s.phase = .queued wo id draining) : Moves su s .noteMarker
      { s with
        queued := s.queued ++ [⟨id, wo.seq, chunkRef 0 s.index, wo.highKey⟩]
        phase := .noted draining }
  | leave {draining} (hphase : s.phase = .noted draining) (hlost : s.isLost) :
      Moves su s .checkLost { s with phase := .top }
  | goOn {draining} (hphase : s.phase = .noted draining) (hhere : s.isLost = false) :
      Moves su s .checkLost { s with phase := .waiting draining }
  | abort (hlost : s.isLost) (hphase : s.phase = .pacing ∨ s.phase = .waiting false ∨
      (∃ wo draining, s.phase = .closing wo draining) ∨ s.phase = .lastCommits) :
      Moves su s .abort { s with phase := .top }
  | lastCommits (hphase : s.phase = .lastCommits) (hnone : s.held.length < 1) :
      Moves su s .lastCommits { s with queued := s.held, index := s.index + 1, phase := .top }
  | detach (hlink : s.link.attached = true) : Moves su s .detach
      { s with link := { s.link with attached := false, ended := s.link.ended + 1 } }
  | lose (hlink : 0 < s.link.ended) : Moves su s .lose { s with
        link := { s.link with ended := s.link.ended - 1, losing := s.link.losing + 1 }
        epoch := s.epoch + 1
        lost := s.lost ++ s.held
        queued := s.held }
  | signalLoss (hlink : 0 < s.link.losing) : Moves su s .signalLoss
      { s with link := { s.link with losing := s.link.losing - 1 }, losses := s.losses + 1 }
  | attach {epoch} (hlink : s.link.attached = false ∧ epoch ≤ s.epoch) : Moves su s (.attach epoch)
      { s with
        link := { s.link with attached := true }
        session := Session.fresh (s.session.number + 1) epoch s.sent }
  | crash : Moves su s .crash
      { boot su (s.session.number + 1) s.now s.sink with
        closings := s.closings, missed := s.missed }

/-- **A step is taken in one of these ways.** -/
theorem moves_of_step {su : RangeSetup K} {s s' : RangeState K} {a : RangeAction K}
    (hs : s.step su a = some s') : Moves su s a s' := by
  cases a with
  | sourceCommit | pump | crash => cases hs; constructor
  | fetch | receive | handleIngest | flush | commit | deliverAck | ackLive | startRead | store
  | finishRead | enqueueMarker | noteMarker | detach | lose | signalLoss | attach =>
    simp only [step, handleIngest, flush, commit, deliverAck,
      ackLive, startRead, store, finishRead,
      enqueueMarker, noteMarker, detach, lose, signalLoss, attach] at hs
    split at hs <;> cases hs <;> constructor <;> assumption
  | announce rows =>
    simp only [step, announce] at hs
    split at hs
    · rename_i hexec
      obtain ⟨hroom, hs⟩ := Option.ite_none_left_eq_some.mp hs
      cases hs
      exact .announce rows hexec (Nat.lt_of_not_le hroom)
    · cases hs
  | top =>
    simp only [step, top] at hs
    split at hs
    · rename_i hphase
      split at hs
      · rename_i hend
        cases hs
        exact .finished hphase hend
      rename_i hmore
      split at hs
      · rename_i hdone
        cases hs
        exact .skip hphase (Nat.lt_of_not_le hmore) hdone
      · rename_i htodo
        cases hs
        split
        · rename_i hstale
          exact .redo hphase (Nat.lt_of_not_le hmore) (not_not.mp htodo) hstale
        · rename_i hfresh
          exact .begin hphase (Nat.lt_of_not_le hmore) (not_not.mp htodo)
            (Bool.eq_false_iff.mpr hfresh)
    · cases hs
  | request | takeOpen | takeReady | drained | lastCommits =>
    simp only [step, request, takeOpen, takeReady,
      drained, lastCommits] at hs
    split at hs
    · split at hs <;> cases hs <;> constructor <;> assumption
    · cases hs
  | checkLost =>
    simp only [step, checkLost] at hs
    split at hs
    · rename_i draining hphase
      cases hs
      split
      · rename_i hlost
        exact .leave hphase hlost
      · rename_i hhere
        exact .goOn hphase (Bool.eq_false_iff.mpr hhere)
    · cases hs
  | abort =>
    simp only [step, abort] at hs
    split at hs
    · split at hs <;> cases hs <;> exact .abort ‹_› (by simp [*])
    · cases hs

end RangeState

end Urutau
