import Urutau.BatchHandover

/-!
# What a step of the hand-over can do

The step function read backwards: each way a step is taken, with what it asks of the state
before and the state it leads to.  Most steps of the pump only move the pump on.
-/

namespace Urutau

open List Option

variable {B : Type}

theorem Pump.eq_idle {q : Pump B} (h : (q matches .idle) = true) : q = .idle := by
  cases q with
  | idle => rfl
  | _ => cases h

namespace HandState

open Function (update)

/-- The ways the pump goes on while all else stays. -/
inductive Goes (su : HandoverSetup B) (s : HandState B) : HandAction B → Pump B → Pump B → Prop
  | flush {due b} : Goes su s (.pump due) (.flushBeforePause b)
      (.flushAccum (su.table b) (.pauseHold b))
  | ask {due b} : Goes su s (.pump due) (.flushBeforePause b) (.pauseHold b)
  | pass {due b} (hfree : (s.paused (su.table b) || !(s.held (su.table b)).isEmpty) = false) :
      Goes su s (.pump due) (.pauseHold b) (.gateHold b)
  | shut {due b} (hwindow : s.window (su.table b) = none) :
      Goes su s (.pump due) (.gateHold b) (.accumulate b)
  | full {due b p} : Goes su s (.pump due) (.gateHold b) (.drainReady b p)
  | again {due b p} : Goes su s (.pump due) (.drainReady b p) (.gateHold b)
  | staged {due b} (hstaged : s.staged (su.table b) = true) :
      Goes su s (.pump due) (.accumulate b) (.take b)
  | unstaged {due b} (hstaged : s.staged (su.table b) = false) :
      Goes su s (.pump due) (.accumulate b) (.enqueue b)
  | makeRoom {due b} : Goes su s (.pump due) (.take b) (.flushAccum (su.table b) (.take b))
  | enqueued {due} : Goes su s (.pump due) .inEnqueue .idle
  | noneHeld {due} : Goes su s (.pump due) (.flushPaused []) .idle
  | nextHeld {due table items rest} : Goes su s (.pump due) (.flushPaused ((table, items) :: rest))
      (.flushAccum table (.enqueueHeld table items rest))
  | allHeld {due table rest} :
      Goes su s (.pump due) (.enqueueHeld table [] rest) (.flushPaused rest)
  | enqueuedHeld {due table items rest} : Goes su s (.pump due) (.inEnqueueHeld table items rest)
      (.enqueueHeld table items rest)
  | tick {table} : Goes su s (.tick table) .idle (.flushAccum table .idle)

/-- The ways a step is taken. -/
inductive Moves (su : HandoverSetup B) (s : HandState B) : HandAction B → HandState B → Prop
  | goes {a q} (hgo : Goes su s a s.pump q) : Moves su s a { s with pump := q }
  | pauseHold {due b} (hpump : s.pump = .pauseHold b)
      (hhold : s.paused (su.table b) = true ∨ s.held (su.table b) ≠ []) :
      Moves su s (.pump due) { s with
        held := update s.held (su.table b) (s.held (su.table b) ++ [b])
        pump := .idle }
  | appendLocked {due b p} (hpump : s.pump = .gateHold b ∨ s.pump = .take b)
      (hwindow : s.window (su.table b) = some p) :
      Moves su s (.pump due) (s.appendLocked (su.table b) b)
  | drainReady {due b p} (hpump : s.pump = .drainReady b p) (hdrain : s.drain = none)
      (hwindow : s.window (su.table b) = some p) :
      Moves su s (.pump due) ({ s with buf := update s.buf (su.table b) [] }.drained
        (drainOf (su.table b) (s.buf (su.table b)) false none) (.gateHold b))
  | accumulated {due b} (hpump : s.pump = .take b) (hwindow : s.window (su.table b) = none) :
      Moves su s (.pump due) { s with
        accum := update s.accum (su.table b) (s.accum (su.table b) ++ [b])
        pump := if due then .flushAccum (su.table b) .idle else .idle }
  | enqueue {due b} (hpump : s.pump = .enqueue b) :
      Moves su s (.pump due) { s.hand (su.table b) [b] with pump := .inEnqueue }
  | flushAccum {due table next} (hpump : s.pump = .flushAccum table next)
      (hdrain : s.drain = none) :
      Moves su s (.pump due) ({ s with accum := update s.accum table [] }.drained
        (drainOf table (s.accum table) true none) next)
  | enqueueHeld {due table items rest} (hpump : s.pump = .enqueueHeld table items rest)
      (hitems : items ≠ []) :
      Moves su s (.pump due) { s.hand table (items.take (su.groupLen 0 0 items)) with
        pump := .inEnqueueHeld table (items.drop (su.groupLen 0 0 items)) rest }
  | pull {b} (hpump : s.pump = .idle) : Moves su s (.pull b) { s with
      pulled := update s.pulled (su.table b) (s.pulled (su.table b) ++ [b])
      pump := .flushBeforePause b }
  | wake {order} (hpump : s.pump = .idle) (horder : order.Perm (s.resumedTables su)) :
      Moves su s (.wake order) { s with
        held := fun t => if t ∈ order then [] else s.held t
        pump := .flushPaused (order.map fun t => (t, s.held t)) }
  | send {d n} (hd : s.drain = some d) (hcall : d.calling = false)
      (hn : n = if d.accum then d.items.length else su.groupLen 0 0 d.items) :
      Moves su s .send { s.hand d.table (d.items.take n) with
        drain := some { d with items := d.items.drop n, calling := true } }
  | returned {d} (hd : s.drain = some d) :
      Moves su s .sent { s with drain := some { d with calling := false } }
  | release {d} (hd : s.drain = some d) (hitems : d.items = []) : Moves su s .sent s.release
  | sealed {d} (hd : s.drain = some d) (hitems : d.items = []) (hbuf : s.buf d.table = []) :
      Moves su s .sent (s.sealLocked d.table).release
  | joined {d} (hd : s.drain = some d) (hitems : d.items = []) (hbuf : s.buf d.table ≠ []) :
      Moves su s .sent { s with
        buf := update s.buf d.table []
        ready := update s.ready d.table false
        drain := some { d with items := s.buf d.table, calling := false } }
  | openWindow {table p} (hdrain : s.drain = none) : Moves su s (.openWindow table p) { s with
      window := update s.window table (some p)
      accum := update s.accum table []
      drain := drainOf table (s.accum table) true none }
  | drainWindow {a table p closing} (ha : a = .flushWindow table p ∨ a = .closeWindow table p)
      (hwindow : s.window table = some p) (hdrain : s.drain = none) : Moves su s a { s with
        buf := update s.buf table []
        ready := update s.ready table false
        drain := drainOf table (s.buf table) false closing }
  | sealLocked {table p} (hdrain : s.drain = none) (hbuf : s.buf table = []) :
      Moves su s (.closeWindow table p) (s.sealLocked table)
  | noWindow {a table p} (ha : a = .flushWindow table p ∨ a = .closeWindow table p) : Moves su s a s
  | markReady {table p ready} : Moves su s (.markReady table p) { s with ready }
  | clearReady {table p ready} : Moves su s (.clearReady table p) { s with ready }
  | pauseTable {table} :
      Moves su s (.pauseTable table) { s with paused := update s.paused table true }
  | resumeTable {table} :
      Moves su s (.resumeTable table) { s with paused := update s.paused table false }
  | publish {table staged} :
      Moves su s (.publish table staged) { s with staged := update s.staged table staged }

variable {su : HandoverSetup B} {s s' : HandState B} {a : HandAction B}

theorem withFlush_eq_some {f : HandState B → HandState B} (hs : s.withFlush f = some s') :
    s.drain = none ∧ f s = s' := by
  unfold withFlush at hs
  split at hs
  · cases hs
  · rename_i hnone
    exact ⟨not_isSome_iff_eq_none.mp hnone, some.inj hs⟩

theorem moves_of_pumpStep {due : Bool} (hs : s.pumpStep su due = some s') :
    Moves su s (.pump due) s' := by
  have hgo : ∀ {p q}, s.pump = p → Goes su s (.pump due) p q →
      Moves su s (.pump due) { s with pump := q } := fun hpump hgo => .goes (hpump ▸ hgo)
  unfold pumpStep at hs
  split at hs <;> rename_i hpump
  case h_1 => cases hs
  case h_2 b =>
    split at hs <;> cases hs
    · exact hgo hpump .flush
    · exact hgo hpump .ask
  case h_3 b =>
    split at hs <;> cases hs <;> rename_i hhold
    · refine .pauseHold hpump ?_
      rw [Bool.or_eq_true] at hhold
      exact hhold.imp id (by simp)
    · exact hgo hpump (.pass (Bool.eq_false_iff.mpr hhold))
  case h_4 b =>
    unfold gateHold at hs
    split at hs
    · rename_i hwindow
      cases hs
      exact hgo hpump (.shut hwindow)
    · rename_i p hwindow
      split at hs
      · split at hs <;> cases hs
        exact hgo hpump .full
      · cases hs
        exact .appendLocked (.inl hpump) hwindow
  case h_5 b p =>
    obtain ⟨hdrain, hs⟩ := ite_none_left_eq_some.mp hs
    split at hs <;> cases hs
    · rename_i hwin
      exact .drainReady hpump (not_isSome_iff_eq_none.mp hdrain) hwin.1
    · exact hgo hpump .again
  case h_6 b =>
    cases hs
    cases hstaged : s.staged (su.table b) with
    | true => exact hgo hpump (.staged hstaged)
    | false => exact hgo hpump (.unstaged hstaged)
  case h_7 b =>
    cases hs
    unfold take
    split
    · exact .appendLocked (.inr hpump) ‹_›
    · dsimp only
      split
      · exact .accumulated hpump ‹_›
      · exact hgo hpump .makeRoom
  case h_8 b =>
    cases hs
    exact .enqueue hpump
  case h_9 =>
    cases hs
    exact hgo hpump .enqueued
  case h_10 table next =>
    obtain ⟨hdrain, hs⟩ := ite_none_left_eq_some.mp hs
    cases hs
    exact .flushAccum hpump (not_isSome_iff_eq_none.mp hdrain)
  case h_11 => cases hs
  case h_12 =>
    cases hs
    exact hgo hpump .noneHeld
  case h_13 table items rest =>
    cases hs
    exact hgo hpump .nextHeld
  case h_14 table items rest =>
    split at hs <;> cases hs <;> rename_i hitems
    · rw [isEmpty_iff.mp hitems] at hpump
      exact hgo hpump .allHeld
    · exact .enqueueHeld hpump fun hnil => hitems (isEmpty_iff.mpr hnil)
  case h_15 table items rest =>
    cases hs
    exact hgo hpump .enqueuedHeld

/-- **A step is taken in one of these ways.** -/
theorem moves_of_step (hs : step su s a = some s') : Moves su s a s' := by
  cases a with
  | pump due => exact moves_of_pumpStep hs
  | pull b =>
    obtain ⟨hidle, hs⟩ := ite_none_right_eq_some.mp hs
    obtain ⟨-, hs⟩ := ite_none_right_eq_some.mp hs
    cases hs
    exact .pull (Pump.eq_idle hidle)
  | tick table =>
    obtain ⟨hidle, hs⟩ := ite_none_right_eq_some.mp hs
    cases hs
    exact .goes (Pump.eq_idle hidle ▸ .tick)
  | wake order =>
    obtain ⟨hidle, hs⟩ := ite_none_right_eq_some.mp hs
    obtain ⟨horder, hs⟩ := ite_none_right_eq_some.mp hs
    cases hs
    exact .wake (Pump.eq_idle hidle) horder
  | send =>
    obtain ⟨d, hd, hs⟩ := bind_eq_some_iff.mp hs
    obtain ⟨hcall, hs⟩ := ite_none_left_eq_some.mp hs
    cases hs
    exact .send hd (Bool.eq_false_iff.mpr hcall) rfl
  | sent =>
    obtain ⟨d, hd, hs⟩ := bind_eq_some_iff.mp hs
    obtain ⟨-, hs⟩ := ite_none_left_eq_some.mp hs
    split at hs
    · cases hs
      exact .returned hd
    rename_i hitems
    have hitems : d.items = [] := not_not.mp hitems
    split at hs
    · cases hs
      exact .release hd hitems
    split at hs
    · rename_i hbuf
      cases hs
      exact .sealed hd hitems (List.isEmpty_iff.mp hbuf)
    · rename_i hbuf
      cases hs
      exact .joined hd hitems fun hnil => hbuf (List.isEmpty_iff.mpr hnil)
  | openWindow table p =>
    obtain ⟨-, hs⟩ := ite_none_right_eq_some.mp hs
    obtain ⟨hdrain, rfl⟩ := withFlush_eq_some hs
    exact .openWindow hdrain
  | flushWindow table p =>
    simp only [step] at hs
    split at hs
    · obtain ⟨hdrain, rfl⟩ := withFlush_eq_some hs
      exact .drainWindow (.inl rfl) ‹_› hdrain
    · cases hs
      exact .noWindow (.inl rfl)
  | closeWindow table p =>
    simp only [step] at hs
    split at hs
    · obtain ⟨hdrain, rfl⟩ := withFlush_eq_some hs
      split
      · rename_i hbuf
        exact .sealLocked hdrain (isEmpty_iff.mp hbuf)
      · exact .drainWindow (.inr rfl) ‹_› hdrain
    · cases hs
      exact .noWindow (.inr rfl)
  | markReady =>
    cases hs
    split <;> exact .markReady
  | clearReady =>
    cases hs
    split <;> exact .clearReady
  | pauseTable | resumeTable | publish =>
    cases hs
    constructor

end HandState

end Urutau
