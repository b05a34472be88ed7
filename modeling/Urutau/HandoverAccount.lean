import Urutau.HandoverLine

/-!
# What a step takes in and hands over

Whatever the schedule, no batch is lost or doubled between the pull and the call
of enqueue: a step adds what it pulls to what is on its way, and takes away what
it calls enqueue with.  A batch held by the pause, or in the pump's hands before it
has asked the pause, has not been accepted yet.
-/

namespace Urutau

open List HandState

namespace PumpNext

variable {B : Type}

/-- The batch in hand, before the pause is asked. -/
def arriving (su : HandoverSetup B) (t : String) : PumpNext B → List B
  | .pauseHold b => if su.table b = t then [b] else []
  | _ => []

/-- The batch in hand, past the pause. -/
def passed (su : HandoverSetup B) (t : String) : PumpNext B → List B
  | .gateHold b | .take b => if su.table b = t then [b] else []
  | _ => []

end PumpNext

namespace Pump

variable {B : Type} (su : HandoverSetup B) (s : HandState B) (t : String)

def arriving : Pump B → List B
  | .flushBeforePause b | .pauseHold b => if su.table b = t then [b] else []
  | .flushAccum _ next | .sending next => next.arriving su t
  | _ => []

def passed : Pump B → List B
  | .gateHold b | .drainReady b _ | .accumulate b | .take b | .enqueue b =>
    if su.table b = t then [b] else []
  | .flushAccum _ next | .sending next => next.passed su t
  | _ => []

theorem hand_eq (q : Pump B) : q.hand su t = q.passed su t ++ q.arriving su t := by
  cases q with
  | flushAccum table next | sending next =>
    cases next <;> simp [hand, passed, arriving, PumpNext.hand, PumpNext.passed, PumpNext.arriving]
  | _ => simp [hand, passed, arriving]

theorem arriving_next (next : PumpNext B) : next.pump.arriving su t = next.arriving su t := by
  cases next <;> rfl

theorem arriving_drained (c : Bool) (next : PumpNext B) :
    (drained c next).arriving su t = next.arriving su t := by
  cases c with
  | true => rfl
  | false => exact arriving_next su t next

end Pump

namespace HandState

open Updates

open Function (update)

variable {B : Type} {su : HandoverSetup B} {s s' : HandState B}

section

variable (su : HandoverSetup B) (s : HandState B) (t : String)

/-- What a step pulls. -/
def pulls : HandAction B → List B
  | .pull b => if su.table b = t then [b] else []
  | _ => []

/-- What a step lets past the pause. -/
def accepts : HandAction B → List B
  | .pump _ =>
    match s.pump with
    | .pauseHold b =>
      if s.paused (su.table b) || !(s.held (su.table b)).isEmpty then []
      else if su.table b = t then [b] else []
    | _ => []
  | .wake order => if t ∈ order then s.held t else []
  | _ => []

/-- The call of enqueue a step begins. -/
def calls : HandAction B → Option (String × List B)
  | .pump _ =>
    match s.pump with
    | .enqueue b => some (su.table b, [b])
    | .enqueueHeld table items _ =>
      if items.isEmpty then none else some (table, items.take (su.groupLen 0 0 items))
    | _ => none
  | .send =>
    s.drain.bind fun d =>
    if d.calling then none
    else some (d.table, d.items.take (if d.accum then d.items.length else su.groupLen 0 0 d.items))
  | _ => none

/-- What a step hands over of a table. -/
def handsOver (a : HandAction B) : List B :=
  match s.calls su a with
  | some (table, items) => if table = t then items else []
  | none => []

/-- What has been accepted of a table and not handed over. -/
def passed : List B := s.draining t ++ s.accum t ++ s.buf t ++ s.pump.taken t ++ s.pump.passed su t

theorem waiting_eq :
    (s.waiting su t : Multiset B) = s.passed su t + (s.held t + s.pump.arriving su t) := by
  unfold waiting passed
  rw [Pump.hand_eq]
  simp only [← Multiset.coe_add]
  abel

/-! ## One step -/

/-- The places of a table's batches, as one sum. -/
def places (draining accum buf taken held hand : List B) : Multiset B :=
  draining + accum + buf + taken + held + hand

theorem coe_waiting : (s.waiting su t : Multiset B) =
      places (s.draining t) (s.accum t) (s.buf t) (s.pump.taken t) (s.held t)
        (s.pump.hand su t) := by
  unfold waiting places
  simp only [Multiset.coe_add]

end

variable {a : HandAction B}

/-- While the pump goes on nothing is pulled or handed over. -/
theorem Goes.quiet {q : Pump B} (h : Goes su s a s.pump q) (t : String) :
    s.handsOver su t a = [] ∧ pulls su t a = [] := by
  generalize hpump : s.pump = p at h
  cases h <;> simp [handsOver, calls, pulls, hpump]

section Steps

attribute [local simp] pulls accepts calls handsOver places Pump.hand Pump.taken Pump.arriving
  PumpNext.hand PumpNext.taken PumpNext.arriving HandState.hand drained

variable (hs : step su s a = some s')

include hs

/-- **Nothing is lost or doubled.**  A step adds what it pulls to what is on its way
and takes away what it hands over. -/
theorem waiting_step (t : String) :
    (s'.waiting su t : Multiset B) + s.handsOver su t a = s.waiting su t + pulls su t a := by
  rw [coe_waiting, coe_waiting]
  cases moves_of_step hs with
  | @goes _ q hgo =>
    rw [(hgo.quiet t).1, (hgo.quiet t).2]
    rw [(hgo.keeps t).1, (hgo.keeps t).2]
    rfl
  | pauseHold hpump =>
    simp [hpump, draining, update_append, ← Multiset.coe_add]
    abel
  | appendLocked hpump =>
    rcases hpump with hpump | hpump <;>
    simp [hpump, draining, update_append, appendLocked, ← Multiset.coe_add] <;> abel
  | @drainReady _ b _ hpump hdrain =>
    rw [draining_drainOf rfl, draining_none hdrain, drained_pump, (Pump.same_drained su _ _ t).2.1,
      (Pump.same_drained su _ _ t).1, ← append_emptied s.buf (su.table b) t]
    simp [hpump, ← Multiset.coe_add]
    abel
  | @accumulated due _ hpump =>
    cases due <;>
    simp [hpump, draining, update_append, ← Multiset.coe_add] <;> abel
  | enqueue hpump =>
    simp [hpump, draining]
  | @flushAccum _ table _ hpump hdrain =>
    rw [draining_drainOf rfl, draining_none hdrain, drained_pump, (Pump.same_drained su _ _ t).2.1,
      (Pump.same_drained su _ _ t).1, ← append_emptied s.accum table t]
    simp [hpump]
  | @enqueueHeld _ table items _ hpump hitems =>
    have hcut := congrArg (Multiset.ofList (α := B))
      (take_append_drop (su.groupLen 0 0 items) items)
    rw [← Multiset.coe_add] at hcut
    by_cases heq : table = t
    · simp [hpump, hitems, heq, draining, ← hcut, ← Multiset.coe_add]
      abel
    · simp [hpump, hitems, heq, draining]
  | pull hpump =>
    simp [hpump, draining]
  | wake hpump horder =>
    have hnodup := horder.nodup_iff.mpr (su.distinct.filter _)
    rw [Pump.taken, takenOf_map t s.held _ hnodup, hpump]
    split <;> simp [draining, *]
  | @send d n hd hcall hn =>
    have hcut := congrArg (Multiset.ofList (α := B)) (take_append_drop n d.items)
    rw [← Multiset.coe_add] at hcut
    rw [draining_some rfl, draining_some hd]
    by_cases heq : d.table = t
    · simp only [places, handsOver, calls, hd, hcall, ← hn, heq, hand, ← hcut,
        Option.bind_some, if_true, Bool.false_eq_true, if_false]
      abel
    · simp [hd, hcall, heq]
  | returned hd =>
    rw [draining_some hd]
    rfl
  | release hd hitems | @sealed d hd hitems =>
    rw [draining_none rfl, draining_some hd, hitems, ite_self, (release_same su _ t).1,
      (release_same su _ t).2.1]
    rfl
  | @joined d hd hitems =>
    rw [draining_some rfl, draining_some hd, hitems, ← append_emptied s.buf d.table t]
    simp [← Multiset.coe_add]
    abel
  | @openWindow table _ hdrain =>
    rw [draining_drainOf rfl, draining_none hdrain, ← append_emptied s.accum table t]
    simp
  | @drainWindow _ table _ _ ha _ hdrain =>
    rw [draining_drainOf rfl, draining_none hdrain, ← append_emptied s.buf table t]
    rcases ha with rfl | rfl <;> simp [← Multiset.coe_add] <;> abel
  | sealLocked => rfl
  | noWindow ha => rcases ha with rfl | rfl <;> rfl
  | markReady | clearReady | pauseTable | resumeTable | publish => rfl

variable {t : String}

/-- What waits after a step or is handed over waited before it, or is pulled. -/
theorem mem_waiting_of_step (hb : b ∈ s'.waiting su t ∨ b ∈ s.handsOver su t a) :
    b ∈ s.waiting su t ∨ b ∈ pulls su t a := by
  have hmem : b ∈ (s'.waiting su t : Multiset B) + s.handsOver su t a := Multiset.mem_add.mpr hb
  rw [waiting_step hs t] at hmem
  exact Multiset.mem_add.mp hmem

/-- What waits before a step waits after it, or is handed over. -/
theorem waiting_or_handsOver (hb : b ∈ s.waiting su t ∨ b ∈ pulls su t a) :
    b ∈ s'.waiting su t ∨ b ∈ s.handsOver su t a := by
  have hmem : b ∈ (s.waiting su t : Multiset B) + pulls su t a := Multiset.mem_add.mpr hb
  rw [← waiting_step hs t] at hmem
  exact Multiset.mem_add.mp hmem

/-! ## The pause -/

/-- What has been pulled of a table and not accepted. -/
def unaccepted (su : HandoverSetup B) (s : HandState B) (t : String) : Multiset B :=
  s.held t + s.pump.arriving su t

/-- A step takes out of the pause, or past it, what it accepts. -/
theorem unaccepted_step (t : String) :
    s'.unaccepted su t + s.accepts su t a = s.unaccepted su t + pulls su t a := by
  have hrelease : s.release.pump.arriving su t = s.pump.arriving su t := by
    unfold release
    cases s.pump with
    | sending next => exact Pump.arriving_next su t next
    | _ => rfl
  unfold unaccepted
  cases moves_of_step hs with
  | goes hgo =>
    generalize hpump : s.pump = p at hgo
    cases hgo with
    | pass hfree => simp [hpump, hfree]
    | _ => simp [hpump]
  | @pauseHold _ b hpump hhold =>
    have hheld : (s.paused (su.table b) || !(s.held (su.table b)).isEmpty) = true := by
      simpa using hhold
    simp [hpump, hheld, update_append]
  | appendLocked hpump =>
    rcases hpump with hpump | hpump <;>
    simp [hpump, appendLocked]
  | drainReady hpump | flushAccum hpump =>
    rw [drained_pump, Pump.arriving_drained]
    simp [hpump]
  | @accumulated due _ hpump =>
    cases due <;> simp [hpump]
  | enqueue hpump | enqueueHeld hpump | pull hpump =>
    simp [hpump]
  | @wake order hpump =>
    by_cases ht : t ∈ order <;> simp [hpump, ht]
  | release | sealed => exact congrArg (↑(s.held t) + ↑· + (0 : Multiset B)) hrelease
  | drainWindow ha | noWindow ha => rcases ha with rfl | rfl <;> rfl
  | _ => rfl

/-- A step adds what it accepts to what is to be handed over, and takes away what it
hands over. -/
theorem passed_step (t : String) :
    (s'.passed su t : Multiset B) + s.handsOver su t a = s.passed su t + s.accepts su t a := by
  have hwait := waiting_step hs t
  have hpause := unaccepted_step hs t
  rw [waiting_eq, waiting_eq] at hwait
  refine add_right_cancel (b := s'.unaccepted su t) ?_
  calc (s'.passed su t : Multiset B) + s.handsOver su t a + s'.unaccepted su t
      = s'.passed su t + s'.unaccepted su t + s.handsOver su t a := by abel
    _ = s.passed su t + s.unaccepted su t + pulls su t a := hwait
    _ = s.passed su t + (s.unaccepted su t + pulls su t a) := by abel
    _ = s.passed su t + (s'.unaccepted su t + s.accepts su t a) := by rw [hpause]
    _ = s.passed su t + s.accepts su t a + s'.unaccepted su t := by abel

/-- What the pause holds it holds until the pump wakes. -/
theorem mem_held_step (hwake : ∀ order, a ≠ .wake order) (hb : b ∈ s.held t) : b ∈ s'.held t := by
  cases moves_of_step hs with
  | pauseHold =>
    dsimp only
    rw [update_append]
    exact mem_append_left _ hb
  | wake => exact absurd rfl (hwake _)
  | _ => exact hb

end Steps

/-- The table is paused, nothing accepted of it waits to be handed over, and no drain is its. -/
structure Still (su : HandoverSetup B) (s : HandState B) (t : String) : Prop where
  paused : s.paused t = true
  passed : s.passed su t = []
  drain : ∀ d, s.drain = some d → d.table ≠ t

/-- A paused table accepts nothing. -/
theorem accepts_of_paused {t : String} (hs : step su s a = some s') (hpaused : s.paused t = true) :
    s.accepts su t a = [] := by
  cases moves_of_step hs with
  | @wake order hpump horder =>
    refine if_neg fun ht => ?_
    have hresumed := (mem_filter.mp (horder.mem_iff.mp ht)).2
    simp [hpaused] at hresumed
  | pull | send | returned | release | sealed | joined | openWindow | sealLocked | markReady
  | clearReady | pauseTable | resumeTable | publish => rfl
  | noWindow ha | drainWindow ha => rcases ha with rfl | rfl <;> rfl
  | goes hgo =>
    generalize hpump : s.pump = p at hgo
    cases hgo <;> simp only [accepts, hpump]
    rename_i b hfree
    by_cases hb : su.table b = t
    · simp [hb, hpaused]
    · simp [hb]
  | pauseHold hpump hhold =>
    simp only [accepts, hpump]
    rcases hhold with hhold | hhold <;> simp [hhold]
  | appendLocked hpump => rcases hpump with hpump | hpump <;> simp [accepts, hpump]
  | drainReady hpump | accumulated hpump | enqueue hpump | flushAccum hpump | enqueueHeld hpump =>
    simp [accepts, hpump]

/-- A still table stays so until it is resumed, and enqueue is not called for it. -/
theorem Still.step {t : String} (h : Still su s t) (ha : a ≠ .resumeTable t)
    (hs : step su s a = some s') :
    Still su s' t ∧ ∀ x, s.calls su a = some x → x.1 ≠ t := by
  have hpassed := passed_step hs t
  rw [h.passed, accepts_of_paused hs h.paused] at hpassed
  obtain ⟨hnext, -⟩ := add_eq_zero.mp (show (s'.passed su t : Multiset B) + _ = 0 from hpassed)
  have hplaces := h.passed
  simp only [HandState.passed, append_eq_nil_iff] at hplaces
  obtain ⟨⟨⟨⟨-, haccum⟩, hbuf⟩, htaken⟩, hhand⟩ := hplaces
  -- a drain of the table would have something of it to send
  have hdrainOf : ∀ {table items accum closing d}, (table = t → items = []) →
      drainOf (B := B) table items accum closing = some d → d.table ≠ t := by
    intro table items accum closing d hitems hd
    obtain ⟨rfl, -, hne⟩ := table_of_drainOf hd
    exact fun heq => hne (hitems heq)
  refine ⟨⟨?_, (Multiset.coe_eq_zero _).mp hnext, ?_⟩, ?_⟩
  · cases moves_of_step hs with
    | @pauseTable table =>
      by_cases heq : t = table
      · subst heq
        exact Function.update_self _ _ _
      · exact (Function.update_of_ne heq _ _).trans h.paused
    | @resumeTable table =>
      have hne : t ≠ table := fun heq => ha (by rw [heq])
      exact (Function.update_of_ne hne _ _).trans h.paused
    | _ => exact h.paused
  · intro d hd
    cases moves_of_step hs with
    | drainReady hpump hdrain hwindow => exact hdrainOf (fun heq => heq ▸ hbuf) hd
    | flushAccum => exact hdrainOf (fun heq => heq ▸ haccum) hd
    | openWindow => exact hdrainOf (fun heq => heq ▸ haccum) hd
    | drainWindow => exact hdrainOf (fun heq => heq ▸ hbuf) hd
    | send hold | returned hold | joined hold =>
      have hheld := h.drain _ hold
      cases hd
      exact hheld
    | release | sealed => cases hd
    | _ => exact h.drain d hd
  · intro x hx heq
    unfold calls at hx
    split at hx
    · split at hx
      · rename_i b hpump
        cases hx
        simp [Pump.passed, hpump, show su.table b = t from heq] at hhand
      · rename_i table items rest hpump
        split at hx
        · cases hx
        · rename_i hitems
          cases hx
          rw [hpump, Pump.taken, if_pos heq] at htaken
          exact hitems (isEmpty_iff.mpr (append_eq_nil_iff.mp htaken).1)
      · cases hx
    · obtain ⟨d, hd, hcall⟩ := Option.bind_eq_some_iff.mp hx
      split at hcall
      · cases hcall
      · cases hcall
        exact h.drain d hd heq
    · cases hx

end HandState

end Urutau
