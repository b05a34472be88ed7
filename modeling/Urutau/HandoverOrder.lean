import Urutau.HandoverLine

/-!
# Order of the hand-over

A hand-over takes from the front of a table's line, whatever is sent, as long as no
table is paused while it has a window, and no table stops being staged while
batches of it are accumulated.
-/

namespace Urutau

open List Runs

namespace HandState

open Updates

open Function (update update_self update_of_ne)

variable {B : Type} {su : HandoverSetup B} {s s' : HandState B}

/-! ## The pump -/

variable {table t : String}

theorem isSome_drainOf {items : List B} {accum : Bool} {closing : Option Nat} :
    (drainOf table items accum closing).isSome = !items.isEmpty := by
  cases items <;> rfl

section Steps

variable (h : InLine su s)

include h

variable {a : HandAction B} {b : B} {p : Nat}

/-- The pump goes on. -/
theorem InLine.goes {q : Pump B} (hgo : Goes su s a s.pump q) : InLine su { s with pump := q } := by
  have hwait : ∀ next, s.pump ≠ .sending next := fun next hpump => by
    rw [hpump] at hgo
    cases hgo
  have hnext : s.Found su q ∧ ∀ t, s.staged t = false → q.takes su t = false := by
    have hfound := h.found
    generalize hpump : s.pump = p at hgo hfound
    cases hgo with
    | pass hfree =>
      refine ⟨?_, fun _ _ => rfl⟩
      change s.held _ = []
      simp_all
    | shut hwindow =>
      exact ⟨⟨hfound, h.gated _ hwindow, fun _ => h.draining_nil hwait hwindow⟩, fun _ _ => rfl⟩
    | staged hst =>
      refine ⟨hfound.1, fun t ht => decide_eq_false fun heq => ?_⟩
      rw [← heq, hst] at ht
      cases ht
    | unstaged hst =>
      obtain ⟨hheld, hbuf, hdrain⟩ := hfound
      exact ⟨⟨hheld, hbuf, hdrain hst, (h.unstaged _ hst).1⟩, fun _ _ => rfl⟩
    | makeRoom =>
      refine ⟨hfound, fun t ht => ?_⟩
      have htakes := (h.unstaged t ht).2
      rwa [hpump] at htakes
    | nextHeld => exact ⟨rfl, fun _ _ => rfl⟩
    | full | again | enqueuedHeld => exact ⟨hfound, fun _ _ => rfl⟩
    | _ => exact ⟨trivial, fun _ _ => rfl⟩
  exact h.goesTo hwait (fun t => (hgo.keeps t).1) (fun t => (hgo.keeps t).2) hnext.2 hnext.1

/-- The pump sends an accumulator. -/
theorem InLine.flushAccum {next : PumpNext B}
    (hpump : s.pump = .flushAccum table next) (hdrain : s.drain = none) :
    InLine su ({ s with accum := update s.accum table [] }.drained
      (drainOf table (s.accum table) true none) next) := by
  have hfound := h.found
  rw [hpump] at hfound
  refine InLine.accumDrain s.window
    (.drained (drainOf table (s.accum table) true none).isSome next) h hdrain (fun _ _ => rfl)
    (fun p hp => (h.opened table p hp).2) id ?_ (fun hne => .inl ⟨next, ?_⟩) rfl ?_
  · rw [hpump]
    cases next <;> exact Pump.same_drained su _ _
  · rw [isSome_drainOf]
    exact if_pos (by simpa using hne)
  rw [isSome_drainOf]
  cases hacc : (s.accum table).isEmpty with
  | true =>
    cases next with
    | gateHold b | take b => exact hfound
    | enqueueHeld t items rest =>
      refine fun _ => ⟨?_, hfound ▸ update_self _ _ _⟩
      rw [draining_drainOf rfl, List.isEmpty_iff.mp hacc, ite_self]
    | _ => trivial
  | false =>
    cases next with
    | gateHold b | take b => exact hfound
    | enqueueHeld t items rest => exact hfound ▸ update_self _ _ _
    | _ => trivial

/-- The pump drains a full window that is ready. -/
theorem InLine.drainReady (hpump : s.pump = .drainReady b p)
    (hdrain : s.drain = none) (hwindow : s.window (su.table b) = some p) :
    InLine su ({ s with buf := update s.buf (su.table b) [] }.drained
      (drainOf (su.table b) (s.buf (su.table b)) false none) (.gateHold b)) := by
  have hfound := h.found
  rw [hpump] at hfound
  refine InLine.bufDrain s.ready false none
    (.drained (drainOf (su.table b) (s.buf (su.table b)) false none).isSome (.gateHold b)) h
    (draining_none hdrain) hwindow ?_ rfl ?_
  · rw [hpump]
    exact Pump.same_drained su _ (.gateHold b)
  · unfold Pump.drained
    split <;> exact hfound

/-- The window takes the batch in hand, of a table nothing is held of. -/
theorem InLine.append
    (hpump : s.pump = .gateHold b ∨ s.pump = .take b) (hwindow : s.window (su.table b) = some p) :
    InLine su (s.appendLocked (su.table b) b) := by
  have hfound := h.found
  rcases hpump with hpump | hpump <;> rw [hpump] at hfound
  all_goals
    exact h.appendLocked (by rw [hpump]; simp) (by rw [hpump]; exact fun _ => rfl)
      (by rw [hpump]; exact fun _ => rfl) hfound hwindow

/-! ## Every step -/

/-- A batch is pulled. -/
theorem InLine.pull (hpump : s.pump = .idle) : InLine su { s with
      pulled := update s.pulled (su.table b) (s.pulled (su.table b) ++ [b])
      pump := .flushBeforePause b } := by
  refine { h with
    line := fun t => ?_
    apart := fun t ht => ⟨(h.apart t ht).1, rfl⟩
    flushed := fun d hd => ?_
    unstaged := fun t ht => ⟨(h.unstaged t ht).1, rfl⟩
    found := trivial }
  · have hline := h.line t
    unfold waiting at hline ⊢
    rw [hpump] at hline
    by_cases ht : t = su.table b
    · subst ht
      change _ = update s.pulled _ _ (su.table b)
      rw [← hline]
      simp [Pump.hand, Pump.taken, draining]
    · simpa [Pump.hand, Pump.taken, draining, ht, Ne.symm ht] using hline
  · exact .inr (h.window_of_drain (by rw [hpump]; simp) hd)

/-- The pump takes what is held of the tables resumed. -/
theorem InLine.wake {order : List String} (hpump : s.pump = .idle)
    (horder : order.Perm (s.resumedTables su)) :
    InLine su { s with
      held := fun t => if t ∈ order then [] else s.held t
      pump := .flushPaused (order.map fun t => (t, s.held t)) } := by
  have hnodup : order.Nodup := horder.nodup_iff.mpr (su.distinct.filter _)
  have htaken : ∀ t, (Pump.flushPaused (order.map fun t => (t, s.held t))).taken t =
      if t ∈ order then s.held t else [] := fun t => takenOf_map t s.held order hnodup
  refine { h with
    line := fun t => ?_
    apart := fun t ht => ?_
    flushed := fun d hd => ?_
    unstaged := fun t ht => ⟨(h.unstaged t ht).1, rfl⟩
    found := trivial }
  · have hline := h.line t
    unfold waiting at hline ⊢
    rw [hpump] at hline
    rw [htaken]
    change s.handed t ++ (s.draining t ++ s.accum t ++ s.buf t ++ _ ++
      (if t ∈ order then [] else s.held t) ++ []) = _
    by_cases ht : t ∈ order
    · rw [if_pos ht, if_pos ht]
      simpa [Pump.hand, Pump.taken] using hline
    · rw [if_neg ht, if_neg ht]
      simpa [Pump.hand, Pump.taken] using hline
  · have hheld := (h.apart t ht).1
    rw [htaken]
    exact ⟨(congrArg _ hheld).trans (ite_self _), (congrArg (ite _ · _) hheld).trans (ite_self _)⟩
  · exact .inr (h.window_of_drain (by rw [hpump]; simp) hd)

omit h in
/-- A table without items has none in the drain of another. -/
theorem draining_nil_of_nil {items : String → List B} {accum : Bool} {closing : Option Nat}
    (hdrain : s.drain = drainOf table (items table) accum closing) (ht : items t = []) :
    s.draining t = [] := by
  rw [draining_drainOf hdrain]
  split
  · rename_i heq
    rw [heq]
    exact ht
  · rfl

/-- A close takes what has joined the window. -/
theorem InLine.joined {d : Drain B} (hd : s.drain = some d) (hitems : d.items = [])
    (hbuf : s.buf d.table ≠ []) :
    InLine su { s with
      buf := update s.buf d.table []
      ready := update s.ready d.table false
      drain := some { d with items := s.buf d.table, calling := false } } := by
  obtain ⟨p, hwindow⟩ := Option.ne_none_iff_exists'.mp fun hnone => hbuf (h.gated _ hnone)
  have hdrain : some { d with items := s.buf d.table, calling := false } =
      drainOf d.table (s.buf d.table) d.accum d.closing :=
    (if_neg fun hnil => hbuf (List.isEmpty_iff.mp hnil)).symm
  refine InLine.bufDrain (update s.ready d.table false) d.accum d.closing s.pump h (fun t => ?_)
    hwindow (fun _ => ⟨rfl, rfl, rfl⟩) (by rw [hdrain]) ?_
  · rw [draining_some hd, hitems, ite_self]
  · exact h.found_of rfl rfl (fun _ => update_nil_of_nil) (fun _ => id) fun _ _ hb _ =>
      draining_nil_of_nil hdrain hb

/-- A window opens; the accumulator goes out first. -/
theorem InLine.openWindow (hpaused : s.paused table = false) (hdrain : s.drain = none) :
    InLine su { s with
      window := update s.window table (some p)
      accum := update s.accum table []
      drain := drainOf table (s.accum table) true none } := by
  have hself : update s.window table (some p) table = some p := update_self _ _ _
  refine InLine.accumDrain (update s.window table (some p)) s.pump h hdrain
    (fun t ht => update_of_ne ht _ _) (fun _ _ => hpaused)
    (fun hnone => nomatch hself.symm.trans hnone) (fun _ => ⟨rfl, rfl, rfl⟩)
    (fun _ => .inr (by rw [hself]; rfl)) rfl ?_
  exact h.found_of rfl rfl (fun _ => id) (fun _ => update_nil_of_nil) fun _ _ _ ht =>
    draining_nil_of_nil rfl ht

/-- What a window holds goes out. -/
theorem InLine.drainWindow (closing : Option Nat)
    (hwindow : s.window table = some p) (hdrain : s.drain = none) :
    InLine su { s with
      buf := update s.buf table []
      ready := update s.ready table false
      drain := drainOf table (s.buf table) false closing } := by
  refine InLine.bufDrain (update s.ready table false) false closing s.pump h (draining_none hdrain)
    hwindow (fun _ => ⟨rfl, rfl, rfl⟩) rfl ?_
  exact h.found_of rfl rfl (fun _ => update_nil_of_nil) (fun _ => id) fun _ _ ht _ =>
    draining_nil_of_nil rfl ht

/-- The condition: no window opens for a paused table and no table with a window
is paused, and a table stops being staged only when nothing of it is accumulated
or in the pump's hands. -/
def Steady (su : HandoverSetup B) (s : HandState B) : HandAction B → Prop
  | .openWindow table _ => s.paused table = false
  | .pauseTable table => s.window table = none
  | .publish table staged => staged = false → s.accum table = [] ∧ s.pump.hand su table = []
  | _ => True

instance [DecidableEq B] (s : HandState B) (a : HandAction B) : Decidable (Steady su s a) := by
  cases a <;> unfold Steady <;> infer_instance

/-- A table's layout is published. -/
theorem InLine.publish {staged : Bool}
    (hclear : staged = false → s.accum table = [] ∧ s.pump.hand su table = []) :
    InLine su { s with staged := update s.staged table staged } := by
  have hold : ∀ t, update s.staged table staged t = false → s.staged t = false ∨
      s.accum t = [] ∧ s.pump.hand su t = [] := by
    intro t ht
    by_cases heq : t = table
    · subst heq
      rw [update_self] at ht
      exact .inr (hclear ht)
    · exact .inl ((update_of_ne heq _ _).symm.trans ht)
  refine { h with
    unstaged := fun t ht => ?_
    found := ?_ }
  · rcases hold t ht with hst | ⟨haccum, hhand⟩
    · exact h.unstaged t hst
    · refine ⟨haccum, ?_⟩
      by_contra htakes
      exact Pump.hand_of_takes (Bool.not_eq_false _ ▸ htakes) hhand
  · have hfound := h.found
    cases hpump : s.pump with
    | accumulate b =>
      rw [hpump] at hfound
      refine ⟨hfound.1, hfound.2.1, fun ht => ?_⟩
      rcases hold _ ht with hst | ⟨-, hhand⟩
      · exact hfound.2.2 hst
      · rw [hpump] at hhand
        simp [Pump.hand] at hhand
    | flushAccum t next | sending next =>
      rw [hpump] at hfound
      cases next <;> exact hfound
    | _ =>
      rw [hpump] at hfound
      exact hfound

/-- Every step that meets the condition keeps the lines. -/
theorem InLine.step (hok : Steady su s a) (hs : step su s a = some s') : InLine su s' := by
  have hsame : ∀ {s' : HandState B}, s'.held = s.held → s'.staged = s.staged → s'.buf = s.buf →
      s'.accum = s.accum → s'.drain = s.drain → s'.Found su s.pump := by
    intro s' hheld hstaged hbuf haccum hdrain
    refine h.found_of hheld hstaged (hbuf ▸ fun _ => id) (haccum ▸ fun _ => id) fun t ht _ _ => ?_
    unfold draining at ht ⊢
    rwa [hdrain]
  cases moves_of_step hs with
  | goes hgo => exact h.goes hgo
  | pauseHold hpump hhold => exact h.pauseHold hpump hhold
  | appendLocked hpump hwindow => exact h.append hpump hwindow
  | drainReady hpump hdrain hwindow => exact h.drainReady hpump hdrain hwindow
  | @accumulated due _ hpump hwindow =>
    cases due <;>
    exact h.accumulated hpump hwindow (fun _ => rfl) (fun _ => rfl) (fun _ => rfl) fun _ => trivial
  | enqueue hpump => exact h.enqueue hpump
  | flushAccum hpump hdrain => exact h.flushAccum hpump hdrain
  | enqueueHeld hpump hitems => exact h.enqueueHeld _ hpump hitems
  | pull hpump => exact h.pull hpump
  | wake hpump horder => exact h.wake hpump horder
  | @send d n hd =>
    refine InLine.drainMoves { d with items := d.items.drop n, calling := true } (d.items.take n)
      h hd (take_append_drop n d.items).symm rfl rfl (update_append _ _ · _) rfl
  | @returned d hd =>
    refine InLine.drainMoves { d with calling := false } [] h hd rfl rfl rfl (fun t => ?_) rfl
    rw [ite_self, append_nil]
  | release hd hitems => exact h.release hd hitems
  | sealed hd hitems hbuf => exact (h.release hd hitems).sealLocked rfl hbuf
  | joined hd hitems hbuf => exact h.joined hd hitems hbuf
  | openWindow hdrain => exact h.openWindow hok hdrain
  | drainWindow ha hwindow hdrain => exact h.drainWindow _ hwindow hdrain
  | sealLocked hdrain hbuf => exact h.sealLocked hdrain hbuf
  | noWindow => exact h
  | markReady | clearReady => exact { h with found := hsame rfl rfl rfl rfl rfl }
  | @pauseTable table =>
    refine { h with
      opened := fun t p hp => ⟨(h.opened t p hp).1, ?_⟩
      found := hsame rfl rfl rfl rfl rfl }
    refine (update_of_ne (fun heq => ?_) _ _).trans (h.opened t p hp).2
    rw [heq] at hp
    exact nomatch (show s.window table = none from hok).symm.trans hp
  | @resumeTable table =>
    refine { h with
      opened := fun t p hp => ⟨(h.opened t p hp).1, ?_⟩
      found := hsame rfl rfl rfl rfl rfl }
    by_cases heq : t = table
    · exact heq ▸ update_self _ _ _
    · exact (update_of_ne heq _ _).trans (h.opened t p hp).2
  | publish => exact h.publish hok

end Steps

/-- **Hand-over in order.**  As long as no window opens for a paused table, no table
with a window is paused, and a table stops being staged only when nothing of it is
accumulated or in the pump's hands, what has been handed over of a table and what
is still on its way make up what was pulled, in order. -/
theorem handed_in_order (staged : String → Bool) {actions : List (HandAction B)}
    (hrun : run (HandState.step su) (init staged) actions = some s)
    (hok : Runs.Guarded (HandState.step su) (Steady su) (init staged) actions) (t : String) :
    s.handed t ++ s.waiting su t = s.pulled t :=
  (invariant_of_guarded (InLine su) (fun _ _ _ h hok hs => h.step hok hs)
    (inLine_init staged) hrun hok).line t

/-- Two tables; a batch is named by its table and a number. -/
def twoTables : HandoverSetup (String × Nat) where
  tables := ["orders", "users"]
  distinct := by decide
  table := Prod.fst
  rows _ := 1
  bytes _ := 1
  gateMaxCount := 2
  gateMaxBytes := 0
  cycleMaxRows := 2
  cycleMaxBytes := 9

/-- Batches of a table pass a full window, the close of it, and a pause. -/
def throughAll : List (HandAction (String × Nat)) :=
  [.pull ("orders", 1), .pump false, .pump false, .pump false, .pump false, .pump false,
    .openWindow "orders" 0, .send, .sent,
    .pull ("orders", 2), .pump false, .pump false, .pump false,
    .pull ("orders", 3), .pump false, .pump false, .pump false, .markReady "orders" 0,
    .pull ("orders", 4), .pump false, .pump false, .pump false, .pump false, .send, .sent,
    .pump false, .closeWindow "orders" 0, .send, .sent,
    .pauseTable "orders", .pull ("orders", 5), .pump false, .pump false, .pump false,
    .resumeTable "orders", .wake ["orders"], .pump false, .pump false, .pump false]

theorem handed_in_order_throughAll :
    ∃ s, run (HandState.step twoTables) (init fun _ => true) throughAll = some s ∧
      s.handed "orders" = [1, 2, 3, 4, 5].map ("orders", ·) ∧
      s.handed "orders" ++ s.waiting twoTables "orders" = s.pulled "orders" := by
  exact exists_run_and (by decide +kernel) fun s hs _ =>
    handed_in_order _ hs (by decide +kernel) _

/-- A batch is in the window when its table is paused; the next is held by the
pause, and goes out before it. -/
def pausedWindow : List (HandAction (String × Nat)) := [.openWindow "orders" 0,
    .pull ("orders", 1), .pump false, .pump false, .pump false,
    .pauseTable "orders",
    .pull ("orders", 2), .pump false, .pump false, .pump false,
    .resumeTable "orders", .wake ["orders"], .pump false, .pump false, .pump false]

/-- A batch is accumulated when its table gets a single owner; the next is not
accumulated, and goes out before it. -/
def leftBehind : List (HandAction (String × Nat)) :=
  [.pull ("orders", 1), .pump false, .pump false, .pump false, .pump false, .pump false,
    .pauseTable "orders", .publish "orders" false, .resumeTable "orders",
    .pull ("orders", 2), .pump false, .pump false, .pump false, .pump false, .pump false]

/-- Batches overtake one another. -/
theorem handed_out_of_order :
    (∃ s, run (HandState.step twoTables) (init fun _ => true) pausedWindow = some s ∧
      s.pulled "orders" = [("orders", 1), ("orders", 2)] ∧ s.handed "orders" = [("orders", 2)]) ∧
    ∃ s, run (HandState.step twoTables) (init fun _ => true) leftBehind = some s ∧
      s.pulled "orders" = [("orders", 1), ("orders", 2)] ∧ s.handed "orders" = [("orders", 2)] := by
  exact ⟨exists_run (by decide +kernel), exists_run (by decide +kernel)⟩

end HandState

end Urutau
