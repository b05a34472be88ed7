import Urutau.HandoverMoves
import Urutau.PointUpdates

/-!
# The line of a table

What is on its way of a table stands in one line: the drain that is being sent,
the accumulator, the window, what the pump has taken from the pause, what the
pause holds, and the batch in the pump's hands.  A batch that changes its place
keeps it in the line.
-/

namespace Urutau

open List

/-- What was taken from the pause of a table. -/
def takenOf {B : Type} (t : String) (held : List (String × List B)) : List B :=
  (held.filter fun x => x.1 = t).flatMap Prod.snd

theorem takenOf_cons {B : Type} (t table : String) (items : List B)
    (rest : List (String × List B)) :
    takenOf t ((table, items) :: rest) = (if table = t then items else []) ++ takenOf t rest := by
  unfold takenOf
  by_cases heq : table = t
  · simp [heq]
  · simp [heq]

/-- What was held of tables that are all different. -/
theorem takenOf_map {B : Type} (t : String) (held : String → List B) (order : List String)
    (hnodup : order.Nodup) :
    takenOf t (order.map fun x => (x, held x)) = if t ∈ order then held t else [] := by
  induction order with
  | nil => rfl
  | cons x rest ih =>
    obtain ⟨hx, hrest⟩ := nodup_cons.mp hnodup
    rw [map_cons, takenOf_cons, ih hrest]
    by_cases heq : x = t
    · subst heq
      simp [hx]
    · simp [heq, Ne.symm heq]

/-- The batch in the pump's hands, if it is of the table. -/
def PumpNext.hand {B : Type} (su : HandoverSetup B) (t : String) : PumpNext B → List B
  | .pauseHold b | .gateHold b | .take b => if su.table b = t then [b] else []
  | _ => []

def PumpNext.taken {B : Type} (t : String) : PumpNext B → List B
  | .enqueueHeld t' items rest => (if t' = t then items else []) ++ takenOf t rest
  | _ => []

namespace Pump

variable {B : Type} (su : HandoverSetup B) (s : HandState B) (t : String)

def hand : Pump B → List B
  | .flushBeforePause b | .pauseHold b | .gateHold b | .drainReady b _ | .accumulate b | .take b
  | .enqueue b => if su.table b = t then [b] else []
  | .flushAccum _ next | .sending next => next.hand su t
  | _ => []

def taken : Pump B → List B
  | .flushPaused held => takenOf t held
  | .enqueueHeld t' items rest | .inEnqueueHeld t' items rest =>
    (if t' = t then items else []) ++ takenOf t rest
  | .flushAccum _ next | .sending next => next.taken t
  | _ => []

/-- The pump is about to accumulate a batch of the table. -/
def takes : Pump B → Bool
  | .take b | .flushAccum _ (.take b) | .sending (.take b) => su.table b = t
  | _ => false

/-- The pump holds the same of every table, and is about to accumulate the same. -/
def Same (q r : Pump B) : Prop :=
  ∀ t, q.hand su t = r.hand su t ∧ q.taken t = r.taken t ∧ q.takes su t = r.takes su t

theorem same_next (next : PumpNext B) : Same su next.pump (.sending next) := by
  cases next <;> exact fun _ => ⟨rfl, rfl, rfl⟩

/-- A pump that takes has something in hand. -/
theorem hand_of_takes {su : HandoverSetup B} {t : String} {q : Pump B} (h : q.takes su t = true) :
    q.hand su t ≠ [] := by
  unfold takes at h
  split at h
  · simpa [hand] using of_decide_eq_true h
  · simpa [hand, PumpNext.hand] using of_decide_eq_true h
  · simpa [hand, PumpNext.hand] using of_decide_eq_true h
  · cases h

/-- Where the pump stands once it has started a drain of its own, or needs none. -/
def drained (c : Bool) (next : PumpNext B) : Pump B := if c then .sending next else next.pump

theorem same_drained (c : Bool) (next : PumpNext B) : Same su (drained c next) (.sending next) := by
  cases c with
  | true => exact fun _ => ⟨rfl, rfl, rfl⟩
  | false => exact same_next su next

end Pump

namespace HandState

open Updates

open Function (update update_self update_of_ne)

variable {B : Type} {su : HandoverSetup B} {s s' : HandState B}

attribute [local simp] Pump.taken Pump.hand appendLocked

variable {q : Pump B} {b : B} {p : Nat} {items : List B} {accum : Bool} {closing : Option Nat}

/-- The batch in the pump's hands and what it has taken stay while it goes on. -/
theorem Goes.keeps {a : HandAction B} {r : Pump B} (h : Goes su s a q r) (t : String) :
    r.hand su t = q.hand su t ∧ r.taken t = q.taken t := by
  cases h with
  | nextHeld => exact ⟨rfl, (takenOf_cons _ _ _ _).symm⟩
  | allHeld => simp
  | _ => exact ⟨rfl, rfl⟩

/-- What is left of a drain of the table. -/
def draining (s : HandState B) (t : String) : List B :=
  match s.drain with
  | some d => if d.table = t then d.items else []
  | none => []

/-- All of a table that is on its way, oldest first. -/
def waiting (su : HandoverSetup B) (s : HandState B) (t : String) : List B :=
  s.draining t ++ s.accum t ++ s.buf t ++ s.pump.taken t ++ s.held t ++ s.pump.hand su t

/-- A window of the table is being drained. -/
def WindowDrain (s : HandState B) (t : String) : Prop :=
  ∃ d, s.drain = some d ∧ d.table = t ∧ d.accum = false

/-- What the pump has found out on its way to where it stands. -/
def Found (su : HandoverSetup B) (s : HandState B) : Pump B → Prop
  | .gateHold b | .drainReady b _ | .take b
  | .flushAccum _ (.gateHold b) | .flushAccum _ (.take b)
  | .sending (.gateHold b) | .sending (.take b) => s.held (su.table b) = []
  | .accumulate b => s.held (su.table b) = [] ∧ s.buf (su.table b) = [] ∧
      (s.staged (su.table b) = false → s.draining (su.table b) = [])
  | .enqueue b => s.held (su.table b) = [] ∧ s.buf (su.table b) = [] ∧
      s.draining (su.table b) = [] ∧ s.accum (su.table b) = []
  | .flushAccum t (.enqueueHeld t' _ _) => t = t'
  | .sending (.enqueueHeld t _ _) => s.accum t = []
  | .enqueueHeld t items _ | .inEnqueueHeld t items _ =>
    items ≠ [] → s.draining t = [] ∧ s.accum t = []
  | _ => True

/-- **The line of each table.** -/
structure InLine (su : HandoverSetup B) (s : HandState B) : Prop where
  line : ∀ t, s.handed t ++ s.waiting su t = s.pulled t
  gated : ∀ t, s.window t = none → s.buf t = []
  opened : ∀ t p, s.window t = some p → s.accum t = [] ∧ s.paused t = false
  apart : ∀ t, s.buf t ≠ [] ∨ s.WindowDrain t → s.held t = [] ∧ s.pump.taken t = []
  flushed : ∀ d, s.drain = some d → (∃ next, s.pump = .sending next) ∨ (s.window d.table).isSome
  unstaged : ∀ t, s.staged t = false → s.accum t = [] ∧ s.pump.takes su t = false
  found : s.Found su s.pump

theorem inLine_init (staged : String → Bool) : InLine su (init staged) where
  line _ := rfl
  gated _ _ := rfl
  opened := nofun
  apart _ _ := ⟨rfl, rfl⟩
  flushed := nofun
  unstaged _ _ := ⟨rfl, rfl⟩
  found := trivial

variable {d : Drain B}

section

variable (h : InLine su s) (hpump : ∀ next, s.pump ≠ .sending next)
include h hpump

/-- While the pump does not wait, a drain belongs to an open window. -/
theorem InLine.window_of_drain (hd : s.drain = some d) : (s.window d.table).isSome :=
  (h.flushed d hd).resolve_left fun ⟨next, hnext⟩ => hpump next hnext

/-! ## The pump -/

/-- The pump goes on with what it has in its hands. -/
theorem InLine.goesTo {q : Pump B}
    (hhand : ∀ t, q.hand su t = s.pump.hand su t) (htaken : ∀ t, q.taken t = s.pump.taken t)
    (htakes : ∀ t, s.staged t = false → q.takes su t = false) (hfound : s.Found su q) :
    InLine su { s with pump := q } where
  line t := by
    have hline := h.line t
    unfold waiting at hline ⊢
    rw [← hhand, ← htaken] at hline
    exact hline
  gated := h.gated
  opened := h.opened
  apart t ht := ⟨(h.apart t ht).1, (htaken t).trans (h.apart t ht).2⟩
  flushed d hd := .inr (h.window_of_drain hpump hd)
  unstaged t ht := ⟨(h.unstaged t ht).1, htakes t ht⟩
  found := hfound

/-- No drain is under way for a table without a window, unless the pump waits. -/
theorem InLine.draining_nil {t : String} (hwindow : s.window t = none) : s.draining t = [] := by
  unfold draining
  cases hd : s.drain with
  | none => rfl
  | some d =>
    have hopen := h.window_of_drain hpump hd
    refine if_neg fun heq => ?_
    rw [heq, hwindow] at hopen
    cases hopen

end

/-- The pause takes the batch. -/
theorem InLine.pauseHold (h : InLine su s) (hpump : s.pump = .pauseHold b)
    (hhold : s.paused (su.table b) = true ∨ s.held (su.table b) ≠ []) :
    InLine su { s with
      held := update s.held (su.table b) (s.held (su.table b) ++ [b])
      pump := .idle } := by
  have hwait : ∀ next, s.pump ≠ .sending next := by simp [hpump]
  -- Nothing of the table is in a window or being drained from one.
  have hclear : ¬ (s.buf (su.table b) ≠ [] ∨ s.WindowDrain (su.table b)) := by
    intro hor
    have happart := h.apart _ hor
    rcases hhold with hpaused | hheld
    · cases hwindow : s.window (su.table b) with
      | some p =>
        rw [(h.opened _ p hwindow).2] at hpaused
        cases hpaused
      | none =>
        rcases hor with hbuf | ⟨d, hd, htable, -⟩
        · exact hbuf (h.gated _ hwindow)
        · have hopen := h.window_of_drain hwait hd
          rw [htable, hwindow] at hopen
          cases hopen
    · exact hheld happart.1
  refine { h with
    line := fun t => ?_
    apart := fun t ht => ?_
    flushed := fun d hd => .inr (h.window_of_drain hwait hd)
    unstaged := fun t ht => ⟨(h.unstaged t ht).1, rfl⟩
    found := trivial }
  · have hline := h.line t
    unfold waiting at hline ⊢
    rw [hpump] at hline
    dsimp only
    rw [update_append]
    simpa [draining] using hline
  · by_cases heq : t = su.table b
    · subst heq
      exact absurd ht hclear
    · have hold := (h.apart t ht).1
      exact ⟨(update_of_ne heq _ _).trans hold, rfl⟩

/-- The window takes the batch. -/
theorem InLine.appendLocked (h : InLine su s) (hpump : ∀ next, s.pump ≠ .sending next)
    (hhand : ∀ t, s.pump.hand su t = if su.table b = t then [b] else [])
    (htaken : ∀ t, s.pump.taken t = []) (hheld : s.held (su.table b) = [])
    (hwindow : s.window (su.table b) = some p) :
    InLine su (s.appendLocked (su.table b) b) := by
  refine { h with
    line := fun t => ?_
    gated := fun t ht => ?_
    apart := fun t ht => ?_
    flushed := fun d hd => .inr (h.window_of_drain hpump hd)
    unstaged := fun t ht => ⟨(h.unstaged t ht).1, rfl⟩
    found := trivial }
  · have hline := h.line t
    unfold waiting at hline ⊢
    rw [hhand, htaken] at hline
    by_cases ht : t = su.table b
    · subst ht
      simpa [draining, hheld] using hline
    · simpa [draining, ht, Ne.symm ht] using hline
  · have hne : t ≠ su.table b := by
      intro heq
      change s.window t = none at ht
      rw [heq, hwindow] at ht
      cases ht
    exact (update_of_ne hne _ _).trans (h.gated t ht)
  · by_cases heq : t = su.table b
    · subst heq
      exact ⟨hheld, rfl⟩
    · refine ⟨(h.apart t (ht.imp_left fun hbuf hnil => hbuf ?_)).1, rfl⟩
      exact (update_of_ne heq _ _).trans hnil

/-- The accumulator takes the batch. -/
theorem InLine.accumulated (h : InLine su s) (hpump : s.pump = .take b)
    (hwindow : s.window (su.table b) = none) (hhand : ∀ t, q.hand su t = [])
    (htaken : ∀ t, q.taken t = []) (htakes : ∀ t, q.takes su t = false)
    (hfound : ∀ s' : HandState B, s'.Found su q) :
    InLine su { s with
      accum := update s.accum (su.table b) (s.accum (su.table b) ++ [b])
      pump := q } := by
  have hwait : ∀ next, s.pump ≠ .sending next := by simp [hpump]
  have hheld : s.held (su.table b) = [] := by
    have hf := h.found
    rw [hpump] at hf
    exact hf
  have hstaged : s.staged (su.table b) = true := by
    cases hst : s.staged (su.table b) with
    | true => rfl
    | false =>
      have htake := (h.unstaged _ hst).2
      rw [hpump] at htake
      simp [Pump.takes] at htake
  refine { h with
    line := fun t => ?_
    opened := fun t p hp => ?_
    apart := fun t ht => ⟨(h.apart t ht).1, htaken t⟩
    flushed := fun d hd => .inr (h.window_of_drain hwait hd)
    unstaged := fun t ht => ?_
    found := hfound _ }
  · have hline := h.line t
    unfold waiting at hline
    rw [hpump] at hline
    change s.handed t ++ (s.draining t ++ update s.accum _ _ t ++ s.buf t ++ q.taken t ++
      s.held t ++ q.hand su t) = _
    rw [hhand, htaken]
    by_cases ht : t = su.table b
    · subst ht
      simpa [hheld, h.gated _ hwindow] using hline
    · simpa [ht, Ne.symm ht] using hline
  · have hne : t ≠ su.table b := by
      intro heq
      rw [heq, hwindow] at hp
      cases hp
    exact ⟨(update_of_ne hne _ _).trans (h.opened t p hp).1, (h.opened t p hp).2⟩
  · have hne : t ≠ su.table b := by
      intro heq
      rw [heq, hstaged] at ht
      cases ht
    exact ⟨(update_of_ne hne _ _).trans (h.unstaged t ht).1, htakes t⟩

/-- The pump hands a batch over itself. -/
theorem InLine.enqueue (h : InLine su s) (hpump : s.pump = .enqueue b) :
    InLine su { s.hand (su.table b) [b] with pump := .inEnqueue } := by
  have hwait : ∀ next, s.pump ≠ .sending next := by simp [hpump]
  obtain ⟨hheld, hbuf, hdrain, haccum⟩ : s.Found su (.enqueue b) := hpump ▸ h.found
  refine { h with
    line := fun t => ?_
    apart := fun t ht => ⟨(h.apart t ht).1, rfl⟩
    flushed := fun d hd => .inr (h.window_of_drain hwait hd)
    unstaged := fun t ht => ⟨(h.unstaged t ht).1, rfl⟩
    found := trivial }
  have hline := h.line t
  unfold waiting at hline ⊢
  rw [hpump] at hline
  by_cases ht : t = su.table b
  · subst ht
    change update s.handed (su.table b) _ (su.table b) ++ (s.draining (su.table b) ++ _ ++ _ ++ _ ++
      _ ++ _) = _
    simpa [hand, hdrain, haccum, hbuf, hheld] using hline
  · simpa [hand, draining, ht, Ne.symm ht] using hline

variable {table : String}

/-- The pump hands over what the pause held, a group at a time. -/
theorem InLine.enqueueHeld {rest : List (String × List B)} (n : Nat)
    (h : InLine su s) (hpump : s.pump = .enqueueHeld table items rest) (hitems : items ≠ []) :
    InLine su { s.hand table (items.take n) with
      pump := .inEnqueueHeld table (items.drop n) rest } := by
  have hwait : ∀ next, s.pump ≠ .sending next := by simp [hpump]
  have hfound : s.Found su (.enqueueHeld table items rest) := hpump ▸ h.found
  obtain ⟨hdrain, haccum⟩ := hfound hitems
  have htaken : ∀ t, s.pump.taken t = (if table = t then items else []) ++ takenOf t rest :=
    fun t => by rw [hpump]; rfl
  -- What was held is behind nothing in a window.
  have hbuf : s.buf table = [] := by
    by_contra hne
    have hnil := (h.apart table (.inl hne)).2
    rw [htaken, if_pos rfl] at hnil
    exact hitems (append_eq_nil_iff.mp hnil).1
  refine { h with
    line := fun t => ?_
    apart := fun t ht => ⟨(h.apart t ht).1, ?_⟩
    flushed := fun d hd => .inr (h.window_of_drain hwait hd)
    unstaged := fun t ht => ⟨(h.unstaged t ht).1, rfl⟩
    found := fun _ => ⟨hdrain, haccum⟩ }
  · have hline := h.line t
    unfold waiting at hline
    rw [htaken, hpump] at hline
    change update s.handed table _ t ++ (s.draining t ++ s.accum t ++ s.buf t ++
      ((if table = t then items.drop n else []) ++ takenOf t rest) ++ s.held t ++ []) = _
    by_cases ht : t = table
    · subst ht
      rw [hdrain, haccum, hbuf] at hline
      rw [hdrain, haccum, hbuf, if_pos rfl, update_self]
      simp only [nil_append, append_assoc] at hline ⊢
      rw [← append_assoc (items.take n), take_append_drop]
      exact hline
    · have hne : table ≠ t := fun heq => ht heq.symm
      rw [if_neg hne] at hline
      rw [if_neg hne, update_of_ne ht]
      exact hline
  · have hnil := (h.apart t ht).2
    rw [htaken] at hnil
    obtain ⟨hfirst, hlast⟩ := append_eq_nil_iff.mp hnil
    change (if table = t then items.drop n else []) ++ takenOf t rest = []
    rw [hlast]
    split
    · rename_i heq
      rw [if_pos heq] at hfirst
      exact absurd hfirst hitems
    · rfl

/-! ## Drains -/

theorem draining_none (hdrain : s.drain = none) (t : String) : s.draining t = [] := by
  unfold draining
  rw [hdrain]

theorem draining_some (hd : s.drain = some d) (t : String) :
    s.draining t = if d.table = t then d.items else [] := by
  unfold draining
  rw [hd]

theorem drained_pump (drain : Option (Drain B)) (next : PumpNext B) :
    (s.drained drain next).pump = .drained drain.isSome next := rfl

/-- A drain has the items it was given. -/
theorem draining_drainOf (hdrain : s.drain = drainOf table items accum closing) (t : String) :
    s.draining t = if table = t then items else [] := by
  unfold draining
  rw [hdrain]
  cases items with
  | nil => exact (ite_self _).symm
  | cons b rest => rfl

theorem table_of_drainOf (hd : drainOf table items accum closing = some d) :
    d.table = table ∧ d.accum = accum ∧ items ≠ [] := by
  cases items with
  | nil => cases hd
  | cons b rest =>
    rw [← Option.some.inj hd]
    exact ⟨rfl, rfl, cons_ne_nil b rest⟩

/-- A drain starts with what stands first in the line, so what the pump has found
out stays. -/
theorem InLine.found_of (h : InLine su s) (hheld : s'.held = s.held)
    (hstaged : s'.staged = s.staged) (hbuf : ∀ t, s.buf t = [] → s'.buf t = [])
    (haccum : ∀ t, s.accum t = [] → s'.accum t = [])
    (hdrain : ∀ t, s.draining t = [] → s.buf t = [] → s.accum t = [] → s'.draining t = []) :
    s'.Found su s.pump := by
  have hfound := h.found
  have hempty : ∀ t items rest, s.pump.taken t = items ++ rest → items ≠ [] → s.buf t = [] := by
    intro t items rest htaken hitems
    by_contra hne
    have hnil := (h.apart t (.inl hne)).2
    rw [htaken] at hnil
    exact hitems (append_eq_nil_iff.mp hnil).1
  cases hpump : s.pump with
  | accumulate b =>
    rw [hpump] at hfound
    obtain ⟨hh, hb, hd⟩ := hfound
    refine ⟨hheld ▸ hh, hbuf _ hb, fun hst => ?_⟩
    rw [hstaged] at hst
    exact hdrain _ (hd hst) hb (h.unstaged _ hst).1
  | enqueue b =>
    rw [hpump] at hfound
    obtain ⟨hh, hb, hd, ha⟩ := hfound
    exact ⟨hheld ▸ hh, hbuf _ hb, hdrain _ hd hb ha, haccum _ ha⟩
  | enqueueHeld t items rest | inEnqueueHeld t items rest =>
    rw [hpump] at hfound
    intro hitems
    obtain ⟨hd, ha⟩ := hfound hitems
    have hb := hempty t items (takenOf t rest)
      (by rw [hpump]; exact congrArg (· ++ _) (if_pos rfl)) hitems
    exact ⟨hdrain t hd hb ha, haccum t ha⟩
  | sending next =>
    rw [hpump] at hfound
    cases next with
    | gateHold b | take b => exact (congrFun hheld _).trans hfound
    | enqueueHeld t items rest => exact haccum t hfound
    | _ => trivial
  | flushAccum t next =>
    rw [hpump] at hfound
    cases next with
    | gateHold b | take b => exact (congrFun hheld _).trans hfound
    | enqueueHeld t items rest => exact hfound
    | _ => trivial
  | gateHold b | drainReady b p | take b =>
    rw [hpump] at hfound
    exact (congrFun hheld _).trans hfound
  | _ => trivial

/-- The accumulator of a table is drained. -/
theorem InLine.accumDrain (w : String → Option Nat) (q : Pump B) (h : InLine su s)
    (hdrain : s.drain = none) (hw : ∀ t, t ≠ table → w t = s.window t)
    (hopen : ∀ p, w table = some p → s.paused table = false)
    (hshut : w table = none → s.window table = none) (hsame : q.Same su s.pump)
    (hflush : s.accum table ≠ [] → (∃ next, q = .sending next) ∨ (w table).isSome)
    (hs : s' = { s with
      window := w
      accum := update s.accum table []
      drain := drainOf table (s.accum table) true none
      pump := q }) (hfound : s'.Found su q) : InLine su s' := by
  have hdraining : ∀ t, s'.draining t = if table = t then s.accum table else [] :=
    draining_drainOf (by rw [hs])
  subst hs
  refine ⟨fun t => ?_, fun t ht => ?_, fun t p hp => ?_, fun t ht => ?_, fun d hd => ?_,
    fun t ht => ⟨?_, (hsame t).2.2.trans (h.unstaged t ht).2⟩, hfound⟩
  · have hline := h.line t
    unfold waiting at hline ⊢
    rw [draining_none hdrain, ← (hsame t).1, ← (hsame t).2.1] at hline
    rw [hdraining]
    rw [append_emptied]
    exact hline
  · refine h.gated t ?_
    by_cases heq : t = table
    · subst heq
      exact hshut ht
    · exact (hw t heq).symm.trans ht
  · by_cases heq : t = table
    · subst heq
      exact ⟨update_self _ _ _, hopen p hp⟩
    · obtain ⟨haccum, hpaused⟩ := h.opened t p ((hw t heq).symm.trans hp)
      exact ⟨(update_of_ne heq _ _).trans haccum, hpaused⟩
  · rcases ht with hbuf | ⟨d, hd, -, haccum⟩
    · exact (h.apart t (.inl hbuf)).imp_right (hsame t).2.1.trans
    · have htrue := (table_of_drainOf hd).2.1
      rw [haccum] at htrue
      cases htrue
  · obtain ⟨htable, -, hne⟩ := table_of_drainOf hd
    rw [htable]
    exact hflush hne
  · exact update_nil_of_nil (h.unstaged t ht).1

/-- The window of a table is drained. -/
theorem InLine.bufDrain (r : String → Bool) (accum : Bool) (closing : Option Nat)
    (q : Pump B) (h : InLine su s) (hnone : ∀ t, s.draining t = [])
    (hwindow : s.window table = some p) (hsame : q.Same su s.pump) (hs : s' = { s with
      buf := update s.buf table []
      ready := r
      drain := drainOf table (s.buf table) accum closing
      pump := q }) (hfound : s'.Found su q) : InLine su s' := by
  have hdraining : ∀ t, s'.draining t = if table = t then s.buf table else [] :=
    draining_drainOf (by rw [hs])
  subst hs
  refine { h with
    line := fun t => ?_
    gated := fun t ht => ?_
    apart := fun t ht => ?_
    flushed := fun d hd => ?_
    unstaged := fun t ht => (h.unstaged t ht).imp_right (hsame t).2.2.trans
    found := hfound }
  · have hline := h.line t
    unfold waiting at hline ⊢
    rw [hnone, ← (hsame t).1, ← (hsame t).2.1] at hline
    rw [hdraining]
    by_cases ht : t = table
    · subst ht
      change _ ++ (_ ++ s.accum t ++ update s.buf t [] t ++ _ ++ _ ++ _) = _
      rw [(h.opened t p hwindow).1]
      rw [(h.opened t p hwindow).1] at hline
      simpa using hline
    · rw [if_neg fun heq => ht heq.symm]
      change _ ++ (_ ++ _ ++ update s.buf table [] t ++ _ ++ _ ++ _) = _
      rw [update_of_ne ht]
      exact hline
  · exact update_nil_of_nil (h.gated t ht)
  · have hbuf : s.buf t ≠ [] := by
      rcases ht with hbuf | ⟨d, hd, htable, -⟩
      · exact fun hnil => hbuf (update_nil_of_nil hnil)
      · obtain ⟨htab, -, hne⟩ := table_of_drainOf hd
        rw [← htable, htab]
        exact hne
    exact (h.apart t (.inl hbuf)).imp_right (hsame t).2.1.trans
  · rw [(table_of_drainOf hd).1]
    exact .inr (by rw [hwindow]; rfl)

/-- A drain hands over its first items. -/
theorem InLine.drainMoves {handed : String → List B} (d' : Drain B) (out : List B)
    (h : InLine su s) (hd : s.drain = some d) (hitems : d.items = out ++ d'.items)
    (htable : d'.table = d.table) (haccum : d'.accum = d.accum)
    (hhanded : ∀ t, handed t = s.handed t ++ if d.table = t then out else [])
    (hs : s' = { s with drain := some d', handed := handed }) : InLine su s' := by
  have hold : ∀ t, s.draining t = if d.table = t then out ++ d'.items else [] :=
    hitems ▸ draining_some hd
  have hnew : ∀ t, s'.draining t = if d.table = t then d'.items else [] :=
    htable ▸ draining_some (by rw [hs])
  have hfound : s'.Found su s.pump := by
    refine h.found_of (by rw [hs]) (by rw [hs]) (by rw [hs]; exact fun _ => id)
      (by rw [hs]; exact fun _ => id) fun t ht _ _ => ?_
    rw [hnew]
    split
    · rename_i heq
      rw [hold, if_pos heq] at ht
      exact (append_eq_nil_iff.mp ht).2
    · rfl
  subst hs
  refine { h with
    line := fun t => ?_
    apart := fun t ht => h.apart t (ht.imp_right ?_)
    flushed := fun _ hd' => ?_
    found := hfound }
  · have hline := h.line t
    unfold waiting at hline ⊢
    rw [hold] at hline
    rw [hnew]
    change handed t ++ _ = _
    rw [hhanded]
    by_cases ht : d.table = t
    · rw [if_pos ht] at hline
      rw [if_pos ht, if_pos ht]
      simpa using hline
    · rw [if_neg ht] at hline
      rw [if_neg ht, if_neg ht]
      simpa using hline
  · intro ⟨e, he, het, hea⟩
    cases Option.some.inj he
    exact ⟨d, hd, htable.symm.trans het, haccum.symm.trans hea⟩
  · cases Option.some.inj hd'
    rw [htable]
    exact h.flushed d hd

/-- A pump that waited goes on with what it has. -/
theorem release_same (su : HandoverSetup B) (s : HandState B) : s.release.pump.Same su s.pump := by
  unfold release
  cases s.pump with
  | sending next => exact Pump.same_next su next
  | _ => exact fun _ => ⟨rfl, rfl, rfl⟩

/-- The flush lock is released. -/
theorem InLine.release (h : InLine su s) (hd : s.drain = some d) (hitems : d.items = []) :
    InLine su s.release := by
  have hold : ∀ t, s.draining t = [] := fun t => by
    rw [draining_some hd, hitems, ite_self]
  have hfound : s.release.Found su s.release.pump := by
    have hfound := h.found
    cases hpump : s.pump with
    | sending next =>
      have hnext : s.release.pump = next.pump := by
        unfold HandState.release
        rw [hpump]
      rw [hpump] at hfound
      rw [hnext]
      cases next with
      | gateHold b | take b => exact hfound
      | enqueueHeld t items rest => exact fun _ => ⟨rfl, hfound⟩
      | _ => trivial
    | _ =>
      have hsame : s.release.pump = s.pump := by
        unfold HandState.release
        rw [hpump]
      rw [hsame]
      exact h.found_of rfl rfl (fun _ => id) (fun _ => id) fun _ _ _ _ => rfl
  have hsame := release_same su s
  refine { h with
    line := fun t => ?_
    apart := fun t ht => ?_
    flushed := nofun
    unstaged := fun t ht => (h.unstaged t ht).imp_right (hsame t).2.2.trans
    found := hfound }
  · have hline := h.line t
    unfold waiting at hline ⊢
    rw [hold, ← (hsame t).1, ← (hsame t).2.1] at hline
    exact hline
  · rcases ht with hbuf | ⟨_, he, -⟩
    · exact (h.apart t (.inl hbuf)).imp_right (hsame t).2.1.trans
    · cases he

/-- The window is sealed. -/
theorem InLine.sealLocked (h : InLine su s) (hdrain : s.drain = none) (hbuf : s.buf table = []) :
    InLine su (s.sealLocked table) := by
  refine { h with
    gated := fun t ht => ?_
    opened := fun t p hp => ?_
    flushed := fun _ hd => nomatch hdrain.symm.trans hd
    found := h.found_of rfl rfl (fun _ => id) (fun _ => id) fun _ hdr _ _ => hdr }
  · by_cases heq : t = table
    · rw [heq]
      exact hbuf
    · exact h.gated t ((update_of_ne heq _ _).symm.trans ht)
  · by_cases heq : t = table
    · subst heq
      change update s.window t none t = some p at hp
      rw [update_self] at hp
      cases hp
    · exact h.opened t p ((update_of_ne heq _ _).symm.trans hp)

end HandState

end Urutau
