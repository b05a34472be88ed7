import Urutau.RetentionWatch

/-!
# The source keeps what is still needed

A confirmed position lies before every row that is not durable, as long as no row passes
the reads of a confirmation unseen: the rows on their way when the gate is read, and
those read after it, have to lie past the frontier and past all that is recorded.  A
batch a drain has taken from a window and not yet registered is such a row.
-/

namespace Urutau

open List Option Runs

namespace Retention

open Function (update)

variable {B R P : Type} [Position P] {su : RetentionSetup B R P} {s s' : Retention B R P}

/-! ## The condition -/

/-- **What the reads miss lies past what they find.**  Rows are read past the positions
confirmed and, once the gate is read, past the frontier.  When the gate is read, the rows
on their way lie past the frontier; when the position is taken, those and the rows read
since lie past all that is recorded.  The pump does not wake between the reads of the
gate and of the pause. -/
def Timely (su : RetentionSetup B R P) (s : Retention B R P) : RetentionAction B P → Prop
  | .read b => ∀ r ∈ su.rowsOf b, (∀ p ∈ s.answers, Position.covered (su.posOf r) p = false) ∧
        (s.stage.gateRead = true → ∀ p ∈ s.stage.dispatched,
          Position.covered (su.posOf r) p = false)
  | .hand (.wake _) => (s.stage matches .gated _ _) = false
  | .readGate => ∀ r ∈ s.onTheWay su, r ∉ s.settled → ∀ p ∈ s.stage.dispatched,
      Position.covered (su.posOf r) p = false
  | .confirm _ => ∀ r ∈ s.since, r ∉ s.settled → ∀ w ∈ su.workers, ∀ p ∈ s.byWorker w,
      Position.covered (su.posOf r) p = false
  | _ => True

/-- The condition on a step. -/
def Retains (su : RetentionSetup B R P) (s : Retention B R P) (a : RetentionAction B P) : Prop :=
  Orderly su s a ∧ Timely su s a

instance [DecidableEq R] [DecidableEq P] (su : RetentionSetup B R P) (s : Retention B R P)
    (a : RetentionAction B P) : Decidable (Orderly su s a) := by
  cases a <;> (unfold Orderly; infer_instance)

instance [DecidableEq R] (su : RetentionSetup B R P) (s : Retention B R P)
    (a : RetentionAction B P) : Decidable (Timely su s a) := by
  cases a with
  | hand a =>
    exact decidable_of_iff (a matches .wake _ → (s.stage matches .gated _ _) = false)
      (by cases a <;> simp [Timely])
  | _ => unfold Timely; infer_instance

instance [DecidableEq R] [DecidableEq P] (su : RetentionSetup B R P) (s : Retention B R P)
    (a : RetentionAction B P) : Decidable (Retains su s a) := by
  unfold Retains
  infer_instance

/-! ## The position confirmed -/

variable [Meeter P] {owing order : List String} {f : Option P} {c : P}

variable {vals : List P} {w : String} {ws : List String}

omit [Position P] [Meeter P] in
/-- What is recorded of the workers given. -/
theorem mem_recorded (h : s.recorded ws = some vals)
    (hw : w ∈ ws) : ∃ p ∈ vals, s.byWorker w = some p := by
  unfold recorded at h
  induction ws generalizing vals with
  | nil => cases hw
  | cons o rest ih =>
    rw [mapM_cons] at h
    obtain ⟨p, hp, h⟩ := bind_eq_some_iff.mp h
    obtain ⟨vals', hvals, h⟩ := bind_eq_some_iff.mp h
    cases h
    rcases mem_cons.mp hw with rfl | hw
    · exact ⟨p, mem_cons_self, hp⟩
    · obtain ⟨q, hmem, hq⟩ := ih hvals hw
      exact ⟨q, mem_cons_of_mem p hmem, hq⟩

/-- The position is the frontier when no worker owes, or the least recorded of workers
among which are all that owe. -/
theorem least_eq_some (h : s.least owing f order = some c) : (f = some c ∧ ∀ w ∈ order, w ∉ owing) ∨
      ∃ ws vals, (∀ w ∈ ws, w ∈ order) ∧ ws ≠ [] ∧ (∀ w ∈ order, w ∈ owing → w ∈ ws) ∧
        s.recorded ws = some vals ∧ Position.minSafe vals = .ok (some c) := by
  have hmin : ∀ {vals : List P}, (Position.minSafe vals).toOption.join = some c →
      Position.minSafe vals = .ok (some c) := by
    intro vals h
    cases hvals : Position.minSafe vals with
    | error e =>
      rw [hvals] at h
      cases h
    | ok o =>
      rw [hvals] at h
      exact congrArg _ h
  obtain ⟨hne, h⟩ := ite_none_left_eq_some.mp h
  split at h
  · cases h
  · rename_i hrec
    have hnone : ∀ w ∈ order, w ∉ owing := by
      intro w hw howing
      obtain ⟨p, hp, -⟩ := mem_recorded hrec (mem_filter.mpr ⟨hw, by simpa using howing⟩)
      cases hp
    split at h
    · cases h
      exact .inl ⟨rfl, hnone⟩
    · obtain ⟨vals, hvals, h⟩ := bind_eq_some_iff.mp h
      exact .inr ⟨order, vals, fun _ => id, by simpa using hne, fun _ hw _ => hw, hvals, hmin h⟩
  · rename_i v vals hrec
    refine .inr ⟨order.filter (· ∈ owing), v :: vals, fun w hw => (mem_filter.mp hw).1, ?_,
      fun w hw howing => mem_filter.mpr ⟨hw, by simpa using howing⟩, hrec, hmin h⟩
    intro hnil
    rw [hnil] at hrec
    cases hrec

/-- The position lies before a row when one of the workers' does. -/
theorem not_covered_of_recorded [LawfulPosition P] [LawfulMeeter P]
    (hrec : s.recorded ws = some vals)
    (hmin : Position.minSafe vals = .ok (some c)) (hw : w ∈ ws) {x : P}
    (hbefore : ∀ p, s.byWorker w = some p → Position.covered x p = false) :
    Position.covered x c = false := by
  obtain ⟨p, hp, hbyWorker⟩ := mem_recorded hrec hw
  rw [← Bool.not_eq_true]
  intro hcov
  have hcovered := (Position.covered_minSafe hmin x).mp hcov p hp
  rw [hbefore p hbyWorker] at hcovered
  cases hcovered

/-! ## The invariant -/

/-- **The invariant of a run.** -/
structure Confirmable (su : RetentionSetup B R P) (s : Retention B R P) : Prop where
  traced : Traced su s
  tables : ∀ r ∈ s.read, su.tableOf r ∈ su.tables
  watched : ∀ r ∈ s.read, r ∉ s.settled → r ∉ s.since → Watched su s s.stage r
  fresh : s.stage.gateRead = true → ∀ r ∈ s.since, r ∉ s.settled → ∀ p ∈ s.stage.dispatched,
    Position.covered (su.posOf r) p = false
  answered : ∀ c ∈ s.answers, ∀ r ∈ s.read, r ∉ s.settled → Position.covered (su.posOf r) c = false

section Steps

variable (h : Confirmable su s)

include h

/-- A position taken after all reads lies before every row that is not durable. -/
theorem Confirmable.confirm [LawfulPosition P] [LawfulMeeter P]
    (hstage : s.stage = .reading f owing []) (horder : order.Perm su.workers)
    (hok : Timely su s (.confirm order))
    (hc : s.least owing f order = some c) {r : R} (hread : r ∈ s.read) (hr : r ∉ s.settled) :
    Position.covered (su.posOf r) c = false := by
  by_cases hsince : r ∈ s.since
  · rcases least_eq_some hc with ⟨hf, -⟩ | ⟨ws, vals, hsub, hne, -, hrec, hmin⟩
    · have hfresh := h.fresh (by rw [hstage]; rfl) r hsince hr
      rw [hstage] at hfresh
      exact hfresh c hf
    · obtain ⟨w, hw⟩ := exists_mem_of_ne_nil ws hne
      exact not_covered_of_recorded hrec hmin hw (hok r hsince hr w (horder.mem_iff.mp (hsub w hw)))
  · have hwatched := h.watched r hread hr hsince
    rw [hstage] at hwatched
    obtain ⟨w, howing, hanchors⟩ := hwatched.anchored h.traced.awaited
    have hw : w ∈ order := horder.mem_iff.mpr (mem_flatMap.mpr ⟨_, h.tables r hread, hanchors.1⟩)
    rcases least_eq_some hc with ⟨-, hnone⟩ | ⟨ws, vals, -, -, hall, hrec, hmin⟩
    · exact absurd howing (hnone w hw)
    · refine not_covered_of_recorded hrec hmin (hall w hw howing) fun p hp => ?_
      exact h.traced.ranked.recorded w p (.inr hp) r (hanchors.standsFor h.traced.placed hread hr)

omit [Meeter P] in
/-- A step of the pipeline that reads nothing. -/
theorem Confirmable.keep (ht : Traced su s') (hread : s'.read = s.read)
    (hsettled : ∀ r ∈ s.settled, r ∈ s'.settled) (hsince : s'.since = s.since)
    (hstage : s'.stage = s.stage) (hanswers : s'.answers = s.answers)
    (hreg : ∀ todo r, r ∉ s'.settled → Registered su s todo r → Registered su s' todo r)
    (hheld : ∀ f owing, s.stage = .gated f owing → ∀ r, HeldBack su s r → HeldBack su s' r) :
    Confirmable su s' where
  traced := ht
  tables := by
    rw [hread]
    exact h.tables
  watched r hmem hr hnew := by
    have hwatched := h.watched r (hread ▸ hmem) (fun hr' => hr (hsettled r hr')) (hsince ▸ hnew)
    rw [hstage]
    cases hst : s.stage with
    | gated f owing =>
      rw [hst] at hwatched
      exact hwatched.imp_right (Or.imp (hheld f owing hst r) (hreg _ r hr))
    | reading f owing todo =>
      rw [hst] at hwatched
      exact hwatched.imp_right (hreg todo r hr)
    | _ => trivial
  fresh := by
    rw [hstage, hsince]
    exact fun hgate r hmem hr => h.fresh hgate r hmem fun hr' => hr (hsettled r hr')
  answered := by
    rw [hanswers, hread]
    exact fun c hc r hmem hr => h.answered c hc r hmem fun hr' => hr (hsettled r hr')

omit [Meeter P] in
/-- Rows are read. -/
theorem Confirmable.readBatch {b : B} (ht : Traced su (s.readBatch su b))
    (hb : su.table b ∈ su.tables) (hok : Timely su s (.read b)) :
    Confirmable su (s.readBatch su b) where
  traced := ht
  tables r hr := by
    rcases mem_append.mp hr with hr | hr
    · exact h.tables r hr
    · exact su.tableOf_rows b r hr ▸ hb
  watched r hread hr hsince := by
    have hold : r ∉ s.since := fun hmem => hsince (mem_append_left _ hmem)
    have hnew : r ∉ su.rowsOf b := fun hmem => hsince (mem_append_right _ hmem)
    exact h.watched r ((mem_append.mp hread).resolve_right hnew) hr hold
  fresh hgate r hmem hr := by
    rcases mem_append.mp hmem with hmem | hmem
    · exact h.fresh hgate r hmem hr
    · exact (hok r hmem).2 hgate
  answered c hc r hread hr := by
    rcases mem_append.mp hread with hread | hread
    · exact h.answered c hc r hread hr
    · exact (hok r hread).1 c hc

variable {a : RetentionAction B P}

/-- A read of a confirmation. -/
theorem Confirmable.confirmStep [LawfulPosition P] [LawfulMeeter P] (ht : Traced su s')
    (hok : Timely su s a) (hs : s.confirmStep su a = some s') : Confirmable su s' := by
  cases a with
  | readFrontier order =>
    obtain ⟨-, hs⟩ := ite_none_right_eq_some.mp hs
    obtain ⟨-, hs⟩ := ite_none_right_eq_some.mp hs
    cases hs
    exact ⟨ht, h.tables, fun _ _ _ _ => trivial, fun hg => (by cases hg), h.answered⟩
  | readLoads queued =>
    simp only [Retention.confirmStep] at hs
    split at hs
    · cases hs
      exact ⟨ht, h.tables, fun _ _ _ _ => trivial, fun hg => (by cases hg), h.answered⟩
    · cases hs
  | readGate =>
    simp only [Retention.confirmStep] at hs
    split at hs
    · rename_i f owing hstage
      cases hs
      refine ⟨ht, h.tables, fun r hread hr hway => ?_, fun _ r hmem hr => ?_, h.answered⟩
      · exact watched_gate h.traced (h.tables r hread) hread hr hway f owing
      · have hpast := hok r hmem hr
        rw [hstage] at hpast
        exact hpast
    · cases hs
  | readPause =>
    simp only [Retention.confirmStep] at hs
    split at hs
    · rename_i f owing hstage
      cases hs
      refine ⟨ht, h.tables, fun r hread hr hsince => ?_, fun _ => ?_, h.answered⟩
      · have hwatched := h.watched r hread hr hsince
        rw [hstage] at hwatched
        exact hwatched.pause (h.tables r hread)
      · have hfresh := h.fresh (by rw [hstage]; rfl)
        rw [hstage] at hfresh
        exact hfresh
    · cases hs
  | readIndex w =>
    simp only [Retention.confirmStep] at hs
    split at hs
    · rename_i f owing todo hstage
      obtain ⟨-, hs⟩ := ite_none_right_eq_some.mp hs
      cases hs
      refine ⟨ht, h.tables, fun r hread hr hsince => ?_, fun _ => ?_, h.answered⟩
      · have hwatched := h.watched r hread hr hsince
        rw [hstage] at hwatched
        exact hwatched.index h.traced (h.tables r hread)
      · have hfresh := h.fresh (by rw [hstage]; rfl)
        rw [hstage] at hfresh
        exact hfresh
    · cases hs
  | confirm order =>
    simp only [Retention.confirmStep] at hs
    split at hs
    · rename_i f owing hstage
      obtain ⟨horder, hs⟩ := ite_none_right_eq_some.mp hs
      cases hs
      refine ⟨ht, h.tables, fun _ _ _ _ => trivial, fun hg => (by cases hg),
        fun c hc r hread hr => ?_⟩
      rcases mem_append.mp hc with hc | hc
      · exact h.answered c hc r hread hr
      · exact h.confirm hstage horder hok (mem_toList.mp hc) hread hr
    · cases hs
  | _ => cases hs

omit [Meeter P] in
/-- A step that leaves the shares, the cycles and the pause as they are. -/
theorem Confirmable.same (ht : Traced su s') (hread : s'.read = s.read)
    (hsettled : s'.settled = s.settled) (hsince : s'.since = s.since) (hstage : s'.stage = s.stage)
    (hanswers : s'.answers = s.answers) (hqueued : s'.queued = s.queued)
    (hcycles : s'.cycles = s.cycles) (hhand : s'.hand = s.hand) : Confirmable su s' := by
  refine h.keep ht hread (fun r hr => hsettled ▸ hr) hsince hstage hanswers
    (fun todo r _ hreg => ?_) (fun f owing _ r hheld => ?_)
  · refine hreg.grow (fun w sh hsh => ?_) (fun t => ⟨[], ?_⟩)
    · rw [hqueued]
      exact hsh
    · rw [hcycles, append_nil]
  · unfold HeldBack
    rw [hhand]
    exact hheld

omit [Meeter P] in
theorem Confirmable.sendNext {who : Caller} (ht : Traced su s')
    (hs : s.sendNext who = some s') : Confirmable su s' := by
  obtain ⟨c, hc, ⟨cy, hop, rfl⟩ | ⟨pos, hop, hno, rfl⟩ | ⟨o, sh, rest, hop, hno, hsh, rfl⟩⟩ :=
    sendNext_eq_some hs
  · refine h.keep ht rfl (fun _ => id) rfl rfl rfl (fun todo r _ hreg => ?_) (fun _ _ _ _ => id)
    refine hreg.grow (fun _ _ hsh => hsh) (fun t => ?_)
    change ∃ post, update s.cycles c.table (s.cycles c.table ++ [cy]) t = _
    by_cases ht : t = c.table
    · subst ht
      exact ⟨[cy], Function.update_self ..⟩
    · exact ⟨[], by rw [Function.update_of_ne ht, append_nil]⟩
  · cases pos with
    | none | some p => exact h.same ht rfl rfl rfl rfl rfl rfl rfl rfl
  · refine h.keep ht rfl (fun _ => id) rfl rfl rfl (fun todo r _ hreg => ?_) (fun _ _ _ _ => id)
    exact hreg.grow (fun w x hx => mem_queued_registered.mpr (.inl hx))
      (fun t => ⟨[], (append_nil _).symm⟩)

omit [Meeter P] in
theorem Confirmable.deliver {w : String} (ht : Traced su s')
    (hs : s.deliver su w = some s') : Confirmable su s' := by
  obtain ⟨sh, rest, hq, ⟨hst, rfl⟩ | ⟨hst, rfl⟩⟩ := deliver_eq_some hs
  · exact h.keep ht rfl (fun r => mem_append_left _) rfl rfl rfl
      (fun todo r hr hreg => hreg.stagedCommit h.traced.placed hq hst hr) (fun _ _ _ _ => id)
  · exact h.keep ht rfl (fun r => mem_append_left _) rfl rfl rfl
      (fun todo r hr hreg => hreg.committed h.traced.placed hq hst hr) (fun _ _ _ _ => id)

theorem Confirmable.step [LawfulPosition P] [LawfulMeeter P] (hok : Retains su s a)
    (hs : Retention.step su s a = some s') :
    Confirmable su s' := by
  have ht := h.traced.step hs hok.1
  cases a with
  | read b =>
    obtain ⟨hb, hs⟩ := ite_none_right_eq_some.mp hs
    cases hs
    exact h.readBatch ht hb hok.2
  | pull =>
    simp only [Retention.step] at hs
    split at hs
    · cases hs
    · obtain ⟨h', hstep, rfl⟩ := map_eq_some_iff.mp hs
      refine h.keep ht rfl (fun _ => id) rfl rfl rfl (fun _ _ _ => id) (fun _ _ _ r hheld => ?_)
      obtain ⟨b', hb', hr⟩ := hheld
      exact ⟨b', HandState.mem_held_step hstep (fun order => by simp) hb', hr⟩
  | hand a =>
    obtain ⟨h', ⟨-, -, hstep⟩, rfl⟩ := hand_eq_some hs
    refine h.keep ht rfl (fun _ => id) rfl rfl rfl (fun _ _ _ => id)
      (fun f owing hstage r hheld => ?_)
    obtain ⟨b', hb', hr⟩ := hheld
    refine ⟨b', HandState.mem_held_step hstep (fun order heq => ?_) hb', hr⟩
    subst heq
    have hwake : (s.stage matches .gated _ _) = false := hok.2
    rw [hstage] at hwake
    cases hwake
  | sendNext who => exact h.sendNext ht hs
  | deliver w => exact h.deliver ht hs
  | reportAck w | record w =>
    simp only [Retention.step] at hs
    split at hs
    · cases hs
    · cases hs
      exact h.same ht rfl rfl rfl rfl rfl rfl rfl rfl
  | onAck w =>
    simp only [Retention.step, Retention.onAck] at hs
    split at hs
    · cases hs
    · cases hs
      exact h.same ht rfl rfl rfl rfl rfl rfl rfl rfl
  | marker w pos =>
    obtain ⟨-, hs⟩ := ite_none_left_eq_some.mp hs
    cases hs
    exact h.same ht rfl rfl rfl rfl rfl rfl rfl rfl
  | noteMarker =>
    obtain ⟨x, -, rfl⟩ := map_eq_some_iff.mp hs
    exact h.same ht rfl rfl rfl rfl rfl rfl rfl rfl
  | markerAck w id =>
    cases hs
    exact h.same ht rfl rfl rfl rfl rfl rfl rfl rfl
  | _ => exact h.confirmStep ht hok.2 hs

end Steps

end Retention

end Urutau
