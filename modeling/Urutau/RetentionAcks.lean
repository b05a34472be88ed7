import Urutau.RetentionDeliveries

/-!
# Acks, records and the whole invariant

An ack takes out of a worker's index what its position covers; a share not delivered lies
past all of them, so its entry stays.  What an ack records on a table that is not staged
lies before what is ahead of the worker.
-/

namespace Urutau

open List Option

theorem mem_dropWhile_of_not {α : Type} {f : α → Bool} {l : List α} {x : α} (hx : x ∈ l)
    (hf : f x = false) : x ∈ l.dropWhile f := by
  rw [← takeWhile_append_dropWhile (p := f) (l := l), mem_append] at hx
  refine hx.resolve_left fun htake => ?_
  rw [mem_takeWhile_imp htake] at hf
  cases hf

namespace PositionIndex

variable {P : Type} [Position P] {idx : PositionIndex P} {t : String} {p : P}

/-- What a table has acked after an ack. -/
theorem acked_truncate {q : P} (h : (idx.truncate t p).2.acked t = some q) :
    q = p ∨ idx.acked t = some q := by
  unfold truncate popCovered at h
  cases hc : idx.acked t with
  | none =>
    simp only [hc, if_true, some.injEq] at h
    exact .inl h.symm
  | some cur =>
    simp only [hc] at h
    split at h
    · simp only [if_true, some.injEq] at h
      exact .inl h.symm
    · exact .inr (hc.symm.trans h)

variable {e : InFlightBatch P}

variable {high : P}

/-- An entry beyond all that is acked is not released. -/
theorem releasable_eq_false {acked : String → Option P} (hhigh : e.high = some high)
    (hbeyond : ∀ q, acked e.table = some q → Position.covered high q = false) :
    releasable acked e = false := by
  by_contra hne
  obtain ⟨cur, hcur, hcov⟩ := releasable_spec (Bool.eq_true_of_not_eq_false hne) hhigh
  rw [hbeyond cur hcur] at hcov
  cases hcov

/-- An ack keeps what lies beyond it. -/
theorem mem_truncate (he : e ∈ idx.head) (htable : e.table = t) (hhigh : e.high = some high)
    (hbeyond : ∀ q, q = p ∨ idx.acked t = some q → Position.covered high q = false) :
    e ∈ (idx.truncate t p).2.head := by
  have hhead : (idx.truncate t p).2.head =
      idx.head.dropWhile (releasable (idx.truncate t p).2.acked) := by
    unfold truncate popCovered
    cases idx.acked t with
    | none => rfl
    | some cur =>
      dsimp only
      split <;> rfl
  rw [hhead]
  refine mem_dropWhile_of_not he (releasable_eq_false hhigh fun q hq => hbeyond q ?_)
  rw [htable] at hq
  exact acked_truncate hq

/-- A marker's ack keeps what no ack covers. -/
theorem mem_releaseMarker (he : e ∈ idx.head) (hmarker : e.marker = false)
    (hhigh : e.high = some high) (id : Nat)
    (hbeyond : ∀ q, idx.acked e.table = some q → Position.covered high q = false) :
    e ∈ (idx.releaseMarker id).2.head := by
  refine mem_dropWhile_of_not ?_ (releasable_eq_false hhigh hbeyond)
  exact (mem_eraseP_of_neg (by simp [hmarker])).mpr he

end PositionIndex

namespace Retention

open Updates

open Function (update update_self update_of_ne)

variable {B R P : Type} [Position P] {su : RetentionSetup B R P} {s : Retention B R P} {w : String}

/-- **The invariant of the pipeline.** -/
structure Traced (su : RetentionSetup B R P) (s : Retention B R P) : Prop where
  placed : Placed su s
  awaited : Awaited su s
  ranked : Ranked su s
  indexed : Indexed su s

/-- Positions that are passed on, with the rows where they were. -/
theorem Ranked.passedOn (h : Ranked su s) {index : String → PositionIndex P}
    {reporting byWorker : String → Option P} {acks records : String → List P} {seq : Nat}
    {sent : String → Option P} {marking : Option (String × P)} (hreported : ∀ w p, Reported su
      { s with index, reporting, byWorker, acks, records, seq, sent, marking } w p →
        Reported su s w p)
    (hrecorded : ∀ w p, Recorded
      { s with index, reporting, byWorker, acks, records, seq, sent, marking } w p →
        Recorded s w p ∨ su.staged (su.serves w) = false ∧ Reported su s w p) :
    Ranked su { s with index, reporting, byWorker, acks, records, seq, sent, marking } where
  queued := h.queued
  unsent := h.unsent
  cycles := h.cycles
  uncycled := h.uncycled
  reported w p hp := h.reported w p (hreported w p hp)
  recorded w p hp r hr := by
    rcases hrecorded w p hp with hp | ⟨hst, hp⟩
    · exact h.recorded w p hp r hr
    · rw [StandsFor, hst] at hr
      exact h.reported w p hp r hr
  known w p hp := by
    rcases hp with hp | hp
    · exact h.known w p (.inl (hreported w p hp))
    · exact h.known w p ((hrecorded w p hp).symm.imp_left And.right)

section Steps

variable (h : Traced su s)

include h

variable {p : P} {idx : PositionIndex P} {rest : List (RowShare R P)} {a : RetentionAction B P}

/-- A commit's position becomes an ack. -/
theorem Traced.reportAck (hp : s.reporting w = some p) : Traced su { s with
      reporting := update s.reporting w none
      acks := update s.acks w (s.acks w ++ [p]) } where
  placed := { h.placed with }
  awaited := { h.awaited with }
  ranked := by
    refine h.ranked.passedOn (fun o q hq => ?_) (fun o q hq => .inl hq)
    rcases hq with hq | hq | hq
    · rcases mem_update_append.mp hq with hq | ⟨rfl, rfl⟩
      · exact .inl hq
      · exact .inr (.inl hp)
    · exact .inr (.inl ((update_eq_some hq).resolve_left fun hnone => nomatch hnone.2))
    · exact .inr (.inr hq)
  indexed := h.indexed

/-- A recorded position was reported. -/
theorem Traced.record {rest : List P} (hp : s.records w = p :: rest) : Traced su { s with
      records := update s.records w rest
      byWorker := update s.byWorker w (some p) } where
  placed := { h.placed with }
  awaited := { h.awaited with }
  ranked := by
    refine h.ranked.passedOn (fun o q hq => hq) (fun o q hq => .inl ?_)
    rcases hq with hq | hq
    · exact .inl ((update_tail_sublist hp o).mem hq)
    · rcases update_eq_some hq with ⟨rfl, heq⟩ | hq
      · cases heq
        exact .inl (hp ▸ mem_cons_self)
      · exact .inr hq
  indexed := h.indexed

variable {sh : RowShare R P}

/-- A share that is not delivered has a position past all that is reported. -/
theorem Traced.high_beyond (hsh : sh ∈ s.queued w) (hne : sh.rows ≠ []) :
    ∃ high, sh.high = some high ∧ ∀ q, Reported su s w q → Position.covered high q = false := by
  obtain ⟨high, hhigh⟩ : ∃ p, su.high sh.rows = some p := high_isSome hne
  obtain ⟨r, hr, hpos⟩ := high_eq_some hhigh
  refine ⟨high, (h.placed.queued w sh hsh).high.trans hhigh, fun q hq => ?_⟩
  rw [← hpos]
  exact h.ranked.reported w q hq r (.inl ⟨sh, hsh, hr⟩)

/-- Entries of shares that are not delivered stay, whatever happens to one index. -/
theorem Traced.indexed_update
    (hidx : ∀ e ∈ (s.index w).head, e.marker = false → e.table = su.serves w →
      ∀ high, e.high = some high →
        (∀ q, Reported su s w q → Position.covered high q = false) → e ∈ idx.head) :
    ∀ o, ∀ sh ∈ s.queued o, sh.rows ≠ [] → ∃ e ∈ (update s.index w idx o).head,
      e.marker = false ∧ e.table = su.serves o ∧ e.high = sh.high := by
  intro o sh hsh hne
  obtain ⟨e, he, hmarker, htable, heq⟩ := h.indexed o sh hsh hne
  by_cases ho : o = w
  · subst ho
    obtain ⟨high, hhigh, hbeyond⟩ := h.high_beyond hsh hne
    rw [update_self]
    exact ⟨e, hidx e he hmarker htable high (heq.trans hhigh) hbeyond, hmarker, htable, heq⟩
  · rw [update_of_ne ho]
    exact ⟨e, he, hmarker, htable, heq⟩

variable {s' : Retention B R P}

/-- An ack pops what it covers. -/
theorem Traced.onAck (hs : s.onAck su w = some s') : Traced su s' := by
  unfold Retention.onAck at hs
  cases hacks : s.acks w with
  | nil => simp [hacks] at hs
  | cons p rest =>
    simp only [hacks, some.injEq] at hs
    subst hs
    have hp : Reported su s w p := .inl (by rw [hacks]; exact mem_cons_self)
    refine ⟨{ h.placed with }, { h.awaited with }, ?_, ?_⟩
    · refine h.ranked.passedOn (fun o q hq => ?_) (fun o q hq => ?_)
      · rcases hq with hq | hq | hq
        · exact .inl ((update_tail_sublist hacks o).mem hq)
        · exact .inr (.inl hq)
        change (update s.index w _ o).acked (su.serves o) = some q at hq
        by_cases ho : o = w
        · subst ho
          rw [update_self] at hq
          rcases PositionIndex.acked_truncate hq with rfl | hq
          · exact hp
          · exact .inr (.inr hq)
        · rw [update_of_ne ho] at hq
          exact .inr (.inr hq)
      · rcases hq with hq | hq
        · split at hq
          · exact .inl (.inl hq)
          · rename_i hst
            rcases mem_update_append.mp hq with hq | ⟨rfl, rfl⟩
            · exact .inl (.inl hq)
            · exact .inr ⟨Bool.eq_false_iff.mpr hst, hp⟩
        · exact .inl (.inr hq)
    · refine h.indexed_update fun e he _ htable high hhigh hbeyond => ?_
      refine PositionIndex.mem_truncate he htable hhigh fun q hq => hbeyond q ?_
      rcases hq with rfl | hq
      · exact hp
      · exact .inr (.inr hq)

omit [Position P] h in
/-- An index that keeps what was acked. -/
theorem acked_of_update (hacked : idx.acked = (s.index w).acked)
    {o table : String} {q : P} (hq : (update s.index w idx o).acked table = some q) :
    (s.index o).acked table = some q := by
  by_cases ho : o = w
  · subst ho
    rw [update_self, hacked] at hq
    exact hq
  · rwa [update_of_ne ho] at hq

/-- A marker's ack pops no share. -/
theorem Traced.markerAck (id : Nat) :
    Traced su { s with index := update s.index w ((s.index w).releaseMarker id).2 } where
  placed := { h.placed with }
  awaited := { h.awaited with }
  ranked := by
    refine h.ranked.passedOn (fun o q hq => ?_) (fun o q hq => .inl hq)
    refine hq.imp_right (Or.imp_right fun hq => ?_)
    exact acked_of_update (by rfl) hq
  indexed := h.indexed_update fun e he hmarker htable high hhigh hbeyond =>
    PositionIndex.mem_releaseMarker he hmarker hhigh id fun q hq =>
      hbeyond q (.inr (.inr (htable ▸ hq)))

/-- A marker is no row's share. -/
theorem Traced.marker (e : InFlightBatch P) (marking : Option (String × P)) : Traced su { s with
      seq := s.seq + 1
      index := update s.index w ((s.index w).add e)
      marking } where
  placed := { h.placed with }
  awaited := { h.awaited with
    numbered := fun o sh hsh => Nat.le_succ_of_le (h.awaited.numbered o sh hsh) }
  ranked := by
    refine h.ranked.passedOn (fun o q hq => ?_) (fun o q hq => .inl hq)
    refine hq.imp_right (Or.imp_right fun hq => ?_)
    exact acked_of_update (by rfl) hq
  indexed := h.indexed_update fun _ he _ _ _ _ _ => mem_append_left _ he

theorem Traced.sentAt (sent : String → Option P) (marking : Option (String × P)) :
    Traced su { s with sent, marking } :=
  ⟨{ h.placed with }, { h.awaited with }, { h.ranked with }, h.indexed⟩

/-! ## Sends and deliveries -/

theorem Traced.note (table : String) (pos : Option P) : Traced su (s.note table pos) := by
  cases pos with
  | none => exact h
  | some p => exact h.sentAt _ _

/-- What is sent is in its owner's index. -/
theorem Traced.sendNext {who : Caller} (hs : s.sendNext who = some s')
    (hok : Orderly su s (.sendNext who)) : Traced su s' := by
  obtain ⟨c, hc, ⟨cy, hop, rfl⟩ | ⟨pos, hop, hno, rfl⟩ | ⟨o, sh, rest, hop, hno, hsh, rfl⟩⟩ :=
    sendNext_eq_some hs
  · exact ⟨h.placed.opened hc hop, h.awaited.opened hc h.placed hop,
      h.ranked.opened hc h.placed hop hok, h.indexed⟩
  · have hnoted : Traced su (s.noted who c) :=
      ⟨h.placed.noted hc, h.awaited.noted hc, h.ranked.noted hc, h.indexed⟩
    exact hnoted.note c.table pos
  · exact ⟨h.placed.registered hc hsh hop, h.awaited.registered hc hsh h.placed hop,
      h.ranked.registered hc hsh h.placed hop hno hok, h.indexed.registered hc hsh h.placed⟩

/-- A commit reports the share's own position. -/
theorem Traced.committed (hq : s.queued w = sh :: rest) (hst : su.staged (su.serves w) = false) :
    Traced su (s.committed w sh rest) :=
  ⟨h.placed.committed hq, h.awaited.committed h.placed hq hst, { h.ranked.popped h.placed hq with },
    fun o x hx => h.indexed o x (mem_queued_popped hq hx)⟩

/-- A staged commit reports its cycle's position. -/
theorem Traced.stagedCommit (hq : s.queued w = sh :: rest) (hst : su.staged (su.serves w) = true) :
    Traced su (s.stagedCommit su w sh rest) :=
  ⟨h.placed.stagedCommit hq hst, h.awaited.stagedCommit h.placed hq,
    h.ranked.stagedCommit h.placed h.awaited hq hst,
    fun o x hx => h.indexed o x (mem_queued_popped hq hx)⟩

/-- A delivery commits, or counts for its cycle. -/
theorem Traced.deliver (hs : s.deliver su w = some s') : Traced su s' := by
  obtain ⟨sh, rest, hq, ⟨hst, rfl⟩ | ⟨hst, rfl⟩⟩ := deliver_eq_some hs
  · exact h.stagedCommit hq hst
  · exact h.committed hq hst

/-! ## A step -/

omit h in
/-- The reads of a confirmation change nothing but its own. -/
theorem confirmStep_eq_some [Meeter P] (hs : s.confirmStep su a = some s') :
    ∃ stage answers since, s' = { s with stage, answers, since } := by
  cases a with
  | readFrontier order =>
    obtain ⟨-, hs⟩ := ite_none_right_eq_some.mp hs
    obtain ⟨-, hs⟩ := ite_none_right_eq_some.mp hs
    exact ⟨_, _, _, (some.inj hs).symm⟩
  | readLoads queued | readGate | readPause =>
    simp only [confirmStep] at hs
    split at hs
    · exact ⟨_, _, _, (some.inj hs).symm⟩
    · cases hs
  | readIndex w | confirm order =>
    simp only [confirmStep] at hs
    split at hs
    · obtain ⟨-, hs⟩ := ite_none_right_eq_some.mp hs
      exact ⟨_, _, _, (some.inj hs).symm⟩
    · cases hs
  | _ => cases hs

omit h in
/-- A hand-over, as a step of the run. -/
theorem hand_eq_some [Meeter P] {a : HandAction B} (hs : Retention.step su s (.hand a) = some s') :
    ∃ h', Hands su s a h' ∧ s' = s.handed su a h' := by
  cases a with
  | pull b => cases hs
  | publish t staged => cases hs
  | _ =>
    obtain ⟨h', hstep, heq, hfree⟩ := handStep_eq_some hs
    exact ⟨h', ⟨nofun, hfree, hstep⟩, heq⟩

theorem Traced.step [Meeter P]
    (hs : Retention.step su s a = some s') (hok : Orderly su s a) : Traced su s' := by
  have hconfirm : s.confirmStep su a = some s' → Traced su s' := by
    intro hs
    obtain ⟨stage, answers, since, rfl⟩ := confirmStep_eq_some hs
    exact ⟨{ h.placed with }, { h.awaited with }, { h.ranked with }, h.indexed⟩
  cases a with
  | read b =>
    obtain ⟨hb, hs⟩ := ite_none_right_eq_some.mp hs
    cases hs
    exact ⟨h.placed.readBatch hb, { h.awaited with }, h.ranked.readBatch h.placed hb hok, h.indexed⟩
  | pull =>
    simp only [Retention.step] at hs
    split at hs
    · cases hs
    · rename_i b rest hout
      obtain ⟨h', hstep, rfl⟩ := map_eq_some_iff.mp hs
      exact ⟨h.placed.pull hout hstep, { h.awaited with }, h.ranked.pull h.placed hout hstep,
        h.indexed⟩
  | hand a =>
    obtain ⟨h', hstep, rfl⟩ := hand_eq_some hs
    exact ⟨h.placed.handed hstep, h.awaited.handed hstep h.placed,
      h.ranked.handed hstep h.placed, h.indexed⟩
  | sendNext who => exact h.sendNext hs hok
  | deliver w => exact h.deliver hs
  | reportAck w =>
    simp only [Retention.step] at hs
    split at hs
    · cases hs
    · rename_i p hp
      cases hs
      exact h.reportAck hp
  | onAck w => exact h.onAck hs
  | record w =>
    simp only [Retention.step] at hs
    split at hs
    · cases hs
    · rename_i p rest hp
      cases hs
      exact h.record hp
  | marker w pos =>
    obtain ⟨-, hs⟩ := ite_none_left_eq_some.mp hs
    cases hs
    exact h.marker _ _
  | noteMarker =>
    obtain ⟨x, -, rfl⟩ := map_eq_some_iff.mp hs
    exact h.sentAt _ _
  | markerAck w id =>
    cases hs
    exact h.markerAck id
  | readFrontier order | readLoads queued | readGate | readPause | readIndex w | confirm order =>
    exact hconfirm hs

end Steps

end Retention

end Urutau
