import Urutau.RetentionShares

/-!
# Deliveries

A worker delivers its shares in the order they were registered.  On a table it commits by
itself the share is durable then.  On a staged table the delivery is counted in the cycle
of the share, and the complete cycles at the front become durable; what follows lies past
their positions.
-/

namespace Urutau

open List Option

namespace Retention

open Updates

open Function (update update_self update_of_ne)

variable {B R P : Type} {su : RetentionSetup B R P} {s : Retention B R P} {w : String}
  {sh : RowShare R P} {rest : List (RowShare R P)}

/-! ## The share leaves the queue -/

/-- The worker has taken its next share. -/
def popped (s : Retention B R P) (w : String) (sh : RowShare R P) (rest : List (RowShare R P)) :
    Retention B R P :=
  { s with
    queued := update s.queued w rest
    reporting := update s.reporting w sh.high }

variable {o : String} {x : RowShare R P}

section

variable (hq : s.queued w = sh :: rest)
include hq

theorem mem_queued_popped (hx : x ∈ (s.popped w sh rest).queued o) : x ∈ s.queued o :=
  (update_tail_sublist hq o).mem hx

/-- A share queued stays so, or is the one delivered. -/
theorem mem_queued_or (hx : x ∈ s.queued o) : x ∈ (s.popped w sh rest).queued o ∨ o = w ∧ x = sh :=
  mem_update_tail_or hq hx

/-- The delivered share was the first pending. -/
theorem pending_popped : s.pending w = sh :: (s.popped w sh rest).pending w := by
  unfold pending
  rw [hq]
  change sh :: rest ++ _ = sh :: (update s.queued w rest w ++ _)
  rw [update_self]
  rfl

end

/-- The other workers' shares stay pending. -/
theorem pending_popped_of_ne (ho : o ≠ w) : (s.popped w sh rest).pending o = s.pending o := by
  change update s.queued w rest o ++ _ = _
  rw [update_of_ne ho]
  rfl

theorem pending_popped_sublist (hq : s.queued w = sh :: rest) (o : String) :
    List.Sublist ((s.popped w sh rest).pending o) (s.pending o) :=
  (update_tail_sublist hq o).append_right _

section

variable (hw : Awaited su s) (hq : s.queued w = sh :: rest)
include hw hq

/-- No other share of the worker's has the number of the one taken. -/
theorem Awaited.id_ne (hx : x ∈ (s.popped w sh rest).pending w) : x.id ≠ sh.id := by
  have hnodup := hw.distinct w
  rw [pending_popped hq] at hnodup
  intro heq
  exact (nodup_cons.mp hnodup).1 (mem_map.mpr ⟨x, hx, heq⟩)

/-- The shares still pending have distinct numbers. -/
theorem Awaited.distinct_popped (o : String) :
    (((s.popped w sh rest).pending o).map RowShare.id).Nodup :=
  (hw.distinct o).sublist ((pending_popped_sublist hq o).map RowShare.id)

end

/-- What is ahead was ahead before. -/
theorem ahead_popped (hq : s.queued w = sh :: rest) {r : R}
    (hr : Ahead su (s.popped w sh rest) o r) : Ahead su s o r :=
  hr.imp_left fun ⟨x, hx, hr⟩ => ⟨x, mem_queued_popped hq hx, hr⟩

/-- What was ahead still is, or is delivered. -/
theorem ahead_or (hq : s.queued w = sh :: rest) {r : R} (hr : Ahead su s o r) :
    Ahead su (s.popped w sh rest) o r ∨ o = w ∧ r ∈ sh.rows := by
  rcases hr with ⟨x, hx, hr⟩ | hr
  · rcases mem_queued_or hq hx with hx | ⟨rfl, rfl⟩
    · exact .inl (.inl ⟨x, hx, hr⟩)
    · exact .inr ⟨rfl, hr⟩
  · exact .inl (.inr hr)

section Ranked

variable [Position P]

/-- What the worker reports of the share lies before all that is still ahead of it. -/
theorem Ranked.before_ahead (h : Placed su s) (hr : Ranked su s) (hq : s.queued w = sh :: rest)
    {p : P} (hp : sh.high = some p) {r : R} (hahead : Ahead su (s.popped w sh rest) w r) :
    Position.covered (su.posOf r) p = false := by
  have hsh : sh ∈ s.queued w := by rw [hq]; exact mem_cons_self
  obtain ⟨x, hx, rfl⟩ := high_eq_some ((h.queued w sh hsh).high.symm.trans hp)
  rcases hahead with ⟨y, hy, hmem⟩ | ⟨hmem, hown⟩
  · change y ∈ update s.queued w rest w at hy
    rw [update_self] at hy
    have hpair := hr.queued w
    rw [hq] at hpair
    exact (pairwise_cons.mp hpair).1 y hy x hx r hmem
  · exact hr.unsent w sh hsh r hmem hown x hx r mem_cons_self

omit [Position P] in
/-- A share taken off the queue is reported at its own position. -/
theorem reported_popped {o : String} {p : P} (hp : Reported su (s.popped w sh rest) o p) :
    Reported su s o p ∨ o = w ∧ sh.high = some p := by
  rcases hp with hp | hp | hp
  · exact .inl (.inl hp)
  · exact (update_eq_some hp).symm.imp_left fun hp => .inr (.inl hp)
  · exact .inl (.inr (.inr hp))

/-- A delivery from the front keeps the order. -/
theorem Ranked.popped (h : Placed su s) (hr : Ranked su s) (hq : s.queued w = sh :: rest) :
    Ranked su (s.popped w sh rest) := by
  have hsh : sh ∈ s.queued w := by rw [hq]; exact mem_cons_self
  refine ⟨fun o => (hr.queued o).sublist (update_tail_sublist hq o),
    fun o x hx => hr.unsent o x (mem_queued_popped hq hx), hr.cycles, hr.uncycled,
    fun o p hp r hahead => ?_,
    fun o p hp r hstands =>
      hr.recorded_of_imp (fun o r => ahead_popped hq) (fun _ _ => id) hp hstands,
    fun o p hp => ?_⟩
  · rcases reported_popped hp with hp | ⟨rfl, hhigh⟩
    · exact hr.reported o p hp r (ahead_popped hq hahead)
    · exact hr.before_ahead h hq hhigh hahead
  · rcases hp with hp | hp
    · rcases reported_popped hp with hp | ⟨rfl, hhigh⟩
      · exact hr.known o p (.inl hp)
      · obtain ⟨x, hx, rfl⟩ := high_eq_some ((h.queued o sh hsh).high.symm.trans hhigh)
        exact .inr ⟨x, h.isRead x (.inl ⟨o, .inl ⟨sh, hsh, hx⟩⟩),
          ((h.queued o sh hsh).owned x hx).2, rfl⟩
    · exact hr.known o p (.inr hp)

end Ranked

/-! ## Tables committed by their workers -/

section Direct

/-- The share is durable. -/
def committed (s : Retention B R P) (w : String) (sh : RowShare R P)
    (rest : List (RowShare R P)) : Retention B R P :=
  { s.popped w sh rest with settled := s.settled ++ sh.rows }

/-- Committed rows are settled, the others keep their place. -/
theorem Placed.committed (h : Placed su s) (hq : s.queued w = sh :: rest) :
    Placed su (s.committed w sh rest) where
  out := h.out
  waiting := h.waiting
  calls := h.calls
  queued o x hx := h.queued o x (mem_queued_popped hq hx)
  cycles := h.cycles
  isRead r hr := h.isRead r (hr.imp_left fun ⟨o, hr⟩ => ⟨o, ahead_popped hq hr⟩)
  kept r hr hset := by
    have hset : r ∉ s.settled ∧ r ∉ sh.rows := by
      have hset : r ∉ s.settled ++ sh.rows := hset
      rwa [mem_append, not_or] at hset
    refine ite_imp (fun _ => id) (fun _ hold => ?_) (h.kept r hr hset.1)
    exact (ahead_or hq hold).resolve_right fun hmem => hset.2 hmem.2

/-- A table that is not staged has no cycle to wait. -/
theorem Awaited.committed (h : Placed su s) (hw : Awaited su s) (hq : s.queued w = sh :: rest)
    (hst : su.staged (su.serves w) = false) : Awaited su (s.committed w sh rest) where
  distinct := hw.distinct_popped hq
  numbered o x hx := hw.numbered o x ((pending_popped_sublist hq o).mem hx)
  missing t cy hcy o ho := by
    obtain ⟨x, hx, hrest⟩ := hw.missing t cy hcy o ho
    have hfits := h.cycles t cy hcy
    have hne : o ≠ w := by
      intro heq
      subst heq
      rw [su.serves_owner t o (hfits.missing o ho), hfits.staged] at hst
      cases hst
    have hpend : (s.popped w sh rest).pending o = s.pending o := pending_popped_of_ne hne
    rw [← hpend] at hx
    exact ⟨x, hx, hrest⟩
  front := hw.front
  queued o ho x hx := hw.queued o ho x (mem_queued_popped hq hx)
  called := hw.called

end Direct

/-! ## Staged tables -/

section Staged

section

variable (su : RetentionSetup B R P) (s : Retention B R P) (w : String) (sh : RowShare R P)

/-- The table's cycles with the delivery counted. -/
def counted : List (ShareCycle R P) := (s.cycles (su.serves w)).map (ShareCycle.delivered w sh.id)

/-- The cycles that commit. -/
def finished : List (ShareCycle R P) := (s.counted su w sh).takeWhile ShareCycle.complete

/-- The cycles that still wait. -/
def unfinished : List (ShareCycle R P) := (s.counted su w sh).dropWhile ShareCycle.complete

/-- The staged delivery has been counted. -/
def stagedCommit (rest : List (RowShare R P)) : Retention B R P :=
  (s.popped w sh rest).onStagedBatch su w sh.id

end

/-- What a delivery does. -/
theorem deliver_eq_some {s' : Retention B R P} (hs : s.deliver su w = some s') :
    ∃ sh rest, s.queued w = sh :: rest ∧
      (su.staged (su.serves w) = true ∧ s' = s.stagedCommit su w sh rest ∨
        su.staged (su.serves w) = false ∧ s' = s.committed w sh rest) := by
  unfold Retention.deliver at hs
  cases hq : s.queued w with
  | nil => simp [hq] at hs
  | cons sh rest =>
    refine ⟨sh, rest, rfl, ?_⟩
    simp only [hq] at hs
    split at hs
    · rename_i hst
      exact .inl ⟨hst, (some.inj hs).symm⟩
    · rename_i hst
      exact .inr ⟨Bool.eq_false_iff.mpr hst, (some.inj hs).symm⟩

/-- The finished cycles are the ones in front. -/
theorem finished_append (su : RetentionSetup B R P) (s : Retention B R P) (w : String)
    (sh : RowShare R P) : s.finished su w sh ++ s.unfinished su w sh = s.counted su w sh :=
  takeWhile_append_dropWhile

theorem delivered_rows (w : String) (id : Nat) (cy : ShareCycle R P) :
    (ShareCycle.delivered w id cy).rows = cy.rows := by
  unfold ShareCycle.delivered
  split <;> rfl

theorem delivered_id (w : String) (id : Nat) (cy : ShareCycle R P) :
    (ShareCycle.delivered w id cy).id = cy.id := by
  unfold ShareCycle.delivered
  split <;> rfl

variable {cy : ShareCycle R P} {o : String}

/-- A delivery takes one owner off its cycle's missing. -/
theorem mem_delivered_missing {id : Nat} :
    o ∈ (ShareCycle.delivered w id cy).missing ↔ o ∈ cy.missing ∧ (cy.id = id → o ≠ w) := by
  unfold ShareCycle.delivered
  split
  · rename_i hid
    simp [hid]
  · rename_i hid
    simp [hid]

variable {t : String}

/-- A delivery keeps a cycle as it was sent. -/
theorem FitsCycle.delivered (h : FitsCycle su t cy) (id : Nat) :
    FitsCycle su t (ShareCycle.delivered w id cy) where
  staged := h.staged
  pos := by
    unfold ShareCycle.delivered
    split <;> exact h.pos
  rows := by
    rw [delivered_rows]
    exact h.rows
  owners := by
    unfold ShareCycle.delivered
    split <;> exact h.owners
  missing o ho := h.missing o (mem_delivered_missing.mp ho).1

variable {x : ShareCycle R P}

/-- A counted cycle is an open one, delivered to. -/
theorem mem_counted (hx : x ∈ s.counted su w sh) :
    ∃ cy ∈ s.cycles (su.serves w), x = ShareCycle.delivered w sh.id cy := by
  obtain ⟨cy, hcy, rfl⟩ := mem_map.mp hx
  exact ⟨cy, hcy, rfl⟩

/-- The finished cycles leave their table. -/
theorem cycles_stagedCommit : (s.stagedCommit su w sh rest).cycles =
      update s.cycles (su.serves w) (s.unfinished su w sh) := rfl

/-- A cycle that is left was there, up to the delivery. -/
theorem mem_cycles_stagedCommit (hx : x ∈ (s.stagedCommit su w sh rest).cycles t) :
    ∃ cy ∈ s.cycles t, x = cy ∧ t ≠ su.serves w ∨
      x = ShareCycle.delivered w sh.id cy ∧ t = su.serves w := by
  rw [cycles_stagedCommit] at hx
  by_cases ht : t = su.serves w
  · subst ht
    rw [update_self] at hx
    obtain ⟨cy, hcy, heq⟩ := mem_counted ((dropWhile_sublist _).mem hx)
    exact ⟨cy, hcy, .inr ⟨heq, rfl⟩⟩
  · rw [update_of_ne ht] at hx
    exact ⟨x, hx, .inl ⟨rfl, ht⟩⟩

/-- A cycle that still waits for someone is left. -/
theorem mem_unfinished (hcy : cy ∈ s.cycles (su.serves w))
    (ho : o ∈ (ShareCycle.delivered w sh.id cy).missing) :
    ShareCycle.delivered w sh.id cy ∈ s.unfinished su w sh := by
  have hmem : ShareCycle.delivered w sh.id cy ∈ s.counted su w sh := mem_map.mpr ⟨cy, hcy, rfl⟩
  rw [← finished_append su s w sh, mem_append] at hmem
  refine hmem.resolve_left fun hfin => ?_
  have hcomplete := mem_takeWhile_imp hfin
  rw [isEmpty_iff.mp hcomplete] at ho
  cases ho

/-- What is uncommitted was so before. -/
theorem uncommitted_stagedCommit {r : R} (hr : Uncommitted su (s.stagedCommit su w sh rest) t r) :
    Uncommitted su s t r := by
  refine hr.imp_left fun ⟨x, hx, hmem⟩ => ?_
  obtain ⟨cy, hcy, ⟨rfl, -⟩ | ⟨rfl, -⟩⟩ := mem_cycles_stagedCommit hx
  · exact ⟨x, hcy, hmem⟩
  · rw [delivered_rows] at hmem
    exact ⟨cy, hcy, hmem⟩

/-- What was uncommitted still is, or its cycle finished. -/
theorem uncommitted_or {r : R} (hr : Uncommitted su s t r) :
    Uncommitted su (s.stagedCommit su w sh rest) t r ∨ ∃ x ∈ s.finished su w sh, r ∈ x.rows := by
  rcases hr with ⟨cy, hcy, hmem⟩ | hr
  · by_cases ht : t = su.serves w
    · subst ht
      have hcount : ShareCycle.delivered w sh.id cy ∈ s.counted su w sh :=
        mem_map.mpr ⟨cy, hcy, rfl⟩
      rw [← delivered_rows w sh.id] at hmem
      rw [← finished_append su s w sh, mem_append] at hcount
      rcases hcount with hfin | hleft
      · exact .inr ⟨_, hfin, hmem⟩
      · refine .inl (.inl ⟨_, ?_, hmem⟩)
        rw [cycles_stagedCommit, update_self]
        exact hleft
    · refine .inl (.inl ⟨cy, ?_, hmem⟩)
      rw [cycles_stagedCommit, update_of_ne ht]
      exact hcy
  · exact .inl (.inr hr)

/-- The rows of finished cycles are settled. -/
theorem Placed.stagedCommit (h : Placed su s) (hq : s.queued w = sh :: rest)
    (hst : su.staged (su.serves w) = true) : Placed su (s.stagedCommit su w sh rest) where
  out := h.out
  waiting := h.waiting
  calls := h.calls
  queued o x hx := h.queued o x (mem_queued_popped hq hx)
  cycles t x hx := by
    obtain ⟨cy, hcy, ⟨rfl, -⟩ | ⟨rfl, -⟩⟩ := mem_cycles_stagedCommit hx
    · exact h.cycles t x hcy
    · exact (h.cycles t cy hcy).delivered sh.id
  isRead r hr := by
    refine h.isRead r (hr.imp (fun ⟨o, hr⟩ => ⟨o, ahead_popped hq hr⟩) fun ⟨t, hr⟩ => ?_)
    exact ⟨t, uncommitted_stagedCommit hr⟩
  kept r hr hset := by
    have hset : r ∉ s.settled ∧ ¬ ∃ x ∈ s.finished su w sh, r ∈ x.rows := by
      have hset : r ∉ s.settled ++ (s.finished su w sh).flatMap ShareCycle.rows := hset
      rwa [mem_append, not_or, mem_flatMap] at hset
    refine ite_imp (fun _ hold => (uncommitted_or hold).resolve_right hset.2) (fun hst' hold => ?_)
      (h.kept r hr hset.1)
    refine (ahead_or hq hold).resolve_right fun ⟨hown, _⟩ => hst' ?_
    rw [h.tableOf_ahead hold, hown]
    exact hst

/-- A share that is not delivered stays in its cycle. -/
theorem inCycle_stagedCommit (hw : Awaited su s) (hq : s.queued w = sh :: rest)
    {x : RowShare R P} (hx : x ∈ (s.popped w sh rest).pending o) (hin : InCycle su s o x) :
    InCycle su (s.stagedCommit su w sh rest) o x := by
  obtain ⟨cy, hcy, hid, hmiss, hsub⟩ := hin
  by_cases ht : su.serves o = su.serves w
  · have hstill : o ∈ (ShareCycle.delivered w sh.id cy).missing := by
      refine mem_delivered_missing.mpr ⟨hmiss, fun hcyid how => ?_⟩
      subst how
      exact hw.id_ne hq hx (hid.symm.trans hcyid)
    refine ⟨_, ?_, (delivered_id w sh.id cy).trans hid, hstill, ?_⟩
    · rw [cycles_stagedCommit, ht, update_self]
      exact mem_unfinished (ht ▸ hcy) hstill
    · rw [delivered_rows]
      exact hsub
  · refine ⟨cy, ?_, hid, hmiss, hsub⟩
    rw [cycles_stagedCommit, update_of_ne ht]
    exact hcy

/-- The cycles left wait for the shares still pending. -/
theorem Awaited.stagedCommit (h : Placed su s) (hw : Awaited su s) (hq : s.queued w = sh :: rest) :
    Awaited su (s.stagedCommit su w sh rest) where
  distinct := hw.distinct_popped hq
  numbered o x hx := hw.numbered o x ((pending_popped_sublist hq o).mem hx)
  missing t x hx o ho := by
    -- The share waited for is not the one delivered.
    have hold : ∃ cy ∈ s.cycles t, o ∈ cy.missing ∧ cy.id = x.id ∧ (o = w → cy.id ≠ sh.id) := by
      obtain ⟨cy, hcy, ⟨rfl, ht⟩ | ⟨rfl, -⟩⟩ := mem_cycles_stagedCommit hx
      · refine ⟨x, hcy, ho, rfl, fun how => absurd ?_ ht⟩
        rw [← how]
        exact (su.serves_owner t o ((h.cycles t x hcy).missing o ho)).symm
      · obtain ⟨hmiss, hne⟩ := mem_delivered_missing.mp ho
        exact ⟨cy, hcy, hmiss, (delivered_id w sh.id cy).symm, fun how hid => hne hid how⟩
    obtain ⟨cy, hcy, hmiss, hid, hne⟩ := hold
    obtain ⟨y, hy, hyid, hrows⟩ := hw.missing t cy hcy o hmiss
    refine ⟨y, ?_, hyid.trans hid, hrows⟩
    change y ∈ (s.popped w sh rest).pending o
    by_cases how : o = w
    · subst how
      rw [pending_popped hq] at hy
      refine (mem_cons.mp hy).resolve_left fun heq => hne rfl ?_
      rw [← hyid, heq]
    · rw [pending_popped_of_ne how]
      exact hy
  front t x hx := by
    rw [cycles_stagedCommit] at hx
    by_cases ht : t = su.serves w
    · subst ht
      rw [update_self] at hx
      have hopen := head?_dropWhile_not ShareCycle.complete (s.counted su w sh)
      intro hnil
      change x ∈ ((s.counted su w sh).dropWhile ShareCycle.complete).head? at hx
      rw [mem_def.mp hx] at hopen
      simp [ShareCycle.complete, hnil] at hopen
    · rw [update_of_ne ht] at hx
      exact hw.front t x hx
  queued o hst x hx := inCycle_stagedCommit hw hq (mem_append_left _ hx)
      (hw.queued o hst x (mem_queued_popped hq hx))
  called who c hc hop hst o x hx :=
    inCycle_stagedCommit hw hq (mem_pending.mpr (.inr ⟨who, c, hc, hx⟩))
      (hw.called who c hc hop hst o x hx)

section Ranked

variable [Position P]

/-- What the finished cycles are committed at lies before all that is not committed. -/
theorem Ranked.before_uncommitted (h : Placed su s) (hr : Ranked su s)
    (hx : x ∈ s.finished su w sh) {p : P} (hp : x.pos = some p) {r : R}
    (hun : Uncommitted su (s.stagedCommit su w sh rest) (su.serves w) r) :
    Position.covered (su.posOf r) p = false := by
  have hcount : x ∈ s.counted su w sh := (takeWhile_sublist _).mem hx
  obtain ⟨cy, hcy, heq⟩ := mem_counted hcount
  have hfits := (h.cycles _ cy hcy).delivered (w := w) sh.id
  rw [← heq] at hfits
  obtain ⟨z, hz, rfl⟩ := high_eq_some (hfits.pos.symm.trans hp)
  rcases hun with ⟨y, hy, hmem⟩ | ⟨hmem, ht⟩
  · rw [cycles_stagedCommit, update_self] at hy
    have hpair : (s.counted su w sh).Pairwise fun cy cy' => Before su cy.rows cy'.rows := by
      refine pairwise_map.mpr ((hr.cycles (su.serves w)).imp fun hbefore => ?_)
      rw [delivered_rows, delivered_rows]
      exact hbefore
    rw [← finished_append su s w sh] at hpair
    exact (pairwise_append.mp hpair).2.2 x hx y hy z hz r hmem
  · rw [heq, delivered_rows] at hz
    exact hr.uncycled _ cy hcy r hmem ht z hz r mem_cons_self

omit [Position P] in
/-- The positions of the cycles a share finishes are known to every owner of the table. -/
theorem known_finished (h : Placed su s) (hx : x ∈ s.finished su w sh) {p : P}
    (hp : x.pos = some p) (ho : o ∈ su.owners (su.serves w)) :
    ∃ r ∈ s.read, su.tableOf r = su.serves o ∧ su.posOf r = p := by
  obtain ⟨cy, hcy, heq⟩ := mem_counted ((takeWhile_sublist _).mem hx)
  have hfits := (h.cycles _ cy hcy).delivered (w := w) sh.id
  rw [← heq] at hfits
  obtain ⟨z, hz, rfl⟩ := high_eq_some (hfits.pos.symm.trans hp)
  refine ⟨z, h.isRead z (.inr ⟨su.serves w, .inl ⟨cy, hcy, ?_⟩⟩), ?_, rfl⟩
  · rw [heq, delivered_rows] at hz
    exact hz
  · rw [su.serves_owner _ o ho]
    exact hfits.rows z hz

omit [Position P] in
/-- What a staged commit adds to the reports of an owner. -/
theorem reported_stagedCommit {p : P} (hp : Reported su (s.stagedCommit su w sh rest) o p) :
    Reported su (s.popped w sh rest) o p ∨
      o ∈ su.owners (su.serves w) ∧ ∃ x ∈ s.finished su w sh, x.pos = some p := by
  rcases hp with hp | hp
  · rcases mem_append.mp hp with hp | hp
    · exact .inl (.inl hp)
    split at hp
    · rename_i ho
      obtain ⟨x, hx, hmem⟩ := mem_flatMap.mp hp
      exact .inr ⟨ho, x, hx, mem_toList.mp hmem⟩
    · cases hp
  · exact .inl (.inr hp)

omit [Position P] in
/-- What a staged commit adds to the records of an owner. -/
theorem recorded_stagedCommit (h : Placed su s) {p : P}
    (hp : Recorded (s.stagedCommit su w sh rest) o p) :
    Recorded (s.popped w sh rest) o p ∨
      o ∈ su.owners (su.serves w) ∧ ∃ x ∈ s.finished su w sh, x.pos = some p := by
  rcases hp with hp | hp
  · rcases mem_append.mp hp with hp | hp
    · exact .inl (.inl hp)
    obtain ⟨x, hx, hmem⟩ := mem_flatMap.mp hp
    split at hmem
    · rename_i ho
      obtain ⟨cy, hcy, heq⟩ := mem_counted ((takeWhile_sublist _).mem hx)
      have hfits := (h.cycles _ cy hcy).delivered (w := w) sh.id
      rw [← heq] at hfits
      exact .inr ⟨hfits.owners o ho, x, hx, mem_toList.mp hmem⟩
    · cases hmem
  · exact .inl (.inr hp)

/-- Cycles that leave from the front keep the order. -/
theorem Ranked.stagedCommit (h : Placed su s) (hw : Awaited su s) (hr : Ranked su s)
    (hq : s.queued w = sh :: rest) (hst : su.staged (su.serves w) = true) :
    Ranked su (s.stagedCommit su w sh rest) := by
  have hpop := hr.popped h hq
  have hplaced := h.stagedCommit hq hst
  have hawaited := hw.stagedCommit h hq
  refine ⟨hpop.queued, hpop.unsent, fun t => ?_, fun t x hx r hmem ht => ?_,
    fun o p hp r hahead => ?_, fun o p hp r hstands => ?_, fun o p hp => ?_⟩
  · rw [cycles_stagedCommit]
    by_cases ht : t = su.serves w
    · subst ht
      rw [update_self]
      refine List.Pairwise.sublist (dropWhile_sublist _) ?_
      refine pairwise_map.mpr ((hr.cycles (su.serves w)).imp fun hbefore => ?_)
      rw [delivered_rows, delivered_rows]
      exact hbefore
    · rw [update_of_ne ht]
      exact hr.cycles t
  · obtain ⟨cy, hcy, ⟨rfl, -⟩ | ⟨rfl, -⟩⟩ := mem_cycles_stagedCommit hx
    · exact hr.uncycled t x hcy r hmem ht
    · rw [delivered_rows]
      exact hr.uncycled t cy hcy r hmem ht
  · rcases reported_stagedCommit hp with hp | ⟨ho, x, hx, hpos⟩
    · exact hpop.reported o p hp r hahead
    · have hserves := su.serves_owner _ o ho
      have hun := uncommitted_of_ahead hplaced hawaited (hserves ▸ hst) hahead
      rw [hserves] at hun
      exact hr.before_uncommitted h hx hpos hun
  · rcases recorded_stagedCommit h hp with hp | ⟨ho, x, hx, hpos⟩
    · have hahead : ∀ o r, Ahead su (s.stagedCommit su w sh rest) o r → Ahead su s o r :=
        fun o r => ahead_popped hq
      exact hr.recorded_of_imp hahead (fun t r => uncommitted_stagedCommit) hp hstands
    · have hserves := su.serves_owner _ o ho
      rw [StandsFor, hserves, if_pos hst] at hstands
      exact hr.before_uncommitted h hx hpos hstands
  · rcases hp with hp | hp
    · rcases reported_stagedCommit hp with hp | ⟨ho, x, hx, hpos⟩
      · exact hpop.known o p (.inl hp)
      · exact .inr (known_finished h hx hpos ho)
    · rcases recorded_stagedCommit h hp with hp | ⟨ho, x, hx, hpos⟩
      · exact hpop.known o p (.inr hp)
      · exact .inr (known_finished h hx hpos ho)

end Ranked

end Staged

end Retention

end Urutau
