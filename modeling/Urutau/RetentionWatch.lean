import Urutau.RetentionAcks

/-!
# What the reads of a confirmation have seen

A row that was in a buffer or registered when the gate was read keeps a worker among
those that owe, or one whose index is still to be read, until it is durable.  On a staged
table that is any worker the row's cycle, or a cycle before it, still waits for.
-/

namespace Urutau

open List

/-- The frontier a confirmation under way has read. -/
def ConfirmStage.dispatched {P : Type} : ConfirmStage P → Option P
  | .idle => none
  | .frontier f | .loads f _ | .gated f _ | .reading f _ _ => f

/-- A confirmation under way has read the gate. -/
def ConfirmStage.gateRead {P : Type} : ConfirmStage P → Bool
  | .gated _ _ | .reading _ _ _ => true
  | _ => false

namespace Retention

open Function (update)

variable {B R P : Type} {su : RetentionSetup B R P} {s s' : Retention B R P} {r : R}
  {todo owing : List String}

section

variable (su : RetentionSetup B R P) (s : Retention B R P)

/-- What is recorded for the worker lies before the row until the row is durable. -/
def Anchors (w : String) (r : R) : Prop :=
  w ∈ su.owners (su.tableOf r) ∧ (su.staged (su.tableOf r) = true ∨ su.ownerOf r = w)

/-- One of the workers that owe anchors the row. -/
def Anchored (owing : List String) (r : R) : Prop := ∃ w ∈ owing, Anchors su w r

/-- The row waits in its table's pause. -/
def HeldBack (r : R) : Prop := ∃ b ∈ s.hand.held (su.tableOf r), r ∈ su.rowsOf b

/-- The row is registered with a worker still to be read.  On a staged table its cycle is
open, and so registered are the shares that its cycle and all before it wait for. -/
def Registered (todo : List String) (r : R) : Prop :=
  if su.staged (su.tableOf r) then
    ∃ pre post, s.cycles (su.tableOf r) = pre ++ post ∧ (∃ cy ∈ pre, r ∈ cy.rows) ∧
      ∀ cy ∈ pre, ∀ w ∈ cy.missing, w ∈ todo ∧ ∃ sh ∈ s.queued w, sh.id = cy.id ∧ sh.rows ≠ []
  else su.ownerOf r ∈ todo ∧ ∃ sh ∈ s.queued (su.ownerOf r), r ∈ sh.rows

/-- What has been read of the row, or will be. -/
def Watched : ConfirmStage P → R → Prop
  | .gated _ owing, r =>
    Anchored su owing r ∨ HeldBack su s r ∨ Registered su s su.workers r
  | .reading _ owing todo, r => Anchored su owing r ∨ Registered su s todo r
  | _, _ => True

end

/-! ## Registered rows stay so until they are durable -/

theorem Registered.grow (h : Registered su s todo r)
    (hqueued : ∀ w, ∀ sh ∈ s.queued w, sh ∈ s'.queued w)
    (hcycles : ∀ t, ∃ post, s'.cycles t = s.cycles t ++ post) : Registered su s' todo r := by
  refine ite_imp (fun _ h => ?_) (fun _ h => ?_) h
  · obtain ⟨pre, post, heq, hmem, hpre⟩ := h
    obtain ⟨post', heq'⟩ := hcycles (su.tableOf r)
    refine ⟨pre, post ++ post', by rw [heq', heq, append_assoc], hmem, ?_⟩
    intro cy hcy w hw
    obtain ⟨htodo, sh, hsh, hrest⟩ := hpre cy hcy w hw
    exact ⟨htodo, sh, hqueued w sh hsh, hrest⟩
  · obtain ⟨htodo, sh, hsh, hr⟩ := h
    exact ⟨htodo, sh, hqueued _ sh hsh, hr⟩

variable {w : String} {sh : RowShare R P} {rest : List (RowShare R P)}

/-- The worker of a table that is not staged delivers. -/
theorem Registered.committed (h : Registered su s todo r) (hp : Placed su s)
    (hq : s.queued w = sh :: rest) (hst : su.staged (su.serves w) = false)
    (hr : r ∉ (s.committed w sh rest).settled) :
    Registered su (s.committed w sh rest) todo r := by
  refine ite_imp (fun hstaged h => ?_) (fun _ h => ?_) h
  · obtain ⟨pre, post, heq, hmem, hpre⟩ := h
    refine ⟨pre, post, heq, hmem, ?_⟩
    intro cy hcy o ho
    obtain ⟨htodo, x, hx, hrest⟩ := hpre cy hcy o ho
    refine ⟨htodo, x, (mem_queued_or hq hx).resolve_right fun how => ?_, hrest⟩
    have hcycle : cy ∈ s.cycles (su.tableOf r) := by rw [heq]; exact mem_append_left _ hcy
    have howner := (hp.cycles _ cy hcycle).missing o ho
    rw [how.1] at howner
    rw [su.serves_owner _ w howner, hstaged] at hst
    cases hst
  · obtain ⟨htodo, x, hx, hmem⟩ := h
    refine ⟨htodo, x, (mem_queued_or hq hx).resolve_right fun how => hr ?_, hmem⟩
    rw [how.2] at hmem
    exact mem_append_right _ hmem

/-- What of the first cycles is not complete stays in front. -/
theorem dropWhile_append_of_mem {α : Type} {p : α → Bool} {xs ys : List α} {x : α} (hx : x ∈ xs)
    (hnot : x ∉ (xs ++ ys).takeWhile p) :
    (xs ++ ys).dropWhile p = xs.dropWhile p ++ ys ∧ x ∈ xs.dropWhile p := by
  have hdrop : x ∈ xs.dropWhile p := by
    rw [← takeWhile_append_dropWhile (p := p) (l := xs), mem_append] at hx
    refine hx.resolve_left fun htake => hnot ?_
    rw [takeWhile_append]
    split
    · exact mem_append_left _ ((takeWhile_sublist p).mem htake)
    · exact htake
  refine ⟨?_, hdrop⟩
  rw [dropWhile_append, if_neg]
  rw [List.isEmpty_iff]
  exact ne_nil_of_mem hdrop

/-- The worker of a staged table delivers, and the cycles that are complete commit. -/
theorem Registered.stagedCommit (h : Registered su s todo r) (hp : Placed su s)
    (hq : s.queued w = sh :: rest) (hst : su.staged (su.serves w) = true)
    (hr : r ∉ (s.stagedCommit su w sh rest).settled) :
    Registered su (s.stagedCommit su w sh rest) todo r := by
  refine ite_imp (fun _ h => ?_) (fun hstaged h => ?_) h
  · obtain ⟨pre, post, heq, ⟨cy, hcy, hmem⟩, hpre⟩ := h
    rw [cycles_stagedCommit]
    by_cases ht : su.tableOf r = su.serves w
    · have hcount : s.counted su w sh = pre.map (ShareCycle.delivered w sh.id) ++
          post.map (ShareCycle.delivered w sh.id) := by
        unfold counted
        rw [← ht, heq, map_append]
      have hnot : ShareCycle.delivered w sh.id cy ∉ (pre.map (ShareCycle.delivered w sh.id) ++
          post.map (ShareCycle.delivered w sh.id)).takeWhile ShareCycle.complete := by
        intro hfin
        rw [← hcount] at hfin
        refine hr (mem_append_right _ (mem_flatMap.mpr ⟨_, hfin, ?_⟩))
        rw [delivered_rows]
        exact hmem
      obtain ⟨hdrop, hstill⟩ := dropWhile_append_of_mem (mem_map.mpr ⟨cy, hcy, rfl⟩) hnot
      refine ⟨_, post.map (ShareCycle.delivered w sh.id), ?_, ⟨_, hstill, ?_⟩, ?_⟩
      · rw [ht, Function.update_self]
        unfold unfinished
        rw [hcount]
        exact hdrop
      · rw [delivered_rows]
        exact hmem
      · intro x hx o ho
        obtain ⟨cy', hcy', rfl⟩ := mem_map.mp ((dropWhile_sublist _).mem hx)
        obtain ⟨ho, hne⟩ := mem_delivered_missing.mp ho
        obtain ⟨htodo, y, hy, hid, hrows⟩ := hpre cy' hcy' o ho
        refine ⟨htodo, y, (mem_queued_or hq hy).resolve_right fun how => ?_,
          hid.trans (delivered_id w sh.id cy').symm, hrows⟩
        exact hne (by rw [← hid, how.2]) how.1
    · refine ⟨pre, post, ?_, ⟨cy, hcy, hmem⟩, ?_⟩
      · rw [Function.update_of_ne ht]
        exact heq
      intro cy' hcy' o ho
      obtain ⟨htodo, y, hy, hrest⟩ := hpre cy' hcy' o ho
      refine ⟨htodo, y, (mem_queued_or hq hy).resolve_right fun how => ht ?_, hrest⟩
      have hcycle : cy' ∈ s.cycles (su.tableOf r) := by
        rw [heq]
        exact mem_append_left _ hcy'
      have howner := (hp.cycles _ cy' hcycle).missing o ho
      rw [how.1] at howner
      exact (su.serves_owner _ w howner).symm
  · obtain ⟨htodo, y, hy, hmem⟩ := h
    refine ⟨htodo, y, (mem_queued_or hq hy).resolve_right fun how => hstaged ?_, hmem⟩
    rw [((hp.queued _ y hy).owned r hmem).2, how.1]
    exact hst

/-! ## What the reads add -/

theorem anchored_ownerOf (htable : su.tableOf r ∈ su.tables) {ts : List String}
    (ht : su.tableOf r ∈ ts) : Anchored su (ts.flatMap su.owners) r := by
  have howner := su.ownerOf_mem r htable
  exact ⟨su.ownerOf r, mem_flatMap.mpr ⟨_, ht, howner⟩, howner, .inr rfl⟩

theorem Anchored.mono {owing' : List String} (h : Anchored su owing r)
    (hsub : ∀ w ∈ owing, w ∈ owing') : Anchored su owing' r := by
  obtain ⟨w, hw, hanchors⟩ := h
  exact ⟨w, hsub w hw, hanchors⟩

/-- A row of a batch that waits, and not on its way, is in the gate, an accumulator or
the pause. -/
theorem buffered_of_upstream (hp : Placed su s) (hup : r ∈ s.upstream su)
    (hway : r ∉ s.onTheWay su) :
    su.tableOf r ∈ s.gateBuffered su ∨ HeldBack su s r := by
  rcases mem_upstream.mp hup with ⟨b, hb, hr⟩ | ⟨t, ht, b, hb, hr⟩
  · exact absurd (mem_append_left _ (mem_flatMap.mpr ⟨b, mem_append_left _ hb, hr⟩)) hway
  have hmoving : b ∉ s.hand.draining t ++ s.hand.pump.taken t ++
      s.hand.pump.hand su.toHandoverSetup t := by
    intro hb
    exact hway (mem_append_left _ (mem_flatMap.mpr
      ⟨b, mem_append_right _ (mem_flatMap.mpr ⟨t, ht, hb⟩), hr⟩))
  have htable : su.tableOf r = t := (su.tableOf_rows b r hr).trans (hp.waiting t b hb).1
  subst htable
  simp only [mem_append, not_or] at hmoving
  unfold HandState.waiting at hb
  simp only [mem_append] at hb
  have hgate : b ∈ s.hand.accum (su.tableOf r) ∨ b ∈ s.hand.buf (su.tableOf r) →
      su.tableOf r ∈ s.gateBuffered su := by
    intro hb
    refine mem_filter.mpr ⟨ht, ?_⟩
    rcases hb with hb | hb
    · simp [ne_nil_of_mem hb]
    · simp [ne_nil_of_mem hb]
  rcases hb with ((((hb | hb) | hb) | hb) | hb) | hb
  · exact absurd hb hmoving.1.1
  · exact .inl (hgate (.inl hb))
  · exact .inl (hgate (.inr hb))
  · exact absurd hb hmoving.1.2
  · exact .inr ⟨b, hb, hr⟩
  · exact absurd hb hmoving.2

/-- A table whose rows are not on their way has no call under way. -/
theorem call_done (hread : r ∈ s.read) (hway : r ∉ s.onTheWay su) {who : Caller}
    {c : ShareCall R P} (hc : s.call who = some c) (htable : c.table = su.tableOf r) :
    c.opening = none ∧ c.shares = [] := by
  have hcalling : s.calling (su.tableOf r) = false := by
    rw [← Bool.not_eq_true]
    intro hcalling
    exact hway (mem_append_right _ (mem_filter.mpr ⟨hread, hcalling⟩))
  unfold calling at hcalling
  rw [any_eq_false] at hcalling
  have hwho := hcalling who (by cases who <;> simp)
  simp only [hc, Option.any_some, htable, beq_self_eq_true, Bool.true_and, Bool.not_eq_true,
    Bool.not_eq_false', Bool.and_eq_true, Option.isNone_iff_eq_none, List.isEmpty_iff] at hwho
  exact hwho

/-- **The gate is read.**  What is not on its way is seen, in the pause, or registered. -/
theorem watched_gate [Position P] (h : Traced su s) (htables : su.tableOf r ∈ su.tables)
    (hread : r ∈ s.read) (hr : r ∉ s.settled) (hway : r ∉ s.onTheWay su) (f : Option P)
    (owing : List String) :
    Watched su s (.gated f (owing ++ (s.gateBuffered su).flatMap su.owners)) r := by
  have hbuffered : r ∈ s.upstream su →
      Watched su s (.gated f (owing ++ (s.gateBuffered su).flatMap su.owners)) r := by
    intro hup
    rcases buffered_of_upstream h.placed hup hway with hgate | hheld
    · exact .inl ((anchored_ownerOf htables hgate).mono fun w => mem_append_right _)
    · exact .inr (.inl hheld)
  have howners : ∀ w ∈ su.owners (su.tableOf r), w ∈ su.workers :=
    fun w hw => mem_flatMap.mpr ⟨_, htables, hw⟩
  have hkept := h.placed.kept r hread hr
  split at hkept
  · rename_i hst
    rcases hkept with ⟨cy, hcy, hmem⟩ | ⟨hun, -⟩
    · refine .inr (.inr ?_)
      unfold Registered
      rw [if_pos hst]
      refine ⟨s.cycles (su.tableOf r), [], (append_nil _).symm, ⟨cy, hcy, hmem⟩, ?_⟩
      intro cy' hcy' w hw
      have howner := (h.placed.cycles _ cy' hcy').missing w hw
      refine ⟨howners w howner, ?_⟩
      obtain ⟨sh, hsh, hrest⟩ := h.awaited.missing _ cy' hcy' w hw
      refine ⟨sh, (mem_pending.mp hsh).resolve_right fun ⟨who, c, hc, hmem⟩ => ?_, hrest⟩
      have htable := ((h.placed.calls who c hc).shares w sh hmem).2
      rw [su.serves_owner _ w howner] at htable
      rw [(call_done hread hway hc htable.symm).2] at hmem
      cases hmem
    · rcases mem_uncycled.mp hun with hup | ⟨who, c, hc, cy, hop, hmem⟩
      · exact hbuffered hup
      · have htable := ((h.placed.calls who c hc).cycle cy hop).rows r hmem
        rw [(call_done hread hway hc htable.symm).1] at hop
        cases hop
  · rename_i hst
    rcases hkept with hqueued | ⟨hun, -⟩
    · refine .inr (.inr ?_)
      unfold Registered
      rw [if_neg hst]
      exact ⟨howners _ (su.ownerOf_mem r htables), hqueued⟩
    · rcases mem_unsent.mp hun with hup | ⟨who, c, hc, w, sh, hmem, hr⟩
      · exact hbuffered hup
      · have hfits := (h.placed.calls who c hc).shares w sh hmem
        have htable := (hfits.1.owned r hr).2.trans hfits.2
        rw [(call_done hread hway hc htable.symm).2] at hmem
        cases hmem

/-- The pause is read. -/
theorem Watched.pause (htables : su.tableOf r ∈ su.tables) {f : Option P}
    (h : Watched su s (.gated f owing) r) :
    Watched su s (.reading f (owing ++ (s.pauseBuffered su).flatMap su.owners) su.workers) r := by
  rcases h with h | ⟨b, hb, hr⟩ | h
  · exact .inl (h.mono fun w => mem_append_left _)
  · refine .inl ((anchored_ownerOf htables ?_).mono fun w => mem_append_right _)
    exact mem_filter.mpr ⟨htables, by simp [ne_nil_of_mem hb]⟩
  · exact .inr h

/-- **An index is read.**  A worker that has not delivered is found to owe. -/
theorem Watched.index [Position P] (h : Traced su s) (htables : su.tableOf r ∈ su.tables)
    {f : Option P} {w : String} (hwatched : Watched su s (.reading f owing todo) r) :
    Watched su s (.reading f (if (s.index w).head.isEmpty then owing else owing ++ [w])
      (todo.filter (· ≠ w))) r := by
  have howes : ∀ sh ∈ s.queued w, sh.rows ≠ [] → Anchors su w r →
      Anchored su (if (s.index w).head.isEmpty then owing else owing ++ [w]) r := by
    intro sh hsh hne hanchors
    obtain ⟨e, he, -⟩ := h.indexed w sh hsh hne
    rw [if_neg (by simp [ne_nil_of_mem he])]
    exact ⟨w, mem_append_right _ (mem_singleton_self w), hanchors⟩
  have hstay : ∀ o ∈ todo, o ≠ w → o ∈ todo.filter (· ≠ w) :=
    fun o ho hne => mem_filter.mpr ⟨ho, by simpa using hne⟩
  rcases hwatched with hanchored | hreg
  · refine .inl (hanchored.mono fun o ho => ?_)
    split
    · exact ho
    · exact mem_append_left _ ho
  unfold Registered at hreg
  split at hreg
  · rename_i hst
    obtain ⟨pre, post, heq, hmem, hpre⟩ := hreg
    by_cases hw : ∃ cy ∈ pre, w ∈ cy.missing
    · obtain ⟨cy, hcy, hmiss⟩ := hw
      obtain ⟨-, sh, hsh, -, hne⟩ := hpre cy hcy w hmiss
      have hcycle : cy ∈ s.cycles (su.tableOf r) := by rw [heq]; exact mem_append_left _ hcy
      exact .inl (howes sh hsh hne ⟨(h.placed.cycles _ cy hcycle).missing w hmiss, .inl hst⟩)
    · refine .inr ?_
      unfold Registered
      rw [if_pos hst]
      refine ⟨pre, post, heq, hmem, fun cy hcy o ho => ?_⟩
      obtain ⟨htodo, hrest⟩ := hpre cy hcy o ho
      exact ⟨hstay o htodo fun how => hw ⟨cy, hcy, how ▸ ho⟩, hrest⟩
  · rename_i hst
    obtain ⟨htodo, sh, hsh, hr⟩ := hreg
    by_cases hw : su.ownerOf r = w
    · subst hw
      exact .inl (howes sh hsh (ne_nil_of_mem hr) ⟨su.ownerOf_mem r htables, .inr rfl⟩)
    · refine .inr ?_
      unfold Registered
      rw [if_neg hst]
      exact ⟨hstay _ htodo hw, sh, hsh, hr⟩

/-- **All has been read.**  A worker that owes anchors the row. -/
theorem Watched.anchored (h : Awaited su s) {f : Option P}
    (hwatched : Watched su s (.reading f owing []) r) : Anchored su owing r := by
  rcases hwatched with hanchored | hreg
  · exact hanchored
  unfold Registered at hreg
  split at hreg
  · obtain ⟨pre, post, heq, ⟨cy, hcy, -⟩, hpre⟩ := hreg
    -- The first open cycle waits for someone.
    obtain ⟨first, rest, rfl⟩ := exists_cons_of_ne_nil (ne_nil_of_mem hcy)
    have hfront := h.front (su.tableOf r) first (by rw [heq]; rfl)
    obtain ⟨w, hw⟩ := exists_mem_of_ne_nil _ hfront
    exact absurd (hpre first mem_cons_self w hw).1 (not_mem_nil)
  · exact absurd hreg.1 (not_mem_nil)

/-- The worker stands for a row it anchors. -/
theorem Anchors.standsFor (hp : Placed su s) {w : String} (h : Anchors su w r) (hread : r ∈ s.read)
    (hr : r ∉ s.settled) : StandsFor su s w r := by
  unfold StandsFor
  rw [su.serves_owner _ w h.1]
  exact ite_imp (fun _ => id) (fun hst hkept => h.2.resolve_left hst ▸ hkept) (hp.kept r hread hr)

end Retention

end Urutau
