import Urutau.RetentionSends

/-!
# Registering and delivering shares

A share enters its worker's index before its position is noted as sent, and its cycle is
open by then.  A delivery makes a share durable, or counts towards its cycle; the cycles
at the front that are complete are committed.
-/

namespace Urutau

open List

namespace Retention

open Updates

open Function (update update_self update_of_ne)

variable {B R P : Type} {su : RetentionSetup B R P} {s : Retention B R P}

/-! ## A call's next step -/

section Call

variable {who : Caller} {c c' : ShareCall R P}

/-- The call put back is the same state. -/
theorem withCall_self (hc : s.call who = some c) : s.withCall who c = s := by
  unfold withCall
  rw [← hc, Function.update_eq_self]

variable {α : Type} {xs : List α}

/-- What the calls hold, with one replaced. -/
theorem mem_ofCalls_withCall {f : ShareCall R P → List α} {x : α} :
    x ∈ (s.withCall who c).ofCalls f ↔
      x ∈ f c ∨ ∃ who' c', who' ≠ who ∧ s.call who' = some c' ∧ x ∈ f c' := by
  rw [mem_ofCalls]
  constructor
  · intro h
    obtain ⟨who', c', hc, hx⟩ := h
    by_cases heq : who' = who
    · subst heq
      cases (update_self (β := fun _ => Option (ShareCall R P)) who' (some c) s.call).symm.trans hc
      exact .inl hx
    · exact .inr ⟨who', c', heq, (update_of_ne heq _ _).symm.trans hc, hx⟩
  · intro h
    rcases h with hx | ⟨who', c', hne, hc, hx⟩
    · exact ⟨who, c, update_self _ _ _, hx⟩
    · exact ⟨who', c', (update_of_ne hne _ _).trans hc, hx⟩

section

variable (hc : s.call who = some c)
include hc

/-- Of what a call held, some is gone. -/
theorem ofCalls_perm {f : ShareCall R P → List α} (hf : f c = xs ++ f c') :
    (xs ++ (s.withCall who c').ofCalls f).Perm (s.ofCalls f) := by
  unfold ofCalls withCall
  dsimp only
  cases who with
  | pump =>
    rw [update_self, update_of_ne (by simp), hc]
    change (xs ++ (f c' ++ _)).Perm (f c ++ _)
    rw [hf, append_assoc]
  | drain =>
    rw [hc]
    change (xs ++ (_ ++ f c')).Perm (_ ++ f c)
    rw [hf, ← append_assoc, ← append_assoc]
    exact List.Perm.append_right _ perm_append_comm

/-- Shares that leave a call stay pending behind the queue. -/
theorem pending_perm {w : String} {xs : List (RowShare R P)}
    (hf : sharesOf w c = xs ++ sharesOf w c') :
    (s.queued w ++ xs ++ (s.withCall who c').ofCalls (sharesOf w)).Perm (s.pending w) := by
  rw [append_assoc]
  exact List.Perm.append_left _ (ofCalls_perm hc hf)

/-- What a call held and has no more. -/
theorem mem_ofCalls_split {f : ShareCall R P → List α} {x : α} (hf : x ∈ f c ↔ x ∈ xs ∨ x ∈ f c') :
    x ∈ s.ofCalls f ↔ x ∈ xs ∨ x ∈ (s.withCall who c').ofCalls f := by
  have hself : x ∈ (s.withCall who c).ofCalls f ↔ _ := mem_ofCalls_withCall
  rw [withCall_self hc] at hself
  rw [hself, mem_ofCalls_withCall, hf, or_assoc]

/-- Rows that leave a call leave what is unsent. -/
theorem mem_unsent_withCall {xs : List R}
    (hf : ∀ r, r ∈ shareRows c ↔ r ∈ xs ∨ r ∈ shareRows c') (r : R) :
    r ∈ s.unsent su ↔ r ∈ xs ∨ r ∈ (s.withCall who c').unsent su := by
  unfold unsent
  rw [mem_append, mem_append, mem_ofCalls_split hc (hf r), or_left_comm]
  rfl

/-- Rows that leave the cycle to open leave what has none. -/
theorem mem_uncycled_withCall {xs : List R}
    (hf : ∀ r, r ∈ openingRows c ↔ r ∈ xs ∨ r ∈ openingRows c') (r : R) :
    r ∈ s.uncycled su ↔ r ∈ xs ∨ r ∈ (s.withCall who c').uncycled su := by
  unfold uncycled
  rw [mem_append, mem_append, mem_ofCalls_split hc (hf r), or_left_comm]
  rfl

end

theorem mem_unsent_congr (hrows : shareRows c = shareRows c') (r : R) :
    r ∈ (s.withCall who c).unsent su ↔ r ∈ (s.withCall who c').unsent su := by
  unfold unsent
  rw [mem_append, mem_append, mem_ofCalls_withCall, mem_ofCalls_withCall, hrows]
  rfl

section

variable (hc : s.call who = some c)
include hc

/-- A call that keeps its shares keeps the rows unsent. -/
theorem mem_unsent_kept (hrows : shareRows c' = shareRows c) (r : R) :
    r ∈ (s.withCall who c').unsent su ↔ r ∈ s.unsent su := by
  rw [mem_unsent_congr hrows, withCall_self hc]

/-- A call that keeps its cycle keeps the rows without one. -/
theorem mem_uncycled_kept (hrows : openingRows c' = openingRows c)
    (r : R) : r ∈ (s.withCall who c').uncycled su ↔ r ∈ s.uncycled su := by
  have hmem : r ∈ s.uncycled su ↔ r ∈ ([] : List R) ∨ r ∈ (s.withCall who c').uncycled su :=
    mem_uncycled_withCall hc (fun r => by simp [hrows]) r
  rw [hmem, mem_nil_iff, false_or]

/-- A call that keeps its shares keeps what is pending. -/
theorem pending_kept (hshares : c'.shares = c.shares) (w : String) :
    ((s.withCall who c').pending w).Perm (s.pending w) := by
  have hperm : (s.queued w ++ [] ++ (s.withCall who c').ofCalls (sharesOf w)).Perm (s.pending w) :=
    pending_perm hc (by rw [sharesOf, ← hshares]; rfl)
  rwa [append_nil] at hperm

end

/-- What fits the call fits what is left of it. -/
theorem FitsCall.rest (h : FitsCall su c) (hop : c.opening = none) {x : String × RowShare R P}
    {rest : List (String × RowShare R P)} (hsh : c.shares = x :: rest)
    {noting : Option (Option P)} : FitsCall su { c with noting, shares := rest } where
  shares w sh hmem := h.shares w sh (by rw [hsh]; exact mem_cons_of_mem x hmem)
  names := by
    have hnames := h.names
    rw [hsh] at hnames
    exact (nodup_cons.mp hnames).2
  cycle cy hcy := nomatch hop.symm.trans hcy
  starts cy hcy := nomatch hop.symm.trans hcy
  waits cy hcy := nomatch hop.symm.trans hcy
  covers cy hcy := nomatch hop.symm.trans hcy

/-- The calls of another caller, and the new one. -/
theorem withCall_cases {P' : Caller → ShareCall R P → Prop} (hnew : P' who c)
    (hold : ∀ who' c', s.call who' = some c' → P' who' c') :
    ∀ who' c', (s.withCall who c).call who' = some c' → P' who' c' := by
  intro who' c' hc
  by_cases heq : who' = who
  · subst heq
    cases (update_self (β := fun _ => Option (ShareCall R P)) who' (some c) s.call).symm.trans hc
    exact hnew
  · exact hold who' c' ((update_of_ne heq _ _).symm.trans hc)

end Call

variable {s' : Retention B R P}

/-- Rows that stay where they count are read, and kept until they are durable. -/
theorem Placed.of_iff (h : Placed su s) (hout : ∀ b ∈ s'.out, su.table b ∈ su.tables)
    (hwait : ∀ t, ∀ b ∈ s'.hand.waiting su.toHandoverSetup t, su.table b = t ∧ t ∈ su.tables)
    (hcalls : ∀ who c, s'.call who = some c → FitsCall su c)
    (hqueued : ∀ w, ∀ sh ∈ s'.queued w, Fits su w sh)
    (hcycles : ∀ t, ∀ cy ∈ s'.cycles t, FitsCycle su t cy) (hread : s'.read = s.read)
    (hsettled : s'.settled = s.settled) (hahead : ∀ w r, Ahead su s' w r ↔ Ahead su s w r)
    (hun : ∀ t r, Uncommitted su s' t r ↔ Uncommitted su s t r) : Placed su s' where
  out := hout
  waiting := hwait
  calls := hcalls
  queued := hqueued
  cycles := hcycles
  isRead r hr := by
    rw [hread]
    simp only [hahead, hun] at hr
    exact h.isRead r hr
  kept r hr hset := by
    rw [hread] at hr
    rw [hsettled] at hset
    simp only [hahead, hun]
    exact h.kept r hr hset

/-- A row that is handed on stands at the place of its own key, or is still to come there. -/
theorem handed_on_iff {K X : Type} {old mem : X → Prop} {rest : Prop} {own k t : K} {y : X}
    (hown : mem y → own = k) : ((∃ x, (old x ∨ t = k ∧ x = y) ∧ mem x) ∨ rest ∧ own = t) ↔
      (∃ x, old x ∧ mem x) ∨ (mem y ∨ rest) ∧ own = t := by
  constructor
  · rintro (⟨x, hx | ⟨rfl, rfl⟩, hr⟩ | ⟨hr, ht⟩)
    · exact .inl ⟨x, hx, hr⟩
    · exact .inr ⟨.inl hr, hown hr⟩
    · exact .inr ⟨.inr hr, ht⟩
  · rintro (⟨x, hx, hr⟩ | ⟨hr | hr, ht⟩)
    · exact .inl ⟨x, .inl hx, hr⟩
    · exact .inl ⟨y, .inr ⟨ht.symm.trans (hown hr), rfl⟩, hr⟩
    · exact .inr ⟨hr, ht⟩

/-! ### Opening a cycle -/

section Open

variable {who : Caller} {c : ShareCall R P} {cy : ShareCycle R P}

/-- The call has opened its cycle. -/
def opened (s : Retention B R P) (who : Caller) (c : ShareCall R P) (cy : ShareCycle R P) :
    Retention B R P :=
  { s.withCall who { c with opening := none } with
    cycles := update s.cycles c.table (s.cycles c.table ++ [cy]) }

/-- The open cycles, and the one just opened. -/
theorem mem_cycles_opened {t : String} {x : ShareCycle R P} :
    x ∈ (s.opened who c cy).cycles t ↔ x ∈ s.cycles t ∨ t = c.table ∧ x = cy :=
  mem_update_append

variable (hc : s.call who = some c)
include hc

theorem mem_unsent_opened (r : R) : r ∈ (s.opened who c cy).unsent su ↔ r ∈ s.unsent su :=
  mem_unsent_kept hc (by rfl) r

/-- The rows of the opened cycle are the ones that leave. -/
theorem mem_uncycled_opened (hop : c.opening = some cy) (r : R) :
    r ∈ s.uncycled su ↔ r ∈ cy.rows ∨ r ∈ (s.opened who c cy).uncycled su := by
  have hmem : r ∈ s.uncycled su ↔
      r ∈ cy.rows ∨ r ∈ (s.withCall who { c with opening := none }).uncycled su :=
    mem_uncycled_withCall hc (fun r => by simp [openingRows, hop]) r
  exact hmem

/-- Opening a cycle puts no row ahead of a worker. -/
theorem ahead_opened (w : String) (r : R) : Ahead su (s.opened who c cy) w r ↔ Ahead su s w r := by
  unfold Ahead
  rw [mem_unsent_opened hc]
  rfl

section

variable (h : Placed su s)
include h

/-- Opening a cycle commits no row. -/
theorem uncommitted_opened (hop : c.opening = some cy) (t : String) (r : R) :
    Uncommitted su (s.opened who c cy) t r ↔ Uncommitted su s t r := by
  have hfits := (h.calls who c hc).cycle cy hop
  unfold Uncommitted
  simp only [mem_cycles_opened, mem_uncycled_opened hc hop]
  exact handed_on_iff (hfits.rows r)

/-- Every row keeps its place when a cycle opens. -/
theorem Placed.opened (hop : c.opening = some cy) : Placed su (s.opened who c cy) := by
  have hfits := h.calls who c hc
  refine h.of_iff h.out h.waiting ?_ h.queued (fun t x hx => ?_) rfl rfl (ahead_opened hc)
    (uncommitted_opened hc h hop)
  · exact withCall_cases ⟨hfits.shares, hfits.names, nofun, nofun, nofun, nofun⟩ h.calls
  · rcases mem_cycles_opened.mp hx with hx | ⟨rfl, rfl⟩
    · exact h.cycles t x hx
    · exact hfits.cycle x hop

/-- The opened cycle waits for the shares of its rows. -/
theorem Awaited.opened (hw : Awaited su s)
    (hop : c.opening = some cy) : Awaited su (s.opened who c cy) := by
  have hfits := h.calls who c hc
  have hperm : ∀ w, ((s.opened who c cy).pending w).Perm (s.pending w) := pending_kept hc (by rfl)
  have hin : ∀ w sh, InCycle su s w sh → InCycle su (s.opened who c cy) w sh :=
    fun w sh ⟨x, hx, hrest⟩ => ⟨x, mem_cycles_opened.mpr (.inl hx), hrest⟩
  refine ⟨fun w => ?_, fun w sh hsh => hw.numbered w sh ((hperm w).mem_iff.mp hsh),
    fun t x hx w hmiss => ?_, fun t x hx => ?_,
    fun w hst sh hsh => hin w sh (hw.queued w hst sh hsh), ?_⟩
  · exact ((hperm w).map RowShare.id).nodup_iff.mpr (hw.distinct w)
  · rcases mem_cycles_opened.mp hx with hx | ⟨rfl, rfl⟩
    · obtain ⟨sh, hsh, hrest⟩ := hw.missing t x hx w hmiss
      exact ⟨sh, (hperm w).mem_iff.mpr hsh, hrest⟩
    · obtain ⟨sh, hmem, hrest⟩ := hfits.waits x hop w hmiss
      exact ⟨sh, (hperm w).mem_iff.mpr (mem_pending.mpr (.inr ⟨who, c, hc, hmem⟩)), hrest⟩
  · -- The front stays, or the new cycle is alone.
    change x ∈ (update s.cycles c.table (s.cycles c.table ++ [cy]) t).head? at hx
    by_cases ht : t = c.table
    · subst ht
      rw [update_self] at hx
      cases hcy : s.cycles c.table with
      | nil =>
        rw [hcy] at hx
        cases hx
        exact hfits.starts cy hop
      | cons y rest =>
        rw [hcy] at hx
        exact hw.front c.table x (by rw [hcy]; exact hx)
    · rw [update_of_ne ht] at hx
      exact hw.front t x hx
  · refine withCall_cases (fun _ hst w sh hmem => ?_)
      (fun who' c' hc' hop' hst w sh hmem => hin w sh (hw.called who' c' hc' hop' hst w sh hmem))
    obtain ⟨hmiss, hid, hsub⟩ := hfits.covers cy hop w sh hmem
    have hserves := (hfits.shares w sh hmem).2
    exact ⟨cy, mem_cycles_opened.mpr (.inr ⟨hserves, rfl⟩), hid.symm, hmiss, hsub⟩

/-- The opened cycle comes last in its table. -/
theorem Ranked.opened [Position P] (hr : Ranked su s)
    (hop : c.opening = some cy) (hok : Orderly su s (.sendNext who)) :
    Ranked su (s.opened who c cy) := by
  have hfits := (h.calls who c hc).cycle cy hop
  have hun := uncommitted_opened hc h hop
  refine ⟨hr.queued, fun w sh hsh r hmem => hr.unsent w sh hsh r ((mem_unsent_opened hc r).mp hmem),
    pairwise_update_append hr.cycles fun x hx z hz r hmem => ?_, fun t x hx r hmem ht => ?_,
    fun w p hp r hahead => hr.reported w p hp r ((ahead_opened hc w r).mp hahead),
    fun w p hp r hstands => hr.recorded_of_imp (fun w r => (ahead_opened hc w r).mp)
      (fun t r => (hun t r).mp) hp hstands, hr.known⟩
  · have huncycled : r ∈ s.uncycled su := (mem_uncycled_opened hc hop r).mpr (.inl hmem)
    exact hr.uncycled _ x hx r huncycled (hfits.rows r hmem) z hz r mem_cons_self
  · rcases mem_cycles_opened.mp hx with hx | ⟨rfl, rfl⟩
    · exact hr.uncycled t x hx r ((mem_uncycled_opened hc hop r).mpr (.inr hmem)) ht
    · exact (hok c hc).1 x hop r hmem ht

end

end Open

/-! ### Registering a share -/

section Register

variable {who : Caller} {c : ShareCall R P} {o : String} {sh : RowShare R P}
  {rest : List (String × RowShare R P)}

/-- The call has registered its next share. -/
def registered (s : Retention B R P) (who : Caller) (c : ShareCall R P) (o : String)
    (sh : RowShare R P) (rest : List (String × RowShare R P)) : Retention B R P :=
  { s.withCall who { c with noting := some sh.high, shares := rest } with
    index := update s.index o
      ((s.index o).add ⟨sh.id, c.table, sh.high, 0, false, false, sh.isPartial⟩)
    queued := update s.queued o (s.queued o ++ [sh]) }

/-- The queues, and the share just queued. -/
theorem mem_queued_registered {w : String} {x : RowShare R P} :
    x ∈ (s.registered who c o sh rest).queued w ↔ x ∈ s.queued w ∨ w = o ∧ x = sh :=
  mem_update_append

/-- A share that is queued reports nothing. -/
theorem reported_registered {w : String} {p : P}
    (hp : Reported su (s.registered who c o sh rest) w p) : Reported su s w p := by
  refine hp.imp_right (Or.imp_right fun hacked => ?_)
  change (update s.index o ((s.index o).add _) w).acked (su.serves w) = some p at hacked
  by_cases hw : w = o
  · rw [hw, update_self] at hacked
    exact hw ▸ hacked
  · rwa [update_of_ne hw] at hacked

variable (hc : s.call who = some c)
include hc

theorem mem_uncycled_registered (r : R) :
    r ∈ (s.registered who c o sh rest).uncycled su ↔ r ∈ s.uncycled su :=
  mem_uncycled_kept hc (by rfl) r

/-- A share that is queued commits no row. -/
theorem uncommitted_registered (t : String) (r : R) :
    Uncommitted su (s.registered who c o sh rest) t r ↔ Uncommitted su s t r := by
  unfold Uncommitted
  rw [mem_uncycled_registered hc]
  rfl

variable (hsh : c.shares = (o, sh) :: rest)
include hsh

/-- The rows of the queued share are the ones sent. -/
theorem mem_unsent_registered (r : R) :
    r ∈ s.unsent su ↔ r ∈ sh.rows ∨ r ∈ (s.registered who c o sh rest).unsent su := by
  have hmem : r ∈ s.unsent su ↔ r ∈ sh.rows ∨
      r ∈ (s.withCall who { c with noting := some sh.high, shares := rest }).unsent su :=
    mem_unsent_withCall hc (fun r => by simp [shareRows, hsh]) r
  exact hmem

/-- A queued share is as far ahead as it was in the call. -/
theorem ahead_registered (h : Placed su s) (w : String) (r : R) :
    Ahead su (s.registered who c o sh rest) w r ↔ Ahead su s w r := by
  have hfits := ((h.calls who c hc).shares o sh (by rw [hsh]; exact mem_cons_self)).1
  unfold Ahead
  simp only [mem_queued_registered, mem_unsent_registered hc hsh]
  exact handed_on_iff fun hr => (hfits.owned r hr).1

/-- Every row keeps its place when a share is queued. -/
theorem Placed.registered (h : Placed su s) (hop : c.opening = none) :
    Placed su (s.registered who c o sh rest) := by
  have hfits := h.calls who c hc
  refine h.of_iff h.out h.waiting ?_ (fun w x hx => ?_) h.cycles rfl rfl
    (ahead_registered hc hsh h) (uncommitted_registered hc)
  · exact withCall_cases (hfits.rest hop hsh) h.calls
  · rcases mem_queued_registered.mp hx with hx | ⟨rfl, rfl⟩
    · exact h.queued w x hx
    · exact (hfits.shares w x (by rw [hsh]; exact mem_cons_self)).1

/-- The share leaves the call for the worker's queue. -/
theorem pending_registered (w : String) :
    ((s.registered who c o sh rest).pending w).Perm (s.pending w) := by
  change (update s.queued o (s.queued o ++ [sh]) w ++ _).Perm _
  rw [update_append]
  refine pending_perm hc ?_
  by_cases hw : o = w
  · simp [sharesOf, hsh, hw]
  · simp [sharesOf, hsh, hw]

/-- A cycle waits for the share in the queue as in the call. -/
theorem Awaited.registered (h : Placed su s) (hw : Awaited su s) (hop : c.opening = none) :
    Awaited su (s.registered who c o sh rest) := by
  have hperm := pending_registered hc hsh
  have hserves := ((h.calls who c hc).shares o sh (by rw [hsh]; exact mem_cons_self)).2
  refine ⟨fun w => ((hperm w).map RowShare.id).nodup_iff.mpr (hw.distinct w),
    fun w x hx => hw.numbered w x ((hperm w).mem_iff.mp hx), fun t cy hcy w hmiss => ?_, hw.front,
    fun w hst x hx => ?_, ?_⟩
  · obtain ⟨x, hx, hrest⟩ := hw.missing t cy hcy w hmiss
    exact ⟨x, (hperm w).mem_iff.mpr hx, hrest⟩
  · rcases mem_queued_registered.mp hx with hx | ⟨rfl, rfl⟩
    · exact hw.queued w hst x hx
    · exact hw.called who c hc hop (hserves ▸ hst) w x (by rw [hsh]; exact mem_cons_self)
  · exact withCall_cases (fun _ hst w x hx => hw.called who c hc hop hst w x
      (by rw [hsh]; exact mem_cons_of_mem _ hx)) hw.called

/-- Registering reports nothing. -/
theorem Ranked.registered [Position P] (h : Placed su s) (hr : Ranked su s)
    (hop : c.opening = none) (hno : c.noting = none) (hok : Orderly su s (.sendNext who)) :
    Ranked su (s.registered who c o sh rest) := by
  have hfits := ((h.calls who c hc).shares o sh (by rw [hsh]; exact mem_cons_self)).1
  have hahead := ahead_registered hc hsh h
  refine ⟨pairwise_update_append hr.queued fun x hx z hz r hmem => ?_,
    fun w x hx r hmem hown => ?_, hr.cycles,
    fun t cy hcy r hmem => hr.uncycled t cy hcy r ((mem_uncycled_registered hc r).mp hmem),
    fun w p hp r hr' => ?_, fun w p hp r hstands => ?_, fun w p hp => ?_⟩
  · have hunsent : r ∈ s.unsent su := (mem_unsent_registered hc hsh r).mpr (.inl hmem)
    exact hr.unsent o x hx r hunsent (hfits.owned r hmem).1 z hz r mem_cons_self
  · rcases mem_queued_registered.mp hx with hx | ⟨rfl, rfl⟩
    · exact hr.unsent w x hx r ((mem_unsent_registered hc hsh r).mpr (.inr hmem)) hown
    · refine (hok c hc).2 hop hno (w, x) (by rw [hsh]; rfl) r ?_ hown
      exact (mem_unsent_congr (by simp [shareRows, hsh]) r).mp hmem
  · exact hr.reported w p (reported_registered hp) r ((hahead w r).mp hr')
  · exact hr.recorded_of_imp (fun w r => (hahead w r).mp)
      (fun t r => (uncommitted_registered hc t r).mp) hp hstands
  · exact hr.known w p (hp.imp_left reported_registered)

/-- The queued share is in its worker's index. -/
theorem Indexed.registered (h : Placed su s) (hi : Indexed su s) :
    Indexed su (s.registered who c o sh rest) := by
  have hserves := ((h.calls who c hc).shares o sh (by rw [hsh]; exact mem_cons_self)).2
  intro w x hx hne
  change ∃ e ∈ (update s.index o ((s.index o).add _) w).head, _
  rcases mem_queued_registered.mp hx with hx | ⟨rfl, rfl⟩
  · obtain ⟨e, he, hrest⟩ := hi w x hx hne
    by_cases hw : w = o
    · subst hw
      rw [update_self]
      exact ⟨e, mem_append_left _ he, hrest⟩
    · rw [update_of_ne hw]
      exact ⟨e, he, hrest⟩
  · rw [update_self]
    exact ⟨_, mem_concat_self, rfl, hserves.symm, rfl⟩

end Register

/-! ### Noting a position -/

section Note

variable {who : Caller} {c : ShareCall R P}

/-- The call has nothing to note any more. -/
def noted (s : Retention B R P) (who : Caller) (c : ShareCall R P) : Retention B R P :=
  s.withCall who { c with noting := none }

variable (hc : s.call who = some c)
include hc

theorem mem_unsent_noted (r : R) : r ∈ (s.noted who c).unsent su ↔ r ∈ s.unsent su :=
  mem_unsent_kept hc (by rfl) r

theorem mem_uncycled_noted (r : R) : r ∈ (s.noted who c).uncycled su ↔ r ∈ s.uncycled su :=
  mem_uncycled_kept hc (by rfl) r

/-- Noting a position puts no row ahead of a worker. -/
theorem ahead_noted (w : String) (r : R) : Ahead su (s.noted who c) w r ↔ Ahead su s w r := by
  unfold Ahead
  rw [mem_unsent_noted hc]
  rfl

/-- Noting a position commits no row. -/
theorem uncommitted_noted (t : String) (r : R) :
    Uncommitted su (s.noted who c) t r ↔ Uncommitted su s t r := by
  unfold Uncommitted
  rw [mem_uncycled_noted hc]
  rfl

/-- Every row keeps its place when a position is noted. -/
theorem Placed.noted (h : Placed su s) : Placed su (s.noted who c) := by
  have hfits := h.calls who c hc
  exact h.of_iff h.out h.waiting (withCall_cases { hfits with } h.calls) h.queued h.cycles rfl rfl
    (ahead_noted hc) (uncommitted_noted hc)

/-- The cycles wait for what they waited for. -/
theorem Awaited.noted (hw : Awaited su s) : Awaited su (s.noted who c) := by
  have hperm : ∀ w, ((s.noted who c).pending w).Perm (s.pending w) := pending_kept hc rfl
  refine ⟨fun w => ((hperm w).map RowShare.id).nodup_iff.mpr (hw.distinct w),
    fun w x hx => hw.numbered w x ((hperm w).mem_iff.mp hx), fun t cy hcy w hmiss => ?_, hw.front,
    hw.queued, withCall_cases (hw.called who c hc) hw.called⟩
  obtain ⟨x, hx, hrest⟩ := hw.missing t cy hcy w hmiss
  exact ⟨x, (hperm w).mem_iff.mpr hx, hrest⟩

/-- The order of the rows is as it was. -/
theorem Ranked.noted [Position P] (hr : Ranked su s) : Ranked su (s.noted who c) where
  queued := hr.queued
  unsent w sh hsh r hmem := hr.unsent w sh hsh r ((mem_unsent_noted hc r).mp hmem)
  cycles := hr.cycles
  uncycled t cy hcy r hmem := hr.uncycled t cy hcy r ((mem_uncycled_noted hc r).mp hmem)
  reported w p hp r hahead := hr.reported w p hp r ((ahead_noted hc w r).mp hahead)
  recorded _ _ hp _ hstands := hr.recorded_of_imp (fun w r => (ahead_noted hc w r).mp)
    (fun t r => (uncommitted_noted hc t r).mp) hp hstands
  known := hr.known

end Note

/-! ## What a call does next -/

/-- What a call does next: open the cycle, note the position, queue a share. -/
theorem sendNext_eq_some (hs : s.sendNext who = some s') : ∃ c, s.call who = some c ∧
      ((∃ cy, c.opening = some cy ∧ s' = s.opened who c cy) ∨
        (∃ pos, c.opening = none ∧ c.noting = some pos ∧ s' = (s.noted who c).note c.table pos) ∨
        ∃ o sh rest, c.opening = none ∧ c.noting = none ∧ c.shares = (o, sh) :: rest ∧
          s' = s.registered who c o sh rest) := by
  unfold Retention.sendNext at hs
  cases hc : s.call who with
  | none =>
    rw [hc] at hs
    cases hs
  | some c =>
    rw [hc] at hs
    refine ⟨c, rfl, ?_⟩
    obtain ⟨table, opening, noting, shares⟩ := c
    cases opening with
    | some cy => exact .inl ⟨cy, rfl, (Option.some.inj hs).symm⟩
    | none =>
      cases noting with
      | some pos => exact .inr (.inl ⟨pos, rfl, rfl, (Option.some.inj hs).symm⟩)
      | none =>
        cases shares with
        | nil => cases hs
        | cons x rest =>
          exact .inr (.inr ⟨x.1, x.2, rest, rfl, rfl, rfl, (Option.some.inj hs).symm⟩)

end Retention

end Urutau
