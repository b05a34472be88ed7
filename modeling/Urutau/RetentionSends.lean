import Urutau.RetentionOrder

/-!
# Reading, pulling and handing over

Up to the call of enqueue a row only changes its place.  The call splits the rows of its
batches among the owners of the table: each row is in the share of its owner, and in the
cycle that is opened over the shares.
-/

namespace Urutau

open Option List HandState ResliceState

namespace Retention

open Function (update)

variable {B R P : Type} {su : RetentionSetup B R P} {s : Retention B R P}

/-! ## Calls -/

/-- What `enqueueBatch` makes of a table's rows. -/
structure Splits (su : RetentionSetup B R P) (id : Nat) (t : String) (rows : List R)
    (c : ShareCall R P) : Prop where
  table : c.table = t
  shares : ∀ w sh, (w, sh) ∈ c.shares →
    sh.id = id ∧ Fits su w sh ∧ su.serves w = t ∧ ∀ r ∈ sh.rows, r ∈ rows
  all : ∀ r ∈ rows, ∃ sh, (su.ownerOf r, sh) ∈ c.shares ∧ r ∈ sh.rows
  names : (c.shares.map Prod.fst).Nodup
  opening : ∀ cy, c.opening = some cy →
    cy = ⟨id, su.high rows, c.shares.map Prod.fst, c.shares.map Prod.fst, rows⟩ ∧
      su.staged t = true ∧ c.shares ≠ [] ∧ ∀ w sh, (w, sh) ∈ c.shares → sh.rows ≠ []
  staged : su.staged t = true → c.opening = none → c.shares = []

variable {rows : List R}

variable {id : Nat} {owners : List String} {w : String} {items : List B}

/-- An owner's share: the rows routed to it, if there are any. -/
theorem mem_splitByOwner {isPartial : Bool}
    {sh : RowShare R P} : (w, sh) ∈ su.splitByOwner id isPartial owners rows ↔
      w ∈ owners ∧ sh.rows ≠ [] ∧ sh = ⟨id, su.high (rows.filter fun r => su.ownerOf r = w),
        rows.filter fun r => su.ownerOf r = w, isPartial⟩ := by
  unfold RetentionSetup.splitByOwner
  rw [mem_filterMap]
  constructor
  · intro h
    obtain ⟨o, ho, heq⟩ := h
    obtain ⟨hne, heq⟩ := ite_none_left_eq_some.mp heq
    cases heq
    exact ⟨ho, fun hnil => hne (List.isEmpty_iff.mpr hnil), rfl⟩
  · intro h
    obtain ⟨hw, hne, heq⟩ := h
    subst heq
    exact ⟨w, hw, if_neg fun hnil => hne (List.isEmpty_iff.mp hnil)⟩

/-- An owner has one share at most. -/
theorem splitByOwner_names_nodup (id : Nat) (isPartial : Bool)
    (hnodup : owners.Nodup) (rows : List R) :
    ((su.splitByOwner id isPartial owners rows).map Prod.fst).Nodup := by
  have hsub : List.Sublist ((su.splitByOwner id isPartial owners rows).map Prod.fst) owners := by
    clear hnodup
    induction owners with
    | nil => exact .refl _
    | cons o rest ih =>
      unfold RetentionSetup.splitByOwner at ih ⊢
      rw [filterMap_cons]
      split
      · exact ih.trans (sublist_cons_self o rest)
      · rename_i x heq
        obtain ⟨-, heq⟩ := ite_none_left_eq_some.mp heq
        cases heq
        exact ih.cons_cons o
  exact hnodup.sublist hsub

variable {t : String}

/-- The rows of a table's batches are of the table. -/
theorem tableOf_items (hitems : ∀ b ∈ items, su.table b = t ∧ t ∈ su.tables) :
    ∀ r ∈ items.flatMap su.rowsOf, su.tableOf r = t := by
  intro r hr
  obtain ⟨b, hb, hr⟩ := mem_flatMap.mp hr
  rw [su.tableOf_rows b r hr, (hitems b hb).1]

/-- **The split.** -/
theorem enqueueBatch_splits (id : Nat) (hitems : ∀ b ∈ items, su.table b = t ∧ t ∈ su.tables) :
    Splits su id t (items.flatMap su.rowsOf) (su.enqueueBatch id t items) := by
  have hrows := tableOf_items hitems
  have howner : ∀ r ∈ items.flatMap su.rowsOf, su.ownerOf r ∈ su.owners t := by
    intro r hr
    obtain ⟨b, hb, -⟩ := mem_flatMap.mp hr
    have hmem := su.ownerOf_mem r
    rw [hrows r hr] at hmem
    exact hmem (hitems b hb).2
  generalize hgen : items.flatMap su.rowsOf = rows at hrows howner ⊢
  unfold RetentionSetup.enqueueBatch
  rw [hgen]
  split
  · rename_i o ho
    have hserves : su.serves o = t := su.serves_owner t o (by rw [ho]; exact mem_cons_self)
    refine ⟨rfl, fun w sh hmem => ?_, fun r hr => ?_, nodup_singleton _, nofun, fun hst _ => ?_⟩
    · cases mem_singleton.mp hmem
      refine ⟨rfl, ⟨rfl, ?_, fun r hr => ⟨?_, ?_⟩⟩, hserves, fun r hr => hr⟩
      · rw [hserves, ho]
        exact mem_cons_self
      · have hmem := howner r hr
        rw [ho] at hmem
        exact mem_singleton.mp hmem
      · rw [hserves]
        exact hrows r hr
    · have hmem := howner r hr
      rw [ho] at hmem
      rw [mem_singleton.mp hmem]
      exact ⟨_, mem_cons_self, hr⟩
    · unfold RetentionSetup.staged at hst
      rw [ho] at hst
      simp at hst
  · rename_i hmany
    refine ⟨rfl, fun w sh hmem => ?_, fun r hr => ?_,
      splitByOwner_names_nodup id _ (su.owners_nodup t) rows, fun cy hcy => ?_, fun hst hnone => ?_⟩
    · obtain ⟨hw, -, heq⟩ := mem_splitByOwner.mp hmem
      have hserves := su.serves_owner t w hw
      subst heq
      refine ⟨rfl, ⟨rfl, ?_, fun r hr => ?_⟩, hserves, fun r hr => (mem_filter.mp hr).1⟩
      · rw [hserves]
        exact hw
      · obtain ⟨hr, hown⟩ := mem_filter.mp hr
        rw [hserves]
        exact ⟨of_decide_eq_true hown, hrows r hr⟩
    · have hmine : r ∈ rows.filter fun r' => su.ownerOf r' = su.ownerOf r :=
        mem_filter.mpr ⟨hr, decide_eq_true rfl⟩
      exact ⟨_, mem_splitByOwner.mpr ⟨howner r hr, ne_nil_of_mem hmine, rfl⟩, hmine⟩
    · obtain ⟨hcond, heq⟩ := ite_none_right_eq_some.mp hcy
      cases heq
      rw [Bool.and_eq_true] at hcond
      have hne : su.splitByOwner id (items.getLast?.any su.isPartial) (su.owners t) rows ≠ [] := by
        simpa using hcond.2
      refine ⟨rfl, ?_, hne, fun w sh hmem => (mem_splitByOwner.mp hmem).2.1⟩
      -- Some owner has rows, and the table has not one owner alone.
      obtain ⟨⟨w, sh⟩, hmem⟩ := exists_mem_of_ne_nil _ hne
      have hw := (mem_splitByOwner.mp hmem).1
      unfold RetentionSetup.staged
      rw [Bool.and_eq_true]
      refine ⟨hcond.1, decide_eq_true ?_⟩
      match hown : su.owners t with
      | [] =>
        rw [hown] at hw
        cases hw
      | [o] => exact absurd hown (hmany o)
      | _ :: _ :: _ => simp
    · by_contra hne
      have hcond : (su.stagesCycles && !(su.splitByOwner id (items.getLast?.any su.isPartial)
          (su.owners t) rows).isEmpty) = true := by
        rw [Bool.and_eq_true]
        refine ⟨?_, ?_⟩
        · exact (Bool.and_eq_true _ _ ▸ hst).1
        · simpa using hne
      dsimp only at hnone
      rw [if_pos hcond] at hnone
      cases hnone

/-- The high position is that of a row. -/
theorem high_eq_some {p : P} (h : su.high rows = some p) : ∃ r ∈ rows, su.posOf r = p := by
  obtain ⟨r, hr, hp⟩ := map_eq_some_iff.mp h
  exact ⟨r, mem_of_getLast? hr, hp⟩

theorem high_isSome (h : rows ≠ []) : ∃ p, su.high rows = some p := by
  refine ⟨su.posOf (rows.getLast h), ?_⟩
  rw [RetentionSetup.high, getLast?_eq_some_getLast h]
  rfl

/-- A call that splits a table's rows fits the routing. -/
theorem Splits.fitsCall {c : ShareCall R P} (h : Splits su id t rows c)
    (hrows : ∀ r ∈ rows, su.tableOf r = t) : FitsCall su c where
  shares w sh hmem := ⟨(h.shares w sh hmem).2.1, (h.shares w sh hmem).2.2.1.trans h.table.symm⟩
  names := h.names
  cycle cy hcy := by
    have howner : ∀ w ∈ c.shares.map Prod.fst, w ∈ su.owners c.table := by
      intro w hw
      obtain ⟨⟨o, sh⟩, hmem, heq⟩ := mem_map.mp hw
      cases heq
      obtain ⟨-, hfits, hserves, -⟩ := h.shares o sh hmem
      have howner := hfits.owner
      rw [hserves] at howner
      rw [h.table]
      exact howner
    obtain ⟨heq, hst, -⟩ := h.opening cy hcy
    rw [heq]
    rw [h.table] at howner ⊢
    exact ⟨hst, rfl, hrows, howner, howner⟩
  starts cy hcy := by
    obtain ⟨heq, -, hne, -⟩ := h.opening cy hcy
    rw [heq]
    simpa using hne
  waits cy hcy w hw := by
    obtain ⟨heq, -, -, hne⟩ := h.opening cy hcy
    rw [heq] at hw ⊢
    obtain ⟨⟨o, sh⟩, hmem, heq⟩ := mem_map.mp hw
    cases heq
    exact ⟨sh, hmem, (h.shares o sh hmem).1, hne o sh hmem⟩
  covers cy hcy w sh hmem := by
    obtain ⟨heq, -⟩ := h.opening cy hcy
    obtain ⟨hid, -, -, hsub⟩ := h.shares w sh hmem
    rw [heq]
    exact ⟨mem_map.mpr ⟨(w, sh), hmem, rfl⟩, hid, hsub⟩

/-! ## The places of a step's rows -/

variable {r : R}

/-- A row upstream is of a configured table. -/
theorem tableOf_mem_of_upstream (h : Placed su s) (hr : r ∈ s.upstream su) :
    su.tableOf r ∈ su.tables := by
  rcases mem_upstream.mp hr with ⟨b, hb, hr⟩ | ⟨t, ht, b, hb, hr⟩
  · rw [su.tableOf_rows b r hr]
    exact h.out b hb
  · rw [su.tableOf_rows b r hr, (h.waiting t b hb).1]
    exact ht

/-- A row ahead of a worker is of the worker's table. -/
theorem Placed.tableOf_ahead (h : Placed su s) (hr : Ahead su s w r) :
    su.tableOf r = su.serves w := by
  rcases hr with ⟨sh, hsh, hr⟩ | ⟨hr, hown⟩
  · exact ((h.queued w sh hsh).owned r hr).2
  rcases mem_unsent.mp hr with hup | ⟨who, c, hc, o, sh, hmem, hr⟩
  · have howner := su.ownerOf_mem r (tableOf_mem_of_upstream h hup)
    rw [hown] at howner
    exact (su.serves_owner _ w howner).symm
  · obtain ⟨howned, htable⟩ := (((h.calls who c hc).shares o sh hmem).1.owned r hr)
    rw [← hown, howned]
    exact htable

/-- On a staged table what is ahead of a worker is not committed. -/
theorem uncommitted_of_ahead (h : Placed su s) (ha : Awaited su s)
    (hst : su.staged (su.serves w) = true) (hr : Ahead su s w r) :
    Uncommitted su s (su.serves w) r := by
  have htable := h.tableOf_ahead hr
  rcases hr with ⟨sh, hsh, hr⟩ | ⟨hr, hown⟩
  · obtain ⟨cy, hcy, -, -, hsub⟩ := ha.queued w hst sh hsh
    exact .inl ⟨cy, hcy, hsub r hr⟩
  rcases mem_unsent.mp hr with hup | ⟨who, c, hc, o, sh, hmem, hr⟩
  · exact .inr ⟨mem_uncycled.mpr (.inl hup), htable⟩
  obtain ⟨hfits, hserves⟩ := (h.calls who c hc).shares o sh hmem
  have how : o = w := ((hfits.owned r hr).1.symm).trans hown
  subst how
  cases hop : c.opening with
  | some cy =>
    have hsub := ((h.calls who c hc).covers cy hop o sh hmem).2.2
    exact .inr ⟨mem_uncycled.mpr (.inr ⟨who, c, hc, cy, hop, hsub r hr⟩), htable⟩
  | none =>
    obtain ⟨cy, hcy, -, -, hsub⟩ := ha.called who c hc hop (hserves ▸ hst) o sh hmem
    exact .inl ⟨cy, hcy, hsub r hr⟩

/-! ## Up to the call -/

section Moved

variable {out : List B} {hand : HandState B} {call : Caller → Option (ShareCall R P)} {seq : Nat}

/-- Rows that move up to the calls stay where they count. -/
theorem Placed.moved (h : Placed su s) (hout : ∀ b ∈ out, su.table b ∈ su.tables)
    (hwait : ∀ t, ∀ b ∈ hand.waiting su.toHandoverSetup t, su.table b = t ∧ t ∈ su.tables)
    (hcalls : ∀ who c, call who = some c → FitsCall su c)
    (hunsent : ∀ r, r ∈ ({ s with out, hand, call, seq } : Retention B R P).unsent su ↔
      r ∈ s.unsent su)
    (huncycled : ∀ r ∈ ({ s with out, hand, call, seq } : Retention B R P).uncycled su,
      r ∈ s.uncycled su)
    (hstaged : ∀ r ∈ s.uncycled su, su.staged (su.tableOf r) = true →
      r ∈ ({ s with out, hand, call, seq } : Retention B R P).uncycled su) :
    Placed su { s with out, hand, call, seq } where
  out := hout
  waiting := hwait
  calls := hcalls
  queued := h.queued
  cycles := h.cycles
  isRead r hr := by
    rcases hr with ⟨w, hq | ⟨hu, hown⟩⟩ | ⟨t, hc | ⟨hu, ht⟩⟩
    · exact h.isRead r (.inl ⟨w, .inl hq⟩)
    · exact h.isRead r (.inl ⟨w, .inr ⟨(hunsent r).mp hu, hown⟩⟩)
    · exact h.isRead r (.inr ⟨t, .inl hc⟩)
    · exact h.isRead r (.inr ⟨t, .inr ⟨huncycled r hu, ht⟩⟩)
  kept r hr hset := by
    refine ite_imp (fun hst hold => ?_) (fun _ hold => ?_) (h.kept r hr hset)
    · exact hold.imp_right fun ⟨hu, ht⟩ => ⟨hstaged r hu hst, ht⟩
    · exact hold.imp_right fun ⟨hu, hown⟩ => ⟨(hunsent r).mpr hu, hown⟩

/-- What lies before all that was ahead lies before all that still is. -/
theorem Ranked.recorded_of_imp [Position P] {s' : Retention B R P} (h : Ranked su s)
    (hahead : ∀ w r, Ahead su s' w r → Ahead su s w r)
    (hun : ∀ t r, Uncommitted su s' t r → Uncommitted su s t r) {w : String} {p : P}
    (hp : Recorded s w p) (hr : StandsFor su s' w r) :
    Position.covered (su.posOf r) p = false :=
  h.recorded w p hp r (ite_imp (fun _ => hun _ r) (fun _ => hahead w r) hr)

/-- Rows only move towards the workers. -/
theorem Ranked.moved [Position P] (h : Ranked su s)
    (hunsent : ∀ r ∈ ({ s with out, hand, call, seq } : Retention B R P).unsent su, r ∈ s.unsent su)
    (huncycled : ∀ r ∈ ({ s with out, hand, call, seq } : Retention B R P).uncycled su,
      r ∈ s.uncycled su) :
    Ranked su { s with out, hand, call, seq } where
  queued := h.queued
  unsent w sh hsh r hr := h.unsent w sh hsh r (hunsent r hr)
  cycles := h.cycles
  uncycled t cy hcy r hr := h.uncycled t cy hcy r (huncycled r hr)
  reported w p hp r hr := h.reported w p hp r (hr.imp_right fun ⟨hu, hown⟩ => ⟨hunsent r hu, hown⟩)
  recorded w p hp r hr := by
    refine h.recorded_of_imp (fun w r hr => ?_) (fun t r hr => ?_) hp hr
    · exact hr.imp_right fun ⟨hu, hown⟩ => ⟨hunsent r hu, hown⟩
    · exact hr.imp_right fun ⟨hu, ht⟩ => ⟨huncycled r hu, ht⟩
  known := h.known

end Moved

/-! ### Reading -/

section Read

variable {b : B}

/-- The rows read join what is upstream. -/
theorem mem_upstream_read :
    r ∈ (s.readBatch su b).upstream su ↔ r ∈ s.upstream su ∨ r ∈ su.rowsOf b := by
  unfold upstream readBatch
  simp only [mem_flatMap, mem_append, mem_singleton]
  constructor
  · intro h
    obtain ⟨b', (hb | rfl) | hb, hr⟩ := h
    · exact .inl ⟨b', .inl hb, hr⟩
    · exact .inr hr
    · exact .inl ⟨b', .inr hb, hr⟩
  · intro h
    rcases h with ⟨b', hb | hb, hr⟩ | hr
    · exact ⟨b', .inl (.inl hb), hr⟩
    · exact ⟨b', .inr hb, hr⟩
    · exact ⟨b, .inl (.inr rfl), hr⟩

theorem mem_unsent_read : r ∈ (s.readBatch su b).unsent su ↔ r ∈ s.unsent su ∨ r ∈ su.rowsOf b := by
  rw [mem_unsent, mem_unsent, mem_upstream_read, or_right_comm]
  rfl

theorem mem_uncycled_read :
    r ∈ (s.readBatch su b).uncycled su ↔ r ∈ s.uncycled su ∨ r ∈ su.rowsOf b := by
  rw [mem_uncycled, mem_uncycled, mem_upstream_read, or_right_comm]
  rfl

/-- The rows read lie ahead of their workers. -/
theorem ahead_read {w : String} (hr : Ahead su (s.readBatch su b) w r) :
    Ahead su s w r ∨ r ∈ su.rowsOf b ∧ su.ownerOf r = w := by
  rcases hr with hr | ⟨hr, hown⟩
  · exact .inl (.inl hr)
  · rcases mem_unsent_read.mp hr with hr | hr
    · exact .inl (.inr ⟨hr, hown⟩)
    · exact .inr ⟨hr, hown⟩

/-- The rows read are uncommitted. -/
theorem uncommitted_read {t : String} (hr : Uncommitted su (s.readBatch su b) t r) :
    Uncommitted su s t r ∨ r ∈ su.rowsOf b ∧ su.tableOf r = t := by
  rcases hr with hr | ⟨hr, ht⟩
  · exact .inl (.inl hr)
  · rcases mem_uncycled_read.mp hr with hr | hr
    · exact .inl (.inr ⟨hr, ht⟩)
    · exact .inr ⟨hr, ht⟩

/-- A batch read has its place in the channel. -/
theorem Placed.readBatch (h : Placed su s) (hb : su.table b ∈ su.tables) :
    Placed su (s.readBatch su b) where
  out := Runs.forall_mem_concat.mpr ⟨h.out, hb⟩
  waiting := h.waiting
  calls := h.calls
  queued := h.queued
  cycles := h.cycles
  isRead r hr := by
    rcases hr with ⟨w, hr⟩ | ⟨t, hr⟩
    · rcases ahead_read hr with hr | ⟨hr, -⟩
      · exact mem_append_left _ (h.isRead r (.inl ⟨w, hr⟩))
      · exact mem_append_right _ hr
    · rcases uncommitted_read hr with hr | ⟨hr, -⟩
      · exact mem_append_left _ (h.isRead r (.inr ⟨t, hr⟩))
      · exact mem_append_right _ hr
  kept r hr hset := by
    have hcase : (if su.staged (su.tableOf r) then Uncommitted su s (su.tableOf r) r
        else Ahead su s (su.ownerOf r) r) ∨ r ∈ su.rowsOf b :=
      (mem_append.mp hr).imp_left fun hr => h.kept r hr hset
    split
    · rename_i hst
      rw [if_pos hst] at hcase
      rcases hcase with (hcy | ⟨hu, ht⟩) | hr
      · exact .inl hcy
      · exact .inr ⟨mem_uncycled_read.mpr (.inl hu), ht⟩
      · exact .inr ⟨mem_uncycled_read.mpr (.inr hr), rfl⟩
    · rename_i hst
      rw [if_neg hst] at hcase
      rcases hcase with (hq | ⟨hu, hown⟩) | hr
      · exact .inl hq
      · exact .inr ⟨mem_unsent_read.mpr (.inl hu), hown⟩
      · exact .inr ⟨mem_unsent_read.mpr (.inr hr), rfl⟩

/-- A batch read comes after every row that is out. -/
theorem Ranked.readBatch [Position P] (h : Placed su s) (hr : Ranked su s)
    (hb : su.table b ∈ su.tables) (hok : Orderly su s (.read b)) :
    Ranked su (s.readBatch su b) := by
  have htable : ∀ r ∈ su.rowsOf b, su.serves (su.ownerOf r) = su.table b := by
    intro r hr
    have htable := su.tableOf_rows b r hr
    exact su.serves_owner _ _ (htable ▸ su.ownerOf_mem r (htable ▸ hb))
  -- A new row is past every position known of its table.
  have hpast : ∀ w p, Reported su s w p ∨ Recorded s w p → ∀ r ∈ su.rowsOf b,
      su.serves w = su.table b → Position.covered (su.posOf r) p = false := by
    intro w p hp r hmem hserves
    rcases hr.known w p hp with hres | ⟨r', hread, htab, hpos⟩
    · exact (hok r hmem).2 p hres
    · have hbefore := (hok r hmem).1 r' hread (htab.trans hserves)
      rw [← hpos]
      exact hbefore r' mem_cons_self r mem_cons_self
  have hrows : ∀ (xs : List R), (∀ x ∈ xs, x ∈ s.read ∧ su.tableOf x = su.table b) →
      ∀ r ∈ su.rowsOf b, Before su xs [r] := by
    intro xs hxs r hmem x hx y hy
    exact (hok r hmem).1 x (hxs x hx).1 (hxs x hx).2 x mem_cons_self y hy
  refine ⟨hr.queued, fun w sh hsh r hmem hown => ?_, hr.cycles, fun t cy hcy r hmem ht => ?_,
    fun w p hp r hahead => ?_, fun w p hp r hstands => ?_, fun w p hp => ?_⟩
  · rcases mem_unsent_read.mp hmem with hmem | hmem
    · exact hr.unsent w sh hsh r hmem hown
    · refine hrows sh.rows (fun x hx => ⟨h.isRead x (.inl ⟨w, .inl ⟨sh, hsh, hx⟩⟩), ?_⟩) r hmem
      rw [((h.queued w sh hsh).owned x hx).2, ← hown, htable r hmem]
  · rcases mem_uncycled_read.mp hmem with hmem | hmem
    · exact hr.uncycled t cy hcy r hmem ht
    · refine hrows cy.rows (fun x hx => ⟨h.isRead x (.inr ⟨t, .inl ⟨cy, hcy, hx⟩⟩), ?_⟩) r hmem
      rw [(h.cycles t cy hcy).rows x hx, ← ht, su.tableOf_rows b r hmem]
  · rcases ahead_read hahead with hahead | ⟨hmem, hown⟩
    · exact hr.reported w p hp r hahead
    · exact hpast w p (.inl hp) r hmem (hown ▸ htable r hmem)
  · unfold StandsFor at hstands
    split at hstands
    · rename_i hst
      rcases uncommitted_read hstands with hun | ⟨hmem, ht⟩
      · exact hr.recorded w p hp r (by rw [StandsFor, if_pos hst]; exact hun)
      · exact hpast w p (.inr hp) r hmem (ht.symm.trans (su.tableOf_rows b r hmem))
    · rename_i hst
      rcases ahead_read hstands with hahead | ⟨hmem, hown⟩
      · exact hr.recorded w p hp r (by rw [StandsFor, if_neg hst]; exact hahead)
      · exact hpast w p (.inr hp) r hmem (hown ▸ htable r hmem)
  · rcases hr.known w p hp with hres | ⟨r, hread, hrest⟩
    · exact .inl hres
    · exact .inr ⟨r, mem_append_left _ hread, hrest⟩

end Read

/-! ### Pulling -/

section Pull

variable {b : B} {rest : List B} {h' : HandState B}

section

variable (h : Placed su s) (hout : s.out = b :: rest)
  (hs : HandState.step su.toHandoverSetup s.hand (.pull b) = some h')
include h hout hs

/-- The pump takes a batch from the channel. -/
theorem mem_upstream_pull (r : R) :
    r ∈ ({ s with out := rest, hand := h' } : Retention B R P).upstream su ↔ r ∈ s.upstream su := by
  rw [mem_upstream, mem_upstream, hout]
  constructor
  · intro hr
    rcases hr with ⟨b', hb, hr⟩ | ⟨t, ht, b', hb, hr⟩
    · exact .inl ⟨b', mem_cons_of_mem b hb, hr⟩
    rcases mem_waiting_of_step hs (.inl hb) with hb | hb
    · exact .inr ⟨t, ht, b', hb, hr⟩
    simp only [pulls] at hb
    split at hb
    · rw [mem_singleton] at hb
      exact .inl ⟨b', hb ▸ mem_cons_self, hr⟩
    · cases hb
  · intro hr
    rcases hr with ⟨b', hb, hr⟩ | ⟨t, ht, b', hb, hr⟩
    · rcases mem_cons.mp hb with rfl | hb
      · have hpull : b' ∈ pulls su.toHandoverSetup (su.table b') (.pull b') := by
          simp [pulls]
        have hmem := (waiting_or_handsOver hs (.inr hpull)).resolve_right
          (by simp [handsOver, calls])
        exact .inr ⟨su.table b', h.out b' (by rw [hout]; exact mem_cons_self), b', hmem, hr⟩
      · exact .inl ⟨b', hb, hr⟩
    · have hmem := (waiting_or_handsOver hs (.inl hb)).resolve_right (by simp [handsOver, calls])
      exact .inr ⟨t, ht, b', hmem, hr⟩

/-- The pulled batch is in the pump's hand. -/
theorem Placed.pull : Placed su { s with out := rest, hand := h' } := by
  have hup := mem_upstream_pull h hout hs
  have hb : b ∈ s.out := by rw [hout]; exact mem_cons_self
  refine h.moved (fun b' hb' => h.out b' (by rw [hout]; exact mem_cons_of_mem b hb'))
    (fun t b' hb' => ?_) h.calls (fun r => ?_) (fun r hr => ?_) (fun r hr _ => ?_)
  · rcases mem_waiting_of_step hs (.inl hb') with hb' | hb'
    · exact h.waiting t b' hb'
    simp only [pulls] at hb'
    split at hb'
    · rename_i ht
      rw [mem_singleton] at hb'
      subst hb'
      exact ⟨ht, ht ▸ h.out b' hb⟩
    · cases hb'
  · rw [mem_unsent, mem_unsent, hup]
  · rw [mem_uncycled] at hr ⊢
    exact hr.imp_left (hup r).mp
  · rw [mem_uncycled] at hr ⊢
    exact hr.imp_left (hup r).mpr

end

/-- Pulling a batch leaves the order as it was. -/
theorem Ranked.pull [Position P] (h : Placed su s) (hr : Ranked su s) (hout : s.out = b :: rest)
    (hs : HandState.step su.toHandoverSetup s.hand (.pull b) = some h') :
    Ranked su { s with out := rest, hand := h' } := by
  have hup := mem_upstream_pull h hout hs
  refine hr.moved (fun r hr => ?_) (fun r hr => ?_)
  · rw [mem_unsent] at hr ⊢
    exact hr.imp_left (hup r).mp
  · rw [mem_uncycled] at hr ⊢
    exact hr.imp_left (hup r).mp

end Pull

/-! ### Handing over -/

section Hand

variable {a : HandAction B} {h' : HandState B} {c : ShareCall R P}

/-- The state after a step of the hand-over. -/
def handed (su : RetentionSetup B R P) (s : Retention B R P) (a : HandAction B)
    (h' : HandState B) : Retention B R P :=
  { s with
    hand := h'
    seq := if (s.called su a).isSome then s.seq + 1 else s.seq
    call := fun who =>
      if callerOf a = some who then s.called su a else s.call who }

/-- A hand-over step, and the calls it makes. -/
theorem handStep_eq_some {s' : Retention B R P} (hs : s.handStep su a = some s') :
    ∃ h', HandState.step su.toHandoverSetup s.hand a = some h' ∧ s' = s.handed su a h' ∧
      s.blocked a = false := by
  obtain ⟨hfree, hs⟩ := ite_none_left_eq_some.mp hs
  obtain ⟨h', hstep, rfl⟩ := map_eq_some_iff.mp hs
  exact ⟨h', hstep, rfl, Bool.eq_false_iff.mpr hfree⟩

theorem pulls_nil (ha : ∀ b, a ≠ .pull b) (t : String) : pulls su.toHandoverSetup t a = [] := by
  cases a with
  | pull b => exact absurd rfl (ha b)
  | _ => rfl

/-- Who begins a call is the caller of the step. -/
theorem callerOf_of_calls {x : String × List B}
    (hcalls : s.hand.calls su.toHandoverSetup a = some x) :
    ∃ who, callerOf a = some who := by
  cases a with
  | pump due => exact ⟨.pump, rfl⟩
  | send => exact ⟨.drain, rfl⟩
  | _ => cases hcalls

/-- A worker has one share of a call at most. -/
theorem sharesOf_nodup (w : String) (h : (c.shares.map Prod.fst).Nodup) :
    ((sharesOf w c).map RowShare.id).Nodup := by
  unfold sharesOf
  generalize c.shares = xs at h ⊢
  induction xs with
  | nil => exact nodup_nil
  | cons x rest ih =>
    obtain ⟨hx, hrest⟩ := nodup_cons.mp h
    by_cases heq : x.1 = w
    · have hnil : (rest.filterMap fun y => if y.1 = w then some y.2 else none) = [] := by
        rw [filterMap_eq_nil_iff]
        intro y hy
        refine if_neg fun hyw => hx ?_
        rw [heq, ← hyw]
        exact mem_map.mpr ⟨y, hy, rfl⟩
      simp only [filterMap_cons, heq, hnil]
      exact nodup_singleton _
    · simp only [filterMap_cons, heq]
      exact ih hrest

/-- A step of the hand-over other than a pull, by a caller whose last call has returned. -/
structure Hands (su : RetentionSetup B R P) (s : Retention B R P) (a : HandAction B)
    (h' : HandState B) : Prop where
  pull : ∀ b, a ≠ .pull b
  free : s.blocked a = false
  step : HandState.step su.toHandoverSetup s.hand a = some h'

variable (hs : Hands su s a h')
include hs

/-- What a call is begun with waited. -/
theorem waiting_of_calls {t : String} {items : List B}
    (hcalls : s.hand.calls su.toHandoverSetup a = some (t, items)) :
    ∀ b ∈ items, b ∈ s.hand.waiting su.toHandoverSetup t := by
  intro b hb
  have hover : b ∈ s.hand.handsOver su.toHandoverSetup t a := by
    unfold handsOver
    rw [hcalls]
    change b ∈ if t = t then items else []
    rwa [if_pos rfl]
  have hmem := mem_waiting_of_step hs.step (.inr hover)
  rw [pulls_nil hs.pull] at hmem
  exact hmem.resolve_right (nomatch ·)

/-- The call a step begins splits rows of one table that were upstream. -/
theorem called_splits (h : Placed su s) (hc : s.called su a = some c) :
    ∃ t rows, (∀ r ∈ rows, r ∈ s.upstream su ∧ su.tableOf r = t) ∧
      Splits su (s.seq + 1) t rows c := by
  obtain ⟨⟨t, items⟩, hcalls, rfl⟩ := map_eq_some_iff.mp hc
  have hwait := waiting_of_calls hs hcalls
  have hitems : ∀ b ∈ items, su.table b = t ∧ t ∈ su.tables :=
    fun b hb => h.waiting t b (hwait b hb)
  refine ⟨t, _, fun r hr => ⟨?_, tableOf_items hitems r hr⟩, enqueueBatch_splits (s.seq + 1) hitems⟩
  obtain ⟨b, hb, hr⟩ := mem_flatMap.mp hr
  exact mem_upstream.mpr (.inr ⟨t, (hitems b hb).2, b, hwait b hb, hr⟩)

variable {who : Caller}

/-- A call under way after the step is such a call, or was under way. -/
theorem call_handed (h : Placed su s) (hc : (s.handed su a h').call who = some c) :
    (∃ t rows, (∀ r ∈ rows, r ∈ s.upstream su ∧ su.tableOf r = t) ∧
      Splits su (s.seq + 1) t rows c) ∨ s.call who = some c := by
  change (if callerOf a = some who then s.called su a else s.call who) = some c at hc
  split at hc
  · exact .inl (called_splits hs h hc)
  · exact .inr hc

/-- What is upstream afterwards was before. -/
theorem upstream_handed (hr : r ∈ (s.handed su a h').upstream su) : r ∈ s.upstream su := by
  refine mem_upstream.mpr ((mem_upstream.mp hr).imp_right fun ⟨t, ht, b, hb, hr⟩ => ?_)
  have hmem := mem_waiting_of_step hs.step (.inl hb)
  rw [pulls_nil hs.pull] at hmem
  exact ⟨t, ht, b, hmem.resolve_right (nomatch ·), hr⟩

/-- What was upstream is still, or the call is begun with it. -/
theorem upstream_or_called (h : Placed su s) (hr : r ∈ s.upstream su) :
    r ∈ (s.handed su a h').upstream su ∨ ∃ who c rows, (s.handed su a h').call who = some c ∧
      r ∈ rows ∧ Splits su (s.seq + 1) (su.tableOf r) rows c := by
  rcases mem_upstream.mp hr with hb | ⟨t, ht, b, hb, hr⟩
  · exact .inl (mem_upstream.mpr (.inl hb))
  rcases waiting_or_handsOver hs.step (.inl hb) with hb | hb
  · exact .inl (mem_upstream.mpr (.inr ⟨t, ht, b, hb, hr⟩))
  unfold handsOver at hb
  split at hb
  · rename_i t' items hcalls
    split at hb
    · obtain ⟨who, hwho⟩ := callerOf_of_calls hcalls
      have hrow := mem_flatMap.mpr ⟨b, hb, hr⟩
      have hitems := fun b hb => h.waiting t' b (waiting_of_calls hs hcalls b hb)
      have hc : s.called su a = some (su.enqueueBatch (s.seq + 1) t' items) :=
        map_eq_some_iff.mpr ⟨_, hcalls, rfl⟩
      refine .inr ⟨who, _, _, (if_pos hwho).trans hc, hrow, ?_⟩
      rw [tableOf_items hitems r hrow]
      exact enqueueBatch_splits (s.seq + 1) hitems
    · cases hb
  · cases hb

/-- A step's caller has nothing left of its last call. -/
theorem shares_nil_of_free (hwho : callerOf a = some who) (hc : s.call who = some c) :
    c.opening = none ∧ c.shares = [] := by
  have hfree := hs.free
  unfold blocked at hfree
  rw [hwho] at hfree
  simp only [hc, any_some, Bool.not_eq_false', ShareCall.returned, Bool.and_eq_true,
    isNone_iff_eq_none, List.isEmpty_iff] at hfree
  exact ⟨hfree.1.1, hfree.2⟩

/-- A call of someone else goes on. -/
theorem call_kept (hc : s.call who = some c)
    (hleft : c.opening ≠ none ∨ c.shares ≠ []) : (s.handed su a h').call who = some c := by
  change (if callerOf a = some who then s.called su a else s.call who) = some c
  rw [if_neg fun hwho => ?_]
  · exact hc
  · obtain ⟨hop, hsh⟩ := shares_nil_of_free hs hwho hc
    exact hleft.elim (· hop) (· hsh)

section

variable (h : Placed su s)
include h

/-- A hand-over sends no row yet. -/
theorem unsent_handed (r : R) : r ∈ (s.handed su a h').unsent su ↔ r ∈ s.unsent su := by
  rw [mem_unsent, mem_unsent]
  constructor
  · intro hr
    rcases hr with hup | ⟨who, c, hc, w, sh, hmem, hr⟩
    · exact .inl (upstream_handed hs hup)
    · rcases call_handed hs h hc with ⟨t, rows, hup, hsplit⟩ | hc
      · exact .inl (hup r ((hsplit.shares w sh hmem).2.2.2 r hr)).1
      · exact .inr ⟨who, c, hc, w, sh, hmem, hr⟩
  · intro hr
    rcases hr with hup | ⟨who, c, hc, w, sh, hmem, hr⟩
    · rcases upstream_or_called hs h hup with hup | ⟨who, c, rows, hc, hr, hsplit⟩
      · exact .inl hup
      · obtain ⟨sh, hmem, hr⟩ := hsplit.all r hr
        exact .inr ⟨who, c, hc, _, sh, hmem, hr⟩
    · exact .inr ⟨who, c, call_kept hs hc (.inr (ne_nil_of_mem hmem)), w, sh, hmem, hr⟩

/-- A hand-over takes no row out of its cycle. -/
theorem uncycled_handed (hr : r ∈ (s.handed su a h').uncycled su) : r ∈ s.uncycled su := by
  rw [mem_uncycled] at hr ⊢
  rcases hr with hup | ⟨who, c, hc, cy, hop, hr⟩
  · exact .inl (upstream_handed hs hup)
  · rcases call_handed hs h hc with ⟨t, rows, hup, hsplit⟩ | hc
    · rw [(hsplit.opening cy hop).1] at hr
      exact .inl (hup r hr).1
    · exact .inr ⟨who, c, hc, cy, hop, hr⟩

/-- The rows of a staged table go into the cycle their call is to open. -/
theorem uncycled_of_staged (hr : r ∈ s.uncycled su)
    (hst : su.staged (su.tableOf r) = true) : r ∈ (s.handed su a h').uncycled su := by
  rw [mem_uncycled] at hr ⊢
  rcases hr with hup | ⟨who, c, hc, cy, hop, hr⟩
  · rcases upstream_or_called hs h hup with hup | ⟨who, c, rows, hc, hr, hsplit⟩
    · exact .inl hup
    obtain ⟨sh, hmem, -⟩ := hsplit.all r hr
    cases hop : c.opening with
    | none => exact absurd (hsplit.staged hst hop) (ne_nil_of_mem hmem)
    | some cy =>
      refine .inr ⟨who, c, hc, cy, hop, ?_⟩
      rw [(hsplit.opening cy hop).1]
      exact hr
  · exact .inr ⟨who, c, call_kept hs hc (.inl (by rw [hop]; exact some_ne_none cy)), cy, hop, hr⟩

/-- What a hand-over hands on is in its call. -/
theorem Placed.handed : Placed su (s.handed su a h') := by
  refine h.moved h.out (fun t b hb => ?_) (fun who c hc => ?_) (unsent_handed hs h)
    (fun r hr => uncycled_handed hs h hr) (fun r hr hst => uncycled_of_staged hs h hr hst)
  · have hmem := mem_waiting_of_step hs.step (.inl hb)
    rw [pulls_nil hs.pull] at hmem
    exact h.waiting t b (hmem.resolve_right (nomatch ·))
  · rcases call_handed hs h hc with ⟨t, rows, hup, hsplit⟩ | hc
    · exact hsplit.fitsCall fun r hr => (hup r hr).2
    · exact h.calls who c hc

/-- A hand-over leaves the order as it was. -/
theorem Ranked.handed [Position P] (hr : Ranked su s) : Ranked su (s.handed su a h') :=
  hr.moved (fun r hr => (unsent_handed hs h r).mp hr) (fun _ hr => uncycled_handed hs h hr)

end

/-- The call a step begins adds its shares to a worker's. -/
theorem pending_handed (w : String) : ((s.handed su a h').pending w).Perm
      (s.pending w ++ (s.called su a).elim [] (sharesOf w)) := by
  have hnil : ∀ who, callerOf a = some who → (s.call who).elim [] (sharesOf w) = [] := by
    intro who hwho
    cases hc : s.call who with
    | none => rfl
    | some c =>
      change sharesOf w c = []
      rw [sharesOf, (shares_nil_of_free hs hwho hc).2]
      rfl
  unfold pending ofCalls Retention.handed
  dsimp only
  cases hwho : callerOf a with
  | none =>
    have hcalled : s.called su a = none := by
      cases hc : s.called su a with
      | none => rfl
      | some c =>
        obtain ⟨x, hcalls, -⟩ := map_eq_some_iff.mp hc
        obtain ⟨who, hsome⟩ := callerOf_of_calls hcalls
        cases hwho.symm.trans hsome
    simp [hcalled]
  | some who =>
    have hnil := hnil who hwho
    cases who with
    | pump =>
      rw [hnil, append_assoc]
      exact List.Perm.append_left _ perm_append_comm
    | drain =>
      rw [hnil, if_pos rfl, if_neg (by simp), append_nil, append_assoc]

/-- A hand-over opens no cycle. -/
theorem Awaited.handed (h : Placed su s) (hw : Awaited su s) : Awaited su (s.handed su a h') := by
  have hperm : ∀ w, ((s.handed su a h').pending w).Perm _ := pending_handed hs
  -- What a call adds has the next number.
  have hnew : ∀ w, ∀ sh ∈ (s.called su a).elim [] (sharesOf w),
      (s.called su a).isSome ∧ sh.id = s.seq + 1 := by
    intro w sh hsh
    cases hc : s.called su a with
    | none =>
      rw [hc] at hsh
      cases hsh
    | some c =>
      rw [hc] at hsh
      obtain ⟨t, rows, -, hsplit⟩ := called_splits hs h hc
      exact ⟨rfl, (hsplit.shares w sh (mem_sharesOf.mp hsh)).1⟩
  have hmono : s.seq ≤ (s.handed su a h').seq := by
    change s.seq ≤ if (s.called su a).isSome then s.seq + 1 else s.seq
    split <;> omega
  refine ⟨fun w => ?_, fun w sh hsh => ?_, fun t cy hcy w hmiss => ?_, hw.front, hw.queued,
    fun who c hc hop hst w sh hmem => ?_⟩
  · rw [((hperm w).map RowShare.id).nodup_iff, map_append, nodup_append]
    refine ⟨hw.distinct w, ?_, fun i hi j hj hij => ?_⟩
    · cases hc : s.called su a with
      | none => exact nodup_nil
      | some c =>
        obtain ⟨t, rows, -, hsplit⟩ := called_splits hs h hc
        exact sharesOf_nodup w hsplit.names
    · obtain ⟨sh, hsh, rfl⟩ := mem_map.mp hi
      obtain ⟨sh', hsh', rfl⟩ := mem_map.mp hj
      have hle := hw.numbered w sh hsh
      have hnext := (hnew w sh' hsh').2
      omega
  · rcases mem_append.mp ((hperm w).mem_iff.mp hsh) with hsh | hsh
    · exact Nat.le_trans (hw.numbered w sh hsh) hmono
    · obtain ⟨hsome, hnext⟩ := hnew w sh hsh
      change sh.id ≤ if (s.called su a).isSome then s.seq + 1 else s.seq
      rw [if_pos hsome, hnext]
  · obtain ⟨sh, hsh, heq⟩ := hw.missing t cy hcy w hmiss
    exact ⟨sh, (hperm w).mem_iff.mpr (mem_append_left _ hsh), heq⟩
  · rcases call_handed hs h hc with ⟨t, rows, -, hsplit⟩ | hc
    · rw [hsplit.staged (hsplit.table ▸ hst) hop] at hmem
      cases hmem
    · exact hw.called who c hc hop hst w sh hmem

end Hand

end Retention

end Urutau
