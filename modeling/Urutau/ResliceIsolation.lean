import Urutau.Reslice

/-!
# Isolation of a re-slice

If nothing accepted of a table is in a buffer, in hand or in a call when the scaler finds
it drained, then the table is quiet until the flip, and what is in a buffer, in a call, in
flight or in an open cycle always belongs to the current layout: every batch is routed by
the layout it was accepted under, and the rows accepted before a flip have all reached
their owner of the layout before.
-/

namespace Urutau

open List ResliceState Option Runs

namespace ResliceState

open Function (update update_self update_of_ne)

variable {B R : Type} {su : ResliceSetup B R} {s s' : ResliceState B R}

/-- A row has been settled by its owner of the layout. -/
def Reached (su : ResliceSetup B R) (s : ResliceState B R) (t : String) (l : TableLayout) (r : R) :
    Prop :=
  ∃ e ∈ s.reached, e.table = t ∧ e.layout = l ∧ e.owner = su.ownerOf l.owners r ∧ r ∈ e.rows

/-- A row is in flight to its owner of the layout, or a call is about to send it. -/
def OnItsWay (su : ResliceSetup B R) (s : ResliceState B R) (t : String) (l : TableLayout) (r : R) :
    Prop :=
  (∃ e ∈ s.inFlight, e.table = t ∧ e.layout = l ∧ e.owner = su.ownerOf l.owners r ∧ r ∈ e.rows) ∨
    ∃ who c, s.call who = some c ∧ c.table = t ∧ c.layout = l ∧
      ∃ rows, .share (su.ownerOf l.owners r) rows ∈ c.left ∧ r ∈ rows

/-- **Isolation.**  Nothing is under way for a layout that was replaced.  The batches
accepted are those routed, by the layout they were accepted under, and those still
to be routed, accepted under the current one.  A row routed is on its way to its
owner or has reached it; under a layout that was replaced it has. -/
structure Isolated (su : ResliceSetup B R) (s : ResliceState B R) : Prop where
  calls : ∀ who c, s.call who = some c → c.layout = s.layout c.table
  inFlight : ∀ e ∈ s.inFlight, e.layout = s.layout e.table
  cycles : ∀ c ∈ s.cycles, c.2 = s.layout c.1
  accepted : ∀ t, (s.accepted t : Multiset (B × TableLayout)) =
    s.routed t + (s.hand.passed su.toHandoverSetup t).map (·, s.layout t)
  routed : ∀ t, ∀ x ∈ s.routed t, ∀ r ∈ su.rowsOf x.1, s.Reached su t x.2 r ∨ s.OnItsWay su t x.2 r
  replaced : ∀ t, ∀ x ∈ s.accepted t, x.2 ≠ s.layout t → ∀ r ∈ su.rowsOf x.1, s.Reached su t x.2 r

/-- Nothing accepted of the table is on its way to its owners, or with them. -/
structure Quiet (su : ResliceSetup B R) (s : ResliceState B R) (t : String) : Prop where
  hand : s.hand.Still su.toHandoverSetup t
  calls : ∀ who c, s.call who = some c → c.table ≠ t
  inFlight : ∀ e ∈ s.inFlight, e.table ≠ t
  cycles : ∀ c ∈ s.cycles, c.1 ≠ t

/-- What every step keeps. -/
structure Sliced (su : ResliceSetup B R) (s : ResliceState B R) : Prop where
  owned : ∀ t, (s.layout t).owners ≠ []
  calls : ∀ who c, s.call who = some c → c.layout = s.layout c.table ∧
    ∀ o rows, .share o rows ∈ c.left → o ∈ c.layout.owners
  inFlight : ∀ e ∈ s.inFlight, e.layout = s.layout e.table ∧ e.owner ∈ e.layout.owners
  cycles : ∀ c ∈ s.cycles, c.2 = s.layout c.1
  accepted : ∀ t, (s.accepted t : Multiset (B × TableLayout)) =
    s.routed t + (s.hand.passed su.toHandoverSetup t).map (·, s.layout t)
  routed : ∀ t, ∀ x ∈ s.routed t, ∀ r ∈ su.rowsOf x.1, s.Reached su t x.2 r ∨ s.OnItsWay su t x.2 r
  quiet : ∀ t, s.seen t = true → Quiet su s t

/-- A call sends every row of its batches to its owner, and to owners of its layout
only. -/
theorem enqueueBatch_left (t : String) {l : TableLayout} (hown : l.owners ≠ []) (items : List B) :
    (∀ o rows, .share o rows ∈ (su.enqueueBatch t l items).left → o ∈ l.owners) ∧
      ∀ b ∈ items, ∀ r ∈ su.rowsOf b, ∃ rows,
        .share (su.ownerOf l.owners r) rows ∈ (su.enqueueBatch t l items).left ∧ r ∈ rows := by
  have hsplit : (∀ o rows, .share o rows ∈ su.splitByOwner l.owners (items.flatMap su.rowsOf) →
      o ∈ l.owners) ∧ ∀ b ∈ items, ∀ r ∈ su.rowsOf b, ∃ rows,
        .share (su.ownerOf l.owners r) rows ∈ su.splitByOwner l.owners (items.flatMap su.rowsOf) ∧
          r ∈ rows := by
    refine ⟨fun o rows ho => ?_, fun b hb r hr => ?_⟩
    · obtain ⟨o', ho', heq⟩ := mem_filterMap.mp ho
      dsimp only at heq
      split at heq
      · cases heq
      · cases heq
        exact ho'
    · have hmem : r ∈ (items.flatMap su.rowsOf).filter
          fun r' => su.ownerOf l.owners r' = su.ownerOf l.owners r :=
        mem_filter.mpr ⟨mem_flatMap.mpr ⟨b, hb, hr⟩, by simp⟩
      refine ⟨_, mem_filterMap.mpr ⟨_, su.ownerOf_mem _ r hown, if_neg fun hnil => ?_⟩, hmem⟩
      rw [isEmpty_iff.mp hnil] at hmem
      cases hmem
  unfold ResliceSetup.enqueueBatch
  split
  · rename_i o ho
    refine ⟨fun o' rows hmem => ?_, fun b hb r hr => ⟨_, mem_singleton.mpr ?_,
      mem_flatMap.mpr ⟨b, hb, hr⟩⟩⟩
    · cases mem_singleton.mp hmem
      rw [ho]
      exact mem_singleton_self o
    · have hmem := su.ownerOf_mem l.owners r hown
      rw [ho, mem_singleton] at hmem
      rw [ho, hmem]
  · refine ⟨fun o rows hmem => ?_, fun b hb r hr => ?_⟩
    · rcases mem_append.mp hmem with hexp | hshare
      · split at hexp
        · cases mem_singleton.mp hexp
        · cases hexp
      · exact hsplit.1 o rows hshare
    · obtain ⟨rows, hmem, hrow⟩ := hsplit.2 b hb r hr
      exact ⟨rows, mem_append_right _ hmem, hrow⟩

/-! ## The steps -/

/-- A step of the hand-over. -/
theorem Sliced.handStep {a : HandAction B} (h : Sliced su s) (hs : s.handStep su a = some s') :
    Sliced su s' := by
  unfold ResliceState.handStep at hs
  split at hs
  · cases hs
  rename_i hblocked
  obtain ⟨hd, hstep, hs⟩ := map_eq_some_iff.mp hs
  have hpassed := HandState.passed_step hstep
  -- A call that gives way to another has nothing left to send.
  have hcall : ∀ who c, s'.call who = some c → s.call who = some c ∨ s.called su a = some c := by
    intro who c hc
    rw [← hs] at hc
    dsimp only at hc
    split at hc
    · exact .inr hc
    · exact .inl hc
  have hkept : ∀ who c, s.call who = some c → c.left ≠ [] → s'.call who = some c := by
    intro who c hc hleft
    rw [← hs]
    dsimp only
    split
    · rename_i hwho
      refine absurd ?_ hblocked
      unfold blocked
      rw [hwho]
      change ((s.call who).any fun c => !c.left.isEmpty) = true
      rw [hc]
      simpa using hleft
    · exact hc
  have hcalled : ∀ c, s.called su a = some c → ∃ x, s.hand.calls su.toHandoverSetup a = some x ∧
      su.enqueueBatch x.1 (s.layout x.1) x.2 = c := fun c => map_eq_some_iff.mp
  have hnew : ∀ c, s.called su a = some c → ∃ who, s'.call who = some c := by
    intro c hc
    obtain ⟨x, hx, -⟩ := hcalled c hc
    rw [← hs]
    cases a with
    | pump due => exact ⟨.pump, hc⟩
    | send => exact ⟨.drain, hc⟩
    | _ => cases hx
  have hlayout : s'.layout = s.layout := by rw [← hs]
  refine ⟨fun t => hlayout ▸ h.owned t, fun who c hc => ?_, ?_, ?_, fun t => ?_,
    fun t x hx r hr => ?_, fun t ht => ?_⟩
  · rw [hlayout]
    rcases hcall who c hc with hold | hnew
    · exact h.calls who c hold
    · obtain ⟨x, -, rfl⟩ := hcalled c hnew
      exact ⟨rfl, (enqueueBatch_left x.1 (h.owned x.1) x.2).1⟩
  · rw [← hs]
    exact h.inFlight
  · rw [← hs]
    exact h.cycles
  · rw [← hs]
    have hmap := congrArg (Multiset.map (·, s.layout t)) (hpassed t)
    rw [Multiset.map_add, Multiset.map_add] at hmap
    rw [← Multiset.coe_add, ← Multiset.coe_add, h.accepted t]
    simp only [← Multiset.map_coe] at hmap ⊢
    rw [add_assoc, ← hmap]
    abel
  · have hmoved : ∀ x ∈ s.routed t, ∀ r ∈ su.rowsOf x.1,
        s'.Reached su t x.2 r ∨ s'.OnItsWay su t x.2 r := by
      intro x hx r hr
      rcases h.routed t x hx r hr with
        hreached | ⟨e, he⟩ | ⟨who, c, hc, htable, hl, rows, hmem, hrow⟩
      · refine .inl ?_
        rw [← hs]
        exact hreached
      · refine .inr (.inl ⟨e, ?_⟩)
        rw [← hs]
        exact he
      · exact .inr (.inr
          ⟨who, c, hkept who c hc (ne_nil_of_mem hmem), htable, hl, rows, hmem, hrow⟩)
    rw [← hs] at hx
    rcases mem_append.mp hx with hold | hfresh
    · exact hmoved x hold r hr
    obtain ⟨b, hb, rfl⟩ := mem_map.mp hfresh
    unfold HandState.handsOver at hb
    split at hb
    · rename_i table items hcalls
      split at hb
      · rename_i heq
        subst heq
        have hc : s.called su a = some (su.enqueueBatch table (s.layout table) items) := by
          unfold called
          rw [hcalls]
          rfl
        obtain ⟨who, hwho⟩ := hnew _ hc
        obtain ⟨rows, hmem, hrow⟩ := (enqueueBatch_left table (h.owned table) items).2 b hb r hr
        exact .inr (.inr ⟨who, _, hwho, rfl, rfl, rows, hmem, hrow⟩)
      · cases hb
    · cases hb
  · rw [← hs] at ht
    obtain ⟨hseen, hresumes⟩ := Bool.and_eq_true_iff.mp ht
    have hq := h.quiet t hseen
    obtain ⟨hstill, hnew⟩ := hq.hand.step (fun heq => by simp [heq, resumes] at hresumes) hstep
    refine ⟨hs ▸ hstill, fun who c hc => ?_, hs ▸ hq.inFlight, hs ▸ hq.cycles⟩
    rcases hcall who c hc with hold | hnow
    · exact hq.calls who c hold
    · obtain ⟨x, hx, rfl⟩ := hcalled c hnow
      exact hnew x hx

/-- A call opens its cycle or sends a share. -/
theorem Sliced.sendNext {who : Caller} (h : Sliced su s) (hs : s.sendNext who = some s') :
    Sliced su s' := by
  unfold ResliceState.sendNext at hs
  split at hs
  · cases hs
  rename_i c hc
  obtain ⟨hlayout, howner⟩ := h.calls who c hc
  have hcalls : ∀ rest call', (∀ x ∈ rest, x ∈ c.left) →
      call' = update s.call who (some { c with left := rest }) →
      ∀ who' c', call' who' = some c' → c'.layout = s.layout c'.table ∧
        ∀ o rows, .share o rows ∈ c'.left → o ∈ c'.layout.owners := by
    intro rest call' hrest hcall' who' c' hc'
    subst hcall'
    by_cases heq : who' = who
    · subst heq
      rw [update_self] at hc'
      cases hc'
      exact ⟨hlayout, fun o rows hmem => howner o rows (hrest _ hmem)⟩
    · rw [update_of_ne heq] at hc'
      exact h.calls who' c' hc'
  have hidle : ∀ rest t, Quiet su s t → ∀ who' c',
      update s.call who (some { c with left := rest }) who' = some c' → c'.table ≠ t := by
    intro rest t hq who' c' hc'
    by_cases heq : who' = who
    · subst heq
      rw [update_self] at hc'
      cases hc'
      exact hq.calls who' c hc
    · rw [update_of_ne heq] at hc'
      exact hq.calls who' c' hc'
  split at hs
  · cases hs
  · rename_i rest hleft
    have hrest : ∀ x ∈ rest, x ∈ c.left := fun x hx => by
      rw [hleft]
      exact mem_cons_of_mem _ hx
    have hs := some.inj hs
    subst hs
    refine { h with
      calls := hcalls rest _ hrest rfl
      cycles := fun x hx => ?_
      routed := fun t x hx r hr => ?_
      quiet := fun t ht => ?_ }
    · rcases mem_append.mp hx with hold | hnew
      · exact h.cycles x hold
      · rw [mem_singleton.mp hnew]
        exact hlayout
    rotate_left
    · have hq := h.quiet t ht
      refine { hq with calls := hidle rest t hq, cycles := fun x hx => ?_ }
      rcases mem_append.mp hx with hold | hnew
      · exact hq.cycles x hold
      · exact mem_singleton.mp hnew ▸ hq.calls who c hc
    rcases h.routed t x hx r hr with hreached | he | ⟨who', c', hc', htable, hl, rows, hmem, hrow⟩
    · exact .inl hreached
    · exact .inr (.inl he)
    refine .inr (.inr ?_)
    by_cases heq : who' = who
    · subst heq
      cases some.inj (hc.symm.trans hc')
      rw [hleft] at hmem
      exact ⟨who', _, update_self _ _ _, htable, hl, rows,
        (mem_cons.mp hmem).resolve_left (by simp), hrow⟩
    · exact ⟨who', c', (update_of_ne heq _ _).trans hc', htable, hl, rows, hmem, hrow⟩
  · rename_i o sent rest hleft
    have hrest : ∀ x ∈ rest, x ∈ c.left := fun x hx => by
      rw [hleft]
      exact mem_cons_of_mem _ hx
    have hs := some.inj hs
    subst hs
    refine { h with
      calls := hcalls rest _ hrest rfl
      inFlight := fun e he => ?_
      routed := fun t x hx r hr => ?_
      quiet := fun t ht => ?_ }
    · rcases mem_append.mp he with hold | hnew
      · exact h.inFlight e hold
      · rw [mem_singleton.mp hnew]
        exact ⟨hlayout, howner o sent (by rw [hleft]; exact mem_cons_self)⟩
    rotate_left
    · have hq := h.quiet t ht
      refine { hq with calls := hidle rest t hq, inFlight := fun e he => ?_ }
      rcases mem_append.mp he with hold | hnew
      · exact hq.inFlight e hold
      · exact mem_singleton.mp hnew ▸ hq.calls who c hc
    rcases h.routed t x hx r hr with hreached | ⟨e, he, hrest⟩ |
        ⟨who', c', hc', htable, hl, rows, hmem, hrow⟩
    · exact .inl hreached
    · exact .inr (.inl ⟨e, mem_append_left _ he, hrest⟩)
    by_cases heq : who' = who
    · subst heq
      cases some.inj (hc.symm.trans hc')
      rw [hleft] at hmem
      rcases mem_cons.mp hmem with hhead | htail
      · cases hhead
        exact .inr (.inl ⟨_, mem_concat_self, htable, hl, rfl, hrow⟩)
      · exact .inr (.inr ⟨who', _, update_self _ _ _, htable, hl, rows, htail, hrow⟩)
    · exact .inr (.inr ⟨who', c', (update_of_ne heq _ _).trans hc', htable, hl, rows, hmem, hrow⟩)

/-- A share is settled. -/
theorem Sliced.settle [DecidableEq R] {e : OwnedShare R} (h : Sliced su s) :
    Sliced su { s with inFlight := s.inFlight.erase e, reached := s.reached ++ [e] } := by
  refine { h with
    inFlight := fun e' he' => h.inFlight e' (mem_of_mem_erase he')
    routed := fun t x hx r hr => ?_
    quiet := fun t ht => { h.quiet t ht with
      inFlight := fun e' he' => (h.quiet t ht).inFlight e' (mem_of_mem_erase he') } }
  rcases h.routed t x hx r hr with ⟨e', he', hrest⟩ | ⟨e', he', hrest⟩ | hcall
  · exact .inl ⟨e', mem_append_left _ he', hrest⟩
  · by_cases heq : e' = e
    · exact .inl ⟨e', mem_append_right _ (mem_singleton.mpr heq), hrest⟩
    · exact .inr (.inl ⟨e', (mem_erase_of_ne heq).mpr he', hrest⟩)
  · exact .inr (.inr hcall)

/-- The condition: when the scaler finds a table drained, nothing accepted of it is in a
buffer or in hand, and no drain and no call of enqueue for it is under way. -/
def Settled (su : ResliceSetup B R) (s : ResliceState B R) : ResliceAction B R → Prop
  | .look table => s.hand.passed su.toHandoverSetup table = [] ∧
      s.hand.drain.all (·.table != table) ∧
      ∀ who ∈ [Caller.pump, Caller.drain], (s.call who).all (·.table != table)
  | _ => True

instance [DecidableEq B] (s : ResliceState B R) (a : ResliceAction B R) :
    Decidable (Settled su s a) := by
  cases a <;> unfold Settled <;> infer_instance

/-- The table is found drained. -/
theorem Sliced.look {table : String} (h : Sliced su s) (hok : Settled su s (.look table))
    (hs : s.look table = some s') : Sliced su s' := by
  obtain ⟨hcond, hs⟩ := ite_none_right_eq_some.mp hs
  obtain ⟨hpaused, hdrained⟩ := Bool.and_eq_true_iff.mp hcond
  obtain ⟨hpassed, hdrain, hcalls⟩ := hok
  obtain ⟨hin, hcyc⟩ : (∀ e ∈ s.inFlight, e.table = table → e.owner ∉ (s.layout table).owners) ∧
      ∀ c ∈ s.cycles, c.1 ≠ table := by
    unfold drained at hdrained
    simpa [or_iff_not_imp_left] using hdrained
  rw [← some.inj hs]
  refine { h with quiet := fun t ht => ?_ }
  by_cases heq : t = table
  · subst heq
    refine ⟨⟨hpaused, hpassed, fun d hd => ?_⟩, fun who c hc => ?_, fun e he heq => ?_, hcyc⟩
    · rw [hd] at hdrain
      simpa using hdrain
    · have hwho := hcalls who (by cases who <;> simp)
      rw [hc] at hwho
      simpa using hwho
    · -- every share in flight is of the current layout, so the drain has seen it
      obtain ⟨hl, ho⟩ := h.inFlight e he
      rw [hl, heq] at ho
      exact hin e he heq ho
  · have hq := h.quiet t ((update_of_ne heq true s.seen).symm.trans ht)
    exact ⟨hq.hand, hq.calls, hq.inFlight, hq.cycles⟩

/-- The flip. -/
theorem Sliced.publish {table : String} {owners : List String} (h : Sliced su s)
    (hs : s.publish su table owners = some s') : Sliced su s' := by
  obtain ⟨hcond, hs⟩ := ite_none_right_eq_some.mp hs
  obtain ⟨hseen, howners⟩ := Bool.and_eq_true_iff.mp hcond
  have hquiet := h.quiet table hseen
  obtain ⟨hd, hstep, rfl⟩ := map_eq_some_iff.mp hs
  cases some.inj hstep
  have hother : ∀ t, t ≠ table → update s.layout table
      ⟨(s.layout table).version + 1, owners⟩ t = s.layout t :=
    fun t ht => update_of_ne ht _ _
  refine { h with
    owned := fun t => ?_
    calls := fun who c hc => ?_
    inFlight := fun e he => ?_
    cycles := fun c hc => ?_
    accepted := fun t => ?_
    quiet := fun t ht => ?_ }
  · by_cases ht : t = table
    · subst ht
      simpa using howners
    · change (update s.layout table _ t).owners ≠ []
      rw [hother t ht]
      exact h.owned t
  · change c.layout = update s.layout table _ c.table ∧ _
    rw [hother _ (hquiet.calls who c hc)]
    exact h.calls who c hc
  · change e.layout = update s.layout table _ e.table ∧ _
    rw [hother _ (hquiet.inFlight e he)]
    exact h.inFlight e he
  · change c.2 = update s.layout table _ c.1
    rw [hother _ (hquiet.cycles c hc)]
    exact h.cycles c hc
  · have hold := h.accepted t
    change (s.accepted t : Multiset (B × TableLayout)) = s.routed t +
      ((s.hand.passed su.toHandoverSetup t).map fun b => (b, update s.layout table _ t) : List _)
    by_cases ht : t = table
    · rw [ht, hquiet.hand.passed] at hold ⊢
      exact hold
    · rw [hother t ht]
      exact hold
  · have hne : t ≠ table := by
      rintro rfl
      simp at ht
    have hq := h.quiet t ((update_of_ne hne false s.seen).symm.trans ht)
    exact ⟨⟨hq.hand.paused, hq.hand.passed, hq.hand.drain⟩, hq.calls, hq.inFlight, hq.cycles⟩

/-- Every step that meets the condition keeps the layouts apart. -/
theorem Sliced.step [DecidableEq R] {a : ResliceAction B R} (h : Sliced su s)
    (hok : Settled su s a) (hs : step su s a = some s') : Sliced su s' := by
  cases a with
  | hand a =>
    cases a with
    | publish t b => cases hs
    | _ => exact h.handStep hs
  | sendNext who => exact h.sendNext hs
  | settle share =>
    obtain ⟨-, hs⟩ := ite_none_right_eq_some.mp hs
    rw [← some.inj hs]
    exact h.settle
  | commit cycle =>
    obtain ⟨-, hs⟩ := ite_none_right_eq_some.mp hs
    rw [← some.inj hs]
    exact { h with
      cycles := fun c hc => h.cycles c (mem_of_mem_erase hc)
      quiet := fun t ht => { h.quiet t ht with
        cycles := fun c hc => (h.quiet t ht).cycles c (mem_of_mem_erase hc) } }
  | look table => exact h.look hok hs
  | publish table owners => exact h.publish hs

/-- A table of numbered rows; a row's number picks its owner. -/
def numbered : ResliceSetup (String × Nat) Nat where
  tables := ["orders"]
  distinct := by decide
  table := Prod.fst
  rows _ := 1
  bytes _ := 1
  gateMaxCount := 2
  gateMaxBytes := 0
  cycleMaxRows := 2
  cycleMaxBytes := 9
  rowsOf b := [b.2]
  ownerOf owners r := owners.getD (r % owners.length) ""
  ownerOf_mem owners r hne := by
    have hlt := Nat.mod_lt r (length_pos_iff.mpr hne)
    rw [getD_eq_getElem?_getD, getElem?_eq_getElem hlt]
    exact getElem_mem hlt
  stagesCycles := true

end ResliceState

end Urutau
