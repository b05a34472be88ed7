import Urutau.CycleOrder
import Urutau.Offsets
import Urutau.PartitionedSend

/-!
# The positions of staged commits

A cycle of one batch commits the batch's last position, fixed when the cycle is
opened; the other cycles commit none.  When the source hands over each table's
batches in position order, the positions written for a table never go backwards,
and none of them covers a row of a cycle that is still to be committed.
-/

namespace Urutau

open List Position StagedState Runs

section Tracker

variable {P D : Type}

/-- A cycle that was sent; one of no batch is delivered without a position. -/
def Cycle.Placed (cy : Cycle P D) : Prop :=
  cy.seq ≠ 0 ∧ (cy.batchPos = none → cy.window = false → ∀ x ∈ cy.positions, x = none)

/-- The position a cycle was opened with, none for a window. -/
def Cycle.ownPos (cy : Cycle P D) : Option P := if cy.window then none else cy.batchPos

namespace Cycles

def AllPlaced (c : Cycles P D) : Prop :=
  (∀ t q cy, c.openCycles t q = some cy → cy.Placed) ∧ ∀ t q cy, c.done t q = some cy → cy.Placed

variable {t worker : String} {cy : Cycle P D} {d : StagedDelivery P D}

/-- A placed cycle put in keeps all placed. -/
theorem placed_update {m : String → Nat → Option (Cycle P D)} {q : Nat}
    {v : Option (Cycle P D)} (hm : ∀ t q cy, m t q = some cy → cy.Placed)
    (hv : ∀ cy, v = some cy → cy.Placed) :
    ∀ t' q' cy, update m t q v t' q' = some cy → cy.Placed := by
  intro t' q' cy hcy
  unfold update at hcy
  split at hcy
  · exact hv cy hcy
  · exact hm t' q' cy hcy

/-- A drained cycle was done. -/
theorem mem_drainLocked {done : Nat → Option (Cycle P D)} {order : List Nat}
    (h : cy ∈ (drainLocked done order).1) : ∃ q, done q = some cy := by
  induction order with
  | nil => cases h
  | cons q rest ih =>
    cases hq : done q with
    | none =>
      rw [drainLocked, hq] at h
      cases h
    | some cy' =>
      rw [drainLocked, hq] at h
      rcases mem_cons.mp h with rfl | h
      · exact ⟨q, hq⟩
      · exact ih h

variable {c : Cycles P D}

/-- A lost owner moves no cycle. -/
theorem AllPlaced.markLost (h : AllPlaced c) (t worker : String) (seq : Nat) :
    AllPlaced (c.markLost t worker seq) := by
  unfold Cycles.markLost
  cases hcy : c.openCycles t seq with
  | none => exact h
  | some cy =>
    simp only
    split
    · exact h
    · refine ⟨placed_update h.1 fun cy' hcy' => ?_, h.2⟩
      rw [← Option.some.inj hcy']
      exact h.1 t seq cy hcy

/-- A cycle that lost an owner keeps its position. -/
theorem markLost_open {seq : Nat} (h : (c.markLost t worker seq).openCycles t seq = some cy) :
    ∃ cy', c.openCycles t seq = some cy' ∧ cy.batchPos = cy'.batchPos ∧ cy.window = cy'.window := by
  unfold Cycles.markLost at h
  cases hcy : c.openCycles t seq with
  | none =>
    rw [hcy] at h
    rw [hcy] at h
    cases h
  | some cy' =>
    rw [hcy] at h
    simp only at h
    split at h
    · rw [hcy] at h
      exact ⟨cy', rfl, by rw [Option.some.inj h], by rw [Option.some.inj h]⟩
    · simp only [update_self] at h
      rw [← Option.some.inj h]
      exact ⟨cy', rfl, rfl, rfl⟩

/-- A delivery whose position counts for nothing unless its cycle is of one
batch. -/
theorem AllPlaced.deliver (h : AllPlaced c)
    (hseq : d.seq ≠ 0) (hpos : ∀ cy, c.openCycles d.table d.seq = some cy → cy.batchPos = none →
      cy.window = false → d.position = none) :
    AllPlaced (c.deliver worker d).2 ∧ ∀ cy ∈ (c.deliver worker d).1, cy.Placed := by
  unfold Cycles.deliver
  cases hcy : c.openCycles d.table d.seq with
  | none =>
    simp only [if_neg hseq]
    exact ⟨h, nofun⟩
  | some cy =>
    have htaken : (take cy worker d).Placed := by
      refine ⟨(h.1 _ _ cy hcy).1, fun hbatch hwindow x hx => ?_⟩
      rcases mem_append.mp hx with hx | hx
      · exact (h.1 _ _ cy hcy).2 hbatch hwindow x hx
      · rw [mem_singleton.mp hx]
        exact hpos cy hcy hbatch hwindow
    simp only
    split
    · exact ⟨h, nofun⟩
    split
    · exact ⟨⟨placed_update h.1 fun cy' hcy' => Option.some.inj hcy' ▸ htaken, h.2⟩, nofun⟩
    have hdone := placed_update (t := d.table) (q := d.seq) h.2
      fun cy' hcy' => Option.some.inj hcy' ▸ htaken
    refine ⟨⟨placed_update h.1 nofun, fun t q cy' hcy' => ?_⟩, fun cy' hcy' => ?_⟩
    · simp only [drain] at hcy'
      split at hcy'
      · cases hcy'
      · exact hdone t q cy' hcy'
    · obtain ⟨q, hq⟩ := mem_drainLocked hcy'
      exact hdone d.table q cy' hq

variable [Position P] [Meeter P]

/-- A placed cycle commits at its own position. -/
theorem commitPosition_placed (h : cy.Placed) : commitPosition cy = .ok cy.ownPos := by
  unfold commitPosition Cycle.ownPos
  cases hwindow : cy.window with
  | true => rfl
  | false =>
    cases hbatch : cy.batchPos with
    | some p => rfl
    | none =>
      have hnil : cy.positions.filterMap id = [] :=
        filterMap_eq_nil_iff.mpr fun x hx => h.2 hbatch hwindow x hx
      rw [hnil]
      rfl

/-- What is committed is of the run, at its position. -/
theorem commitRun_committed {answers : Nat → HostAnswer} {run : List (Cycle P D)}
    {p : Cycle P D × Outcome P} {pos : Option P} (hp : p ∈ commitRun answers run)
    (hpos : p.2 = .committed pos) : p.1 ∈ run ∧ commitPosition p.1 = .ok pos := by
  induction run with
  | nil => cases hp
  | cons cy rest ih =>
    by_cases hfail : commitLocked (answers cy.seq) cy = .failed
    · rw [commitRun_failed rest hfail] at hp
      rcases mem_cons.mp hp with rfl | hp
      · cases hpos
      · obtain ⟨cy', -, rfl⟩ := mem_map.mp hp
        cases hpos
    · rw [commitRun_inTurn rest hfail] at hp
      rcases mem_cons.mp hp with rfl | hp
      · refine ⟨mem_cons_self, ?_⟩
        unfold commitLocked at hpos
        split at hpos
        · cases hpos
        split at hpos
        · cases hpos
        rename_i pos' hcommit
        split at hpos
        · cases hpos
          exact hcommit
        · cases hpos
      · exact ⟨mem_cons_of_mem _ (ih hp).1, (ih hp).2⟩

/-- What a delivery commits has the position of its opening. -/
theorem AllPlaced.onDelivery {epoch : Option Nat}
    (h : AllPlaced c) (answers : Nat → HostAnswer) (hseq : d.seq ≠ 0)
    (hpos : ∀ cy, c.openCycles d.table d.seq = some cy → cy.batchPos = none →
      cy.window = false → d.position = none) :
    AllPlaced (c.onDelivery epoch worker d answers).2 ∧
      ∀ p ∈ (c.onDelivery epoch worker d answers).1, p.1.seq ≠ 0 ∧
        ∀ pos, p.2 = .committed pos → pos = p.1.ownPos := by
  -- The commits of a run of placed cycles, and the poison mark, which is on no cycle.
  have hrun : ∀ out : List (Cycle P D) × Cycles P D, (AllPlaced out.2 ∧ ∀ cy ∈ out.1, cy.Placed) →
      AllPlaced (if hasFailed (commitRun answers out.1) then
        { out.2 with poisoned := fun t => if t = d.table then true else out.2.poisoned t }
        else out.2) ∧
      ∀ p ∈ commitRun answers out.1, p.1.seq ≠ 0 ∧
        ∀ pos, p.2 = .committed pos → pos = p.1.ownPos := by
    intro out hout
    refine ⟨?_, fun p hp => ⟨?_, fun pos hcommit => ?_⟩⟩
    · split
      · exact ⟨hout.1.1, hout.1.2⟩
      · exact hout.1
    · refine (hout.2 p.1 ?_).1
      rw [← commitRun_fst answers out.1]
      exact mem_map_of_mem hp
    · obtain ⟨hmem, hok⟩ := commitRun_committed hp hcommit
      rw [commitPosition_placed (hout.2 _ hmem)] at hok
      exact (Except.ok.inj hok).symm
  have hnone : AllPlaced c ∧ ∀ p ∈ ([] : List (Cycle P D × Outcome P)), p.1.seq ≠ 0 ∧
      ∀ pos, p.2 = .committed pos → pos = p.1.ownPos := ⟨h, nofun⟩
  unfold Cycles.onDelivery
  split
  · exact hnone
  split
  · exact hnone
  cases hlost : d.windowLost with
  | false => exact hrun _ (h.deliver hseq hpos)
  | true =>
    refine hrun _ ((h.markLost d.table worker d.seq).deliver hseq fun cy hcy hbatch hwindow => ?_)
    obtain ⟨cy', hcy', hb, hw⟩ := markLost_open hcy
    exact hpos cy' hcy' (hb ▸ hbatch) (hw ▸ hwindow)

end Cycles

end Tracker

/-! ## What a batch's cycle expects -/

section Send

variable {P : Type} [Position P] (su : Partitions P) (b : Batch P)

variable {row : EncodedRow P}

omit [Position P] in
theorem mem_of_mem_shares {share : String × List (EncodedRow P)} (h : share ∈ shares su b)
    (hrow : row ∈ share.2) : row ∈ b.rows := by
  have hsub := (of_mem_zip h).2
  obtain ⟨i, -, hi⟩ := mem_map.mp hsub
  rw [← hi] at hrow
  exact mem_of_mem_filter hrow

theorem mem_of_mem_cycleRows (h : row ∈ cycleRows su b) : row ∈ b.rows := by
  obtain ⟨share, hshare, hrow⟩ := mem_flatMap.mp h
  exact mem_of_mem_shares su b (mem_of_mem_filter hshare) hrow

/-- An owner has one share of a cycle. -/
theorem cycleOwners_nodup : (cycleOwners su b).Nodup := by
  have hsub : (cycleOwners su b).Sublist (su.owners b.table) := by
    refine (filter_sublist.map Prod.fst).trans ?_
    have hlen : (su.owners b.table).length ≤
        (splitByOwner (su.route b.table) (su.owners b.table).length b.rows).length :=
      Nat.le_of_eq (by rw [splitByOwner, length_map, length_range])
    rw [shares, map_fst_zip hlen]
  exact (su.distinct b.table).sublist hsub

/-- An owner is expected only with a share of the batch that ends beyond the
position at boot. -/
theorem exists_high_of_expected (h : cycleOwners su b ≠ []) :
    ∃ row ∈ b.rows, coveredAtBoot (su.boot b.table) (some row.position) b.isPartial = false := by
  obtain ⟨owner, howner⟩ := exists_mem_of_ne_nil _ h
  obtain ⟨share, hshare, -⟩ := mem_map.mp howner
  obtain ⟨hmem, hexpected⟩ := mem_filter.mp hshare
  simp only [isExpected, Bool.and_eq_true, Bool.not_eq_true', isEmpty_eq_false_iff] at hexpected
  refine ⟨share.2.getLast hexpected.1, mem_of_mem_shares su b hmem (getLast_mem _), ?_⟩
  have hhigh := hexpected.2
  rw [highOf, getLast?_eq_some_getLast hexpected.1] at hhigh
  exact hhigh

end Send

namespace SendState

variable {P D : Type} [Position P] {su : Partitions P} {s : SendState P D}

/-- The source hands a table's rows over in position order: within the batch each
at or beyond those before it, none short of the end of an earlier batch, and all
of a batch that is not partial beyond it.  Each compares with the position the
table had at boot. -/
def InOrder (su : Partitions P) (s : SendState P D) : SendAction P D → Prop
  | .enqueuePartitioned b =>
    b.rows.Pairwise (fun r r' => covered r.position r'.position = true) ∧
      (∀ b' ∈ s.pulled b.table, ∀ e ∈ b'.highPos, ∀ r ∈ b.rows,
        if b.isPartial then covered e r.position = true
        else advances r.position e = true) ∧
      ∀ r ∈ b.rows, ∀ p ∈ su.boot b.table, compare r.position p ≠ .incomparable
  | _ => True

instance (su : Partitions P) (s : SendState P D) (a : SendAction P D) :
    Decidable (InOrder su s a) := by
  cases a <;> unfold InOrder <;> infer_instance

/-- The second of two cycles of a table was sent behind the first: its rows are
at or beyond the position the first commits, and not covered by it. -/
def Behind (s : SendState P D) (t : String) (o o' : Opening P) : Prop :=
  ∀ p, o.batchPos = some p → ∀ b, s.batchOf t o'.seq = some b → ∀ r ∈ b.rows,
    covered p r.position = true ∧ coveredAtBoot (some p) (some r.position) b.isPartial = false

/-- What the openings say of the batches they are of. -/
structure Positioned (su : Partitions P) (s : SendState P D) : Prop where
  orderly : s.tracker.Orderly
  seqs : ∀ t, ∀ o ∈ s.tracker.sent t, o.seq ≤ s.batchSeq
  known : ∀ t q b, s.batchOf t q = some b → q ≤ s.batchSeq
  placed : s.tracker.cycles.AllPlaced
  left : ∀ t, ∀ p ∈ s.tracker.left t, p.1.seq ≠ 0 ∧ ∀ pos, p.2 = .committed pos → pos = p.1.ownPos
  unplaced : ∀ t, ∀ o ∈ s.tracker.sent t, o.batchPos = none → o.window = false →
    o.seq ∈ s.doneSeqs t
  batch : ∀ t, ∀ o ∈ s.tracker.sent t, ∀ p, o.batchPos = some p →
    ∃ b, s.batchOf t o.seq = some b ∧ b ∈ s.pulled t ∧ b.highPos = some p ∧
      ∀ p₀, su.boot t = some p₀ → covered p₀ p = true
  behind : ∀ t, (s.tracker.sent t).Pairwise (Behind s t)

theorem positioned_init : Positioned su (init : SendState P D) where
  orderly := orderly_init
  seqs := nofun
  known := nofun
  placed := ⟨nofun, nofun⟩
  left := nofun
  unplaced := nofun
  batch := nofun
  behind _ := .nil

/-- The next number is new. -/
theorem Positioned.unsent (h : Positioned su s) (t : String) :
    s.batchSeq + 1 ∉ s.tracker.sentSeqs t := by
  intro hmem
  obtain ⟨o, ho, hseq⟩ := mem_map.mp hmem
  have hle := h.seqs t o ho
  omega

theorem Positioned.unknown (h : Positioned su s) (t : String) :
    s.batchOf t (s.batchSeq + 1) = none := by
  cases hb : s.batchOf t (s.batchSeq + 1) with
  | none => rfl
  | some b =>
    have hle := h.known t _ b hb
    omega

/-! ## Openings -/

omit [Position P] in
/-- A batch's cycle is placed. -/
theorem placed_expectAt {c : Cycles P D} (h : c.AllPlaced) (t : String) (seq : Nat)
    (owners : List String) (batchPos : Option P) (hseq : seq ≠ 0) :
    (c.expectAt t seq owners batchPos).AllPlaced := by
  unfold Cycles.expectAt
  split
  · exact h
  split
  · exact h
  · refine ⟨Cycles.placed_update h.1 fun cy hcy => ?_, h.2⟩
    rw [← Option.some.inj hcy]
    exact ⟨hseq, nofun⟩

omit [Position P] in
/-- A window's cycle is placed. -/
theorem placed_expectWindow {c : Cycles P D} (h : c.AllPlaced) (t : String) (seq : Nat)
    (owners : List String) (hseq : seq ≠ 0) : (c.expectWindow t seq owners).AllPlaced := by
  have hopen := placed_expectAt h t seq owners none hseq
  unfold Cycles.expectWindow
  cases hcy : (c.expectAt t seq owners none).openCycles t seq with
  | none =>
    simp only [hcy]
    exact hopen
  | some cy =>
    simp only [hcy]
    refine ⟨Cycles.placed_update hopen.1 fun cy' hcy' => ?_, hopen.2⟩
    rw [← Option.some.inj hcy']
    exact ⟨(hopen.1 t seq cy hcy).1, nofun⟩

variable {s' : SendState P D} {t : String}

/-- A cycle is opened under the next number. -/
theorem Positioned.opens {o : Opening P} (h : Positioned su s) (horderly : s'.tracker.Orderly)
    (hplaced : s'.tracker.cycles.AllPlaced) (hseq : o.seq = s.batchSeq + 1)
    (hnext : s'.batchSeq = s.batchSeq + 1) (hsent : s'.tracker.sent = s.tracker.noteSent t o)
    (hleft : s'.tracker.left = s.tracker.left)
    (hkept : ∀ t' q, q ≤ s.batchSeq → s'.batchOf t' q = s.batchOf t' q)
    (hknown : ∀ t' q b, s'.batchOf t' q = some b → q ≤ s.batchSeq + 1)
    (hdone : ∀ t' q, q ∈ s.doneSeqs t' → q ∈ s'.doneSeqs t')
    (hpulled : ∀ t' b, b ∈ s.pulled t' → b ∈ s'.pulled t')
    (hunplaced : o.owners ≠ [] → o.batchPos = none → o.window = false → o.seq ∈ s'.doneSeqs t)
    (hbatch : o.owners ≠ [] → ∀ p, o.batchPos = some p →
      ∃ b, s'.batchOf t o.seq = some b ∧ b ∈ s'.pulled t ∧ b.highPos = some p ∧
        ∀ p₀, su.boot t = some p₀ → covered p₀ p = true)
    (hbehind : o.owners ≠ [] → ∀ o' ∈ s.tracker.sent t, Behind s' t o' o) :
    Positioned su s' := by
  -- A cycle sent before, or the new one.
  have hcases : ∀ t', ∀ o' ∈ s'.tracker.sent t',
      o' ∈ s.tracker.sent t' ∨ (o' = o ∧ t' = t ∧ o.owners ≠ []) := by
    intro t' o' ho'
    rw [hsent] at ho'
    unfold noteSent at ho'
    split at ho'
    · rename_i hand
      rcases mem_append.mp ho' with ho' | ho'
      · exact .inl ho'
      · exact .inr ⟨mem_singleton.mp ho', hand⟩
    · exact .inl ho'
  refine
    { orderly := horderly
      seqs := fun t' o' ho' => ?_
      known := fun t' q b hb => ?_
      placed := hplaced
      left := fun t' p hp => ?_
      unplaced := fun t' o' ho' hb hw => ?_
      batch := fun t' o' ho' p hp => ?_
      behind := fun t' => ?_ }
  · rw [hnext]
    rcases hcases t' o' ho' with ho' | ⟨rfl, -⟩
    · exact Nat.le_succ_of_le (h.seqs t' o' ho')
    · exact Nat.le_of_eq hseq
  · rw [hnext]
    exact hknown t' q b hb
  · rw [hleft] at hp
    exact h.left t' p hp
  · rcases hcases t' o' ho' with ho' | ⟨rfl, rfl, hown⟩
    · exact hdone _ _ (h.unplaced t' o' ho' hb hw)
    · exact hunplaced hown hb hw
  · rcases hcases t' o' ho' with ho' | ⟨rfl, rfl, hown⟩
    · obtain ⟨b, hb, hmem, hrest⟩ := h.batch t' o' ho' p hp
      exact ⟨b, (hkept t' _ (h.seqs t' o' ho')).trans hb, hpulled _ _ hmem, hrest⟩
    · exact hbatch hown p hp
  · have hold : (s.tracker.sent t').Pairwise (Behind s' t') :=
      (h.behind t').imp_of_mem fun {o₁ o₂} _ ho₂ hpair p hp b hb =>
        hpair p hp b ((hkept t' _ (h.seqs t' o₂ ho₂)).symm.trans hb)
    rw [hsent]
    unfold noteSent
    split
    · rename_i hand
      refine pairwise_concat.mpr ⟨hold, fun o₁ ho₁ => ?_⟩
      rw [hand.1]
      exact hbehind hand.2 o₁ (hand.1 ▸ ho₁)
    · exact hold

/-! ## What has left -/

omit [Position P] in
/-- Openings of distinct numbers that start a list by number start it. -/
theorem prefix_of_seqs {xs ys : List (Opening P)} {rest : List Nat}
    (hmem : ∀ x ∈ xs, x ∈ ys) (hnodup : (ys.map Opening.seq).Nodup)
    (hseqs : xs.map Opening.seq ++ rest = ys.map Opening.seq) : ∃ zs, xs ++ zs = ys := by
  induction ys generalizing xs with
  | nil =>
    cases xs with
    | nil => exact ⟨[], rfl⟩
    | cons x xs => cases hmem x mem_cons_self
  | cons y ys ih =>
    cases xs with
    | nil => exact ⟨y :: ys, rfl⟩
    | cons x xs =>
      simp only [map_cons, cons_append, List.cons.injEq] at hseqs
      obtain ⟨hhead, htail⟩ := hseqs
      rw [map_cons, nodup_cons] at hnodup
      have hx : x = y := by
        rcases mem_cons.mp (hmem x mem_cons_self) with hx | hx
        · exact hx
        · exact absurd (hhead ▸ mem_map_of_mem hx) hnodup.1
      have hrest : ∀ x' ∈ xs, x' ∈ ys := by
        intro x' hx'
        rcases mem_cons.mp (hmem x' (mem_cons_of_mem _ hx')) with rfl | hin
        · refine absurd ?_ hnodup.1
          rw [← htail]
          exact mem_append_left _ (mem_map_of_mem hx')
        · exact hin
      obtain ⟨zs, hzs⟩ := ih hrest hnodup.2 htail
      exact ⟨zs, by rw [hx, cons_append, hzs]⟩

/-- The cycles that left are the first of those sent. -/
theorem Positioned.left_openings (h : Positioned su s) (t : String) :
    ∃ zs, (s.tracker.left t).map (·.1.opening) ++ zs = s.tracker.sent t := by
  have hseqs : leftSeqs (s.tracker.left t) = (s.tracker.left t).map (·.1.seq) :=
    filter_eq_self.mpr fun q hq => by
      obtain ⟨p, hp, rfl⟩ := mem_map.mp hq
      exact decide_eq_true (h.left t p hp).1
  have hprefix : ((s.tracker.left t).map (·.1.opening)).map Opening.seq ++
      s.tracker.cycles.order t = (s.tracker.sent t).map Opening.seq := by
    rw [map_map]
    change (s.tracker.left t).map (·.1.seq) ++ _ = s.tracker.sentSeqs t
    rw [← hseqs]
    exact h.orderly.sent t
  refine prefix_of_seqs (fun o ho => ?_) (h.orderly.fresh t).1 hprefix
  obtain ⟨p, hp, rfl⟩ := mem_map.mp ho
  exact (h.orderly.left t p hp (h.left t p hp).1).1.asked

variable {p : P} {r : EncodedRow P} {b : Batch P} {a : SendAction P D}

section

variable (h : Positioned su s)
include h

/-- A written position is its cycle's. -/
theorem Positioned.batchPos_of_written {x : Cycle P D × Cycles.Outcome P}
    (hx : x ∈ s.tracker.left t) (hp : x.2 = .committed (some p)) :
    x.1.opening.batchPos = some p := by
  have hown := (h.left t x hx).2 _ hp
  unfold Cycle.ownPos at hown
  split at hown
  · cases hown
  · exact hown.symm

/-- A position written covers no row of a cycle still to leave. -/
theorem Positioned.not_covered {before after : List (Cycle P D × Cycles.Outcome P)} {cy : Cycle P D}
    (hleft : s.tracker.left t = before ++ (cy, .committed (some p)) :: after) {q : Nat}
    (hq : q ∈ s.tracker.sentSeqs t) (hbefore : q ∉ before.map (·.1.seq)) (hcy : q ≠ cy.seq)
    (hr : r ∈ s.rowsOfCycle su t q) :
    coveredAtBoot (some p) (some r.position) (s.cyclePartial t q) = false := by
  obtain ⟨zs, hsent⟩ := h.left_openings t
  have hpos : cy.opening.batchPos = some p := h.batchPos_of_written (x := (cy, .committed (some p)))
      (hleft ▸ mem_append_right _ mem_cons_self) rfl
  have hpair := h.behind t
  rw [← hsent, hleft, map_append, append_assoc] at hpair
  have hafter := (pairwise_cons.mp (pairwise_append.mp hpair).2.1).1
  -- The cycle's opening is behind the one that wrote the position.
  obtain ⟨o, ho, hseq⟩ := mem_map.mp hq
  rw [← hsent, hleft, map_append, append_assoc] at ho
  have hlater : o ∈ after.map (·.1.opening) ++ zs := by
    rcases mem_append.mp ho with ho | ho
    · obtain ⟨x, hx, rfl⟩ := mem_map.mp ho
      exact absurd (mem_map.mpr ⟨x, hx, hseq⟩) hbefore
    · rcases mem_cons.mp ho with rfl | ho
      · exact absurd hseq.symm hcy
      · exact ho
  cases hb : s.batchOf t q with
  | none =>
    rw [rowsOfCycle, hb] at hr
    cases hr
  | some b =>
    rw [rowsOfCycle, hb] at hr
    rw [cyclePartial, hb]
    exact (hafter o hlater p hpos b (hseq ▸ hb) r (mem_of_mem_cycleRows su b hr)).2

/-- A position written is that of a batch sent. -/
theorem Positioned.written_spec (hp : p ∈ s.written t) :
    ∃ o ∈ s.tracker.sent t, o.batchPos = some p := by
  obtain ⟨zs, hsent⟩ := h.left_openings t
  obtain ⟨x, hx, hcommit⟩ := mem_filterMap.mp hp
  split at hcommit
  · rename_i pos hpos
    rw [hcommit] at hpos
    refine ⟨x.1.opening, ?_, h.batchPos_of_written hx hpos⟩
    rw [← hsent]
    exact mem_append_left _ (mem_map_of_mem hx)
  · cases hcommit

/-- The positions written only go forward. -/
theorem Positioned.forward (t : String) : (s.written t).Pairwise fun p q => covered p q = true := by
  obtain ⟨zs, hsent⟩ := h.left_openings t
  have hpair := h.behind t
  rw [← hsent] at hpair
  have hleft := pairwise_map.mp (pairwise_append.mp hpair).1
  refine pairwise_filterMap.mpr (hleft.imp_of_mem fun {x y} hx hy hbehind p hp q hq => ?_)
  split at hp
  · rename_i pos hpos
    rw [hp] at hpos
    split at hq
    · rename_i pos' hpos'
      rw [hq] at hpos'
      have hqpos := h.batchPos_of_written hy hpos'
      obtain ⟨b, hb, -, hhigh, -⟩ := h.batch t y.1.opening (by
        rw [← hsent]
        exact mem_append_left _ (mem_map_of_mem hy)) q hqpos
      obtain ⟨row, hlast, rfl⟩ := Option.map_eq_some_iff.mp hhigh
      exact (hbehind p (h.batchPos_of_written hx hpos) b hb row (mem_of_getLast? hlast)).1
    · cases hq
  · cases hp

end

/-! ## One step -/

/-- The last row's position covers the others'. -/
theorem covered_or_eq_last {rows : List (EncodedRow P)} {row : EncodedRow P}
    (hrows : rows.Pairwise fun r r' => covered r.position r'.position = true)
    (hmem : row ∈ rows) (hlast : highOf rows = some p) :
    row.position = p ∨ covered row.position p = true := by
  obtain ⟨last, hget, rfl⟩ := Option.map_eq_some_iff.mp hlast
  obtain ⟨init, rfl⟩ := getLast?_eq_some_iff.mp hget
  rcases mem_append.mp hmem with hmem | hmem
  · exact .inr ((pairwise_append.mp hrows).2.2 row hmem last mem_cons_self)
  · rw [mem_singleton.mp hmem]
    exact .inl rfl

/-- A batch whose cycle is opened ends at or beyond the position at boot. -/
theorem boot_covered [LawfulPosition P] {p₀ : P}
    (hok : InOrder su s (.enqueuePartitioned b)) (hown : cycleOwners su b ≠ [])
    (hhigh : b.highPos = some p) (hboot : su.boot b.table = some p₀) :
    covered p₀ p = true := by
  obtain ⟨row, hrow, hnew⟩ := exists_high_of_expected su b hown
  have hcomp := hok.2.2 row hrow p₀ hboot
  rw [hboot] at hnew
  have hbeyond : covered p₀ row.position = true := by
    change (if b.isPartial then _ else _) = false at hnew
    split at hnew
    · exact covered_of_not_less hcomp (of_decide_eq_false hnew)
    · exact covered_of_not_covered hcomp hnew
  rcases covered_or_eq_last hok.1 hrow hhigh with heq | hle
  · exact heq ▸ hbeyond
  · exact LawfulPosition.covered_trans hbeyond hle

/-- A batch in order lies behind every cycle sent before it. -/
theorem behind_of_inOrder [LawfulPosition P] {e : P}
    (hok : InOrder su s (.enqueuePartitioned b)) {b' : Batch P} (hb' : b' ∈ s.pulled b.table)
    (he : b'.highPos = some e) (hr : r ∈ b.rows) :
    covered e r.position = true ∧ coveredAtBoot (some e) (some r.position) b.isPartial = false := by
  have hord := hok.2.1 b' hb' e he r hr
  cases hcut : b.isPartial with
  | true =>
    rw [hcut] at hord
    refine ⟨hord, decide_eq_false fun hless => ?_⟩
    unfold covered at hord
    rw [LawfulPosition.compare_swap, hless] at hord
    cases hord
  | false =>
    rw [hcut] at hord
    exact ⟨covered_of_advances hord, not_covered_of_advances hord⟩

variable [Meeter P]

/-- A step is accepted, and the tracker's with it. -/
theorem step_some (hs : s.step su a = some s') : accepts su a = true ∧
    ∃ tr, s.tracker.step (s.trackerAction su a) = some tr ∧
      s' = { s.note su a with tracker := tr } := by
  unfold SendState.step at hs
  split at hs
  · rename_i haccept
    obtain ⟨tr, htr, rfl⟩ := Option.map_eq_some_iff.mp hs
    exact ⟨haccept, tr, htr, rfl⟩
  · cases hs

/-- A batch sent opens one cycle behind the others. -/
theorem Positioned.enqueuePartitioned [LawfulPosition P] (h : Positioned su s)
    (hok : InOrder su s (.enqueuePartitioned b))
    (hs : s.step su (.enqueuePartitioned b) = some s') : Positioned su s' := by
  obtain ⟨-, tr, htr, rfl⟩ := step_some hs
  cases htr
  refine h.opens (o := ⟨s.batchSeq + 1, cycleOwners su b, b.highPos, false⟩) (t := b.table)
    (h.orderly.expectAt (Nat.succ_ne_zero _) (h.unsent _) (cycleOwners_nodup su b))
    (placed_expectAt h.placed _ _ _ _ (Nat.succ_ne_zero _)) rfl rfl rfl rfl ?_ ?_
    (fun _ _ hq => hq) ?_ ?_ ?_ ?_
  · intro t' q hq
    simp only [note]
    split
    · rfl
    · exact update_other _ _ fun hand => by omega
  · intro t' q b' hb'
    simp only [note] at hb'
    split at hb'
    · exact Nat.le_succ_of_le (h.known t' q b' hb')
    · by_cases hat : t' = b.table ∧ q = s.batchSeq + 1
      · exact Nat.le_of_eq hat.2
      · rw [update_other _ _ hat] at hb'
        exact Nat.le_succ_of_le (h.known t' q b' hb')
  · intro t' b' hb'
    simp only [note]
    split
    · exact mem_append_left _ hb'
    · exact hb'
  · intro hown hnone
    -- An expected owner has a row, so the batch has a last one.
    obtain ⟨row, hrow, -⟩ := exists_high_of_expected su b hown
    change b.rows.getLast?.map _ = none at hnone
    rw [Option.map_eq_none_iff, getLast?_eq_none_iff] at hnone
    rw [hnone] at hrow
    cases hrow
  · intro hown p hp
    refine ⟨b, ?_, ?_, hp, fun p₀ hboot => boot_covered hok hown hp hboot⟩
    · simp only [note, if_neg hown]
      exact update_self _ _ _ _
    · simp only [note]
      exact mem_concat_self
  · intro hown o' ho' e he b' hb' r hr
    obtain ⟨old, -, hold, hhigh, -⟩ := h.batch b.table o' ho' e he
    simp only [note, if_neg hown, update_self] at hb'
    cases hb'
    exact behind_of_inOrder hok hold hhigh hr

theorem Positioned.step [LawfulPosition P] (h : Positioned su s)
    (hok : InOrder su s a) (hs : s.step su a = some s') :
    Positioned su s' := by
  obtain ⟨haccept, tr, htr, rfl⟩ := step_some hs
  cases a with
  | register worker =>
    have horderly := h.orderly.step (a := .register worker) trivial htr
    simp only [trackerAction, StagedState.step] at htr
    split at htr
    · cases htr
    · cases htr
      exact { h with orderly := horderly }
  | supersede worker =>
    have horderly := h.orderly.step (a := .supersede worker) trivial htr
    cases htr
    exact { h with orderly := horderly }
  | enqueuePartitioned b => exact h.enqueuePartitioned hok hs
  | sendClosesPending table owners =>
    have hdistinct : owners.Nodup := of_decide_eq_true haccept
    cases htr
    exact h.opens (o := ⟨s.batchSeq + 1, owners, none, true⟩) (t := table)
      (h.orderly.expectWindow (Nat.succ_ne_zero _) (h.unsent _) hdistinct)
      (placed_expectWindow h.placed _ _ _ (Nat.succ_ne_zero _)) rfl rfl rfl rfl
      (fun _ _ _ => rfl) (fun t' q b hb => Nat.le_succ_of_le (h.known t' q b hb))
      (fun _ _ hq => hq) (fun _ _ hb => hb) (fun _ _ hw => by cases hw)
      (fun _ _ hp => by cases hp) fun _ o' _ p _ b hb => by
        cases (h.unknown table).symm.trans hb
  | finishSnapshot table owner =>
    cases htr
    refine h.opens (o := ⟨s.batchSeq + 1, [owner], none, false⟩) (t := table)
      (h.orderly.expectAt (Nat.succ_ne_zero _) (h.unsent _) (nodup_singleton _))
      (placed_expectAt h.placed _ _ _ _ (Nat.succ_ne_zero _)) rfl rfl rfl rfl
      (fun _ _ _ => rfl) (fun t' q b hb => Nat.le_succ_of_le (h.known t' q b hb))
      (fun t' q hq => ?_) (fun _ _ hb => hb) (fun _ _ _ => ?_)
      (fun _ _ hp => by cases hp) fun _ o' _ p _ b hb => ?_
    · simp only [note]
      split
      · exact mem_append_left _ hq
      · exact hq
    · simp only [note]
      exact mem_concat_self
    · cases (h.unknown table).symm.trans hb
  | onStagedBatch worker d answers =>
    have hseq : d.seq ≠ 0 := of_decide_eq_true haccept
    have horderly := h.orderly.step (a := .deliver worker _ answers) trivial htr
    cases htr
    -- The completion's delivery carries no position.
    generalize hd' : (if d.seq ∈ s.doneSeqs d.table then { d with position := none } else d) =
      d' at horderly
    have hsame : d'.table = d.table ∧ d'.seq = d.seq := by
      rw [← hd']
      split <;> exact ⟨rfl, rfl⟩
    have hpos : ∀ cy, s.tracker.cycles.openCycles d'.table d'.seq = some cy →
        cy.batchPos = none → cy.window = false → d'.position = none := by
      intro cy hcy hbatch hwindow
      obtain ⟨hcyseq, hshares⟩ := h.orderly.opened _ _ _ hcy
      have hdone : cy.seq ∈ s.doneSeqs d'.table := h.unplaced _ _ hshares.asked hbatch hwindow
      rw [hcyseq, hsame.1, hsame.2] at hdone
      rw [← hd', if_pos hdone]
    obtain ⟨hplaced, houts⟩ := h.placed.onDelivery answers (hsame.2 ▸ hseq) hpos
    refine { h with
      orderly := horderly
      placed := hplaced
      left := fun t p hp => ?_ }
    change p ∈ (if t = _ then _ else _) at hp
    split at hp
    · rcases mem_append.mp hp with hp | hp
      · exact h.left t p hp
      · exact houts p hp
    · exact h.left t p hp

/-- **The positions of staged commits.**  In every run whose batches are handed
over in order: the position a cycle writes covers no row of a cycle committed
after it or not yet; the positions written for a table, from the one it had at
boot, never go backwards; and a snapshot window's cycle writes none. -/
theorem staged_positions [LawfulPosition P] (su : Partitions P)
    (actions : List (SendAction P D)) (s : SendState P D)
    (hrun : run (step su) init actions = some s)
    (hok : Runs.Guarded (step su) (InOrder su) init actions) (t : String) :
    (∀ before cy p after, s.tracker.left t = before ++ (cy, .committed (some p)) :: after →
      ∀ q ∈ s.tracker.sentSeqs t, q ∉ before.map (·.1.seq) → q ≠ cy.seq →
        ∀ r ∈ s.rowsOfCycle su t q,
          coveredAtBoot (some p) (some r.position) (s.cyclePartial t q) = false) ∧
      ((su.boot t).toList ++ s.written t).Pairwise (fun p q => covered p q = true) ∧
      ∀ p ∈ s.tracker.left t, p.1.window = true → ∀ pos, p.2 = .committed pos → pos = none := by
  have h := invariant_of_guarded (Positioned su) (fun _ _ _ h hok hs => h.step hok hs)
    positioned_init hrun hok
  refine ⟨fun before cy p after hleft q hq hbefore hcy r hr =>
    h.not_covered hleft hq hbefore hcy hr, ?_, fun p hp hwindow pos hpos => ?_⟩
  · refine pairwise_append.mpr ⟨?_, h.forward t, fun p₀ hp₀ p hp => ?_⟩
    · cases su.boot t with
      | none => exact .nil
      | some p₀ => exact pairwise_singleton _ _
    · obtain ⟨o, ho, hpos⟩ := h.written_spec hp
      obtain ⟨b, -, -, -, hboot⟩ := h.batch t o ho p hpos
      exact hboot p₀ (Option.mem_toList.mp hp₀)
  · rw [(h.left t p hp).2 pos hpos, Cycle.ownPos, if_pos hwindow]

/-! ## Two partitions -/

/-- A row of the table `orders` with a number for its key. -/
def orderRow {P : Type} (key : Int) (pos : P) : EncodedRow P := ⟨.insert, [.scalar key], pos⟩

/-- The owner of an order by the parity of its key. -/
def byParity {P : Type} (boot : Option P) : Partitions P where
  owners _ := ["a", "b"]
  distinct _ := by decide
  route _ row := match row.cells with
    | [.scalar (.int _ key)] => (key % 2).toNat
    | _ => 0
  boot _ := boot

/-- An owner's delivery of a cycle. -/
def shareOf {P : Type} (worker : String) (seq : Nat) : SendAction P Nat :=
  .onStagedBatch worker ⟨"orders", seq, 0, seq, none, none, none, false⟩ fun _ => ⟨false, true⟩

/-- Two batches, the second of both owners; the second cycle completes first. -/
def twoBatches : List (SendAction LSN Nat) := [.register "a", .register "b",
    .enqueuePartitioned ⟨"orders", [orderRow 2 ⟨10⟩], false⟩,
    .enqueuePartitioned ⟨"orders", [orderRow 2 ⟨20⟩, orderRow 3 ⟨30⟩], false⟩,
    shareOf "a" 2, shareOf "b" 2, shareOf "a" 1]

/-- The table was left at position 5. -/
def leftAtFive : Partitions LSN := byParity (some ⟨5⟩)

/-- Two batches commit at 10 and 30, after a boot at 5. -/
theorem staged_positions_twoBatches : ∃ s, run (step leftAtFive) init twoBatches = some s ∧
      s.written "orders" = [⟨10⟩, ⟨30⟩] ∧
      ((leftAtFive.boot "orders").toList ++ s.written "orders").Pairwise
        (fun p q => covered p q = true) := by
  exact exists_run_and (by decide +kernel) fun s hrun _ => (staged_positions leftAtFive
    twoBatches s hrun (by decide +kernel) "orders").2.1

/-- A topic of two partitions: the table's position moves from one to the other,
and what it said of the first is gone.  And an order the Postgres reader stamps
with the position before its own transaction's: the position the cycle before it
writes covers it, while its cycle is open. -/
theorem staged_position_forgets_and_covers :
    (∃ s : SendState Offsets Nat, run (step (byParity none)) init
        [.register "a", .enqueuePartitioned ⟨"orders", [orderRow 2 (.record "orders" 0 7)], false⟩,
          .enqueuePartitioned ⟨"orders", [orderRow 4 (.record "orders" 1 4)], false⟩,
          shareOf "a" 1, shareOf "a" 2] = some s ∧
      s.written "orders" = [.record "orders" 0 7, .record "orders" 1 4] ∧
      covered (Offsets.record "orders" 0 7) (Offsets.record "orders" 1 4) = false) ∧
    ∃ s : SendState LSN Nat, run (step (byParity none)) init
        [.register "a", .enqueuePartitioned ⟨"orders", [orderRow 2 ⟨10⟩], false⟩,
          .enqueuePartitioned ⟨"orders", [orderRow 4 ⟨10⟩], false⟩, shareOf "a" 1] = some s ∧
      s.written "orders" = [⟨10⟩] ∧ s.tracker.cycles.order "orders" = [2] ∧
      s.rowsOfCycle (byParity none) "orders" 2 = [orderRow 4 ⟨10⟩] ∧
      coveredAtBoot (some (⟨10⟩ : LSN)) (some ⟨10⟩) (s.cyclePartial "orders" 2) = true := by
  exact ⟨exists_run (by decide +kernel), exists_run (by decide +kernel)⟩

end SendState

end Urutau
