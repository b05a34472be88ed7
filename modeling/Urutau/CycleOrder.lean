import Urutau.StagedCycles

/-!
# The order of staged commits

A table's cycles leave the tracker in the order they were sent, without a gap,
whatever order their shares arrive in.  A cycle that leaves holds one share of
each owner it was sent to.  Until a commit of the table fails, each is committed
in its turn, but for the snapshot windows their fan-out pass drops; after a
failure none is.
-/

namespace Urutau

open List Cycles Urutau.Cycle Runs

section Tracker

variable {P D : Type}

/-- A cycle as it was sent. -/
def Cycle.opening (cy : Cycle P D) : Opening P := ⟨cy.seq, cy.owners, cy.batchPos, cy.window⟩

/-- What an open or complete cycle holds: at most one share of each owner it was
sent to, as that owner delivered it. -/
structure Cycle.Shares (sent : List (Opening P)) (heard : List (String × StagedDelivery P D))
    (table : String) (cy : Cycle P D) : Prop where
  asked : cy.opening ∈ sent
  owners : cy.owners.Nodup
  expected : cy.expected = cy.owners.length
  once : cy.delivered.Nodup
  expectedOnly : ∀ o ∈ cy.delivered, o ∈ cy.owners
  parallel : cy.descriptors.length = cy.delivered.length
  heard : ∀ p ∈ cy.delivered.zip cy.descriptors, ∃ d, (p.1, d) ∈ heard ∧
    d.table = table ∧ d.seq = cy.seq ∧ d.descriptor = p.2

/-- Every owner's share is there. -/
def Cycle.Complete (sent : List (Opening P)) (heard : List (String × StagedDelivery P D))
    (table : String) (cy : Cycle P D) : Prop :=
  cy.Shares sent heard table ∧ cy.delivered.Perm cy.owners

section Shares

variable {sent sent' : List (Opening P)} {heard heard' : List (String × StagedDelivery P D)}
  {table : String} {cy : Cycle P D}

theorem Cycle.Shares.mono (h : cy.Shares sent heard table) (hsent : ∀ o ∈ sent, o ∈ sent')
    (hheard : ∀ p ∈ heard, p ∈ heard') : cy.Shares sent' heard' table :=
  { h with
    asked := hsent _ h.asked
    heard := fun p hp => by
      obtain ⟨d, hd, hrest⟩ := h.heard p hp
      exact ⟨d, hheard _ hd, hrest⟩ }

theorem Cycle.Complete.mono (h : cy.Complete sent heard table) (hsent : ∀ o ∈ sent, o ∈ sent')
    (hheard : ∀ p ∈ heard, p ∈ heard') : cy.Complete sent' heard' table :=
  ⟨h.1.mono hsent hheard, h.2⟩

/-- A complete cycle has as many shares as owners. -/
theorem Cycle.Shares.complete (h : cy.Shares sent heard table)
    (hall : cy.expected ≤ cy.descriptors.length) : cy.Complete sent heard table := by
  refine ⟨h, ?_⟩
  have hsub : List.Subperm cy.delivered cy.owners := subperm_of_subset h.once h.expectedOnly
  refine hsub.perm_of_length_le ?_
  rw [← h.expected, ← h.parallel]
  exact hall

/-- An owner's share is added once. -/
theorem Cycle.Shares.take {worker : String} {d : StagedDelivery P D}
    (h : cy.Shares sent heard table) (hname : worker ≠ "") (howner : worker ∈ cy.owners)
    (hnew : worker ∉ cy.delivered) (hheard : (worker, d) ∈ heard) (htable : d.table = table)
    (hseq : d.seq = cy.seq) : (Cycles.take cy worker d).Shares sent heard table := by
  have hdelivered : (Cycles.take cy worker d).delivered = cy.delivered ++ [worker] :=
    if_neg hname
  refine
    { asked := h.asked
      owners := h.owners
      expected := h.expected
      once := ?_
      expectedOnly := ?_
      parallel := ?_
      heard := ?_ }
  · rw [hdelivered]
    exact pairwise_concat.mpr ⟨h.once, fun o ho heq => hnew (heq ▸ ho)⟩
  · rw [hdelivered]
    exact forall_mem_concat.mpr ⟨h.expectedOnly, howner⟩
  · rw [hdelivered, length_append]
    change (cy.descriptors ++ [d.descriptor]).length = _
    rw [length_append, h.parallel]
    rfl
  · rw [hdelivered]
    change ∀ p ∈ (cy.delivered ++ [worker]).zip (cy.descriptors ++ [d.descriptor]), _
    rw [zip_append h.parallel.symm]
    exact forall_mem_concat.mpr ⟨h.heard, d, hheard, htable, hseq, rfl⟩

end Shares

namespace Cycles

/-! ## The drain -/

/-- The drain takes the done cycles in front, up to the first that is not. -/
theorem drainLocked_spec (done : Nat → Option (Cycle P D)) (order : List Nat)
    (hseq : ∀ q cy, done q = some cy → cy.seq = q) :
    (drainLocked done order).1.map seq ++ (drainLocked done order).2 = order ∧
      (∀ cy ∈ (drainLocked done order).1, done cy.seq = some cy) ∧
      ∀ q rest, (drainLocked done order).2 = q :: rest → done q = none := by
  induction order with
  | nil => exact ⟨rfl, nofun, nofun⟩
  | cons q rest ih =>
    obtain ⟨hsplit, hdone, hhead⟩ := ih
    cases hq : done q with
    | none =>
      rw [drainLocked, hq]
      refine ⟨rfl, nofun, fun q' rest' heq => ?_⟩
      rw [← (List.cons.inj heq).1]
      exact hq
    | some cy =>
      have hcy := hseq q cy hq
      rw [drainLocked, hq]
      refine ⟨?_, fun cy' hcy' => ?_, hhead⟩
      · change cy.seq :: (_ ++ _) = q :: rest
        rw [hcy, hsplit]
      · rcases mem_cons.mp hcy' with rfl | hcy'
        · rw [hcy]
          exact hq
        · exact hdone cy' hcy'

/-! ## The commits of a run -/

/-- A cycle left as it should: committed, or a window its pass drops. -/
def InTurn (p : Cycle P D × Outcome P) : Prop :=
  (∃ pos, p.2 = .committed pos) ∨ (p.1.window = true ∧ p.2 = .dropped)

/-- The cycles that left, in order: up to a failed commit each in its turn, after
it none committed. -/
def Unbroken (poisoned : Bool) (left : List (Cycle P D × Outcome P)) : Prop :=
  if poisoned then
    ∃ before cy after, left = before ++ (cy, .failed) :: after ∧
      (∀ p ∈ before, InTurn p) ∧ ∀ p ∈ after, p.2 = .abandoned
  else ∀ p ∈ left, InTurn p

variable [Position P] [Meeter P]

variable {answers : Nat → HostAnswer} {cy : Cycle P D}

/-- A cycle that fails abandons those behind it. -/
theorem commitRun_failed (rest : List (Cycle P D))
    (h : commitLocked (answers cy.seq) cy = .failed) :
    commitRun answers (cy :: rest) = (cy, .failed) :: rest.map (·, .abandoned) := by
  rw [commitRun, h]

/-- A cycle that does not fail hands on to the next. -/
theorem commitRun_inTurn (rest : List (Cycle P D))
    (h : commitLocked (answers cy.seq) cy ≠ .failed) :
    commitRun answers (cy :: rest) =
      (cy, commitLocked (answers cy.seq) cy) :: commitRun answers rest := by
  rw [commitRun]
  split
  · rename_i hfail
    exact absurd hfail h
  · rfl

/-- Every cycle of the run leaves, in order. -/
theorem commitRun_fst (answers : Nat → HostAnswer) (run : List (Cycle P D)) :
    (commitRun answers run).map Prod.fst = run := by
  induction run with
  | nil => rfl
  | cons cy rest ih =>
    by_cases hfail : commitLocked (answers cy.seq) cy = .failed
    · rw [commitRun_failed rest hfail, map_cons, map_map]
      exact congrArg (cy :: ·) (map_id rest)
    · rw [commitRun_inTurn rest hfail, map_cons, ih]

/-- A commit that does not fail is in turn. -/
theorem commitLocked_inTurn (answer : HostAnswer) (cy : Cycle P D)
    (h : commitLocked answer cy ≠ .failed) : InTurn (cy, commitLocked answer cy) := by
  unfold commitLocked at h ⊢
  split
  · rename_i hdrop
    rw [Bool.and_eq_true] at hdrop
    exact .inr ⟨hdrop.1, rfl⟩
  rename_i hdrop
  rw [if_neg hdrop] at h
  split
  · rename_i herr
    rw [herr] at h
    exact absurd rfl h
  · rename_i pos hpos
    rw [hpos] at h
    split
    · exact .inl ⟨pos, rfl⟩
    · rename_i hfail
      exact absurd (if_neg hfail) h

omit [Position P] [Meeter P] in
/-- Cycles that leave in turn may precede any others. -/
theorem Unbroken.append {poisoned : Bool} {xs ys : List (Cycle P D × Outcome P)}
    (hx : ∀ p ∈ xs, InTurn p) (hy : Unbroken poisoned ys) : Unbroken poisoned (xs ++ ys) := by
  cases poisoned with
  | false =>
    intro p hp
    rcases mem_append.mp hp with hp | hp
    · exact hx p hp
    · exact hy p hp
  | true =>
    obtain ⟨before, cy, after, rfl, hbefore, hafter⟩ := hy
    refine ⟨xs ++ before, cy, after, (append_assoc _ _ _).symm, fun p hp => ?_, hafter⟩
    rcases mem_append.mp hp with hp | hp
    · exact hx p hp
    · exact hbefore p hp

omit [Position P] [Meeter P] in
/-- A cycle in turn adds no failure. -/
theorem hasFailed_inTurn {p : Cycle P D × Outcome P} (h : InTurn p)
    (outs : List (Cycle P D × Outcome P)) : hasFailed (p :: outs) = hasFailed outs := by
  obtain ⟨cy, out⟩ := p
  rcases h with ⟨pos, hout⟩ | ⟨-, hout⟩
  · obtain rfl : out = .committed pos := hout
    rfl
  · obtain rfl : out = .dropped := hout
    rfl

/-- Up to a failure the run's cycles are in turn. -/
theorem commitRun_unbroken (answers : Nat → HostAnswer) (run : List (Cycle P D)) :
    Unbroken (hasFailed (commitRun answers run)) (commitRun answers run) := by
  induction run with
  | nil => exact nofun
  | cons cy rest ih =>
    by_cases hfail : commitLocked (answers cy.seq) cy = .failed
    · rw [commitRun_failed rest hfail]
      refine ⟨[], cy, rest.map (·, .abandoned), rfl, nofun, fun p hp => ?_⟩
      obtain ⟨cy', -, rfl⟩ := mem_map.mp hp
      rfl
    · have hturn := commitLocked_inTurn (answers cy.seq) cy hfail
      rw [commitRun_inTurn rest hfail, hasFailed_inTurn hturn]
      change Unbroken _ ([_] ++ commitRun answers rest)
      refine Unbroken.append (fun p hp => ?_) ih
      rw [mem_singleton.mp hp]
      exact hturn

end Cycles

end Tracker

namespace StagedState

variable {P D : Type} {s : StagedState P D}

/-- The sequence numbers of the cycles that have left, of those that were
sent. -/
def leftSeqs (left : List (Cycle P D × Cycles.Outcome P)) : List Nat :=
  (left.map (·.1.seq)).filter (· ≠ 0)

theorem leftSeqs_append (xs ys : List (Cycle P D × Cycles.Outcome P)) :
    leftSeqs (xs ++ ys) = leftSeqs xs ++ leftSeqs ys := by
  rw [leftSeqs, map_append, filter_append]
  rfl

/-- The order of the tracker and what the cycles in it hold. -/
structure Orderly (s : StagedState P D) : Prop where
  named : s.epoch "" = none
  sent : ∀ t, leftSeqs (s.left t) ++ s.cycles.order t = s.sentSeqs t
  fresh : ∀ t, (s.sentSeqs t).Nodup ∧ 0 ∉ s.sentSeqs t
  order : ∀ t q, q ∈ s.cycles.order t ↔
    (s.cycles.openCycles t q).isSome ∨ (s.cycles.done t q).isSome
  apart : ∀ t q, (s.cycles.done t q).isSome → s.cycles.openCycles t q = none
  opened : ∀ t q cy, s.cycles.openCycles t q = some cy → cy.seq = q ∧ cy.Shares (s.sent t) s.heard t
  complete : ∀ t q cy, s.cycles.done t q = some cy → cy.seq = q ∧ cy.Complete (s.sent t) s.heard t
  left : ∀ t, ∀ p ∈ s.left t, p.1.seq ≠ 0 → p.1.Complete (s.sent t) s.heard t
  unbroken : ∀ t, Cycles.Unbroken (s.cycles.poisoned t) (s.left t)

theorem orderly_init : Orderly (init : StagedState P D) where
  named := rfl
  sent _ := rfl
  fresh _ := ⟨nodup_nil, not_mem_nil⟩
  order _ _ := by
    change _ ∈ [] ↔ (none : Option (Cycle P D)).isSome ∨ (none : Option (Cycle P D)).isSome
    simp
  apart := nofun
  opened := nofun
  complete := nofun
  left := nofun
  unbroken _ := nofun

variable {t t' : String}

variable {q q' : Nat} {V : Type} {heard : List (String × StagedDelivery P D)} {o : Opening P}
  {c : Cycles P D}

/-- A cycle that was not sent is not in the tracker. -/
theorem Orderly.absent (h : Orderly s) (hq : q ∉ s.sentSeqs t) :
    s.cycles.openCycles t q = none ∧ s.cycles.done t q = none := by
  have hsent : q ∉ s.cycles.order t := fun hmem =>
    hq (h.sent t ▸ mem_append_right _ hmem)
  rw [h.order, not_or, Option.not_isSome_iff_eq_none, Option.not_isSome_iff_eq_none] at hsent
  exact hsent

/-! ## The tracker's maps -/

theorem update_self (m : String → Nat → Option V) (t : String) (q : Nat)
    (v : Option V) : update m t q v t q = v :=
  if_pos ⟨rfl, rfl⟩

theorem update_other (m : String → Nat → Option V) (v : Option V)
    (h : ¬ (t' = t ∧ q' = q)) : update m t q v t' q' = m t' q' :=
  if_neg h

/-- An entry found is the new one or was there. -/
theorem update_eq_some {m : String → Nat → Option V} {v : Option V}
    {x : V} (h : update m t q v t' q' = some x) :
    (t' = t ∧ q' = q ∧ v = some x) ∨ m t' q' = some x := by
  unfold update at h
  split at h
  · exact .inl ⟨‹_ ∧ _›.1, ‹_ ∧ _›.2, h⟩
  · exact .inr h

/-- More deliveries have been heard. -/
theorem Orderly.hears (h : Orderly s)
    (hheard : ∀ p ∈ s.heard, p ∈ heard) : Orderly { s with heard } :=
  { h with
    opened := fun t q cy hcy =>
      ⟨(h.opened t q cy hcy).1, (h.opened t q cy hcy).2.mono (fun _ => id) hheard⟩
    complete := fun t q cy hcy =>
      ⟨(h.complete t q cy hcy).1, (h.complete t q cy hcy).2.mono (fun _ => id) hheard⟩
    left := fun t p hp hseq => (h.left t p hp hseq).mono (fun _ => id) hheard }

variable {old new : Cycle P D}

section

variable (h : Orderly s) (hold : s.cycles.openCycles t q = some old) (hseq : new.seq = q)
include h hold hseq

/-- An open cycle is replaced by another of the same number. -/
theorem Orderly.replace (hnew : new.Shares (s.sent t) s.heard t) :
    Orderly { s with cycles := { s.cycles with
      openCycles := update s.cycles.openCycles t q (some new) } } :=
  { h with
    order := fun t' q' => by
      change _ ↔ (update s.cycles.openCycles t q (some new) t' q').isSome ∨ _
      rw [h.order]
      by_cases hat : t' = t ∧ q' = q
      · rw [hat.1, hat.2, update_self, hold]
        rfl
      · rw [update_other _ _ hat]
    apart := fun t' q' hdone => by
      change update s.cycles.openCycles t q (some new) t' q' = none
      by_cases hat : t' = t ∧ q' = q
      · have hnone := h.apart t' q' hdone
        rw [hat.1, hat.2, hold] at hnone
        cases hnone
      · rw [update_other _ _ hat]
        exact h.apart t' q' hdone
    opened := fun t' q' cy hcy => by
      rcases update_eq_some hcy with ⟨rfl, rfl, heq⟩ | hcy
      · exact Option.some.inj heq ▸ ⟨hseq, hnew⟩
      · exact h.opened t' q' cy hcy }

/-- An open cycle is complete: it waits for its turn. -/
theorem Orderly.finish (hnew : new.Complete (s.sent t) s.heard t) :
    Orderly { s with cycles := { s.cycles with
      openCycles := update s.cycles.openCycles t q none
      done := update s.cycles.done t q (some new) } } :=
  { h with
    order := fun t' q' => by
      change _ ↔ (update s.cycles.openCycles t q none t' q').isSome ∨
        (update s.cycles.done t q (some new) t' q').isSome
      rw [h.order]
      by_cases hat : t' = t ∧ q' = q
      · rw [hat.1, hat.2, update_self, update_self, hold]
        exact ⟨fun _ => .inr rfl, fun _ => .inl rfl⟩
      · rw [update_other _ _ hat, update_other _ _ hat]
    apart := fun t' q' hdone => by
      change (update s.cycles.done t q (some new) t' q').isSome at hdone
      change update s.cycles.openCycles t q none t' q' = none
      by_cases hat : t' = t ∧ q' = q
      · rw [hat.1, hat.2, update_self]
      · rw [update_other _ _ hat] at hdone ⊢
        exact h.apart t' q' hdone
    opened := fun t' q' cy hcy => by
      rcases update_eq_some hcy with ⟨-, -, heq⟩ | hcy
      · cases heq
      · exact h.opened t' q' cy hcy
    complete := fun t' q' cy hcy => by
      rcases update_eq_some hcy with ⟨rfl, rfl, heq⟩ | hcy
      · exact Option.some.inj heq ▸ ⟨hseq, hnew⟩
      · exact h.complete t' q' cy hcy }

end

/-! ## Openings -/

variable {owners : List String}

/-- A new cycle has no share yet. -/
theorem fresh_shares {sent : List (Opening P)}
    (t : String) (seq : Nat) (batchPos : Option P) (hown : owners.Nodup)
    (hasked : ⟨seq, owners, batchPos, false⟩ ∈ sent) :
    (fresh seq owners batchPos : Cycle P D).Shares sent heard t where
  asked := hasked
  owners := hown
  expected := rfl
  once := nodup_nil
  expectedOnly := nofun
  parallel := rfl
  heard := nofun

/-- Nothing is sent to no owner. -/
theorem noteSent_nil (s : StagedState P D) (t : String) (o : Opening P) (h : o.owners = []) :
    s.noteSent t o = s.sent :=
  funext fun _ => if_neg fun hand => hand.2 h

/-- The opening is noted for its table. -/
theorem noteSent_self (s : StagedState P D) (t : String) (h : o.owners ≠ []) :
    s.noteSent t o t = s.sent t ++ [o] :=
  if_pos ⟨rfl, h⟩

theorem noteSent_other (s : StagedState P D) (o : Opening P) (h : t' ≠ t) :
    s.noteSent t o t' = s.sent t' :=
  if_neg fun hand => h hand.1

theorem mem_noteSent (s : StagedState P D) (t t' : String) (o : Opening P) :
    ∀ o' ∈ s.sent t', o' ∈ s.noteSent t o t' := by
  intro o' ho'
  unfold noteSent
  split
  · exact mem_append_left _ ho'
  · exact ho'

/-- A cycle under a fresh number joins the tracker at the end of its table's
order. -/
theorem Orderly.join (h : Orderly s) (hpos : o.seq ≠ 0)
    (hfresh : o.seq ∉ s.sentSeqs t) (hown : o.owners ≠ []) (hseq : new.seq = o.seq)
    (hnew : new.Shares (s.noteSent t o t) s.heard t) :
    Orderly { s with
      cycles := { s.cycles with
        openCycles := update s.cycles.openCycles t o.seq (some new)
        order := fun t' => if t' = t then s.cycles.order t' ++ [o.seq] else s.cycles.order t' }
      sent := s.noteSent t o } := by
  have habsent := h.absent hfresh
  have hsent : ∀ t', (s.noteSent t o t').map Opening.seq =
      if t' = t then s.sentSeqs t' ++ [o.seq] else s.sentSeqs t' := by
    intro t'
    by_cases ht : t' = t
    · rw [if_pos ht, ht, noteSent_self s t hown, map_append]
      rfl
    · rw [if_neg ht, noteSent_other s o ht]
      rfl
  refine
    { named := h.named
      sent := fun t' => ?_
      fresh := fun t' => ?_
      order := fun t' q => ?_
      apart := fun t' q hdone => ?_
      opened := fun t' q cy hcy => ?_
      complete := fun t' q cy hcy => ?_
      left := fun t' p hp hseq =>
        (h.left t' p hp hseq).mono (mem_noteSent s t t' o) (fun _ => id)
      unbroken := h.unbroken }
  · change leftSeqs (s.left t') ++ (if t' = t then _ else _) = (s.noteSent t o t').map Opening.seq
    rw [hsent, ← h.sent t']
    split
    · exact (append_assoc _ _ _).symm
    · rfl
  · change ((s.noteSent t o t').map Opening.seq).Nodup ∧ 0 ∉ (s.noteSent t o t').map Opening.seq
    rw [hsent]
    by_cases ht : t' = t
    · rw [if_pos ht, ht]
      refine ⟨pairwise_concat.mpr ⟨(h.fresh t).1, fun q hq heq => ?_⟩, fun hmem => ?_⟩
      · exact hfresh (heq ▸ hq)
      · rcases mem_append.mp hmem with hmem | hmem
        · exact (h.fresh t).2 hmem
        · exact hpos (mem_singleton.mp hmem).symm
    · rw [if_neg ht]
      exact h.fresh t'
  · change q ∈ (if t' = t then _ else _) ↔
      (update s.cycles.openCycles t o.seq (some new) t' q).isSome ∨ _
    by_cases hat : t' = t ∧ q = o.seq
    · rw [if_pos hat.1, hat.1, hat.2, update_self]
      exact ⟨fun _ => .inl rfl, fun _ => mem_concat_self⟩
    rw [update_other _ _ hat, ← h.order]
    split
    · rename_i ht
      rw [mem_append, mem_singleton]
      exact ⟨fun hq => hq.resolve_right fun hq => hat ⟨ht, hq⟩, .inl⟩
    · exact Iff.rfl
  · change update s.cycles.openCycles t o.seq (some new) t' q = none
    by_cases hat : t' = t ∧ q = o.seq
    · rw [hat.1, hat.2, habsent.2] at hdone
      cases hdone
    · rw [update_other _ _ hat]
      exact h.apart t' q hdone
  · rcases update_eq_some hcy with ⟨rfl, rfl, heq⟩ | hcy
    · exact Option.some.inj heq ▸ ⟨hseq, hnew⟩
    · exact ⟨(h.opened t' q cy hcy).1,
        (h.opened t' q cy hcy).2.mono (mem_noteSent s t t' o) (fun _ => id)⟩
  · exact ⟨(h.complete t' q cy hcy).1,
      (h.complete t' q cy hcy).2.mono (mem_noteSent s t t' o) (fun _ => id)⟩

/-- `ExpectAt` opens the cycle. -/
theorem expectAt_fresh {seq : Nat} (batchPos : Option P) (hown : owners ≠ [])
    (hnone : c.openCycles t seq = none) :
    c.expectAt t seq owners batchPos = { c with
      openCycles := update c.openCycles t seq (some (fresh seq owners batchPos))
      order := fun t' => if t' = t then c.order t' ++ [seq] else c.order t' } := by
  unfold expectAt
  rw [if_neg hown, hnone]
  rfl

/-- A new cycle comes last in its table's order. -/
theorem Orderly.expectAt {seq : Nat} {batchPos : Option P} (h : Orderly s) (hpos : seq ≠ 0)
    (hfresh : seq ∉ s.sentSeqs t) (hown : owners.Nodup) :
    Orderly { s with
      cycles := s.cycles.expectAt t seq owners batchPos
      sent := s.noteSent t ⟨seq, owners, batchPos, false⟩ } := by
  by_cases hnil : owners = []
  · rw [noteSent_nil s t _ hnil, Cycles.expectAt, if_pos hnil]
    exact h
  rw [expectAt_fresh batchPos hnil (h.absent hfresh).1]
  refine h.join (o := ⟨seq, owners, batchPos, false⟩) hpos hfresh hnil rfl ?_
  refine fresh_shares t seq batchPos hown ?_
  rw [noteSent_self s t hnil]
  exact mem_concat_self

theorem update_update (m : String → Nat → Option V) (t : String) (q : Nat) (v w : Option V) :
    update (update m t q v) t q w = update m t q w := by
  funext t' q'
  by_cases hat : t' = t ∧ q' = q
  · rw [hat.1, hat.2, update_self, update_self]
  · rw [update_other _ _ hat, update_other _ _ hat, update_other _ _ hat]

/-- A window's cycle comes last too. -/
theorem Orderly.expectWindow {seq : Nat} (h : Orderly s) (hpos : seq ≠ 0)
    (hfresh : seq ∉ s.sentSeqs t) (hown : owners.Nodup) :
    Orderly { s with
      cycles := s.cycles.expectWindow t seq owners
      sent := s.noteSent t ⟨seq, owners, none, true⟩ } := by
  have hnone := (h.absent hfresh).1
  by_cases hnil : owners = []
  · have hsame : s.cycles.expectWindow t seq owners = s.cycles := by
      rw [Cycles.expectWindow, Cycles.expectAt, if_pos hnil]
      rw [hnone]
    rw [noteSent_nil s t _ hnil, hsame]
    exact h
  · have hwindow : s.cycles.expectWindow t seq owners = { s.cycles with
        openCycles := Cycles.update s.cycles.openCycles t seq
          (some { Cycles.fresh seq owners none with window := true })
        order := fun t' =>
          if t' = t then s.cycles.order t' ++ [seq] else s.cycles.order t' } := by
      rw [Cycles.expectWindow, expectAt_fresh none hnil hnone]
      dsimp only
      rw [update_self]
      simp only [update_update]
    rw [hwindow]
    refine h.join (o := ⟨seq, owners, none, true⟩) hpos hfresh hnil rfl ?_
    have hshares : (Cycles.fresh seq owners none : Cycle P D).Shares
        [⟨seq, owners, none, false⟩] s.heard t :=
      fresh_shares t seq none hown mem_cons_self
    refine { hshares with asked := ?_ }
    rw [noteSent_self s t hnil]
    exact mem_concat_self

/-! ## Deliveries -/

/-- A lost owner leaves the order as it is. -/
theorem Orderly.markLost (h : Orderly s) (t worker : String) (seq : Nat) :
    Orderly { s with cycles := s.cycles.markLost t worker seq } := by
  unfold Cycles.markLost
  cases hcy : s.cycles.openCycles t seq with
  | none => exact h
  | some cy =>
    obtain ⟨hseq, hshares⟩ := h.opened t seq cy hcy
    change Orderly { s with cycles := if _ then _ else _ }
    split
    · exact h
    · exact h.replace hcy hseq { hshares with }

variable [Position P] [Meeter P]

/-- A run of complete cycles leaves the tracker, and its commits are tried in
turn. -/
theorem Orderly.leaves {run : List (Cycle P D)} (h : Orderly s)
    (answers : Nat → Cycles.HostAnswer) (hclean : s.cycles.poisoned t = false)
    (hsplit : (run.map seq).filter (· ≠ 0) ++ c.order t = s.cycles.order t)
    (hothers : ∀ t' ≠ t, c.order t' = s.cycles.order t')
    (horder : ∀ t' q, q ∈ c.order t' ↔ (c.openCycles t' q).isSome ∨ (c.done t' q).isSome)
    (hopen : c.openCycles = s.cycles.openCycles)
    (hdone : ∀ t' q cy, c.done t' q = some cy → s.cycles.done t' q = some cy)
    (hpoison : c.poisoned = s.cycles.poisoned)
    (hrun : ∀ cy ∈ run, cy.seq ≠ 0 → cy.Complete (s.sent t) s.heard t) :
    Orderly { s with
      cycles := if hasFailed (commitRun answers run) then
          { c with poisoned := fun t' => if t' = t then true else c.poisoned t' }
        else c
      left := fun t' =>
        if t' = t then s.left t' ++ commitRun answers run else s.left t' } := by
  have hseqs : leftSeqs (commitRun answers run) = (run.map seq).filter (· ≠ 0) := by
    rw [← commitRun_fst answers run, map_map, commitRun_fst]
    rfl
  -- A failed commit changes only the poison marks.
  have hmarks : ∀ (f : Bool),
      (if f then { c with poisoned := fun t' => if t' = t then true else c.poisoned t' } else c) =
        { c with poisoned := fun t' => if t' = t then f else s.cycles.poisoned t' } := by
    intro f
    cases f with
    | false =>
      have hkept : c.poisoned = fun t' => if t' = t then false else s.cycles.poisoned t' := by
        funext t'
        split
        · rw [hpoison, ‹t' = t›, hclean]
        · rw [hpoison]
      exact hkept ▸ rfl
    | true => rw [if_pos rfl, hpoison]
  rw [hmarks]
  refine
    { named := h.named
      sent := fun t' => ?_
      fresh := h.fresh
      order := horder
      apart := fun t' q hq => ?_
      opened := fun t' q cy hcy => h.opened t' q cy (hopen ▸ hcy)
      complete := fun t' q cy hcy => h.complete t' q cy (hdone t' q cy hcy)
      left := fun t' p hp hseq => ?_
      unbroken := fun t' => ?_ }
  · change leftSeqs (if t' = t then _ else _) ++ c.order t' = s.sentSeqs t'
    rw [← h.sent t']
    by_cases ht : t' = t
    · rw [if_pos ht, ht, leftSeqs_append, hseqs, append_assoc, hsplit]
    · rw [if_neg ht, hothers t' ht]
  · obtain ⟨cy, hcy⟩ := Option.isSome_iff_exists.mp hq
    rw [hopen]
    exact h.apart t' q (Option.isSome_iff_exists.mpr ⟨cy, hdone t' q cy hcy⟩)
  · change p ∈ if t' = t then _ else _ at hp
    by_cases ht : t' = t
    · rw [if_pos ht, ht] at hp
      rw [ht]
      rcases mem_append.mp hp with hp | hp
      · exact h.left t p hp hseq
      · refine hrun p.1 ?_ hseq
        rw [← commitRun_fst answers run]
        exact mem_map_of_mem hp
    · rw [if_neg ht] at hp
      exact h.left t' p hp hseq
  · change Cycles.Unbroken (if t' = t then _ else _) (if t' = t then _ else _)
    by_cases ht : t' = t
    · rw [if_pos ht, if_pos ht, ht]
      have hbefore := h.unbroken t
      rw [hclean] at hbefore
      exact Cycles.Unbroken.append hbefore (commitRun_unbroken answers run)
    · rw [if_neg ht, if_neg ht]
      exact h.unbroken t'

omit [Position P] [Meeter P] in
/-- The head of a table's order, as far as it is complete, leaves the tracker. -/
theorem Orderly.drain_spec (h : Orderly s) (t : String) : let out := s.cycles.drain t
    (out.1.map seq).filter (· ≠ 0) ++ out.2.order t = s.cycles.order t ∧
      (∀ t' q, q ∈ out.2.order t' ↔ (out.2.openCycles t' q).isSome ∨ (out.2.done t' q).isSome) ∧
      (∀ t' q cy, out.2.done t' q = some cy → s.cycles.done t' q = some cy) ∧
      ∀ cy ∈ out.1, s.cycles.done t cy.seq = some cy := by
  obtain ⟨hsplit, hrun, -⟩ := drainLocked_spec (s.cycles.done t) (s.cycles.order t)
    fun q cy hcy => (h.complete t q cy hcy).1
  generalize hout : drainLocked (s.cycles.done t) (s.cycles.order t) = out at hsplit hrun
  obtain ⟨run, rest⟩ := out
  have htaken : (s.cycles.order t).take run.length = run.map seq := by
    rw [← hsplit, take_left' (length_map _)]
  have hdrain : s.cycles.drain t = (run, { s.cycles with
      done := fun t' q => if t' = t ∧ q ∈ run.map seq then none else s.cycles.done t' q
      order := fun t' => if t' = t then rest else s.cycles.order t' }) := by
    unfold drain
    rw [hout, ← htaken]
  have hnodup : (run.map seq ++ rest).Nodup := by
    rw [hsplit]
    exact ((h.sent t ▸ (h.fresh t).1 : (_ ++ s.cycles.order t).Nodup)).of_append_right
  have hzero : 0 ∉ run.map seq := fun hmem => (h.fresh t).2 (by
    rw [← h.sent t, ← hsplit]
    exact mem_append_right _ (mem_append_left _ hmem))
  have hdone : ∀ q ∈ run.map seq, (s.cycles.done t q).isSome := by
    intro q hq
    obtain ⟨cy, hcy, rfl⟩ := mem_map.mp hq
    rw [hrun cy hcy]
    rfl
  rw [hdrain]
  refine ⟨?_, fun t' q => ?_, fun t' q cy hcy => ?_, hrun⟩
  · change (run.map seq).filter (· ≠ 0) ++ (if t = t then rest else _) = _
    have hall : (run.map seq).filter (· ≠ 0) = run.map seq := filter_eq_self.mpr fun q hq =>
        decide_eq_true fun hq0 : q = 0 => hzero (hq0 ▸ hq)
    rw [if_pos rfl, hall]
    exact hsplit
  · change q ∈ (if t' = t then rest else _) ↔
      (s.cycles.openCycles t' q).isSome ∨ (if t' = t ∧ q ∈ run.map seq then _ else _ :
        Option (Cycle P D)).isSome
    by_cases ht : t' = t
    · rw [if_pos ht, ht]
      by_cases hq : q ∈ run.map seq
      · rw [if_pos ⟨rfl, hq⟩, h.apart t q (hdone q hq)]
        refine ⟨fun hrest => ?_, fun hor => ?_⟩
        · exact absurd rfl ((nodup_append.mp hnodup).2.2 q hq q hrest)
        · rcases hor with hor | hor <;> cases hor
      · rw [if_neg fun hand => hq hand.2, ← h.order, ← hsplit, mem_append]
        exact ⟨.inr, fun hor => hor.resolve_left hq⟩
    · rw [if_neg ht, if_neg fun hand => ht hand.1]
      exact h.order t' q
  · change (if t' = t ∧ q ∈ run.map seq then none else _) = some cy at hcy
    split at hcy
    · cases hcy
    · exact hcy

/-- A delivery reaches a table none of whose commits has failed. -/
theorem Orderly.deliver {worker : String} {d : StagedDelivery P D} (h : Orderly s)
    (answers : Nat → Cycles.HostAnswer) (hname : worker ≠ "") (hheard : (worker, d) ∈ s.heard)
    (hclean : s.cycles.poisoned d.table = false) :
    let out := s.cycles.deliver worker d
    Orderly { s with
      cycles := if hasFailed (commitRun answers out.1) then
          { out.2 with poisoned := fun t' => if t' = d.table then true else out.2.poisoned t' }
        else out.2
      left := fun t' =>
        if t' = d.table then s.left t' ++ commitRun answers out.1 else s.left t' } := by
  -- Nothing of the tracker changes but a run of cycles of no batch.
  have hquiet : ∀ run : List (Cycle P D), (∀ cy ∈ run, cy.seq = 0) → Orderly { s with
      cycles := if hasFailed (commitRun answers run) then
          { s.cycles with
            poisoned := fun t' => if t' = d.table then true else s.cycles.poisoned t' }
        else s.cycles
      left := fun t' =>
        if t' = d.table then s.left t' ++ commitRun answers run else s.left t' } := by
    intro run hzero
    refine h.leaves answers hclean ?_ (fun _ _ => rfl) h.order rfl (fun _ _ _ hcy => hcy) rfl
      fun cy hcy hseq => absurd (hzero cy hcy) hseq
    rw [filter_eq_nil_iff.mpr fun q hq => ?_]
    · rfl
    · obtain ⟨cy, hcy, rfl⟩ := mem_map.mp hq
      rw [hzero cy hcy]
      decide
  unfold Cycles.deliver
  cases hcy : s.cycles.openCycles d.table d.seq with
  | none =>
    refine hquiet _ fun cy hmem => ?_
    change cy ∈ if d.seq = 0 then _ else _ at hmem
    split at hmem
    · rw [mem_singleton.mp hmem]
      rfl
    · cases hmem
  | some cy =>
    obtain ⟨hseq, hshares⟩ := h.opened d.table d.seq cy hcy
    by_cases hrefused : worker ≠ "" ∧ (worker ∉ cy.owners ∨ worker ∈ cy.delivered)
    · simp only [if_pos hrefused]
      exact hquiet [] nofun
    have howner : worker ∈ cy.owners := Decidable.byContradiction fun hno =>
      hrefused ⟨hname, .inl hno⟩
    have honce : worker ∉ cy.delivered := fun hin => hrefused ⟨hname, .inr hin⟩
    have htake := hshares.take hname howner honce hheard rfl hseq.symm
    have hkept : (take cy worker d).seq = d.seq := hseq
    simp only [if_neg hrefused]
    by_cases hmore : (take cy worker d).descriptors.length < (take cy worker d).expected
    · simp only [if_pos hmore]
      have hnext := h.replace hcy hkept htake
      refine hnext.leaves answers hclean rfl (fun _ _ => rfl) hnext.order rfl
        (fun _ _ _ hd => hd) rfl nofun
    · simp only [if_neg hmore]
      have hnext := h.finish hcy hkept (htake.complete (Nat.le_of_not_lt hmore))
      obtain ⟨hsplit, horder, hdone, hrun⟩ := hnext.drain_spec d.table
      exact hnext.leaves answers hclean hsplit (fun t' ht => if_neg ht) horder rfl hdone rfl
        fun cy' hcy' _ => (hnext.complete _ _ _ (hrun cy' hcy')).2

/-- A delivery releases cycles from the front only. -/
theorem Orderly.onDelivery (h : Orderly s) (worker : String) (d : StagedDelivery P D)
    (answers : Nat → Cycles.HostAnswer) : Orderly (s.onDelivery worker d answers) := by
  have hsame : ∀ t, (if t = d.table then s.left t ++ [] else s.left t) = s.left t := by
    intro t
    rw [append_nil, ite_self]
  have hmono : ∀ p ∈ s.heard, p ∈ s.heard ++ [(worker, d)] := fun p hp =>
    mem_append_left _ hp
  unfold StagedState.onDelivery Cycles.onDelivery
  by_cases hepoch : s.epoch worker = some d.epoch
  · have hname : worker ≠ "" := by
      intro hempty
      rw [hempty, h.named] at hepoch
      cases hepoch
    simp only [hepoch, ne_eq, not_true, if_false]
    cases hclean : s.cycles.poisoned d.table with
    | true =>
      simp only [if_true, hsame]
      exact h.hears hmono
    | false =>
      have hheard := h.hears hmono
      have hmem : (worker, d) ∈ s.heard ++ [(worker, d)] := mem_concat_self
      cases hlost : d.windowLost with
      | false => exact hheard.deliver answers hname hmem hclean
      | true =>
        have hmarked := hheard.markLost d.table worker d.seq
        refine hmarked.deliver answers hname hmem ?_
        rw [← hclean]
        unfold Cycles.markLost
        split
        · rfl
        · split <;> rfl
  · simp only [hepoch, ne_eq, not_false_eq_true, if_true, hsame]
    exact h

theorem Orderly.step {s' : StagedState P D} {a : StagedAction P D} (h : Orderly s)
    (hok : Fresh s a) (hs : s.step a = some s') : Orderly s' := by
  cases a with
  | register worker =>
    simp only [StagedState.step] at hs
    split at hs
    · cases hs
    · rename_i hname
      cases hs
      exact { h with named := (if_neg (Ne.symm hname)).trans h.named }
  | supersede worker =>
    cases hs
    refine { h with named := ?_ }
    change (if "" = worker then _ else _) = none
    rw [h.named]
    split <;> rfl
  | expectAt table seq owners batchPos =>
    cases hs
    exact h.expectAt hok.1 hok.2.1 hok.2.2
  | expectWindow table seq owners =>
    cases hs
    exact h.expectWindow hok.1 hok.2.1 hok.2.2
  | deliver worker d answers =>
    cases hs
    exact h.onDelivery worker d answers

/-- The order holds in every run. -/
theorem orderly_run {actions : List (StagedAction P D)}
    (hrun : run step init actions = some s) (hok : Runs.Guarded step Fresh init actions) :
    Orderly s :=
  invariant_of_guarded Orderly (fun _ _ _ h hok hs => h.step hok hs) orderly_init hrun hok

/-- **The cycle protocol.**  After every run of openings and deliveries, of each
table: the cycles that left, followed by the order, are those sent, in send order
and each once; every one that left holds exactly one delivery of each owner it
was sent to; up to a failed commit each was committed in its turn, but for
windows their pass drops, and after it none; and the order names exactly the
cycles still accumulating or complete and waiting. -/
theorem staged_cycle_protocol (actions : List (StagedAction P D)) (s : StagedState P D)
    (hrun : run step init actions = some s) (hok : Runs.Guarded step Fresh init actions)
    (t : String) :
    leftSeqs (s.left t) ++ s.cycles.order t = s.sentSeqs t ∧ (s.sentSeqs t).Nodup ∧
      (∀ p ∈ s.left t, p.1.seq ≠ 0 → p.1.Complete (s.sent t) s.heard t) ∧
      Cycles.Unbroken (s.cycles.poisoned t) (s.left t) ∧
      ∀ q, q ∈ s.cycles.order t ↔
        (s.cycles.openCycles t q).isSome ∨ (s.cycles.done t q).isSome := by
  have h := orderly_run hrun hok
  exact ⟨h.sent t, (h.fresh t).1, h.left t, h.unbroken t, h.order t⟩

end StagedState

/-! ## Two owners -/

namespace StagedState

/-- One owner's delivery of a cycle of the table `t`. -/
def share (worker : String) (seq : Nat) ( lost ok : Bool) : StagedAction LSN Nat :=
  .deliver worker ⟨"t", seq, 0, seq, none, none, none, lost⟩ fun _ => ⟨lost, ok⟩

/-- Cycle 2 completes first; the second delivery of an owner counts for
nothing. -/
def overtaken : List (StagedAction LSN Nat) :=
  [.register "a", .register "b", .expectAt "t" 1 ["a", "b"] (some ⟨10⟩),
    .expectAt "t" 2 ["a"] (some ⟨20⟩), share "a" 2 false true, share "b" 1 false true,
    share "b" 1 false true, share "a" 1 false true]

/-- The second cycle is complete first and leaves second. -/
theorem staged_cycle_protocol_overtaken : ∃ s, run step init overtaken = some s ∧
      (s.left "t").map (fun p => (p.1.seq, p.2)) =
        [(1, .committed (some ⟨10⟩)), (2, .committed (some ⟨20⟩))] ∧
      leftSeqs (s.left "t") ++ s.cycles.order "t" = s.sentSeqs "t" ∧
      ∀ p ∈ s.left "t", p.1.seq ≠ 0 → p.1.Complete (s.sent "t") s.heard "t" := by
  refine exists_run_and (by decide +kernel) fun s hrun _ => ?_
  have h := staged_cycle_protocol overtaken s hrun (by decide +kernel) "t"
  exact ⟨h.1, h.2.2.1⟩

/-- A window whose owner lost it leaves uncommitted, and the next cycle is
committed; and when a commit fails, the complete cycles behind it leave with it,
uncommitted and no longer in the order. -/
theorem uncommitted_cycles_leave : (∃ s, run step init [.register "a", .expectWindow "t" 1 ["a"],
        .expectAt "t" 2 ["a"] (some ⟨20⟩), share "a" 1 true true, share "a" 2 false true] = some s ∧
      s.sentSeqs "t" = [1, 2] ∧
      (s.left "t").map (fun p => (p.1.seq, p.2)) = [(1, .dropped), (2, .committed (some ⟨20⟩))]) ∧
    ∃ s, run step init [.register "a", .expectAt "t" 1 ["a"] (some ⟨10⟩),
        .expectAt "t" 2 ["a"] (some ⟨20⟩), share "a" 2 false true, share "a" 1 false false] =
          some s ∧
      s.sentSeqs "t" = [1, 2] ∧ s.cycles.order "t" = [] ∧
      (s.left "t").map (fun p => (p.1.seq, p.2)) = [(1, .failed), (2, .abandoned)] := by
  exact ⟨exists_run (by decide +kernel), exists_run (by decide +kernel)⟩

end StagedState

end Urutau
