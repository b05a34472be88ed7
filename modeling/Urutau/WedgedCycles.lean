import Urutau.CustodySteps

/-!
# No wedged cycle

A cycle goes out under the next number, behind all that its owners are owed
already, so that what is sent earlier is acked at earlier positions.  As long as
no position sent before releases a share of the new cycle, and the batcher never
holds another cycle when it takes in a window's marker, a cycle that waits for an
owner always finds the owner's share in the queue or on the sent list.
-/

namespace Urutau

open List Option Runs PositionIndex

namespace CustodyState

open CustodyEvent (Sound)

variable {P : Type} [Position P] {s s' : CustodyState P} {w t : String}

/-! ## Sending a cycle -/

/-- One cycle of a table is sent: `share` is what each worker gets of it. -/
structure Sends (s s' : CustodyState P) (t : String) (o : Opening P)
    (share : String → Option (Share P)) (positions : List P) : Prop where
  epoch : s'.tracker.epoch = s.tracker.epoch
  noted : s'.tracker.sent = s.tracker.noteSent t o
  waits : ∀ t' q w, Missing s'.tracker.cycles t' q w → Missing s.tracker.cycles t' q w ∨
    (t' = t ∧ q = s.batchSeq + 1 ∧ ∃ sh, share w = some sh ∧
      ∀ m ∈ s.marks t, releasable (fun _ => some m.2) sh.entry = false)
  batchSeq : s'.batchSeq = s.batchSeq + 1
  number : o.seq = s.batchSeq + 1
  opening : o.owners ≠ [] → (o.window = false → o.batchPos.isSome) ∧
    ∀ p, o.batchPos = some p → p ∈ positions
  marks : s'.marks = setAt s.marks t (s.marks t ++ positions.map (s.batchSeq + 1, ·))
  shares : ∀ w sh, share w = some sh → sh.id = s.batchSeq + 1 ∧ sh.table = t ∧
    ∀ p, sh.high = some p → p ∈ positions
  index : s'.index = fun w => (share w).elim (s.index w) fun sh => (s.index w).add sh.entry
  queue : s'.queue = fun w => s.queue w ++ (share w).toList
  sent : s'.sent = s.sent
  link : s'.link = s.link
  durable : s'.durable = s.durable

section Sends

variable {o : Opening P} {share : String → Option (Share P)} {positions : List P}

variable {q : Nat} {sh : Share P} {p : P} {ses : WorkerSession P}

theorem Kept.missing_le (h : Kept s) (hm : Missing s.tracker.cycles t q w) : q ≤ s.batchSeq := by
  obtain ⟨sh, hsh, rfl, -⟩ := h.held t q w hm
  exact (h.bound w sh hsh).2.1

variable (hs : Sends s s' t o share positions)

include hs

/-- The shares owed, and the new one. -/
theorem Sends.mem_owed :
    sh ∈ s'.sent w ++ s'.queue w ↔ sh ∈ s.sent w ++ s.queue w ∨ share w = some sh := by
  rw [hs.sent, hs.queue, ← append_assoc, mem_append, mem_toList]

variable {t' : String}

/-- The marks, and those of the new cycle. -/
theorem Sends.mem_marks {m : Nat × P} :
    m ∈ s'.marks t' ↔ m ∈ s.marks t' ∨ (t' = t ∧ m.1 = s.batchSeq + 1 ∧ m.2 ∈ positions) := by
  rw [hs.marks]
  by_cases ht : t' = t
  · subst ht
    rw [setAt_self, mem_append, List.mem_map]
    refine or_congr_right ⟨fun ⟨p, hp, heq⟩ => heq ▸ ⟨rfl, rfl, hp⟩, fun ⟨_, hid, hp⟩ => ?_⟩
    exact ⟨m.2, hp, Prod.ext hid.symm rfl⟩
  · rw [setAt_other _ _ ht]
    exact ⟨.inl, fun hor => hor.resolve_right fun hand => ht hand.1⟩

theorem Sends.mem_known (hp : p ∈ s.known t') : p ∈ s'.known t' := by
  obtain ⟨m, hm, rfl⟩ := mem_map.mp hp
  exact mem_map.mpr ⟨m, hs.mem_marks.mpr (.inl hm), rfl⟩

/-- The new share comes last in its owner's index. -/
theorem Sends.index_eq (w : String) :
    (s'.index w).head = (s.index w).head ++ (share w).toList.map Share.entry ∧
      (s'.index w).acked = (s.index w).acked := by
  have hindex := congrFun hs.index w
  cases hshare : share w with
  | none =>
    rw [hshare] at hindex
    rw [hindex]
    exact ⟨(append_nil _).symm, rfl⟩
  | some sh =>
    rw [hshare] at hindex
    rw [hindex]
    exact ⟨rfl, rfl⟩

/-- What did not release a share of an earlier cycle still does not. -/
theorem Sends.safe (hq : q ≤ s.batchSeq) (hsafe : Safe s w t' q p) : Safe s' w t' q p := by
  intro sh hsh hid htable
  rcases hs.mem_owed.mp hsh with hsh | hsh
  · exact hsafe sh hsh hid htable
  · have hnew := (hs.shares w sh hsh).1
    omega

/-- No position sent before releases what waits now. -/
theorem Sends.safe_new (h : Kept s) (hshare : share w = some sh)
    (hfresh : ∀ m ∈ s.marks t, releasable (fun _ => some m.2) sh.entry = false)
    (hp : p ∈ s.known t) : Safe s' w t (s.batchSeq + 1) p := by
  intro sh' hsh' hid htable
  obtain ⟨m, hm, rfl⟩ := mem_map.mp hp
  rcases hs.mem_owed.mp hsh' with hsh' | hsh'
  · have hold := (h.bound w sh' hsh').2.1
    omega
  · rw [hshare] at hsh'
    exact some.inj hsh' ▸ hfresh m hm

theorem Sends.spent (h : Kept s) (hspent : Spent s t' w p) : Spent s' t' w p := by
  refine ⟨hs.mem_known hspent.1, fun q hm => ?_⟩
  rcases hs.waits t' q w hm with hm | ⟨rfl, rfl, sh, hshare, hfresh⟩
  · exact hs.safe (h.missing_le hm) (hspent.2 q hm)
  · exact hs.safe_new h hshare hfresh hspent.1

/-- The new cycle lies beyond every mark before it. -/
theorem Sends.beyond (h : Kept s)
    (hm : Missing s'.tracker.cycles t' q w) : ∀ m ∈ s'.marks t', m.1 < q → Safe s' w t' q m.2 := by
  intro m hmark hlt
  rcases hs.mem_marks.mp hmark with hmark | ⟨-, hid, -⟩
  · rcases hs.waits t' q w hm with hm | ⟨rfl, rfl, sh, hshare, hfresh⟩
    · exact hs.safe (h.missing_le hm) (h.beyond t' q w hm m hmark hlt)
    · exact hs.safe_new h hshare hfresh (mem_map.mpr ⟨m, hmark, rfl⟩)
  · rcases hs.waits t' q w hm with hm | ⟨-, rfl, -⟩
    · have hle := h.missing_le hm
      omega
    · omega

omit [Position P] in
omit hs in
/-- A share in the inbox is going to be delivered. -/
theorem deliver_mem_trail {queue : List (Share P)}
    (h : sh ∈ ses.inbox) : .deliver sh.id ∈ trail ses queue sh.table := by
  refine mem_append_right _ (mem_append_right _ (mem_flatMap.mpr ⟨sh, ?_, ?_⟩))
  · exact mem_filter.mpr ⟨mem_append_left _ h, decide_eq_true rfl⟩
  · exact mem_cons_self

/-- A live session has the new share at the end of what it is going to send. -/
theorem Sends.inStep (h : Kept s) (hses : InStep s w ses) : InStep s' w ses := by
  have hepoch : s'.tracker.epoch w = some ses.epoch := by
    rw [hs.epoch]
    exact hses.epoch
  have hnot : ∀ t' q, q ≤ s.batchSeq → Missing s'.tracker.cycles t' q w →
      Missing s.tracker.cycles t' q w := by
    intro t' q hq hm
    rcases hs.waits t' q w hm with hm | ⟨-, rfl, -⟩
    · exact hm
    · omega
  have htrail : ∀ t', trail ses (s'.queue w) t' =
      trail ses (s.queue w) t' ++ eventsOfShares t' (share w).toList := by
    intro t'
    unfold trail
    rw [hs.queue]
    simp only [eventsOfShares_append, append_assoc]
  refine ⟨hepoch, fun t' p hp => hs.spent h (hses.committed t' p hp), fun sh hsh => ?_,
    hses.markers, hses.tables, fun t' e he => ?_, fun t' => ?_⟩
  · rw [hs.sent]
    refine (hses.shares sh hsh).imp_right fun hno hm => hno (hnot _ _ ?_ hm)
    exact (hses.ids sh.table (.deliver sh.id) (deliver_mem_trail hsh)).2
  · rw [htrail] at he
    rcases mem_append.mp he with he | he
    · have hold := hses.ids t' e he
      cases e with
      | deliver q => exact ⟨hold.1, hs.batchSeq ▸ Nat.le_succ_of_le hold.2⟩
      | ack p => trivial
      | marker id =>
        exact ⟨hs.batchSeq ▸ Nat.le_succ_of_le hold.1,
          fun t'' hm => hold.2 t'' (hnot t'' id hold.1 hm)⟩
    · obtain ⟨sh, hsh, ht, he⟩ := mem_eventsOfShares he
      obtain ⟨hid, htable, -⟩ := hs.shares w sh (mem_toList.mp hsh)
      rcases mem_eventsOfShare he with rfl | ⟨p, rfl⟩ | rfl
      · rw [hid]
        exact ⟨Nat.succ_pos _, Nat.le_of_eq hs.batchSeq.symm⟩
      · trivial
      · rw [hid, ← ht, htable]
        refine ⟨Nat.le_of_eq hs.batchSeq.symm, fun t'' hm => ?_⟩
        rcases hs.waits t'' _ w hm with hm | ⟨ht', -, -⟩
        · have hold := h.missing_le hm
          omega
        · exact ht'
  · rw [htrail]
    have hold : ∀ q, Missing s.tracker.cycles t' q w → Missing s.tracker.cycles t' q w ∧
        ∀ p, Safe s w t' q p → Safe s' w t' q p :=
      fun q hm => ⟨hm, fun p hsafe => hs.safe (h.missing_le hm) hsafe⟩
    refine (hses.trail t').push (n := s.batchSeq + 1) (fun p hp => hs.mem_known hp)
      (fun hm p hp => ?_) (fun id hid => ?_) (fun q hm => ?_) ?_
    · rcases hs.waits t' _ w hm with hm | ⟨rfl, -, sh, hshare, hfresh⟩
      · have hle := h.missing_le hm
        omega
      · exact hs.safe_new h hshare hfresh hp
    · exact Nat.lt_succ_of_le (hses.ids t' (.marker id) hid).1
    · rcases hs.waits t' q w hm with hm | ⟨rfl, rfl, sh, hshare, -⟩
      · exact .inl (hold q hm)
      · refine .inr ⟨rfl, ?_⟩
        obtain ⟨hid, htable, -⟩ := hs.shares w sh hshare
        rw [hshare, toList_some, eventsOfShares_cons, if_pos htable, ← hid]
        exact mem_append_left _ mem_cons_self
    · refine holds_shares ?_ (fun sh hsh ht p hp => ?_) (fun q hm => hs.beyond h hm) fun q hm => ?_
      · cases share w with
        | none => exact .nil
        | some sh => exact pairwise_singleton _ _
      · obtain ⟨hid, htable, hhigh⟩ := hs.shares w sh (mem_toList.mp hsh)
        exact hs.mem_marks.mpr (.inr ⟨ht.symm.trans htable, hid, hhigh p hp⟩)
      · rcases hs.waits t' q w hm with hm | ⟨rfl, rfl, sh, hshare, -⟩
        · exact .inr ((hses.trail t').2 q hm)
        · obtain ⟨hid, htable, -⟩ := hs.shares w sh hshare
          exact .inl ⟨sh, mem_toList.mpr hshare, hid, htable⟩

/-- Every cycle that waits is held. -/
theorem Sends.held (h : Kept s) (hm : Missing s'.tracker.cycles t' q w) : Held s' t' q w := by
  rcases hs.waits t' q w hm with hm | ⟨rfl, rfl, sh, hshare, -⟩
  · obtain ⟨sh, hsh, hid, htable, hentry⟩ := h.held t' q w hm
    refine ⟨sh, hs.mem_owed.mpr (.inl hsh), hid, htable, ?_⟩
    rw [(hs.index_eq w).1]
    exact mem_append_left _ hentry
  · obtain ⟨hid, htable, -⟩ := hs.shares w sh hshare
    refine ⟨sh, hs.mem_owed.mpr (.inr hshare), hid, htable, ?_⟩
    rw [(hs.index_eq w).1, hshare]
    exact mem_concat_self

/-- The openings, and the new one. -/
theorem Sends.opened {o' : Opening P} (ho' : o' ∈ s'.tracker.sent t') :
    o' ∈ s.tracker.sent t' ∨ (t' = t ∧ o' = o ∧ o.owners ≠ []) := by
  rw [hs.noted] at ho'
  unfold StagedState.noteSent at ho'
  split at ho'
  · rename_i hown
    exact (mem_append.mp ho').imp_right fun hmem => ⟨hown.1, mem_singleton.mp hmem, hown.2⟩
  · exact .inl ho'

/-- Sending keeps custody. -/
theorem Sends.kept (h : Kept s)
    (horderly : s'.tracker.Orderly) (hplaced : s'.tracker.cycles.AllPlaced)
    (hclean : s'.failed = false → ∀ t', s'.tracker.cycles.poisoned t' = false) : Kept s' where
  orderly := horderly
  clean := hclean
  placed := hplaced
  sorted t' := by
    unfold StagedState.sentSeqs
    rw [hs.noted]
    unfold StagedState.noteSent
    split
    · rw [map_append]
      refine pairwise_concat.mpr ⟨h.sorted t', fun q hq => ?_⟩
      obtain ⟨o', ho', rfl⟩ := mem_map.mp hq
      have hle := h.seqs t' o' ho'
      have hnumber := hs.number
      omega
    · exact h.sorted t'
  seqs t' o' ho' := by
    rw [hs.batchSeq]
    rcases hs.opened ho' with ho' | ⟨-, rfl, -⟩
    · exact Nat.le_succ_of_le (h.seqs t' o' ho')
    · exact Nat.le_of_eq hs.number
  openings t' o' ho' := by
    rcases hs.opened ho' with ho' | ⟨rfl, rfl, hown⟩
    · exact ⟨(h.openings t' o' ho').1,
        fun p hp => hs.mem_marks.mpr (.inl ((h.openings t' o' ho').2 p hp))⟩
    · obtain ⟨hbatch, hpos⟩ := hs.opening hown
      exact ⟨hbatch, fun p hp => hs.mem_marks.mpr (.inr ⟨rfl, hs.number, hpos p hp⟩)⟩
  marks t' m hm := by
    rw [hs.batchSeq]
    rcases hs.mem_marks.mp hm with hm | ⟨-, hid, -⟩
    · exact Nat.le_succ_of_le (h.marks t' m hm)
    · exact Nat.le_of_eq hid
  fifo w := by
    rw [hs.sent, hs.queue, ← append_assoc, pairwise_append]
    refine ⟨h.fifo w, ?_, fun sh hsh sh' hsh' => ?_⟩
    · cases share w with
      | none => exact .nil
      | some sh => exact pairwise_singleton _ _
    · have hle := (h.bound w sh hsh).2.1
      have hnew := (hs.shares w sh' (mem_toList.mp hsh')).1
      omega
  bound w sh hsh := by
    rw [hs.batchSeq]
    rcases hs.mem_owed.mp hsh with hsh | hsh
    · obtain ⟨hpos, hle, hmark⟩ := h.bound w sh hsh
      exact ⟨hpos, Nat.le_succ_of_le hle, fun p hp => hs.mem_marks.mpr (.inl (hmark p hp))⟩
    · obtain ⟨hid, htable, hhigh⟩ := hs.shares w sh hsh
      refine ⟨hid ▸ Nat.succ_pos _, Nat.le_of_eq hid, fun p hp => ?_⟩
      exact hs.mem_marks.mpr (.inr ⟨htable, hid, hhigh p hp⟩)
  heads w := by
    rw [(hs.index_eq w).1, hs.batchSeq]
    obtain ⟨hnodup, hle⟩ := h.heads w
    have hnew : ∀ b ∈ (share w).toList.map Share.entry, b.id = s.batchSeq + 1 := by
      intro b hb
      obtain ⟨sh, hsh, rfl⟩ := mem_map.mp hb
      exact (hs.shares w sh (mem_toList.mp hsh)).1
    refine ⟨?_, fun b hb => ?_⟩
    · rw [map_append, nodup_append]
      refine ⟨hnodup, ?_, fun q hq q' hq' heq => ?_⟩
      · cases share w with
        | none => exact nodup_nil
        | some sh => exact nodup_singleton _
      · obtain ⟨b, hb, rfl⟩ := mem_map.mp hq
        obtain ⟨b', hb', rfl⟩ := mem_map.mp hq'
        have hold := hle b hb
        have hnext := hnew b' hb'
        omega
    · rcases mem_append.mp hb with hb | hb
      · exact Nat.le_succ_of_le (hle b hb)
      · exact Nat.le_of_eq (hnew b hb)
  held t' q w hm := hs.held h hm
  beyond t' q w hm := hs.beyond h hm
  acked w t' p hp := by
    rw [(hs.index_eq w).2] at hp
    exact hs.spent h (h.acked w t' p hp)
  durable t' p hp w := hs.spent h (h.durable t' p (hs.durable ▸ hp) w)
  opening w epoch committed hlink := by
    obtain ⟨hepoch, hspent⟩ := h.opening w epoch committed (hs.link ▸ hlink)
    exact ⟨hs.epoch ▸ hepoch, fun t' p hp => hs.spent h (hspent t' p hp)⟩
  live w ses hlink := hs.inStep h (h.live w ses (hs.link ▸ hlink))

end Sends

/-! ## The shares of a batch -/

section Batches

variable {su : Partitions P} {b : Batch P}

omit [Position P] in
/-- A share has its batch's number and table. -/
theorem shareFor_spec {id : Nat} {sh : Share P} (h : shareFor su b id w = some sh) :
    sh.id = id ∧ sh.table = b.table ∧
      ∀ p, sh.high = some p → p ∈ b.rows.map fun row => row.position := by
  obtain ⟨x, hx, rfl⟩ := map_eq_some_iff.mp h
  refine ⟨rfl, rfl, fun p hp => ?_⟩
  obtain ⟨row, hrow, rfl⟩ := map_eq_some_iff.mp hp
  exact mem_map.mpr ⟨row,
    mem_of_mem_shares su b (mem_of_find?_eq_some hx) (mem_of_getLast? hrow), rfl⟩

/-- Every owner of the cycle has a share. -/
theorem exists_shareFor (id : Nat) (h : w ∈ cycleOwners su b) :
    ∃ sh, shareFor su b id w = some sh := by
  obtain ⟨x, hx, hw⟩ := mem_map.mp h
  obtain ⟨hmem, hexpected⟩ := mem_filter.mp hx
  have hrows : (!x.2.isEmpty) = true := (Bool.and_eq_true_iff.mp hexpected).1
  have hfound : ((shares su b).find? fun x => x.1 == w && !x.2.isEmpty).isSome :=
    find?_isSome.mpr ⟨x, hmem, by rw [hw, beq_self_eq_true, hrows]; rfl⟩
  obtain ⟨y, hy⟩ := Option.isSome_iff_exists.mp hfound
  exact ⟨_, congrArg (Option.map _) hy⟩

omit [Position P] in
theorem expectAt_poisoned (c : Cycles P Unit) (seq : Nat) (owners : List String) (pos : Option P) :
    (c.expectAt t seq owners pos).poisoned = c.poisoned := by
  unfold Cycles.expectAt
  split
  · rfl
  · split
    · rfl
    · rfl

omit [Position P] in
theorem expectWindow_poisoned (c : Cycles P Unit) (seq : Nat) (owners : List String) :
    (c.expectWindow t seq owners).poisoned = c.poisoned := by
  unfold Cycles.expectWindow
  cases hcy : (c.expectAt t seq owners none).openCycles t seq with
  | none | some cy =>
    simp only [hcy]
    exact expectAt_poisoned c seq owners none

/-- The next number is fresh. -/
theorem Kept.unsent (h : Kept s) (t : String) : s.batchSeq + 1 ∉ s.tracker.sentSeqs t := by
  intro hmem
  obtain ⟨o, ho, heq⟩ := mem_map.mp hmem
  have hle := h.seqs t o ho
  omega

variable [Meeter P]

variable {tracker : StagedState P Unit}

/-- A batch sent is held by every owner it is for. -/
theorem Kept.enqueuePartitioned (h : Kept s) (hfail : s.failed = false)
    (hfresh : ∀ w ∈ cycleOwners su b, ∀ sh ∈ (shareFor su b (s.batchSeq + 1) w).toList,
      ∀ m ∈ s.marks b.table, releasable (fun _ => some m.2) sh.entry = false)
    (htracker : s.tracker.step
      (.expectAt b.table (s.batchSeq + 1) (cycleOwners su b) b.highPos) = some tracker)
    (hs : (s.noteCycle tracker b.table (lastHigh su b) (b.rows.map (·.position))).deliverBatch
      (shareFor su b (s.batchSeq + 1)) = s') : Kept s' := by
  have hnew : StagedState.Fresh s.tracker
      (.expectAt b.table (s.batchSeq + 1) (cycleOwners su b) b.highPos) :=
    ⟨Nat.succ_ne_zero _, h.unsent b.table, cycleOwners_nodup su b⟩
  have horderly : tracker.Orderly := h.orderly.step hnew htracker
  have hpoison := expectAt_poisoned (t := b.table) s.tracker.cycles (s.batchSeq + 1)
    (cycleOwners su b) b.highPos
  have hplaced := SendState.placed_expectAt h.placed b.table (s.batchSeq + 1) (cycleOwners su b)
    b.highPos (Nat.succ_ne_zero _)
  obtain rfl := some.inj htracker
  have hsends : Sends s s' b.table ⟨s.batchSeq + 1, cycleOwners su b, b.highPos, false⟩
      (shareFor su b (s.batchSeq + 1)) (b.rows.map (·.position)) := by
    subst hs
    refine ⟨rfl, rfl, fun t' q w hm => ?_, rfl, rfl, fun hown => ?_, rfl,
      fun w sh hsh => shareFor_spec hsh, rfl, rfl, rfl, rfl, rfl⟩
    · refine (missing_expectAt hm).imp_right fun ⟨ht, hq, hw⟩ => ?_
      obtain ⟨sh, hsh⟩ := exists_shareFor (s.batchSeq + 1) hw
      exact ⟨ht, hq, sh, hsh, hfresh w hw sh (mem_toList.mpr hsh)⟩
    · obtain ⟨row, hrow, -⟩ := exists_high_of_expected su b hown
      have hne : b.rows ≠ [] := ne_nil_of_mem hrow
      refine ⟨fun _ => ?_, fun p hp => ?_⟩
      · change (b.rows.getLast?.map _).isSome
        rw [getLast?_eq_some_getLast hne]
        rfl
      · obtain ⟨last, hlast, rfl⟩ := map_eq_some_iff.mp hp
        exact mem_map.mpr ⟨last, mem_of_getLast? hlast, rfl⟩
  subst hs
  exact hsends.kept h horderly hplaced fun _ t' => (congrFun hpoison t').trans (h.clean hfail t')

/-- A window's markers are held by every owner. -/
theorem Kept.sendClosesPending {owners : List String} {pos : P} (h : Kept s)
    (hfail : s.failed = false) (hdistinct : owners.Nodup)
    (htracker : s.tracker.step (.expectWindow t (s.batchSeq + 1) owners) = some tracker)
    (hs : (s.noteCycle tracker t (some pos) [pos]).deliverBatch
      (toEach owners ⟨s.batchSeq + 1, t, some pos, false, .closes⟩) = s') : Kept s' := by
  have hnew : StagedState.Fresh s.tracker (.expectWindow t (s.batchSeq + 1) owners) :=
    ⟨Nat.succ_ne_zero _, h.unsent t, hdistinct⟩
  have horderly : tracker.Orderly := h.orderly.step hnew htracker
  have hpoison := expectWindow_poisoned (t := t) s.tracker.cycles (s.batchSeq + 1) owners
  have hplaced :=
    SendState.placed_expectWindow h.placed t (s.batchSeq + 1) owners (Nat.succ_ne_zero _)
  obtain rfl := some.inj htracker
  have hsends : Sends s s' t ⟨s.batchSeq + 1, owners, none, true⟩
      (toEach owners ⟨s.batchSeq + 1, t, some pos, false, .closes⟩) [pos] := by
    subst hs
    refine ⟨rfl, rfl, fun t' q w hm => ?_, rfl, rfl, fun _ => ⟨nofun,
      nofun⟩, rfl, fun w sh hsh => ?_, rfl, rfl, rfl, rfl, rfl⟩
    · refine (missing_expectWindow hm).imp_right fun ⟨ht, hq, hw⟩ => ?_
      -- A marker is released by its own ack only.
      exact ⟨ht, hq, _, if_pos hw, fun _ _ => rfl⟩
    · unfold toEach at hsh
      split at hsh
      · rw [← some.inj hsh]
        refine ⟨rfl, rfl, fun p hp => ?_⟩
        rw [← some.inj hp]
        exact mem_cons_self
      · cases hsh
  subst hs
  exact hsends.kept h horderly hplaced fun _ t' => (congrFun hpoison t').trans (h.clean hfail t')

end Batches

/-! ## Runs -/

section Runs

variable {su : Partitions P}

/-- A window's marker finds no cycle buffered. -/
def Clear (table : String) : WorkerLink P → Prop
  | .live ses => ∀ sh ∈ (ses.ingest table).head?.toList, sh.kind = .closes →
      (ses.pending table).isNone
  | _ => True

omit [Position P] in
instance (table : String) (link : WorkerLink P) : Decidable (Clear table link) := by
  cases link <;> unfold Clear <;> infer_instance

/-- When a step cannot take a share before its delivery: no position sent for the
table releases what the batch's cycle waits for, a window's marker does not reach
the batcher while another cycle is buffered, and no completion of a snapshot is
sent, since it goes out at a position that is known already. -/
def Untaken (su : Partitions P) (s : CustodyState P) : CustodyAction P → Prop
  | .enqueuePartitioned b =>
    ∀ w ∈ cycleOwners su b, ∀ sh ∈ (shareFor su b (s.batchSeq + 1) w).toList,
      ∀ m ∈ s.marks b.table, releasable (fun _ => some m.2) sh.entry = false
  | .handleIngest worker table _ _ => Clear table (s.link worker)
  | .finishSnapshot _ _ => False
  | _ => True

instance (su : Partitions P) (s : CustodyState P) (a : CustodyAction P) :
    Decidable (Untaken su s a) := by
  cases a <;> unfold Untaken <;> infer_instance

variable [Meeter P] [LawfulPosition P]

theorem Kept.step {a : CustodyAction P} (h : Kept s) (hok : Untaken su s a)
    (hs : CustodyState.step su s a = some s') : Kept s' := by
  unfold CustodyState.step at hs
  split at hs
  · cases hs
  rename_i hnot
  have hfail : s.failed = false := Bool.eq_false_iff.mpr hnot
  cases a with
  | register worker =>
    obtain ⟨tracker, htracker, rfl⟩ := map_eq_some_iff.mp hs
    exact h.register htracker
  | loseWorker worker =>
    obtain ⟨tracker, htracker, rfl⟩ := map_eq_some_iff.mp hs
    have horderly : tracker.Orderly := h.orderly.step (a := .supersede worker) trivial htracker
    obtain rfl := some.inj htracker
    refine h.waitsLess horderly h.placed h.clean rfl (fun w hw => if_neg hw)
      (fun _ _ _ hm => hm) nofun nofun
  | attach worker =>
    cases hlink : s.link worker with
    | away =>
      cases hepoch : s.tracker.epoch worker with
      | none =>
        simp only [hlink, hepoch] at hs
        cases hs
      | some epoch =>
        simp only [hlink, hepoch] at hs
        rw [← some.inj hs]
        refine h.relink (fun epoch' committed hopen => ?_) nofun
        cases hopen
        exact ⟨hepoch, fun t p hp => h.durable t p hp worker⟩
    | opening epoch committed | live ses =>
      simp only [hlink] at hs
      cases hs
  | doGet worker =>
    cases hlink : s.link worker with
    | away | live ses =>
      simp only [hlink] at hs
      cases hs
    | opening epoch committed =>
      simp only [hlink] at hs
      rw [← some.inj hs]
      obtain ⟨hepoch, hcommitted⟩ := h.opening worker epoch committed hlink
      refine h.relink nofun fun ses hlive => ?_
      cases hlive
      exact h.opened hepoch hcommitted
  | stream worker =>
    cases hqueue : s.queue worker with
    | nil =>
      simp only [hqueue] at hs
      cases hs
    | cons sh rest =>
      simp only [hqueue] at hs
      exact h.stream hqueue (some.inj hs).symm
  | receive worker =>
    exact h.ofSession (fun ses ses' hlink hses => (h.live worker ses hlink).receive hses) hs
  | handleIngest worker table rows lost =>
    refine h.ofSession (fun ses ses' hlink hses => ?_) hs
    refine (h.live worker ses hlink).handleIngest (fun sh hsh hkind => ?_) hses
    change Clear table (s.link worker) at hok
    rw [hlink] at hok
    exact isNone_iff_eq_none.mp (hok sh (mem_toList.mpr hsh) hkind)
  | tick worker table =>
    refine h.ofSession (fun ses ses' hlink hses => ?_) hs
    rw [← some.inj hses]
    exact (h.live worker ses hlink).flush table
  | commitReady worker table =>
    exact h.ofSession (fun ses ses' hlink hses => (h.live worker ses hlink).commitReady hses) hs
  | onMessage worker answers =>
    cases hlink : s.link worker with
    | away | opening epoch committed =>
      simp only [hlink] at hs
      cases hs
    | live ses =>
      simp only [hlink] at hs
      cases hwire : ses.wire with
      | nil =>
        simp only [hwire] at hs
        cases hs
      | cons m rest =>
        simp only [hwire] at hs
        rw [← some.inj hs]
        exact h.onMessage answers hfail hlink hwire
  | onStaleMessage worker epoch m answers =>
    simp only at hs
    split at hs
    · rename_i hany
      rw [← some.inj hs, process_stale answers hfail fun hcur => ?_]
      · exact h
      · rw [hcur] at hany
        simp at hany
    · cases hs
  | enqueuePartitioned b =>
    simp only at hs
    split at hs
    · obtain ⟨tracker, htracker, hs⟩ := map_eq_some_iff.mp hs
      exact h.enqueuePartitioned hfail hok htracker hs
    · cases hs
  | sendClosesPending table owners pos =>
    simp only at hs
    split at hs
    · next hdistinct =>
      obtain ⟨tracker, htracker, hs⟩ := map_eq_some_iff.mp hs
      exact h.sendClosesPending hfail hdistinct htracker hs
    · cases hs
  | finishSnapshot table owner => exact hok.elim

/-- **No wedged cycle.**  Whatever is lost, acked, delivered late or streamed
again: the share that an open cycle still waits for is in its owner's queue or on
its sent list, and no release has taken it from the in-flight index. -/
theorem no_wedged_cycle (su : Partitions P) (actions : List (CustodyAction P))
    (s : CustodyState P) (hrun : run (CustodyState.step su) (init su) actions = some s)
    (hok : Runs.Guarded (CustodyState.step su) (Untaken su) (init su) actions)
    (table worker : String) (seq : Nat) (hm : Missing s.tracker.cycles table seq worker) :
    Held s table seq worker := by
  have hkept : Kept s := invariant_of_guarded Kept
    (fun _ _ _ h hok hs => h.step hok hs) (kept_init su) hrun hok
  exact hkept.held table seq worker hm

end Runs

/-! ## A window behind a batch -/

open SendState (byParity orderRow)

/-- No table has a position yet. -/
def unplaced : Partitions LSN := byParity none

/-- The worker is there, and a batch of its rows goes out ahead of a window's
marker; both are received. -/
def windowSent : List (CustodyAction LSN) := [.register "a", .attach "a", .doGet "a",
    .enqueuePartitioned ⟨"orders", [orderRow 2 ⟨10⟩], false⟩,
    .sendClosesPending "orders" ["a"] ⟨10⟩,
    .stream "a", .stream "a", .receive "a", .receive "a", .handleIngest "a" "orders" false false]

/-- The worker delivers the batch and acks it, then is lost. -/
def batchDelivered : List (CustodyAction LSN) :=
  [.commitReady "a" "orders", .onMessage "a" fun _ => ⟨false, true⟩,
    .onMessage "a" fun _ => ⟨false, true⟩, .loseWorker "a"]

/-- The worker is lost; the cycle waits for a share still held. -/
theorem no_wedged_cycle_windowSent :
    ∃ s, run (step unplaced) (init unplaced) (windowSent ++ [.tick "a" "orders",
        .handleIngest "a" "orders" true false] ++ batchDelivered) = some s ∧
      Missing s.tracker.cycles "orders" 2 "a" ∧ Held s "orders" 2 "a" := by
  have hout : (run (step unplaced) (init unplaced) (windowSent ++ [.tick "a" "orders",
      .handleIngest "a" "orders" true false] ++ batchDelivered)).map (fun s =>
        (s.tracker.cycles.openCycles "orders" 2).map fun cy => (cy.owners, cy.delivered)) =
      some (some (["a"], [])) := by decide +kernel
  have hok : Runs.Guarded (step unplaced) (Untaken unplaced) (init unplaced) (windowSent ++
      [.tick "a" "orders", .handleIngest "a" "orders" true false] ++ batchDelivered) := by
    decide +kernel
  obtain ⟨s, hrun, hopen⟩ := map_eq_some_iff.mp hout
  obtain ⟨cy, hcy, hshares⟩ := map_eq_some_iff.mp hopen
  have hm : Missing s.tracker.cycles "orders" 2 "a" := by
    refine ⟨cy, hcy, ?_, ?_⟩
    · rw [(Prod.mk.inj hshares).1]
      exact mem_cons_self
    · rw [(Prod.mk.inj hshares).2]
      exact not_mem_nil
  exact ⟨s, hrun, hm, no_wedged_cycle unplaced _ s hrun hok "orders" "a" 2 hm⟩

/-- The owner's share is nowhere it would come from: not in the queue, not on the
sent list, and the session is gone. -/
def orphaned (s : CustodyState LSN) (table : String) (seq : Nat) (worker : String) : Bool :=
  (s.tracker.cycles.openCycles table seq).any (fun cy =>
    cy.owners.contains worker && !cy.delivered.contains worker) &&
  !((s.queue worker ++ s.sent worker).map Share.id).contains seq &&
  match s.link worker with
  | .away => true
  | _ => false

/-- The marker reaches the batcher while the batch is still buffered: its ack goes
out with the batch, ahead of the window's rows.  And the completion of a snapshot
goes out at the position of the batch before it, whose ack releases it. -/
theorem released_before_delivery : (∃ s, run (step unplaced) (init unplaced) (windowSent ++
        [.handleIngest "a" "orders" true false, .commitReady "a" "orders",
          .onMessage "a" fun _ => ⟨false, true⟩] ++ batchDelivered) = some s ∧
      orphaned s "orders" 2 "a" = true) ∧
    ∃ s, run (step unplaced) (init unplaced) ([.register "a", .attach "a", .doGet "a",
          .enqueuePartitioned ⟨"orders", [orderRow 2 ⟨10⟩], false⟩, .finishSnapshot "orders" "a",
          .stream "a", .stream "a", .receive "a", .handleIngest "a" "orders" false false,
          .tick "a" "orders"] ++ batchDelivered) = some s ∧
      orphaned s "orders" 2 "a" = true := by
  exact ⟨exists_run (by decide +kernel), exists_run (by decide +kernel)⟩

end CustodyState

end Urutau
