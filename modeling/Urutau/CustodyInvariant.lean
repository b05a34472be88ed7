import Urutau.FifoOrder
import Urutau.ShareCustody
import Urutau.StagedPositions

/-!
# What custody rests on

A cycle that still waits for an owner's delivery must have the owner's share
where it will be streamed again: in the owner's queue or on its sent list.  An
ack releases what its position covers, so it must not come before the delivery
of anything it covers.

What a live session is still going to send is one list, from the messages on
their way back to the share at the end of the queue.  In that list, the ack of a
position stands behind the deliveries of every open cycle it covers.  A release
at a position that nothing waits behind keeps all that is waited for.
-/

namespace Urutau

open List PositionIndex Option Cycles

/-! ## What a cycle waits for -/

namespace CustodyState

section Missing

variable {P : Type} {c : Cycles P Unit} {t o : String} {q : Nat}

variable {seq : Nat} {table worker : String} {owners : List String} {d : StagedDelivery P Unit}

theorem missing_update {v : Option (Cycle P Unit)}
    (h : Missing { c with openCycles := update c.openCycles table seq v } t q o) :
    Missing c t q o ∨ (t = table ∧ q = seq ∧ ∃ cy, v = some cy ∧ o ∈ cy.owners ∧
      o ∉ cy.delivered) := by
  obtain ⟨cy, hcy, hrest⟩ := h
  rcases StagedState.update_eq_some hcy with ⟨ht, hq, hcy⟩ | hcy
  · exact .inr ⟨ht, hq, cy, hcy, hrest⟩
  · exact .inl ⟨cy, hcy, hrest⟩

/-- An owner waited for, or one of the new cycle. -/
theorem missing_expectAt {pos : Option P} (h : Missing (c.expectAt table seq owners pos) t q o) :
    Missing c t q o ∨ (t = table ∧ q = seq ∧ o ∈ owners) := by
  unfold expectAt at h
  split at h
  · exact .inl h
  split at h
  · exact .inl h
  · rcases missing_update h with h | ⟨ht, hq, cy, hcy, hown, -⟩
    · exact .inl h
    · rw [← some.inj hcy] at hown
      exact .inr ⟨ht, hq, hown⟩

/-- The same of a window's cycle. -/
theorem missing_expectWindow (h : Missing (c.expectWindow table seq owners) t q o) :
    Missing c t q o ∨ (t = table ∧ q = seq ∧ o ∈ owners) := by
  unfold expectWindow at h
  cases hcy : (c.expectAt table seq owners none).openCycles table seq with
  | none =>
    simp only [hcy] at h
    exact missing_expectAt h
  | some cy =>
    simp only [hcy] at h
    rcases missing_update h with h | ⟨ht, hq, cy', hcy', hown, hnot⟩
    · exact missing_expectAt h
    rw [← some.inj hcy'] at hown hnot
    have hopen : (c.expectAt table seq owners none).openCycles t q = some cy := by
      rw [ht, hq]
      exact hcy
    have hbase : Missing (c.expectAt table seq owners none) t q o := ⟨cy, hopen, hown, hnot⟩
    exact missing_expectAt hbase

/-- A lost owner adds none that is waited for. -/
theorem missing_markLost (h : Missing (c.markLost table worker seq) t q o) : Missing c t q o := by
  unfold markLost at h
  cases hcy : c.openCycles table seq with
  | none =>
    simp only [hcy] at h
    exact h
  | some cy =>
    simp only [hcy] at h
    split at h
    · exact h
    rcases missing_update h with h | ⟨ht, hq, cy', hcy', hown, hnot⟩
    · exact h
    · rw [← some.inj hcy'] at hown hnot
      refine ⟨cy, ?_, hown, hnot⟩
      rw [ht, hq]
      exact hcy

/-- A delivery is counted: nothing else is waited for, and not it either. -/
theorem missing_deliver (hname : worker ≠ "") (h : Missing (c.deliver worker d).2 t q o) :
    Missing c t q o ∧ ¬ (t = d.table ∧ q = d.seq ∧ o = worker) := by
  unfold deliver at h
  cases hcy : c.openCycles d.table d.seq with
  | none =>
    simp only [hcy] at h
    refine ⟨h, fun hand => ?_⟩
    obtain ⟨cy, hopen, -⟩ := h
    rw [hand.1, hand.2.1, hcy] at hopen
    cases hopen
  | some cy =>
    simp only [hcy] at h
    split at h
    · rename_i hrefused
      refine ⟨h, fun hand => ?_⟩
      obtain ⟨cy', hopen, hown, hnot⟩ := h
      rw [hand.1, hand.2.1, hcy] at hopen
      rw [← some.inj hopen, hand.2.2] at hown hnot
      exact hrefused.2.elim (absurd hown) (fun hin => hnot hin)
    · have hdelivered : (take cy worker d).delivered = cy.delivered ++ [worker] := if_neg hname
      split at h
      · rcases missing_update h with h' | ⟨ht, hq, cy', hcy', hown, hnot⟩
        · refine ⟨h', fun hand => ?_⟩
          obtain ⟨cy', hopen, -, hnot⟩ := h
          rw [hand.1, hand.2.1] at hopen
          change update _ _ _ _ _ _ = _ at hopen
          rw [StagedState.update_self] at hopen
          rw [← some.inj hopen, hdelivered, hand.2.2] at hnot
          exact hnot mem_concat_self
        · rw [← some.inj hcy', hdelivered] at hnot
          rw [← some.inj hcy'] at hown
          refine ⟨⟨cy, ?_, hown, fun hin => hnot (mem_append_left _ hin)⟩, fun hand => ?_⟩
          · rw [ht, hq]
            exact hcy
          · rw [hand.2.2] at hnot
            exact hnot mem_concat_self
      · obtain ⟨cy', hopen, hrest⟩ := h
        change update c.openCycles d.table d.seq none t q = some cy' at hopen
        by_cases hat : t = d.table ∧ q = d.seq
        · rw [hat.1, hat.2, StagedState.update_self] at hopen
          cases hopen
        · rw [StagedState.update_other _ _ hat] at hopen
          exact ⟨⟨cy', hopen, hrest⟩, fun hand => hat ⟨hand.1, hand.2.1⟩⟩

variable [Position P] [Meeter P]

/-- A delivery of a current generation is counted, unless its table's commits
have failed. -/
theorem missing_onDelivery {epoch : Option Nat}
    {answers : Nat → Cycles.HostAnswer} (hname : worker ≠ "")
    (h : Missing (c.onDelivery epoch worker d answers).2 t q o) :
    Missing c t q o ∧ (epoch = some d.epoch → c.poisoned d.table = false →
      ¬ (t = d.table ∧ q = d.seq ∧ o = worker)) := by
  unfold onDelivery at h
  split at h
  · rename_i hstale
    exact ⟨h, fun hcur => absurd hcur hstale⟩
  split at h
  · rename_i hpoisoned
    exact ⟨h, fun _ hclean => absurd (hclean.symm.trans hpoisoned) Bool.false_ne_true⟩
  -- The poison mark is on no cycle.
  have hbase : ∀ c₀ : Cycles P Unit,
      Missing (if hasFailed (commitRun answers (c₀.deliver worker d).1) then
        { (c₀.deliver worker d).2 with
          poisoned := fun t =>
            if t = d.table then true else (c₀.deliver worker d).2.poisoned t }
        else (c₀.deliver worker d).2) t q o → Missing (c₀.deliver worker d).2 t q o := by
    intro c₀ h
    split at h
    · exact h
    · exact h
  obtain ⟨hmiss, hnot⟩ := missing_deliver hname (hbase _ h)
  refine ⟨?_, fun _ _ => hnot⟩
  split at hmiss
  · exact missing_markLost hmiss
  · exact hmiss

end Missing

end CustodyState

/-! ## What a session is going to send -/

/-- What a message says, or will say, of one table. -/
inductive CustodyEvent (P : Type)
  | deliver (seq : Nat)
  | ack (pos : P)
  | marker (id : Nat)

namespace CustodyEvent

variable {P : Type}

def delivers : CustodyEvent P → List Nat
  | .deliver q => [q]
  | _ => []

/-- Given the cycles delivered before it, an event releases none still waited
for.  `missing` are the numbers of the cycles that wait, `safe` says that a
position does not release a cycle's share, and `known` are the positions sent. -/
def Behind (missing : Nat → Prop) (safe : Nat → P → Prop) (known : List P) (before : List Nat) :
    CustodyEvent P → Prop
  | .deliver _ => True
  | .ack pos => pos ∈ known ∧ ∀ q, missing q → q ∈ before ∨ safe q pos
  | .marker id => missing id → id ∈ before

/-- Every cycle waited for will be delivered, and before anything that releases
it. -/
def Sound (missing : Nat → Prop) (safe : Nat → P → Prop) (known : List P)
    (events : List (CustodyEvent P)) : Prop :=
  Fifo.Holds delivers (Behind missing safe known) [] events ∧
    ∀ q, missing q → q ∈ events.flatMap delivers

variable {missing missing' : Nat → Prop} {safe safe' : Nat → P → Prop} {known known' : List P}
  {events : List (CustodyEvent P)} {before : List Nat}

/-- What was delivered before matters only for the cycles waited for. -/
theorem holds_before {before' : List Nat}
    (h : Fifo.Holds delivers (Behind missing safe known) before events)
    (hmiss : ∀ q, missing' q → missing q ∧ ∀ pos, safe q pos → safe' q pos)
    (hknown : ∀ p ∈ known, p ∈ known') (hbefore : ∀ q, missing' q → q ∈ before → q ∈ before') :
    Fifo.Holds delivers (Behind missing' safe' known') before' events := by
  induction events generalizing before before' with
  | nil => trivial
  | cons e rest ih =>
    refine ⟨?_, ih h.2 fun q hm hq => ?_⟩
    · have hhead := h.1
      cases e with
      | deliver q => trivial
      | ack pos =>
        refine ⟨hknown pos hhead.1, fun q hm => ?_⟩
        rcases hhead.2 q (hmiss q hm).1 with hq | hsafe
        · exact .inl (hbefore q hm hq)
        · exact .inr ((hmiss q hm).2 pos hsafe)
      | marker id => exact fun hm => hbefore id hm (hhead (hmiss id hm).1)
    · rcases mem_append.mp hq with hq | hq
      · exact mem_append_left _ (hbefore q hm hq)
      · exact mem_append_right _ hq

/-- Fewer cycles are waited for. -/
theorem Sound.mono (h : Sound missing safe known events)
    (hmiss : ∀ q, missing' q → missing q ∧ ∀ pos, safe q pos → safe' q pos)
    (hknown : ∀ p ∈ known, p ∈ known') : Sound missing' safe' known' events :=
  ⟨holds_before h.1 hmiss hknown fun _ _ hq => hq, fun q hm => h.2 q (hmiss q hm).1⟩

/-- An ack on its way has a known position. -/
theorem Sound.mem_known {pos : P} (h : Sound missing safe known events)
    (hmem : .ack pos ∈ events) : pos ∈ known := by
  have hin : ∀ (before : List Nat) (es : List (CustodyEvent P)),
      Fifo.Holds delivers (Behind missing safe known) before es → .ack pos ∈ es → pos ∈ known := by
    intro before es hholds hmem
    induction es generalizing before with
    | nil => cases hmem
    | cons e rest ih =>
      rcases mem_cons.mp hmem with rfl | hmem
      · exact hholds.1.1
      · exact ih _ hholds.2 hmem
  exact hin [] events h.1 hmem

/-- The first message has been dealt with. -/
theorem Sound.pop {e : CustodyEvent P} {rest : List (CustodyEvent P)}
    (h : Sound missing safe known (e :: rest))
    (hmiss : ∀ q, missing' q → missing q ∧ ∀ pos, safe q pos → safe' q pos)
    (hcount : ∀ q, e = .deliver q → ¬ missing' q) : Sound missing' safe' known rest := by
  have hdone : ∀ q, missing' q → q ∉ e.delivers := by
    intro q hm hq
    cases e with
    | deliver q' => exact hcount q' rfl (mem_singleton.mp hq ▸ hm)
    | ack pos => cases hq
    | marker id => cases hq
  refine ⟨holds_before h.1.2 hmiss (fun _ => id) fun q hm hq => ?_, fun q hm => ?_⟩
  · exact absurd hq (hdone q hm)
  · rcases mem_append.mp (h.2 q (hmiss q hm).1) with hq | hq
    · exact absurd hq (hdone q hm)
    · exact hq

/-- One more share is queued, whose cycle may be waited for now; no position sent
before releases it. -/
theorem Sound.push {n : Nat} {new : List (CustodyEvent P)} (h : Sound missing safe known events)
    (hknown : ∀ p ∈ known, p ∈ known') (hfresh : missing' n → ∀ p ∈ known, safe' n p)
    (hids : ∀ id, .marker id ∈ events → id < n)
    (hmiss : ∀ q, missing' q → (missing q ∧ ∀ pos, safe q pos → safe' q pos) ∨
      (q = n ∧ q ∈ new.flatMap delivers))
    (hnew : Fifo.Holds delivers (Behind missing' safe' known') (events.flatMap delivers) new) :
    Sound missing' safe' known' (events ++ new) := by
  refine ⟨Fifo.holds_append.mpr ⟨?_, hnew⟩, fun q hm => ?_⟩
  · -- Nothing that is there already reaches the new cycle.
    refine h.1.mono fun before e he hhead => ?_
    cases e with
    | deliver q => trivial
    | ack pos =>
      refine ⟨hknown pos hhead.1, fun q hm => ?_⟩
      rcases hmiss q hm with ⟨hm, hsafe⟩ | ⟨rfl, -⟩
      · exact (hhead.2 q hm).imp_right (hsafe pos)
      · exact .inr (hfresh hm pos hhead.1)
    | marker id =>
      intro hm
      rcases hmiss id hm with ⟨hm, -⟩ | ⟨rfl, -⟩
      · exact hhead hm
      · exact absurd (hids id he) (Nat.lt_irrefl _)
  · rw [flatMap_append]
    rcases hmiss q hm with ⟨hm, -⟩ | ⟨-, hq⟩
    · exact mem_append_left _ (h.2 q hm)
    · exact mem_append_right _ hq

/-- A share that nothing waits for is left out, and an ack that reaches nothing
waited for goes ahead. -/
theorem Sound.skip {front back : List (CustodyEvent P)} {gone : List (CustodyEvent P)}
    {tail : List (CustodyEvent P)} {acks : List (CustodyEvent P)}
    (h : Sound missing safe known (front ++ (back ++ (gone ++ tail))))
    (hgone : ∀ q ∈ gone.flatMap delivers, ¬ missing q)
    (hacks : ∀ e ∈ acks, ∃ pos ∈ known, e = .ack pos ∧ ∀ q, missing q → safe q pos) :
    Sound missing safe known (front ++ (acks ++ (back ++ tail))) := by
  have hnone : acks.flatMap delivers = [] := flatMap_eq_nil_iff.mpr fun e he => by
    obtain ⟨pos, -, rfl, -⟩ := hacks e he
    rfl
  obtain ⟨hholds, hall⟩ := h
  obtain ⟨hfront, hrest⟩ := Fifo.holds_append.mp hholds
  obtain ⟨hback, hrest⟩ := Fifo.holds_append.mp hrest
  obtain ⟨-, htail⟩ := Fifo.holds_append.mp hrest
  refine ⟨Fifo.holds_append.mpr ⟨hfront, Fifo.holds_append.mpr ⟨?_, ?_⟩⟩, fun q hm => ?_⟩
  · refine Fifo.holds_of_forall fun _ e he => ?_
    obtain ⟨pos, hpos, rfl, hfree⟩ := hacks e he
    exact ⟨hpos, fun q hm => .inr (hfree q hm)⟩
  · rw [hnone, append_nil]
    refine Fifo.holds_append.mpr ⟨hback, ?_⟩
    refine holds_before htail (fun _ hm => ⟨hm, fun _ => id⟩) (fun _ => id) fun q hm hq => ?_
    rcases mem_append.mp hq with hq | hq
    · exact hq
    · exact absurd hm (hgone q hq)
  · have hq := hall q hm
    simp only [flatMap_append, mem_append] at hq ⊢
    rcases hq with hq | hq | hq | hq
    · exact .inl hq
    · exact .inr (.inr (.inl hq))
    · exact absurd hm (hgone q hq)
    · exact .inr (.inr (.inr hq))

end CustodyEvent

namespace CustodyState

variable {P : Type}

open CustodyEvent (Sound)

def eventsOfMessage (t : String) : WorkerMessage P → List (CustodyEvent P)
  | .staged t' seq _ _ => if t' = t then [.deliver seq] else []
  | .ack t' pos => if t' = t then [.ack pos] else []
  | .markerAck t' id => if t' = t then [.marker id] else []

def eventsOfReady : ReadyItem P → List (CustodyEvent P)
  | .batch seq _ _ ack => .deliver seq :: ack.toList.map .ack
  | .markers ids => ids.map .marker

/-- A Closes marker may be acked at its position too, when its window is empty. -/
def eventsOfShare (sh : Share P) : List (CustodyEvent P) :=
  .deliver sh.id :: (sh.high.toList.map .ack ++ if sh.kind = .closes then [.marker sh.id] else [])

/-- What a list of shares will say of a table. -/
def eventsOfShares (t : String) (shs : List (Share P)) : List (CustodyEvent P) :=
  (shs.filter fun sh => sh.table = t).flatMap eventsOfShare

/-- All that a live session is going to send of a table. -/
def trail (ses : WorkerSession P) (queue : List (Share P)) (t : String) : List (CustodyEvent P) :=
  ses.wire.flatMap (eventsOfMessage t) ++
    (((ses.ready t ++ ses.flushItems t).flatMap eventsOfReady ++
      (ses.ingest t).flatMap eventsOfShare) ++ eventsOfShares t (ses.inbox ++ queue))

variable [Position P]

/-- A position does not release the share of a cycle. -/
def Safe (s : CustodyState P) (worker t : String) (q : Nat) (pos : P) : Prop :=
  ∀ sh ∈ s.sent worker ++ s.queue worker, sh.id = q → sh.table = t →
    releasable (fun _ => some pos) sh.entry = false

/-- The positions sent for a table. -/
def known (s : CustodyState P) (t : String) : List P := (s.marks t).map Prod.snd

/-- A position releases no cycle a worker is waited for. -/
def Spent (s : CustodyState P) (t : String) (worker : String) (pos : P) : Prop :=
  pos ∈ s.known t ∧ ∀ q, Missing s.tracker.cycles t q worker → Safe s worker t q pos

/-- The share is where it will be streamed again, and no release has taken it. -/
def Held (s : CustodyState P) (t : String) (q : Nat) (worker : String) : Prop :=
  ∃ sh ∈ s.sent worker ++ s.queue worker, sh.id = q ∧ sh.table = t ∧
    sh.entry ∈ (s.index worker).head

/-- An event of a table is of a cycle of that table. -/
def Numbered (s : CustodyState P) (worker t : String) : CustodyEvent P → Prop
  | .deliver q => 0 < q ∧ q ≤ s.batchSeq
  | .ack _ => True
  | .marker id => id ≤ s.batchSeq ∧ ∀ t', Missing s.tracker.cycles t' id worker → t' = t

/-- A live session is in step with the coordinator. -/
structure InStep (s : CustodyState P) (worker : String) (ses : WorkerSession P) : Prop where
  epoch : s.tracker.epoch worker = some ses.epoch
  committed : ∀ t p, ses.committed t = some p → Spent s t worker p
  shares : ∀ sh ∈ ses.inbox, sh ∈ s.sent worker ∨ ¬ Missing s.tracker.cycles sh.table sh.id worker
  markers : ∀ t, ses.pending t = none → ses.pendingMarkers t = []
  tables : ∀ t, ∀ sh ∈ ses.ingest t, sh.table = t
  ids : ∀ t, ∀ e ∈ trail ses (s.queue worker) t, Numbered s worker t e
  trail : ∀ t, Sound (Missing s.tracker.cycles t · worker) (Safe s worker t) (s.known t)
    (trail ses (s.queue worker) t)

/-- **Custody.** -/
structure Kept (s : CustodyState P) : Prop where
  orderly : s.tracker.Orderly
  clean : s.failed = false → ∀ t, s.tracker.cycles.poisoned t = false
  placed : s.tracker.cycles.AllPlaced
  sorted : ∀ t, (s.tracker.sentSeqs t).Pairwise (· < ·)
  seqs : ∀ t, ∀ o ∈ s.tracker.sent t, o.seq ≤ s.batchSeq
  openings : ∀ t, ∀ o ∈ s.tracker.sent t, (o.window = false → o.batchPos.isSome) ∧
    ∀ p, o.batchPos = some p → (o.seq, p) ∈ s.marks t
  marks : ∀ t, ∀ m ∈ s.marks t, m.1 ≤ s.batchSeq
  fifo : ∀ w, (s.sent w ++ s.queue w).Pairwise fun sh sh' => sh.id < sh'.id
  bound : ∀ w, ∀ sh ∈ s.sent w ++ s.queue w, 0 < sh.id ∧ sh.id ≤ s.batchSeq ∧
    ∀ p, sh.high = some p → (sh.id, p) ∈ s.marks sh.table
  heads : ∀ w, ((s.index w).head.map InFlightBatch.id).Nodup ∧
    ∀ b ∈ (s.index w).head, b.id ≤ s.batchSeq
  held : ∀ t q w, Missing s.tracker.cycles t q w → Held s t q w
  beyond : ∀ t q w, Missing s.tracker.cycles t q w → ∀ m ∈ s.marks t, m.1 < q → Safe s w t q m.2
  acked : ∀ w t p, (s.index w).acked t = some p → Spent s t w p
  durable : ∀ t p, s.durable t = some p → ∀ w, Spent s t w p
  opening : ∀ w epoch committed, s.link w = .opening epoch committed →
    s.tracker.epoch w = some epoch ∧ ∀ t p, committed t = some p → Spent s t w p
  live : ∀ w ses, s.link w = .live ses → InStep s w ses

variable {s : CustodyState P} {w : String}

theorem kept_init (su : Partitions P) : Kept (init su) where
  orderly := StagedState.orderly_init
  clean _ _ := rfl
  placed := ⟨nofun, nofun⟩
  sorted _ := .nil
  seqs := nofun
  openings := nofun
  marks t m hm := by
    obtain ⟨p, -, rfl⟩ := mem_map.mp hm
    exact le_rfl
  fifo _ := .nil
  bound := nofun
  heads _ := ⟨nodup_nil, nofun⟩
  held _ _ _ h := by
    obtain ⟨cy, hcy, -⟩ := h
    cases hcy
  beyond _ _ _ h := by
    obtain ⟨cy, hcy, -⟩ := h
    cases hcy
  acked := nofun
  durable t p hp w := by
    refine ⟨?_, fun q hm => ?_⟩
    · exact mem_map.mpr ⟨(0, p), mem_map.mpr ⟨p, mem_toList.mpr hp, rfl⟩, rfl⟩
    · obtain ⟨cy, hcy, -⟩ := hm
      cases hcy
  opening := nofun
  live := nofun

variable {V : Type} {sh : Share P} {q : Nat} {out : List (InFlightBatch P) × PositionIndex P}
  {p : P}

theorem setAt_self (m : String → V) (k : String) (v : V) : setAt m k v k = v := if_pos rfl

theorem setAt_other (m : String → V) {k k' : String} (v : V) (h : k' ≠ k) : setAt m k v k' = m k' :=
  if_neg h

theorem setAt_append (m : String → List V) (k : String) (l : List V) (k' : String) :
    setAt m k (m k ++ l) k' = m k' ++ if k = k' then l else [] := by
  by_cases hk : k = k'
  · simp [setAt, hk]
  · simp [setAt, hk, Ne.symm hk]

/-- The shares of a worker have distinct numbers. -/
theorem Kept.share_unique (h : Kept s) {sh' : Share P} (hsh : sh ∈ s.sent w ++ s.queue w)
    (hsh' : sh' ∈ s.sent w ++ s.queue w) (hid : sh.id = sh'.id) : sh = sh' := by
  have hnodup : ((s.sent w ++ s.queue w).map Share.id).Nodup :=
    pairwise_map.mpr ((h.fifo w).imp fun hlt => Nat.ne_of_lt hlt)
  exact inj_on_of_nodup_map hnodup hsh hsh' hid

variable {t w' : String}

/-- A position that is spent releases no share waited for. -/
theorem not_releasable_of_spent {acked : String → Option P}
    (hm : Missing s.tracker.cycles t q w) (hsh : sh ∈ s.sent w ++ s.queue w) (hid : sh.id = q)
    (htable : sh.table = t) (hacked : ∀ p, acked t = some p → Spent s t w p) :
    releasable acked sh.entry = false := by
  cases hp : acked t with
  | none =>
    have htab : acked sh.entry.table = none := by
      rw [← hp, ← htable]
      rfl
    unfold releasable
    rw [htab]
    cases sh.entry.marker <;> cases sh.entry.high <;> rfl
  | some p =>
    have hfalse := (hacked p hp).2 q hm sh hsh hid htable
    have htab : acked sh.entry.table = some p := by
      rw [← hp, ← htable]
      rfl
    unfold releasable at hfalse ⊢
    rw [htab]
    exact hfalse

/-! ## Releases -/

/-- A release that takes no share waited for. -/
structure Releases (s : CustodyState P) (w : String)
    (out : List (InFlightBatch P) × PositionIndex P) : Prop where
  popped : ∀ b ∈ out.1, b ∈ (s.index w).head ∧
    ∀ sh ∈ s.sent w ++ s.queue w, sh.entry = b → ¬ Missing s.tracker.cycles sh.table sh.id w
  rest : out.2.head.Sublist (s.index w).head
  kept : ∀ b ∈ (s.index w).head, b ∉ out.1 → b ∈ out.2.head
  acked : ∀ t p, out.2.acked t = some p → Spent s t w p

/-- A release pops no share waited for. -/
theorem Releases.not_popped (hout : Releases s w out) (h : Kept s)
    (hm : Missing s.tracker.cycles t q w)
    (hsh : sh ∈ s.sent w ++ s.queue w) (hid : sh.id = q) (htable : sh.table = t)
    (hentry : sh.entry ∈ (s.index w).head) :
    sh.id ∉ out.1.map InFlightBatch.id := by
  intro hmem
  obtain ⟨b, hb, hbid⟩ := mem_map.mp hmem
  obtain ⟨hhead, hfree⟩ := hout.popped b hb
  have heq : sh.entry = b := inj_on_of_nodup_map (h.heads w).1 hentry hhead hbid.symm
  exact hfree sh hsh heq (hid ▸ htable ▸ hm)

omit [Position P] in
theorem dropSent_sublist (s : CustodyState P) (w w' : String)
    (out : List (InFlightBatch P) × PositionIndex P) :
    ((s.dropSent w out).sent w' ++ s.queue w').Sublist (s.sent w' ++ s.queue w') := by
  refine List.Sublist.append ?_ (.refl _)
  change (setAt s.sent w _ w').Sublist _
  by_cases hw : w' = w
  · rw [hw, setAt_self]
    exact filter_sublist
  · rw [setAt_other _ _ hw]

theorem Safe.dropSent (h : Safe s w' t q p)
    (out : List (InFlightBatch P) × PositionIndex P) : Safe (s.dropSent w out) w' t q p :=
  fun sh hsh => h sh ((dropSent_sublist s w w' out).subset hsh)

theorem Spent.dropSent (h : Spent s t w' p)
    (out : List (InFlightBatch P) × PositionIndex P) : Spent (s.dropSent w out) t w' p :=
  ⟨h.1, fun q hm => (h.2 q hm).dropSent out⟩

/-- A release keeps what the cycles wait for. -/
theorem Kept.dropSent (h : Kept s) (hout : Releases s w out) : Kept (s.dropSent w out) := by
  have hsub := fun w' => dropSent_sublist s w w' out
  -- A share waited for stays.
  have hheld : ∀ t q w', Missing s.tracker.cycles t q w' → Held (s.dropSent w out) t q w' := by
    intro t q w' hm
    obtain ⟨sh, hsh, hid, htable, hentry⟩ := h.held t q w' hm
    by_cases hw : w' = w
    · subst hw
      have hnot := hout.not_popped h hm hsh hid htable hentry
      refine ⟨sh, ?_, hid, htable, ?_⟩
      · rcases mem_append.mp hsh with hsh | hsh
        · refine mem_append_left _ ?_
          change sh ∈ setAt s.sent w' _ w'
          rw [setAt_self]
          exact mem_filter.mpr ⟨hsh, decide_eq_true hnot⟩
        · exact mem_append_right _ hsh
      · change sh.entry ∈ (setAt s.index w' _ w').head
        rw [setAt_self]
        exact hout.kept _ hentry fun hin => hnot (mem_map.mpr ⟨_, hin, rfl⟩)
    · refine ⟨sh, ?_, hid, htable, ?_⟩
      · change sh ∈ setAt s.sent w _ w' ++ s.queue w'
        rw [setAt_other _ _ hw]
        exact hsh
      · change sh.entry ∈ (setAt s.index w _ w').head
        rw [setAt_other _ _ hw]
        exact hentry
  refine { h with
    fifo := fun w' => (h.fifo w').sublist (hsub w')
    bound := fun w' sh hsh => h.bound w' sh ((hsub w').subset hsh)
    heads := fun w' => ?_
    held := hheld
    beyond := fun t q w' hm m hmark hlt => (h.beyond t q w' hm m hmark hlt).dropSent out
    acked := fun w' t p hp => Spent.dropSent ?_ out
    durable := fun t p hp w' => (h.durable t p hp w').dropSent out
    opening := fun w' epoch committed hlink => ⟨(h.opening w' epoch committed hlink).1,
      fun t p hp => ((h.opening w' epoch committed hlink).2 t p hp).dropSent out⟩
    live := fun w' ses hlink => ?_ }
  · change ((setAt s.index w _ w').head.map _).Nodup ∧ ∀ b ∈ (setAt s.index w _ w').head, _
    by_cases hw : w' = w
    · rw [hw, setAt_self]
      exact ⟨(h.heads w).1.sublist (hout.rest.map _), fun b hb =>
        (h.heads w).2 b (hout.rest.subset hb)⟩
    · rw [setAt_other _ _ hw]
      exact h.heads w'
  · change (setAt s.index w _ w').acked t = some p at hp
    by_cases hw : w' = w
    · rw [hw, setAt_self] at hp
      rw [hw]
      exact hout.acked t p hp
    · rw [setAt_other _ _ hw] at hp
      exact h.acked w' t p hp
  · have hses := h.live w' ses hlink
    refine { hses with
      committed := fun t p hp => (hses.committed t p hp).dropSent out
      shares := fun sh hsh => ?_
      trail := fun t => (hses.trail t).mono (fun q hm => ⟨hm, fun p hs => hs.dropSent out⟩)
        fun _ => id }
    by_cases hm : Missing s.tracker.cycles sh.table sh.id w'
    · left
      have hin := (hses.shares sh hsh).resolve_right fun hnot => hnot hm
      obtain ⟨sh', hsh', hid, htable, hentry⟩ := h.held _ _ _ hm
      obtain rfl := h.share_unique hsh' (mem_append_left _ hin) hid
      change sh' ∈ setAt s.sent w _ w'
      by_cases hw : w' = w
      · subst hw
        rw [setAt_self]
        exact mem_filter.mpr ⟨hin, decide_eq_true (hout.not_popped h hm hsh' hid htable hentry)⟩
      · rw [setAt_other _ _ hw]
        exact hin
    · exact .inr hm

/-- What a pop leaves. -/
theorem popCovered_split (idx : PositionIndex P) :
    (∀ b ∈ idx.popCovered.1, b ∈ idx.head ∧ releasable idx.acked b = true) ∧
      idx.popCovered.2.head.Sublist idx.head ∧
      (∀ b ∈ idx.head, b ∉ idx.popCovered.1 → b ∈ idx.popCovered.2.head) ∧
      idx.popCovered.2.acked = idx.acked := by
  refine ⟨fun b hb => ⟨(takeWhile_sublist _).subset hb, mem_popCovered hb⟩,
    dropWhile_sublist _, fun b hb hnot => ?_, rfl⟩
  rw [← takeWhile_append_dropWhile (p := releasable idx.acked) (l := idx.head)] at hb
  exact (mem_append.mp hb).resolve_left hnot

/-- An ack of a spent position. -/
theorem Kept.truncate {pos : P} (h : Kept s) (hpos : Spent s t w pos) :
    Releases s w ((s.index w).truncate t pos) := by
  rw [truncate_eq]
  have hacked : ∀ t' p, (s.index w).ackedAfter t pos t' = some p → Spent s t' w p := by
    intro t' p hp
    unfold ackedAfter at hp
    split at hp
    · change (if t' = t then some pos else _) = some p at hp
      split at hp
      · rename_i ht
        rw [← some.inj hp, ht]
        exact hpos
      · exact h.acked w t' p hp
    · exact h.acked w t' p hp
  obtain ⟨hpop, hrest, hkept, hsame⟩ :=
    popCovered_split { s.index w with acked := (s.index w).ackedAfter t pos }
  refine ⟨fun b hb => ⟨(hpop b hb).1, fun sh hsh heq hm => ?_⟩, hrest, hkept, fun t' p hp => ?_⟩
  · have hnot := not_releasable_of_spent hm hsh rfl rfl fun p hp => hacked _ p hp
    have hyes := (hpop b hb).2
    rw [← heq] at hyes
    exact absurd (hnot.symm.trans hyes) Bool.false_ne_true
  · exact hacked t' p hp

/-- The ack of a marker that nothing waits for. -/
theorem Kept.releaseMarker {id : Nat} (h : Kept s) (hid : ∀ t, ¬ Missing s.tracker.cycles t id w) :
    Releases s w ((s.index w).releaseMarker id) := by
  have hfound : ∀ b, (s.index w).head.find? (fun b => b.id == id && b.marker) = some b →
      b ∈ (s.index w).head ∧ b.id = id := by
    intro b hb
    have hpred := find?_some hb
    simp only [Bool.and_eq_true, beq_iff_eq] at hpred
    exact ⟨mem_of_find?_eq_some hb, hpred.1⟩
  obtain ⟨hpop, hrest, hkept, hsame⟩ := popCovered_split
    { s.index w with head := (s.index w).head.eraseP fun b => b.id == id && b.marker }
  have hsub : ((s.index w).head.eraseP fun b => b.id == id && b.marker).Sublist
      (s.index w).head := eraseP_sublist
  refine ⟨fun b hb => ?_, hrest.trans hsub, fun b hb hnot => ?_, fun t p hp => ?_⟩
  · rcases mem_append.mp hb with hb | hb
    · obtain ⟨hmem, hbid⟩ := hfound b (mem_toList.mp hb)
      refine ⟨hmem, fun sh hsh heq hm => hid sh.table ?_⟩
      rw [← hbid, ← heq]
      exact hm
    · refine ⟨hsub.subset (hpop b hb).1, fun sh hsh heq hm => ?_⟩
      have hno := not_releasable_of_spent hm hsh rfl rfl fun p hp => h.acked w _ p hp
      have hyes := (hpop b hb).2
      rw [← heq] at hyes
      exact absurd (hno.symm.trans hyes) Bool.false_ne_true
  · refine hkept b ?_ fun hin => hnot (mem_append_right _ hin)
    have hperm := IndexHistory.perm_find_eraseP (fun b => b.id == id && b.marker) (s.index w).head
    rcases mem_append.mp (hperm.symm.subset hb) with hin | hin
    · exact hin
    · exact absurd (mem_append_left _ hin) hnot
  · exact h.acked w t p hp

end CustodyState

end Urutau
