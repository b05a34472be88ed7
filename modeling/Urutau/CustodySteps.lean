import Urutau.CustodyInvariant

/-!
# Steps that keep custody

The worker's own steps only move the boundary between the parts of what its
session is going to send.  A message of the session is dealt with from the front
of it; a session that opens has all that its worker is owed ahead of it.
-/

namespace Urutau

open List WorkerSession PositionIndex Option CustodyEvent StagedState

namespace CustodyState

variable {P : Type} {s : CustodyState P} {w : String} {sh : Share P} {ses : WorkerSession P}

/-! ## What is said -/

theorem eventsOfShares_append (t : String) (xs ys : List (Share P)) :
    eventsOfShares t (xs ++ ys) = eventsOfShares t xs ++ eventsOfShares t ys := by
  rw [eventsOfShares, filter_append, flatMap_append]
  rfl

theorem eventsOfShares_cons (t : String) (sh : Share P) (rest : List (Share P)) :
    eventsOfShares t (sh :: rest) =
      (if sh.table = t then eventsOfShare sh else []) ++ eventsOfShares t rest := by
  unfold eventsOfShares
  by_cases ht : sh.table = t
  · simp [ht]
  · simp [ht]

variable {e : CustodyEvent P} {shs : List (Share P)} {t : String} {pos : P} {l : WorkerLink P}
  {s' : CustodyState P}

/-- An event of a table is that of one of its shares. -/
theorem mem_eventsOfShares
    (h : e ∈ eventsOfShares t shs) : ∃ sh ∈ shs, sh.table = t ∧ e ∈ eventsOfShare sh := by
  obtain ⟨sh, hsh, he⟩ := mem_flatMap.mp h
  obtain ⟨hsh, ht⟩ := mem_filter.mp hsh
  exact ⟨sh, hsh, of_decide_eq_true ht, he⟩

/-- A share gives a delivery, an ack or a marker's ack. -/
theorem mem_eventsOfShare (h : e ∈ eventsOfShare sh) :
    e = .deliver sh.id ∨ (∃ p, e = .ack p) ∨ e = .marker sh.id := by
  rcases mem_cons.mp h with rfl | h
  · exact .inl rfl
  rcases mem_append.mp h with h | h
  · obtain ⟨p, -, rfl⟩ := mem_map.mp h
    exact .inr (.inl ⟨p, rfl⟩)
  · split at h
    · exact .inr (.inr (mem_singleton.mp h))
    · cases h

theorem flushItems_flush (ses : WorkerSession P) (table : String) :
    (ses.flush table).flushItems table = [] := by
  unfold flushItems flush
  simp only [setAt_self]
  rfl

/-- A flush changes nothing of what will be sent. -/
theorem trail_flush (ses : WorkerSession P) (queue : List (Share P)) (table t : String) :
    trail (ses.flush table) queue t = trail ses queue t := by
  unfold trail
  by_cases ht : t = table
  · rw [ht, flushItems_flush, append_nil]
    change _ ++ (((setAt ses.ready table _ table).flatMap _ ++ _) ++ _) = _
    rw [setAt_self]
    rfl
  · have hready : (ses.flush table).ready t = ses.ready t := setAt_other _ _ ht
    have hitems : (ses.flush table).flushItems t = ses.flushItems t := by
      unfold flushItems flush
      simp only [setAt_other _ _ ht]
    rw [hready, hitems]
    rfl

attribute [local simp] flushItems eventsOfShare eventsOfReady eventsOfMessage setAt_self
  messagesOf

/-- An item of the committer's queue says what its messages will say. -/
theorem eventsOfMessage_messagesOf (table t : String) (item : ReadyItem P) :
    (messagesOf table item).flatMap (eventsOfMessage t) =
      if t = table then eventsOfReady item else [] := by
  have hsym : table = t ↔ t = table := eq_comm
  by_cases ht : t = table
  · cases item with
    | batch seq lost pos ack =>
      cases ack <;> simp [ht]
    | markers ids =>
      change (ids.map (WorkerMessage.markerAck table)).flatMap (eventsOfMessage t) = _
      rw [flatMap_map]
      simp only [eventsOfMessage, ht, if_true, eventsOfReady, map_eq_flatMap]
  · cases item with
    | batch seq lost pos ack =>
      cases ack <;> simp [hsym, ht]
    | markers ids =>
      simp [hsym, ht]

/-- What stands in the committer's queue, or is about to. -/
theorem handed_addPending (ses : WorkerSession P)
    (hmark : ses.pending sh.table = none → ses.pendingMarkers sh.table = []) (t : String) :
    (ses.addPending sh).ready t ++ (ses.addPending sh).flushItems t =
      ses.ready t ++ ses.flushItems t ++ if t = sh.table then [commitItem sh] else [] := by
  unfold addPending
  by_cases ht : t = sh.table
  · subst ht
    cases hp : ses.pending sh.table with
    | none =>
      simp [hp, hmark hp]
    | some old =>
      simp [flush]
  · rw [if_neg ht]
    cases hp : ses.pending sh.table with
    | none =>
      simp [setAt_other _ _ ht]
    | some old =>
      simp [flush, setAt_other _ _ ht]

/-- Buffering a share leaves the channels as they are. -/
theorem addPending_frame (ses : WorkerSession P) (sh : Share P) :
    (ses.addPending sh).epoch = ses.epoch ∧ (ses.addPending sh).committed = ses.committed ∧
      (ses.addPending sh).inbox = ses.inbox ∧ (ses.addPending sh).wire = ses.wire ∧
      (ses.addPending sh).ingest = ses.ingest := by
  unfold addPending
  split
  · exact ⟨rfl, rfl, rfl, rfl, rfl⟩
  · exact ⟨rfl, rfl, rfl, rfl, rfl⟩

/-- Markers wait behind a buffered batch only. -/
theorem markers_addPending
    (hmark : ∀ t, t ≠ sh.table → ses.pending t = none → ses.pendingMarkers t = []) (t : String)
    (hnone : (ses.addPending sh).pending t = none) : (ses.addPending sh).pendingMarkers t = [] := by
  have hpending : (ses.addPending sh).pending sh.table = some sh := setAt_self _ _ _
  by_cases ht : t = sh.table
  · rw [ht, hpending] at hnone
    cases hnone
  unfold addPending at hnone ⊢
  dsimp only at hnone ⊢
  rw [setAt_other _ _ ht] at hnone
  split at hnone
  · rename_i hsome
    rw [if_pos hsome]
    change setAt ses.pending sh.table none t = none at hnone
    rw [setAt_other _ _ ht] at hnone
    exact (setAt_other _ _ ht).trans (hmark t ht hnone)
  · rename_i hsome
    rw [if_neg hsome]
    exact hmark t ht hnone

variable {m : WorkerMessage P} {rest : List (WorkerMessage P)}

/-- A message is one event, or none. -/
theorem eventsOfMessage_cases (t : String) (m : WorkerMessage P) :
    eventsOfMessage t m = [] ∨ ∃ e, eventsOfMessage t m = [e] := by
  cases m with
  | staged t' | ack t' | markerAck t' =>
    by_cases ht : t' = t
    · exact .inr ⟨_, if_pos ht⟩
    · exact .inl (if_neg ht)

theorem staged_of_deliver {q : Nat} (h : eventsOfMessage t m = [.deliver q]) :
    ∃ lost pos, m = .staged t q lost pos := by
  cases m with
  | staged t' seq lost pos | ack t' | markerAck t' =>
    by_cases ht : t' = t <;> simp_all

/-- The message in front is dealt with first. -/
theorem trail_wire (hwire : ses.wire = m :: rest) (queue : List (Share P)) (t : String) :
    trail ses queue t = eventsOfMessage t m ++ trail { ses with wire := rest } queue t := by
  unfold trail
  rw [hwire, flatMap_cons, append_assoc]
  rfl

/-- What a worker is owed, in the order of its numbers, delivers every cycle that
waits for it ahead of what releases the cycle. -/
theorem holds_shares {missing : Nat → Prop} {safe : Nat → P → Prop} {marks : List (Nat × P)}
    {before : List Nat} (hsorted : shs.Pairwise fun sh sh' => sh.id < sh'.id)
    (hmarks : ∀ sh ∈ shs, sh.table = t → ∀ p, sh.high = some p → (sh.id, p) ∈ marks)
    (hbeyond : ∀ q, missing q → ∀ m ∈ marks, m.1 < q → safe q m.2)
    (hin : ∀ q, missing q → (∃ sh ∈ shs, sh.id = q ∧ sh.table = t) ∨ q ∈ before) :
    Fifo.Holds delivers (CustodyEvent.Behind missing safe (marks.map Prod.snd)) before
      (eventsOfShares t shs) := by
  induction shs generalizing before with
  | nil => trivial
  | cons sh rest ih =>
    obtain ⟨hlt, hsorted⟩ := pairwise_cons.mp hsorted
    have hrest : ∀ sh ∈ rest, sh.table = t → ∀ p, sh.high = some p → (sh.id, p) ∈ marks :=
      fun sh' hsh' => hmarks sh' (mem_cons_of_mem _ hsh')
    rw [eventsOfShares_cons]
    by_cases ht : sh.table = t
    · rw [if_pos ht]
      -- Behind its own delivery, the share's ack reaches nothing sent later.
      have hwaits : ∀ q, missing q → (∃ sh' ∈ rest, sh'.id = q ∧ sh'.table = t) ∨
          q ∈ before ++ [sh.id] := by
        intro q hm
        rcases hin q hm with ⟨sh', hsh', hid, htable⟩ | hq
        · rcases mem_cons.mp hsh' with rfl | hsh'
          · exact .inr (mem_append_right _ (mem_singleton.mpr hid.symm))
          · exact .inl ⟨sh', hsh', hid, htable⟩
        · exact .inr (mem_append_left _ hq)
      have hown : Fifo.Holds delivers
          (CustodyEvent.Behind missing safe (marks.map Prod.snd)) (before ++ [sh.id])
          (sh.high.toList.map .ack ++ if sh.kind = .closes then [.marker sh.id] else []) := by
        refine Fifo.holds_append.mpr ⟨?_, ?_⟩
        · cases hhigh : sh.high with
          | none => trivial
          | some p =>
            have hmark := hmarks sh mem_cons_self ht p hhigh
            refine ⟨⟨mem_map.mpr ⟨_, hmark, rfl⟩, fun q hm => ?_⟩, trivial⟩
            rcases hwaits q hm with ⟨sh', hsh', hid, -⟩ | hq
            · exact .inr (hbeyond q hm _ hmark (hid ▸ hlt sh' hsh'))
            · exact .inl hq
        · split
          · exact ⟨fun _ => mem_append_left _ mem_concat_self, trivial⟩
          · trivial
      refine Fifo.holds_append.mpr ⟨⟨trivial, hown⟩, ih hsorted hrest fun q hm => ?_⟩
      refine (hwaits q hm).imp_right fun hq => ?_
      rcases mem_append.mp hq with hq | hq
      · exact mem_append_left _ hq
      · refine mem_append_right _ ?_
        rw [mem_singleton.mp hq]
        exact mem_cons_self
    · rw [if_neg ht]
      refine ih hsorted hrest fun q hm => (hin q hm).imp_left fun ⟨sh', hsh', hid, htable⟩ => ?_
      rcases mem_cons.mp hsh' with rfl | hsh'
      · exact absurd htable ht
      · exact ⟨sh', hsh', hid, htable⟩

variable [Position P]

/-! ## The worker's own steps -/

section Session

variable {ses' : WorkerSession P}

/-- The session moved on without changing what it is in step with. -/
theorem InStep.moved (h : InStep s w ses) (hepoch : ses'.epoch = ses.epoch)
    (hcommitted : ses'.committed = ses.committed) (hinbox : ∀ sh ∈ ses'.inbox, sh ∈ ses.inbox)
    (hmarkers : ∀ t, ses'.pending t = none → ses'.pendingMarkers t = [])
    (htables : ∀ t, ∀ sh ∈ ses'.ingest t, sh.table = t)
    (htrail : ∀ t, CustodyState.trail ses' (s.queue w) t = CustodyState.trail ses (s.queue w) t) :
    InStep s w ses' where
  epoch := hepoch ▸ h.epoch
  committed t p hp := h.committed t p (hcommitted ▸ hp)
  shares sh hsh := h.shares sh (hinbox sh hsh)
  markers := hmarkers
  tables := htables
  ids t e he := h.ids t e (htrail t ▸ he)
  trail t := htrail t ▸ h.trail t

/-- A flush keeps the order of the events. -/
theorem InStep.flush (h : InStep s w ses) (table : String) : InStep s w (ses.flush table) := by
  refine h.moved rfl rfl (fun _ => id) (fun t hnone => ?_) h.tables
    fun t => trail_flush ses _ table t
  change setAt ses.pendingMarkers table [] t = []
  by_cases ht : t = table
  · rw [ht, setAt_self]
  rw [setAt_other _ _ ht]
  refine h.markers t ?_
  change setAt ses.pending table none t = none at hnone
  rw [setAt_other _ _ ht] at hnone
  exact hnone

variable {table : String}

/-- A commit sends its messages in turn. -/
theorem InStep.commitReady (h : InStep s w ses) (hs : ses.commitReady table = some ses') :
    InStep s w ses' := by
  unfold WorkerSession.commitReady at hs
  split at hs
  · cases hs
  rename_i item rest hready
  obtain rfl := some.inj hs
  refine h.moved rfl rfl (fun _ => id) h.markers h.tables fun t => ?_
  unfold CustodyState.trail
  change (ses.wire ++ messagesOf table item).flatMap _ ++
    (((setAt ses.ready table rest t ++ ses.flushItems t).flatMap _ ++ _) ++ _) = _
  rw [flatMap_append, eventsOfMessage_messagesOf]
  by_cases ht : t = table
  · rw [if_pos ht, ht, setAt_self, hready, cons_append, flatMap_cons]
    simp only [append_assoc]
  · rw [if_neg ht, setAt_other _ _ ht, append_nil]

/-- The batcher takes a share in, and hands on what it says, but for messages
that deliver nothing. -/
theorem InStep.took {rest : List (Share P)} {items : List (ReadyItem P)}
    {front gone back : List (CustodyEvent P)} (h : InStep s w ses)
    (hhead : ses.ingest table = sh :: rest)
    (hframe : ses'.epoch = ses.epoch ∧ ses'.committed = ses.committed ∧
      ses'.inbox = ses.inbox ∧ ses'.wire = ses.wire ∧ ses'.ingest = setAt ses.ingest table rest)
    (hmarkers : ∀ t, ses'.pending t = none → ses'.pendingMarkers t = [])
    (hready : ∀ t, ses'.ready t ++ ses'.flushItems t = ses.ready t ++ ses.flushItems t ++
      if t = table then items else []) (hshare : eventsOfShare sh = front ++ (gone ++ back))
    (hitems : items.flatMap eventsOfReady = front ++ back)
    (hgone : gone.flatMap delivers = []) : InStep s w ses' := by
  obtain ⟨hepoch, hcommitted, hinbox, hwire, hingest⟩ := hframe
  have htables : ∀ t, ∀ sh ∈ ses'.ingest t, sh.table = t := by
    intro t sh' hsh'
    rw [hingest] at hsh'
    unfold setAt at hsh'
    split at hsh'
    · subst t
      exact h.tables table sh' (hhead ▸ mem_cons_of_mem _ hsh')
    · exact h.tables t sh' hsh'
  -- Of its own table, the trail loses what is not handed on.
  have htrail : ∀ t, ∃ before after, CustodyState.trail ses (s.queue w) t =
        before ++ ([] ++ ((if t = table then gone else []) ++ after)) ∧
      CustodyState.trail ses' (s.queue w) t = before ++ ([] ++ ([] ++ after)) := by
    intro t
    unfold CustodyState.trail
    rw [hwire, hready, hingest, hinbox]
    by_cases ht : t = table
    · subst ht
      refine ⟨ses.wire.flatMap (eventsOfMessage t) ++
        ((ses.ready t ++ ses.flushItems t).flatMap eventsOfReady ++ front),
        back ++ (rest.flatMap eventsOfShare ++ eventsOfShares t (ses.inbox ++ s.queue w)), ?_, ?_⟩
      · rw [hhead, flatMap_cons, hshare, if_pos rfl]
        simp only [append_assoc, nil_append]
      · rw [if_pos rfl, setAt_self, flatMap_append, hitems]
        simp only [append_assoc, nil_append]
    · rw [if_neg ht, if_neg ht, setAt_other _ _ ht, append_nil]
      exact ⟨_, [], (append_nil _).symm, (append_nil _).symm⟩
  refine ⟨hepoch ▸ h.epoch, fun t p hp => h.committed t p (hcommitted ▸ hp),
    fun sh' hsh' => h.shares sh' (hinbox ▸ hsh'), hmarkers, htables, fun t e he => ?_,
    fun t => ?_⟩
  · obtain ⟨before, after, hbefore, hafter⟩ := htrail t
    refine h.ids t e ?_
    rw [hafter] at he
    rw [hbefore]
    rcases mem_append.mp he with he | he
    · exact mem_append_left _ he
    · exact mem_append_right _ (mem_append_right (if t = table then gone else []) he)
  · obtain ⟨before, after, hbefore, hafter⟩ := htrail t
    rw [hafter]
    refine Sound.skip (hbefore ▸ h.trail t) (fun q hq => ?_) nofun
    split at hq
    · rw [hgone] at hq
      cases hq
    · cases hq

/-- The batcher takes in a share.  A Closes marker must not find another cycle
buffered. -/
theorem InStep.handleIngest {rows lost : Bool} (h : InStep s w ses)
    (hclear : ∀ sh ∈ (ses.ingest table).head?, sh.kind = .closes → ses.pending table = none)
    (hs : ses.handleIngest table rows lost = some ses') : InStep s w ses' := by
  unfold WorkerSession.handleIngest at hs
  cases hhead : ses.ingest table with
  | nil =>
    rw [hhead] at hs
    cases hs
  | cons sh rest =>
    rw [hhead] at hs
    have htable : sh.table = table := h.tables table sh (hhead ▸ mem_cons_self)
    subst htable
    have hmark := h.markers sh.table
    let ses₀ := { ses with ingest := setAt ses.ingest sh.table rest }
    have hshare : eventsOfShare sh = eventsOfShare sh ++ ([] ++ []) := by simp
    cases hkind : sh.kind with
    | rows =>
      simp only [hkind] at hs
      obtain rfl := some.inj hs
      have hitems : [commitItem sh].flatMap eventsOfReady = eventsOfShare sh ++ [] := by
        simp [commitItem, hkind]
      exact h.took hhead (addPending_frame ses₀ sh) (markers_addPending fun t _ => h.markers t)
        (fun t => handed_addPending ses₀ hmark t) hshare hitems rfl
    | closes =>
      have hfree := hclear sh (by rw [hhead]; rfl) hkind
      simp only [hkind] at hs
      cases rows with
      | true =>
        -- The window's rows carry no position: the marker's own ack is not sent.
        obtain rfl := some.inj hs
        let ses₁ := { ses₀ with
          pendingMarkers := setAt ses.pendingMarkers sh.table
            (ses.pendingMarkers sh.table ++ [sh.id]) }
        have hshare : eventsOfShare sh =
            [.deliver sh.id] ++ (sh.high.toList.map .ack ++ [.marker sh.id]) := by
          simp [hkind]
        have hitems : [commitItem sh, .markers [sh.id]].flatMap eventsOfReady =
            [deliver sh.id] ++ [.marker sh.id] := by
          simp [commitItem, hkind]
        refine h.took hhead (addPending_frame ses₁ sh) (markers_addPending fun t ht hnone => ?_)
          (fun t => ?_) hshare hitems ?_
        · exact (setAt_other _ _ ht).trans (h.markers t hnone)
        · have hkeep : (ses₁.pending sh.table).isSome = false := by
            rw [hfree]
            rfl
          unfold addPending
          rw [hkeep]
          by_cases ht : t = sh.table
          · subst ht
            simp [hfree, hmark hfree]
          · simp [setAt_other _ _ ht, ht]
        · cases sh.high <;> rfl
      | false =>
        obtain rfl := some.inj hs
        have hitems : [.batch sh.id lost sh.high sh.high, .markers [sh.id]].flatMap
            eventsOfReady = eventsOfShare sh ++ [] := by
          simp [hkind]
        refine h.took hhead ⟨rfl, rfl, rfl, rfl, rfl⟩ h.markers (fun t => ?_) hshare hitems rfl
        unfold toReady
        by_cases ht : t = sh.table
        · subst ht
          simp [hfree, hmark hfree]
        · simp [setAt_other _ _ ht, ht]
    | done =>
      simp only [hkind] at hs
      obtain rfl := some.inj hs
      have hitems : [.batch sh.id false none sh.high].flatMap eventsOfReady =
          eventsOfShare sh ++ [] := by
        simp [hkind]
      refine h.took hhead ⟨rfl, rfl, rfl, rfl, rfl⟩ (h.flush sh.table).markers (fun t => ?_)
        hshare hitems rfl
      unfold WorkerSession.toReady WorkerSession.flush
      by_cases ht : t = sh.table
      · subst ht
        simp
      · simp [setAt_other _ _ ht, ht]

variable [LawfulPosition P]

/-- What a position releases, a position at or beyond it releases too. -/
theorem releasable_mono {e : InFlightBatch P} {p p' : P} (hle : Position.covered p p' = true)
    (h : releasable (fun _ => some p) e = true) :
    releasable (fun _ => some p') e = true := by
  unfold releasable at h ⊢
  cases hhigh : e.high with
  | none => simpa [hhigh] using h
  | some high =>
    simp only [hhigh, Bool.and_eq_true, Bool.not_eq_true', Bool.and_eq_false_iff,
      Bool.not_eq_false'] at h ⊢
    obtain ⟨hmarker, hcovered, hcut⟩ := h
    refine ⟨hmarker, LawfulPosition.covered_trans hcovered hle, hcut.imp_right fun hadv => ?_⟩
    exact Position.advances_of_covered hadv hle

/-- What a skip has established: the table's position releases the share, and
covers the position that is acked. -/
theorem skipCovered_spec {committed : String → Option P} {pos : Option P}
    (h : skipCovered committed sh.info = some (table, pos)) :
    table = sh.table ∧ ∃ cp p, committed sh.table = some cp ∧ pos = some p ∧
      releasable (fun _ => some cp) sh.entry = true ∧
      (p = cp ∨ (sh.high = some p ∧ Position.covered p cp = true)) := by
  unfold skipCovered at h
  split at h
  · rename_i hcov
    obtain ⟨htable, hpos⟩ := Prod.mk.inj (some.inj h)
    refine ⟨htable.symm, ?_⟩
    rw [Urutau.covered] at hcov
    split at hcov
    · cases hcov
    split at hcov
    · rename_i cp high hcp hhigh
      obtain ⟨hkind, hhigh⟩ : sh.kind = .rows ∧ sh.high = some high :=
        ite_none_right_eq_some.mp hhigh
      change (if sh.isPartial then committed sh.table else
        (if sh.kind = .rows then sh.high else none)) = pos at hpos
      change (if sh.isPartial then decide (Position.compare high cp = .less)
        else Position.covered high cp) = true at hcov
      have hrelease : releasable (fun _ => some cp) sh.entry =
          (Position.covered high cp && !(sh.isPartial && !Position.advances cp high)) := by
        simp [releasable, Share.entry, hkind, hhigh]
      cases hcut : sh.isPartial with
      | true =>
        rw [hcut] at hcov hpos hrelease
        have hless : Position.compare high cp = .less := of_decide_eq_true hcov
        have hcovered : Position.covered high cp = true := by
          unfold Position.covered
          rw [hless]
        have hadv : Position.advances cp high = true := by
          unfold Position.advances
          rw [LawfulPosition.compare_swap, hless]
          rfl
        refine ⟨cp, cp, hcp, hpos.symm.trans hcp, ?_, .inl rfl⟩
        rw [hrelease, hcovered, hadv]
        rfl
      | false =>
        rw [hcut, if_pos hkind, hhigh] at hpos
        rw [hcut] at hcov hrelease
        have hcovered : Position.covered high cp = true := hcov
        refine ⟨cp, high, hcp, hpos.symm, ?_, .inr ⟨hhigh, hcovered⟩⟩
        rw [hrelease, hcovered]
        rfl
    · cases hcov
  · cases h

/-- The receiver takes one share.  What it skips is waited for by no cycle. -/
theorem InStep.receive (h : InStep s w ses) (hs : ses.receive = some ses') : InStep s w ses' := by
  unfold WorkerSession.receive at hs
  cases hinbox : ses.inbox with
  | nil =>
    rw [hinbox] at hs
    cases hs
  | cons sh rest =>
    rw [hinbox] at hs
    have hmem : sh ∈ ses.inbox := hinbox ▸ mem_cons_self
    have hrest : ∀ sh' ∈ rest, sh' ∈ ses.inbox := fun sh' hsh' =>
      hinbox ▸ mem_cons_of_mem _ hsh'
    -- The trail with the share in its place.
    let piped := fun t => (ses.ready t ++ ses.flushItems t).flatMap eventsOfReady ++
      (ses.ingest t).flatMap eventsOfShare
    have hold : ∀ t, CustodyState.trail ses (s.queue w) t =
        ses.wire.flatMap (eventsOfMessage t) ++ (piped t ++
          ((if sh.table = t then eventsOfShare sh else []) ++
            eventsOfShares t (rest ++ s.queue w))) := by
      intro t
      unfold CustodyState.trail
      rw [hinbox, cons_append, eventsOfShares_cons]
    cases hskip : skipCovered ses.committed sh.info with
    | none =>
      simp only [hskip] at hs
      obtain rfl := some.inj hs
      have hingest : ∀ t, setAt ses.ingest sh.table (ses.ingest sh.table ++ [sh]) t =
          ses.ingest t ++ if sh.table = t then [sh] else [] := setAt_append _ _ _
      refine h.moved rfl rfl hrest h.markers (fun t sh' hsh' => ?_) fun t => ?_
      · dsimp only at hsh'
        rw [hingest] at hsh'
        rcases mem_append.mp hsh' with hsh' | hsh'
        · exact h.tables t sh' hsh'
        · split at hsh'
          · exact mem_singleton.mp hsh' ▸ ‹sh.table = t›
          · cases hsh'
      · rw [hold]
        unfold CustodyState.trail
        dsimp only
        rw [hingest]
        by_cases ht : sh.table = t
        · simp [ht, piped]
        · simp [ht, piped]
    | some out =>
      obtain ⟨table, pos⟩ := out
      obtain ⟨rfl, cp, p, hcp, rfl, hrelease, hpos⟩ := skipCovered_spec hskip
      simp only [hskip] at hs
      obtain rfl := some.inj hs
      have hspent := h.committed _ cp hcp
      have hfree : ¬ Missing s.tracker.cycles sh.table sh.id w := by
        intro hm
        have hsent := (h.shares sh hmem).resolve_right fun hnot => hnot hm
        have hsafe := hspent.2 _ hm sh (mem_append_left _ hsent) rfl rfl
        exact absurd (hsafe.symm.trans hrelease) Bool.false_ne_true
      have hack : p ∈ s.known sh.table ∧
          ∀ q, Missing s.tracker.cycles sh.table q w → Safe s w sh.table q p := by
        rcases hpos with rfl | ⟨hhigh, hle⟩
        · exact hspent
        refine ⟨(h.trail sh.table).mem_known ?_, fun q hm sh' hsh' hid htable => ?_⟩
        · rw [hold]
          simp [hhigh]
        · refine Bool.eq_false_iff.mpr fun hyes => ?_
          have hno := hspent.2 q hm sh' hsh' hid htable
          exact absurd (hno.symm.trans (releasable_mono hle hyes)) Bool.false_ne_true
      -- The ack goes out at once, behind what is on the wire.
      have hnew : ∀ t, CustodyState.trail
          { ses with inbox := rest, wire := ses.wire ++ [.ack sh.table p] } (s.queue w) t =
          ses.wire.flatMap (eventsOfMessage t) ++ ((if sh.table = t then [.ack p] else []) ++
            (piped t ++ eventsOfShares t (rest ++ s.queue w))) := by
        intro t
        unfold CustodyState.trail
        rw [flatMap_append, flatMap_singleton, append_assoc]
        rfl
      refine ⟨h.epoch, h.committed, fun sh' hsh' => h.shares sh' (hrest sh' hsh'), h.markers,
        h.tables, fun t e he => ?_, fun t => (hnew t).symm ▸ ?_⟩
      · have hids := h.ids t e
        have he := hnew t ▸ he
        rw [hold] at hids
        simp only [mem_append] at he hids
        rcases he with he | he | he | he
        · exact hids (.inl he)
        · split at he
          · rw [mem_singleton.mp he]
            trivial
          · cases he
        · exact hids (.inr (.inl he))
        · exact hids (.inr (.inr (.inr he)))
      · refine Sound.skip (hold t ▸ h.trail t) (fun q hq => ?_) fun e he => ?_
        · split at hq
          · rename_i ht
            have hid : q = sh.id := by
              cases sh.high <;> cases sh.kind <;> simpa [delivers] using hq
            rw [hid, ← ht]
            exact hfree
          · cases hq
        · split at he
          · rename_i ht
            exact ht ▸ ⟨p, hack.1, mem_singleton.mp he, hack.2⟩
          · cases he

end Session

/-! ## The tracker moves on -/

variable {tracker : StagedState P Unit} {t : String}

/-- Fewer cycles wait. -/
theorem Spent.waitsLess (h : Spent s t w pos)
    (hmiss : ∀ q, Missing tracker.cycles t q w → Missing s.tracker.cycles t q w) :
    Spent { s with tracker } t w pos :=
  ⟨h.1, fun q hm => h.2 q (hmiss q hm)⟩

/-- Fewer owners waited for keep a session in step. -/
theorem InStep.waitsLess {ses : WorkerSession P} (h : InStep s w ses)
    (hepoch : tracker.epoch w = s.tracker.epoch w)
    (hmiss : ∀ t q, Missing tracker.cycles t q w → Missing s.tracker.cycles t q w) :
    InStep { s with tracker } w ses where
  epoch := hepoch.trans h.epoch
  committed t p hp := (h.committed t p hp).waitsLess (hmiss t)
  shares sh hsh := (h.shares sh hsh).imp_right fun hnot hm => hnot (hmiss _ _ hm)
  markers := h.markers
  tables := h.tables
  ids t e he := by
    have hold := h.ids t e he
    cases e with
    | deliver q => exact hold
    | ack pos => trivial
    | marker id => exact ⟨hold.1, fun t' hm => hold.2 t' (hmiss t' id hm)⟩
  trail t := (h.trail t).mono (fun q hm => ⟨hmiss t q hm, fun _ => id⟩) fun _ => id

/-- The tracker waits for less, and one worker's link changes. -/
theorem Kept.waitsLess {failed : Bool} (h : Kept s)
    (horderly : tracker.Orderly) (hplaced : tracker.cycles.AllPlaced)
    (hclean : failed = false → ∀ t, tracker.cycles.poisoned t = false)
    (hsent : tracker.sent = s.tracker.sent)
    (hepoch : ∀ w', w' ≠ w → tracker.epoch w' = s.tracker.epoch w')
    (hmiss : ∀ t q w', Missing tracker.cycles t q w' → Missing s.tracker.cycles t q w')
    (hopening : ∀ epoch committed, l = .opening epoch committed →
      tracker.epoch w = some epoch ∧ ∀ t p, committed t = some p → Spent s t w p)
    (hlive : ∀ ses, l = .live ses → InStep { s with tracker } w ses) :
    Kept { s with tracker, failed, link := setAt s.link w l } where
  orderly := horderly
  clean := hclean
  placed := hplaced
  sorted t := by
    unfold sentSeqs
    rw [hsent]
    exact h.sorted t
  seqs t o ho := h.seqs t o (hsent ▸ ho)
  openings t o ho := h.openings t o (hsent ▸ ho)
  marks := h.marks
  fifo := h.fifo
  bound := h.bound
  heads := h.heads
  held t q w' hm := h.held t q w' (hmiss t q w' hm)
  beyond t q w' hm := h.beyond t q w' (hmiss t q w' hm)
  acked w' t p hp := (h.acked w' t p hp).waitsLess fun q => hmiss t q w'
  durable t p hp w' := (h.durable t p hp w').waitsLess fun q => hmiss t q w'
  opening w' epoch committed hlink := by
    by_cases hw : w' = w
    · subst hw
      obtain ⟨hcur, hspent⟩ := hopening epoch committed ((setAt_self _ _ _).symm.trans hlink)
      exact ⟨hcur, fun t p hp => (hspent t p hp).waitsLess fun q => hmiss t q w'⟩
    · obtain ⟨hcur, hspent⟩ := h.opening w' epoch committed ((setAt_other _ _ hw).symm.trans hlink)
      exact ⟨(hepoch w' hw).trans hcur,
        fun t p hp => (hspent t p hp).waitsLess fun q => hmiss t q w'⟩
  live w' ses hlink := by
    by_cases hw : w' = w
    · subst hw
      exact { hlive ses ((setAt_self _ _ _).symm.trans hlink) with }
    · have hses := h.live w' ses ((setAt_other _ _ hw).symm.trans hlink)
      exact { hses.waitsLess (hepoch w' hw) fun t q => hmiss t q w' with }

/-- Only one worker's link changes. -/
theorem Kept.relink (h : Kept s) (hopening : ∀ epoch committed, l = .opening epoch committed →
      s.tracker.epoch w = some epoch ∧ ∀ t p, committed t = some p → Spent s t w p)
    (hlive : ∀ ses, l = .live ses → InStep s w ses) :
    Kept { s with link := setAt s.link w l } :=
  h.waitsLess h.orderly h.placed h.clean rfl (fun _ _ => rfl) (fun _ _ _ hm => hm) hopening hlive

/-- A step of a session that stays in step. -/
theorem Kept.ofSession {f : WorkerSession P → Option (WorkerSession P)} (h : Kept s)
    (hf : ∀ ses ses', s.link w = .live ses → f ses = some ses' → InStep s w ses')
    (hs : s.ofSession w f = some s') : Kept s' := by
  unfold CustodyState.ofSession at hs
  split at hs
  · rename_i ses hlink
    obtain ⟨ses', hses', rfl⟩ := map_eq_some_iff.mp hs
    refine h.relink nofun fun ses'' hlive => ?_
    cases hlive
    exact hf ses ses' hlink hses'
  · cases hs

/-! ## Commits -/

/-- Every owner's index is truncated at a position that is spent. -/
theorem Kept.releaseCommittedCycles (h : Kept s) (hpos : ∀ w, Spent s t w pos)
    (owners : List String) :
    Kept (s.releaseCommittedCycles owners t pos) ∧
      ∀ t' w' p, Spent s t' w' p → Spent (s.releaseCommittedCycles owners t pos) t' w' p := by
  have hdurable : Kept { s with durable := setAt s.durable t (some pos) } := by
    refine { h with durable := fun t' p hp w' => ?_, live := fun w' ses hlink => ?_ }
    · change setAt s.durable t (some pos) t' = some p at hp
      by_cases ht : t' = t
      · rw [ht, setAt_self] at hp
        rw [ht, ← some.inj hp]
        exact hpos w'
      · rw [setAt_other _ _ ht] at hp
        exact h.durable t' p hp w'
    · exact { h.live w' ses hlink with }
  have hfold : ∀ (owners : List String) (s₀ : CustodyState P), Kept s₀ → (∀ w, Spent s₀ t w pos) →
      Kept (owners.foldl (fun s w => s.dropSent w ((s.index w).truncate t pos)) s₀) ∧
        ∀ t' w' p, Spent s₀ t' w' p →
          Spent (owners.foldl (fun s w => s.dropSent w ((s.index w).truncate t pos)) s₀) t' w'
            p := by
    intro owners
    induction owners with
    | nil => exact fun s₀ h₀ _ => ⟨h₀, fun _ _ _ hs => hs⟩
    | cons w rest ih =>
      intro s₀ h₀ hpos₀
      obtain ⟨hkept, hspent⟩ := ih (s₀.dropSent w ((s₀.index w).truncate t pos))
        (h₀.dropSent (h₀.truncate (hpos₀ w))) fun w' => (hpos₀ w').dropSent _
      exact ⟨hkept, fun t' w' p hs => hspent t' w' p (hs.dropSent _)⟩
  exact hfold owners _ hdurable hpos

/-- The commits of a run, each at a position that is spent. -/
theorem Kept.committed (su : Partitions P) (outs : List (Cycle P Unit × Cycles.Outcome P))
    (h : Kept s)
    (hpos : ∀ out ∈ outs, ∀ pos, out.2 = .committed (some pos) → ∀ w, Spent s t w pos) :
    Kept (outs.foldl (committed su t) s) := by
  induction outs generalizing s with
  | nil => exact h
  | cons out rest ih =>
    have hrest := fun out' hout' => hpos out' (mem_cons_of_mem _ hout')
    obtain ⟨cy, outcome⟩ := out
    cases outcome with
    | committed pos =>
      cases pos with
      | none => exact ih h hrest
      | some pos =>
        obtain ⟨hkept, hspent⟩ :=
          h.releaseCommittedCycles (hpos _ mem_cons_self pos rfl) (su.owners t)
        exact ih hkept fun out' hout' p hp w => hspent t w p (hrest out' hout' p hp w)
    | dropped | failed | abandoned => exact ih h hrest

/-! ## Messages -/

section Messages

/-- The session's first message is dealt with. -/
theorem InStep.pop {tracker : StagedState P Unit} (h : InStep s w ses)
    (hwire : ses.wire = m :: rest) (hepoch : tracker.epoch w = s.tracker.epoch w)
    (hmiss : ∀ t q, Missing tracker.cycles t q w → Missing s.tracker.cycles t q w)
    (hcount : ∀ t q, eventsOfMessage t m = [.deliver q] → ¬ Missing tracker.cycles t q w) :
    InStep { s with tracker } w { ses with wire := rest } := by
  have hless := h.waitsLess hepoch hmiss
  refine { hless with ids := fun t e he => hless.ids t e ?_, trail := fun t => ?_ }
  · rw [trail_wire hwire]
    exact mem_append_right _ he
  have hold := h.trail t
  rw [trail_wire hwire] at hold
  have hmono : ∀ q, Missing tracker.cycles t q w → Missing s.tracker.cycles t q w ∧
      ∀ pos, Safe s w t q pos → Safe s w t q pos := fun q hm => ⟨hmiss t q hm, fun _ => id⟩
  rcases eventsOfMessage_cases t m with hnil | ⟨e, he⟩
  · rw [hnil] at hold
    exact hold.mono hmono fun _ => id
  · rw [he] at hold
    exact hold.pop hmono fun q hq => hcount t q (hq ▸ he)

variable {t : String}

/-- The ack in front passes no cycle that waits. -/
theorem InStep.ack_spent {pos : P} (h : InStep s w ses) (hwire : ses.wire = .ack t pos :: rest) :
    Spent s t w pos := by
  have hold := h.trail t
  rw [trail_wire hwire, eventsOfMessage, if_pos rfl] at hold
  refine ⟨hold.1.1.1, fun q hm => ?_⟩
  rcases hold.1.1.2 q hm with hq | hsafe
  · cases hq
  · exact hsafe

/-- The marker acked in front is waited for by no cycle. -/
theorem InStep.marker_free {id : Nat} (h : InStep s w ses)
    (hwire : ses.wire = .markerAck t id :: rest) (t' : String) :
    ¬ Missing s.tracker.cycles t' id w := by
  intro hm
  have hold := h.trail t
  have hids := h.ids t
  rw [trail_wire hwire, eventsOfMessage, if_pos rfl] at hold hids
  have ht : t' = t := (hids (.marker id) mem_cons_self).2 t' hm
  exact nomatch hold.1.1 (ht ▸ hm)

theorem InStep.staged_pos {seq : Nat} {lost : Bool} {pos : Option P} (h : InStep s w ses)
    (hwire : ses.wire = .staged t seq lost pos :: rest) : 0 < seq := by
  have hids := h.ids t
  rw [trail_wire hwire, eventsOfMessage, if_pos rfl] at hids
  exact (hids (.deliver seq) mem_cons_self).1

variable [Meeter P]

/-- Only a commit that fails poisons a table. -/
theorem onDelivery_poisoned {c : Cycles P Unit} {epoch : Option Nat} {d : StagedDelivery P Unit}
    {answers : Nat → Cycles.HostAnswer}
    (h : Cycles.hasFailed (c.onDelivery epoch w d answers).1 = false) :
    (c.onDelivery epoch w d answers).2.poisoned = c.poisoned := by
  have hlost : ∀ c : Cycles P Unit, (c.markLost d.table w d.seq).poisoned = c.poisoned := by
    intro c
    unfold Cycles.markLost
    cases c.openCycles d.table d.seq with
    | none => rfl
    | some cy =>
      simp only
      split
      · rfl
      · rfl
  have hdeliver : ∀ c : Cycles P Unit, (c.deliver w d).2.poisoned = c.poisoned := by
    intro c
    unfold Cycles.deliver
    cases c.openCycles d.table d.seq with
    | none => rfl
    | some cy =>
      simp only
      split
      · rfl
      · split
        · rfl
        · rfl
  unfold Cycles.onDelivery at h ⊢
  split
  · rfl
  split
  · rfl
  rename_i hcur hclean
  rw [if_neg hcur, if_neg hclean] at h
  simp only at h ⊢
  rw [h, if_neg Bool.false_ne_true, hdeliver]
  split
  · exact hlost c
  · rfl

variable {su : Partitions P}

section Answers

variable (answers : Nat → Cycles.HostAnswer)

include answers

/-- A delivery of the current generation: what it completes is committed at
positions that are spent. -/
theorem Kept.onStagedBatch {seq : Nat} {lost : Bool} {pos : Option P}
    (h : Kept s) (hfail : s.failed = false)
    (hlink : s.link w = .live ses) (hwire : ses.wire = .staged t seq lost pos :: rest) :
    Kept ({ s with link := setAt s.link w (.live { ses with wire := rest }) }.onStagedBatch su w
      ⟨t, seq, ses.epoch, (), pos, none, none, lost⟩ answers) := by
  have hses := h.live w ses hlink
  have hname : w ≠ "" := by
    intro hempty
    have hepoch := hses.epoch
    rw [hempty, h.orderly.named] at hepoch
    cases hepoch
  let d : StagedDelivery P Unit := ⟨t, seq, ses.epoch, (), pos, none, none, lost⟩
  have hmiss : ∀ t' q w', Missing (s.tracker.onDelivery w d answers).cycles t' q w' →
      Missing s.tracker.cycles t' q w' := fun t' q w' hm => (missing_onDelivery hname hm).1
  -- Every open cycle is a window's or has a batch.
  have hbatch : ∀ cy, s.tracker.cycles.openCycles d.table d.seq = some cy → cy.batchPos = none →
      cy.window = false → d.position = none := by
    intro cy hcy hnone hwindow
    have hsome : cy.batchPos.isSome :=
      (h.openings t _ (h.orderly.opened t seq cy hcy).2.asked).1 hwindow
    rw [hnone] at hsome
    cases hsome
  have hseq : d.seq ≠ 0 := Nat.ne_of_gt (hses.staged_pos hwire)
  let outs := (s.tracker.cycles.onDelivery (s.tracker.epoch w) w d answers).1
  have hplaced : (s.tracker.onDelivery w d answers).cycles.AllPlaced ∧ ∀ out ∈ outs,
      out.1.seq ≠ 0 ∧ ∀ pos, out.2 = .committed pos → pos = out.1.ownPos :=
    h.placed.onDelivery answers hseq hbatch
  have horderly := h.orderly.onDelivery w d answers
  have hkept : Kept { s with
      tracker := s.tracker.onDelivery w d answers
      failed := Cycles.hasFailed outs
      link := setAt s.link w (.live { ses with wire := rest }) } := by
    refine h.waitsLess horderly hplaced.1 (fun hno t' => ?_) rfl (fun _ _ => rfl) hmiss
      nofun fun ses' hlive => ?_
    · exact (congrFun (onDelivery_poisoned hno) t').trans (h.clean hfail t')
    cases hlive
    refine hses.pop hwire rfl (fun t' q => hmiss t' q w) fun t' q he hm => ?_
    obtain ⟨_, _, hmsg⟩ := staged_of_deliver he
    cases hmsg
    exact (missing_onDelivery hname hm).2 hses.epoch (h.clean hfail t) ⟨rfl, rfl, rfl⟩
  refine hkept.committed su outs fun out hout p hp w' => ?_
  obtain ⟨hnz, hown⟩ := hplaced.2 out hout
  have hleft : out ∈ (s.tracker.onDelivery w d answers).left t := by
    change out ∈ if t = t then s.tracker.left t ++ outs else s.tracker.left t
    rw [if_pos rfl]
    exact mem_append_right _ hout
  have hpos : out.1.batchPos = some p := by
    have howned := hown (some p) hp
    unfold Cycle.ownPos at howned
    split at howned
    · cases howned
    · exact howned.symm
  have hmark : (out.1.seq, p) ∈ s.marks t :=
    (h.openings t _ (horderly.left t out hleft hnz).1.asked).2 p hpos
  refine ⟨mem_map.mpr ⟨_, hmark, rfl⟩, fun q hm => h.beyond t q w' (hmiss t q w' hm) _ hmark ?_⟩
  -- What still waits was sent after what has left.
  obtain ⟨cy, hcy, -⟩ := hm
  have horder : q ∈ (s.tracker.onDelivery w d answers).cycles.order t :=
    (horderly.order t q).mpr (.inl (by rw [hcy]; rfl))
  have hgone : out.1.seq ∈ leftSeqs ((s.tracker.onDelivery w d answers).left t) :=
    mem_filter.mpr ⟨mem_map_of_mem hleft, decide_eq_true hnz⟩
  have hsorted := hkept.sorted t
  rw [← horderly.sent t] at hsorted
  exact (pairwise_append.mp hsorted).2.2 _ hgone _ horder

variable {epoch : Nat}

/-- An ack releases no share that is waited for. -/
theorem Kept.ack {pos : P} (h : Kept s)
    (hepoch : s.tracker.epoch w = some epoch) (hpos : Spent s t w pos) :
    Kept (s.process su w epoch answers (.ack t pos)) := by
  unfold process
  simp only [if_pos hepoch]
  exact h.dropSent (h.truncate hpos)

/-- A marker's ack releases the marker alone. -/
theorem Kept.markerAck {id : Nat} (h : Kept s)
    (hepoch : s.tracker.epoch w = some epoch) (hid : ∀ t, ¬ Missing s.tracker.cycles t id w) :
    Kept (s.process su w epoch answers (.markerAck t id)) := by
  unfold process
  simp only [if_pos hepoch]
  exact h.dropSent (h.releaseMarker hid)

/-- A message of a superseded session says nothing. -/
theorem process_stale (hfail : s.failed = false) (h : s.tracker.epoch w ≠ some epoch) :
    s.process su w epoch answers m = s := by
  cases m with
  | ack t pos => exact if_neg h
  | markerAck t id => exact if_neg h
  | staged t seq lost pos =>
    have hnone : s.tracker.cycles.onDelivery (s.tracker.epoch w) w
        ⟨t, seq, epoch, (), pos, none, none, lost⟩ answers = ([], s.tracker.cycles) := if_pos h
    have hleft : (fun t' => if t' = t then s.tracker.left t' ++ [] else s.tracker.left t') =
        s.tracker.left := by
      funext t'
      rw [append_nil, ite_self]
    unfold process CustodyState.onStagedBatch onDelivery
    simp only [hnone, if_neg h, hleft]
    change { s with failed := false } = s
    rw [← hfail]

/-- One message of a live session. -/
theorem Kept.onMessage (h : Kept s) (hfail : s.failed = false)
    (hlink : s.link w = .live ses) (hwire : ses.wire = m :: rest) :
    Kept ({ s with link := setAt s.link w (.live { ses with wire := rest }) }.process su w
      ses.epoch answers m) := by
  have hses := h.live w ses hlink
  -- A message that delivers nothing changes nothing of what is waited for.
  have hpopped : (∀ t q lost pos, m ≠ .staged t q lost pos) →
      Kept { s with link := setAt s.link w (.live { ses with wire := rest }) } := by
    intro hquiet
    refine h.relink nofun fun ses' hlive => ?_
    cases hlive
    refine hses.pop hwire rfl (fun _ _ hm => hm) fun t q he => ?_
    obtain ⟨lost, pos, hmsg⟩ := staged_of_deliver he
    exact absurd hmsg (hquiet t q lost pos)
  cases m with
  | staged t seq lost pos => exact h.onStagedBatch answers hfail hlink hwire
  | ack t pos =>
    have hkept := hpopped nofun
    have hspent := hses.ack_spent hwire
    exact hkept.ack answers hses.epoch hspent
  | markerAck t id =>
    have hkept := hpopped nofun
    have hfree := hses.marker_free hwire
    exact hkept.markerAck answers hses.epoch hfree

end Answers

end Messages

/-! ## Sessions come and go -/

/-- A session opens with all that its worker is owed still ahead of it. -/
theorem Kept.opened {epoch : Nat} {committed : String → Option P} (h : Kept s)
    (hepoch : s.tracker.epoch w = some epoch)
    (hcommitted : ∀ t p, committed t = some p → Spent s t w p) :
    InStep s w (.opened epoch committed (s.sent w)) := by
  have hheld : ∀ t q, Missing s.tracker.cycles t q w →
      ∃ sh ∈ s.sent w ++ s.queue w, sh.id = q ∧ sh.table = t := by
    intro t q hm
    obtain ⟨sh, hsh, hid, htable, -⟩ := h.held t q w hm
    exact ⟨sh, hsh, hid, htable⟩
  refine ⟨hepoch, hcommitted, fun sh hsh => .inl hsh, fun _ _ => rfl, nofun,
    fun t e he => ?_, fun t => ?_⟩
  · obtain ⟨sh, hsh, ht, he⟩ := mem_eventsOfShares he
    have hbound := h.bound w sh hsh
    rcases mem_eventsOfShare he with rfl | ⟨p, rfl⟩ | rfl
    · exact ⟨hbound.1, hbound.2.1⟩
    · trivial
    · refine ⟨hbound.2.1, fun t' hm => ?_⟩
      obtain ⟨sh', hsh', hid, htable⟩ := hheld t' sh.id hm
      rw [← htable, h.share_unique hsh' hsh hid, ht]
  · refine ⟨holds_shares (h.fifo w) (fun sh hsh ht p hp => ?_) (fun q hm => h.beyond t q w hm)
      fun q hm => .inl (hheld t q hm), fun q hm => ?_⟩
    · rw [← ht]
      exact (h.bound w sh hsh).2.2 p hp
    obtain ⟨sh, hsh, hid, htable⟩ := hheld t q hm
    refine mem_flatMap.mpr ⟨.deliver q, mem_flatMap.mpr ⟨sh, ?_, ?_⟩, mem_cons_self⟩
    · exact mem_filter.mpr ⟨hsh, decide_eq_true htable⟩
    · rw [← hid]
      exact mem_cons_self

/-- The queue's first share is streamed. -/
theorem Kept.stream {sh : Share P} {rest : List (Share P)} (h : Kept s)
    (hqueue : s.queue w = sh :: rest) (hs : s' = { s with
      queue := setAt s.queue w rest
      sent := setAt s.sent w (s.sent w ++ [sh])
      link := setAt s.link w (WorkerLink.streamed (s.link w) sh) }) : Kept s' := by
  subst hs
  let s' : CustodyState P := { s with
    queue := setAt s.queue w rest
    sent := setAt s.sent w (s.sent w ++ [sh])
    link := setAt s.link w (WorkerLink.streamed (s.link w) sh) }
  -- What a worker is owed is the same, and no less of it is sent.
  have hsame : ∀ w', s'.sent w' ++ s'.queue w' = s.sent w' ++ s.queue w' := by
    intro w'
    change setAt s.sent w _ w' ++ setAt s.queue w _ w' = _
    by_cases hw : w' = w
    · rw [hw, setAt_self, setAt_self, hqueue, append_assoc]
      rfl
    · rw [setAt_other _ _ hw, setAt_other _ _ hw]
  have hsent : ∀ w', s'.sent w' = s.sent w' ++ if w = w' then [sh] else [] := setAt_append _ _ _
  have hsafe : ∀ w' t q p, Safe s w' t q p → Safe s' w' t q p := fun w' t q p hsafe sh' hsh' =>
    hsafe sh' (hsame w' ▸ hsh')
  have hspent : ∀ t w' p, Spent s t w' p → Spent s' t w' p := fun t w' p hspent =>
    ⟨hspent.1, fun q hm => hsafe w' t q p (hspent.2 q hm)⟩
  -- What a session has ahead of it is the same.
  have hstep : ∀ (w' : String) (ses : WorkerSession P) (inbox : List (Share P)),
      InStep s w' ses → inbox ++ s'.queue w' = ses.inbox ++ s.queue w' →
      (∀ sh' ∈ inbox, sh' ∈ ses.inbox ∨ sh' ∈ s'.sent w') → InStep s' w' { ses with inbox } := by
    intro w' ses inbox hses hahead hinbox
    have htrail : ∀ t, trail { ses with inbox } (s'.queue w') t = trail ses (s.queue w') t := by
      intro t
      unfold trail
      rw [← hahead]
      rfl
    refine ⟨hses.epoch, fun t p hp => hspent t w' p (hses.committed t p hp), fun sh' hsh' => ?_,
      hses.markers, hses.tables, fun t e he => hses.ids t e (htrail t ▸ he), fun t => ?_⟩
    · rcases hinbox sh' hsh' with hsh' | hsh'
      · refine (hses.shares sh' hsh').imp_left fun hin => ?_
        rw [hsent]
        exact mem_append_left _ hin
      · exact .inl hsh'
    · rw [htrail]
      exact (hses.trail t).mono (fun q hm => ⟨hm, fun p => hsafe w' t q p⟩) fun _ => id
  have hother : ∀ w', w' ≠ w → s'.link w' = s.link w' ∧ s'.queue w' = s.queue w' := fun w' hw =>
    ⟨setAt_other _ _ hw, setAt_other _ _ hw⟩
  have hself : s'.link w = WorkerLink.streamed (s.link w) sh ∧ s'.queue w = rest :=
    ⟨setAt_self _ _ _, setAt_self _ _ _⟩
  have hopening : ∀ w' epoch committed, s'.link w' = .opening epoch committed →
      s.link w' = .opening epoch committed := by
    intro w' epoch committed hopen
    by_cases hw : w' = w
    · rw [hw, hself.1] at hopen
      unfold WorkerLink.streamed at hopen
      split at hopen
      · cases hopen
      · exact hw ▸ hopen
    · exact (hother w' hw).1 ▸ hopen
  have hlive : ∀ w' ses, s'.link w' = .live ses → InStep s' w' ses := by
    intro w' ses hcur
    by_cases hw : w' = w
    · subst hw
      rw [hself.1] at hcur
      unfold WorkerLink.streamed at hcur
      split at hcur
      · rename_i ses₀ hses₀
        rw [← WorkerLink.live.inj hcur]
        refine hstep w' ses₀ _ (h.live w' ses₀ hses₀) ?_ fun sh' hsh' => ?_
        · rw [hself.2, hqueue, append_assoc]
          rfl
        · rw [hsent, if_pos rfl]
          exact (mem_append.mp hsh').imp_right fun hsh' => mem_append_right _ hsh'
      · rename_i hnot
        exact absurd hcur (hnot ses)
    · exact hstep w' ses ses.inbox (h.live w' ses ((hother w' hw).1 ▸ hcur))
        (by rw [(hother w' hw).2]) fun sh' hsh' => .inl hsh'
  exact { h with
    fifo := fun w' => hsame w' ▸ h.fifo w'
    bound := fun w' sh' hsh' => h.bound w' sh' (hsame w' ▸ hsh')
    held := fun t q w' hm => by
      obtain ⟨sh', hsh', hrest⟩ := h.held t q w' hm
      exact ⟨sh', hsame w' ▸ hsh', hrest⟩
    beyond := fun t q w' hm m hmark hlt => hsafe w' t q m.2 (h.beyond t q w' hm m hmark hlt)
    acked := fun w' t p hp => hspent t w' p (h.acked w' t p hp)
    durable := fun t p hp w' => hspent t w' p (h.durable t p hp w')
    opening := fun w' epoch committed hcur => by
      obtain ⟨hepoch, hcommitted⟩ := h.opening w' epoch committed (hopening w' _ _ hcur)
      exact ⟨hepoch, fun t p hp => hspent t w' p (hcommitted t p hp)⟩
    live := hlive }

/-- A worker that registers keeps the generation it has. -/
theorem Kept.register [Meeter P] (h : Kept s)
    (htracker : s.tracker.step (.register w) = some tracker) : Kept { s with tracker } := by
  have horderly : tracker.Orderly := h.orderly.step (a := .register w) trivial htracker
  simp only [StagedState.step] at htracker
  split at htracker
  · cases htracker
  obtain rfl := some.inj htracker
  have hcur : ∀ e, s.tracker.epoch w = some e →
      (if w = w then some ((s.tracker.epoch w).getD 0) else s.tracker.epoch w) =
        s.tracker.epoch w := by
    intro e he
    rw [if_pos rfl, he]
    rfl
  have hlink : setAt s.link w (s.link w) = s.link := by
    funext w'
    by_cases hw : w' = w
    · rw [hw, setAt_self]
    · rw [setAt_other _ _ hw]
  rw [← hlink]
  refine h.waitsLess horderly h.placed h.clean rfl (fun w' hw => if_neg hw)
    (fun _ _ _ hm => hm) (fun epoch committed hopen => ?_) fun ses hlive => ?_
  · obtain ⟨hepoch, hspent⟩ := h.opening w epoch committed hopen
    exact ⟨(hcur epoch hepoch).trans hepoch, hspent⟩
  · have hses := h.live w ses hlive
    exact hses.waitsLess (hcur _ hses.epoch) fun _ _ hm => hm

end CustodyState

end Urutau
