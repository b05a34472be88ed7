import Urutau.WindowGenerations

/-!
# A window is stored before it is closed

The executor announces a page before it stores the rows, so the coordinator's
answer races the store.  A marker that arrives first finds no window: it is
acked as if the window were empty, and the page, stored afterwards, stays open
for good.

The account kept here has every window of a session in exactly one place: its
page is in the executor's hands, or the window is open, or its marker has been
handled.  It holds as long as the generations are apart and no marker is
received while its page is still in the executor's hands (`StoredFirst`).
-/

namespace Urutau

open List Runs

namespace RangeState

variable {K : Type} [LinearOrder K] {su : RangeSetup K} {s s' : RangeState K}

/-- The windows of the current session, by their markers. -/
def ownWindows (s : RangeState K) : List Nat :=
  s.session.handled ++ ownSeqs s.session.number s.unhandled

/-- The generations are apart, and the worker does not receive a marker of its
own session while the marker's page is still in the executor's hands. -/
def StoredFirst (s : RangeState K) : RangeAction K → Prop
  | .receive => ∀ wo ∈ opensOf (s.session.stream.take 1),
      wo.session = s.session.number → storingOf s.session.exec ≠ some wo.seq
  | a => FreshIds s a

instance (s : RangeState K) (a : RangeAction K) : Decidable (StoredFirst s a) :=
  if h : a matches .receive then
    decidable_of_iff (∀ wo ∈ opensOf (s.session.stream.take 1),
      wo.session = s.session.number → storingOf s.session.exec ≠ some wo.seq)
      (by cases a <;> simp_all [StoredFirst])
  else decidable_of_iff (FreshIds s a) (by cases a <;> simp_all [StoredFirst])

omit [LinearOrder K] in
theorem StoredFirst.freshIds {a : RangeAction K} (h : StoredFirst s a) : FreshIds s a := by
  cases a with
  | receive => trivial
  | _ => exact h

/-- Every window of the session is accounted for: it is being stored, or open,
or its marker was handled; and it is one of these only. -/
structure Accounted (s : RangeState K) : Prop where
  nodup : s.ownWindows.Nodup
  bounded : ∀ q ∈ s.ownWindows, q ≤ s.session.windowSeq
  origins : ∀ wo ∈ s.unhandled ++ opensOf s.sent, wo.session ≤ s.session.number
  stored : ∀ q ∈ ownSeqs s.session.number s.unhandled,
    storingOf s.session.exec = some q ∨ (s.session.windows q).isSome
  storing : ∀ q ∈ storingOf s.session.exec,
    q ≤ s.session.windowSeq ∧ ¬ (s.session.windows q).isSome ∧ q ∉ s.session.handled
  received : ∀ q ∈ ownSeqs s.session.number (opensOf s.session.ingest),
    storingOf s.session.exec ≠ some q
  fresh : ∀ q, (s.session.windows q).isSome → q ≤ s.session.windowSeq ∧ q ∉ s.session.handled
  missed : s.missed = []

theorem accounted_boot (su : RangeSetup K) (number now : Nat) (sink : RangeSink K) :
    Accounted (boot su number now sink) where
  nodup := nodup_nil
  bounded := nofun
  origins := nofun
  stored := nofun
  storing := nofun
  received := nofun
  fresh := nofun
  missed := rfl

section Steps

variable (h : Accounted s)

include h

omit [LinearOrder K] in
/-- Steps that at most drop announcements keep the account, if no marker of a
page in the executor's hands is received. -/
theorem Accounted.of_sublist (hun : s'.unhandled.Sublist s.unhandled)
    (hsent : ∀ wo ∈ opensOf s'.sent, wo ∈ opensOf s.sent ∨ wo ∈ s.unhandled)
    (hnumber : s'.session.number = s.session.number)
    (hwindows : ∀ q, (s'.session.windows q).isSome = (s.session.windows q).isSome)
    (hstoring : storingOf s'.session.exec = storingOf s.session.exec)
    (hhandled : s'.session.handled = s.session.handled)
    (hseq : s'.session.windowSeq = s.session.windowSeq) (hmissed : s'.missed = s.missed)
    (hreceived : ∀ q ∈ ownSeqs s.session.number (opensOf s'.session.ingest),
      storingOf s.session.exec ≠ some q) : Accounted s' := by
  have hseqs : (ownSeqs s.session.number s'.unhandled).Sublist
      (ownSeqs s.session.number s.unhandled) := (hun.filter _).map _
  have hown : s'.ownWindows.Sublist s.ownWindows := by
    rw [ownWindows, ownWindows, hhandled, hnumber]
    exact List.Sublist.append (.refl _) hseqs
  refine
    { nodup := h.nodup.sublist hown, bounded := ?_, origins := ?_, stored := ?_, storing := ?_
      received := ?_, fresh := ?_, missed := hmissed.trans h.missed }
  · rw [hseq]
    exact fun q hq => h.bounded q (hown.subset hq)
  · rw [hnumber]
    intro wo hwo
    refine h.origins wo ?_
    rcases mem_append.mp hwo with hwo | hwo
    · exact mem_append_left _ (hun.subset hwo)
    · exact mem_append.mpr (hsent wo hwo).symm
  · rw [hnumber, hstoring]
    intro q hq
    rw [hwindows]
    exact h.stored q (hseqs.subset hq)
  · rw [hstoring, hseq, hhandled]
    intro q hq
    rw [hwindows]
    exact h.storing q hq
  · rw [hnumber, hstoring]
    exact hreceived
  · rw [hseq, hhandled]
    intro q hq
    rw [hwindows] at hq
    exact h.fresh q hq

omit [LinearOrder K] in
theorem Accounted.aside (ha : Aside s s') : Accounted s' := h.of_sublist ha.unhandled
    (fun wo hwo => (ha.sent wo hwo).imp_right mem_unhandled_of_outstanding)
    ha.number ha.windows ha.storing ha.handled ha.windowSeq ha.missed
    (by rw [ha.ingest]; exact h.received)

theorem Accounted.receive (hok : StoredFirst s .receive) (hs : s.step su .receive = some s') :
    Accounted s' := by
  cases moves_of_step hs
  rename_i d rest hq
  refine h.of_sublist ?_ (fun _ hwo => .inl hwo) rfl (fun _ => rfl) rfl rfl rfl rfl ?_
  · rw [unhandled, unhandled, outstanding, outstanding, hq, append_cons s.session.ingest d rest]
  intro q hmem
  rw [opensOf_append, ownSeqs_append] at hmem
  rcases mem_append.mp hmem with hmem | hmem
  · exact h.received q hmem
  · obtain ⟨wo, hwo, hself, hseq⟩ := mem_ownSeqs.mp hmem
    rw [← hseq]
    exact hok wo (by rw [hq]; exact hwo) hself

variable {wo : WindowOpen K}

section MarkerHandled

variable {id : Nat} {pending : List Nat} {wo : WindowOpen K} {rest : List (Delivery K)}

omit h in
/-- The handled marker is counted among the handled instead of on the wire. -/
theorem ownWindows_handleCloses (hq : s.session.ingest = .closes id pending wo :: rest) :
    (handleCloses (s.taken rest) id pending wo).ownWindows = s.ownWindows := by
  rw [ownWindows, ownWindows, handleCloses_handled, unhandled_handleCloses,
    (handleCloses_kept _ id pending wo).number, unhandled_taken hq]
  by_cases howns : wo.session = s.session.number
  · rw [if_pos (show wo.session = (s.taken rest).session.number from howns),
      ownSeqs_cons_own howns, append_assoc]
    rfl
  · rw [if_neg (show wo.session ≠ (s.taken rest).session.number from howns),
      ownSeqs_cons_other howns]
    rfl

/-- The marker of an open window of the session is handled: the window was
stored, and it leaves the table as its marker leaves the wire. -/
theorem Accounted.handleCloses (hiso : Isolated s)
    (hq : s.session.ingest = .closes id pending wo :: rest) :
    Accounted (RangeState.handleCloses (s.taken rest) id pending wo) := by
  have hk := handleCloses_kept (s.taken rest) id pending wo
  have hown := ownWindows_handleCloses hq
  have hun := unhandled_taken hq
  have hsub : ∀ q ∈ ownSeqs s.session.number (s.taken rest).unhandled,
      q ∈ ownSeqs s.session.number s.unhandled := by
    intro q hmem
    obtain ⟨m, hm, howned⟩ := mem_ownSeqs.mp hmem
    exact mem_ownSeqs.mpr ⟨m, hun ▸ mem_cons_of_mem _ hm, howned⟩
  -- the executor is not at the window whose marker is here
  have hdone : wo.session = s.session.number → storingOf s.session.exec ≠ some wo.seq :=
    fun hself => h.received _ (mem_ownSeqs.mpr ⟨wo, by rw [hq]; exact mem_cons_self,
      hself, rfl⟩)
  refine
    { nodup := hown ▸ h.nodup, bounded := ?_, origins := ?_, stored := ?_, storing := ?_
      received := ?_, fresh := ?_, missed := ?_ }
  · rw [hown, hk.windowSeq]
    exact h.bounded
  · rw [unhandled_handleCloses, hk.sent, hk.number]
    intro m hm
    refine h.origins m ?_
    rw [hun]
    exact mem_cons_of_mem _ hm
  · rw [unhandled_handleCloses, hk.exec, hk.number]
    intro q hmem
    refine (h.stored q (hsub q hmem)).imp_right fun hsome => ?_
    rw [handleCloses_windows, if_neg]
    · exact hsome
    -- a second marker of the same number would be the session's own as well
    intro hseq
    have hself : wo.session = s.session.number :=
      hiso.own wo (by rw [outstanding, hq]; exact mem_cons_self) (hseq ▸ hsome)
    have hnodup := (nodup_append.mp h.nodup).2.1
    rw [hun, ownSeqs_cons_own hself] at hnodup
    exact (nodup_cons.mp hnodup).1 (hseq ▸ hmem)
  · rw [hk.exec, hk.windowSeq, handleCloses_handled]
    intro q hmem
    obtain ⟨hle, hnone, hnot⟩ := h.storing q hmem
    refine ⟨hle, ?_, ?_⟩
    · rw [handleCloses_windows]
      split
      · exact Bool.false_ne_true
      · exact hnone
    · split
      · rename_i hself
        intro hin
        rcases mem_append.mp hin with hin | hin
        · exact hnot hin
        · rw [mem_singleton.mp hin] at hmem
          exact hdone hself hmem
      · exact hnot
  · rw [hk.ingest, hk.exec, hk.number]
    intro q hmem
    obtain ⟨m, hm, howned⟩ := mem_ownSeqs.mp hmem
    refine h.received q (mem_ownSeqs.mpr ⟨m, ?_, howned⟩)
    rw [hq]
    exact mem_cons_of_mem _ hm
  · intro q hsome
    rw [handleCloses_windows] at hsome
    rw [hk.windowSeq, handleCloses_handled]
    split at hsome
    · cases hsome
    rename_i hne
    obtain ⟨hle, hnot⟩ := h.fresh q hsome
    refine ⟨hle, ?_⟩
    split
    · intro hin
      rcases mem_append.mp hin with hin | hin
      · exact hnot hin
      · exact hne (mem_singleton.mp hin)
    · exact hnot
  · rw [handleCloses_missed, if_neg]
    · exact h.missed
    intro hmiss
    have hself : wo.session = s.session.number := hmiss.2
    have hmem : wo.seq ∈ ownSeqs s.session.number s.unhandled :=
      mem_ownSeqs.mpr ⟨wo, by rw [hun]; exact mem_cons_self, hself, rfl⟩
    rcases h.stored _ hmem with hst | hsome
    · exact hdone hself hst
    · have hnone : s.session.windows wo.seq = none := hmiss.1
      rw [hnone] at hsome
      cases hsome

end MarkerHandled

omit [LinearOrder K] in
/-- The next page takes a number that no window of the session has had. -/
theorem Accounted.announce
    (hidle : storingOf s.session.exec = none) (hself : wo.session = s.session.number)
    (hseq : wo.seq = s.session.windowSeq + 1) (hun : s'.unhandled = s.unhandled ++ [wo])
    (hsent : s'.sent = s.sent) (hnumber : s'.session.number = s.session.number)
    (hwindows : s'.session.windows = s.session.windows)
    (hstoring : storingOf s'.session.exec = some wo.seq)
    (hhandled : s'.session.handled = s.session.handled)
    (hcount : s'.session.windowSeq = s.session.windowSeq + 1) (hmissed : s'.missed = s.missed)
    (hingest : s'.session.ingest = s.session.ingest) : Accounted s' := by
  have hseqs : ownSeqs s.session.number s'.unhandled =
      ownSeqs s.session.number s.unhandled ++ [wo.seq] := by
    rw [hun, ownSeqs_append, ownSeqs_cons_own hself]
    rfl
  have hown : s'.ownWindows = s.ownWindows ++ [wo.seq] := by
    rw [ownWindows, ownWindows, hhandled, hnumber, hseqs, append_assoc]
  have hfresh : wo.seq ∉ s.ownWindows := fun hmem => by
    have := h.bounded _ hmem
    omega
  refine
    { nodup := ?_, bounded := ?_, origins := ?_, stored := ?_, storing := ?_, received := ?_
      fresh := ?_, missed := hmissed.trans h.missed }
  · rw [hown]
    exact concat_eq_append ▸ h.nodup.concat hfresh
  · rw [hown, hcount]
    intro q hq
    rcases mem_append.mp hq with hq | hq
    · exact (h.bounded q hq).trans (Nat.le_succ _)
    · exact ((mem_singleton.mp hq).trans hseq).le
  · rw [hun, hsent, hnumber]
    intro m hm
    rcases mem_append.mp hm with hm | hm
    · rcases mem_append.mp hm with hm | hm
      · exact h.origins m (mem_append_left _ hm)
      · rw [mem_singleton.mp hm, hself]
    · exact h.origins m (mem_append_right _ hm)
  · rw [hnumber, hseqs, hstoring, hwindows]
    intro q hq
    rcases mem_append.mp hq with hq | hq
    · refine .inr ((h.stored q hq).resolve_left fun hst => ?_)
      rw [hidle] at hst
      cases hst
    · exact .inl (congrArg some (mem_singleton.mp hq).symm)
  · rw [hstoring, hwindows, hcount, hhandled]
    intro q hq
    obtain rfl : wo.seq = q := Option.some.inj hq
    refine ⟨hseq.le, fun hsome => ?_, fun hmem => hfresh (mem_append_left _ hmem)⟩
    have := (h.fresh _ hsome).1
    omega
  · rw [hnumber, hingest, hstoring]
    intro q hq heq
    obtain rfl : wo.seq = q := Option.some.inj heq
    obtain ⟨m, hm, howned⟩ := mem_ownSeqs.mp hq
    refine hfresh (mem_append_right _ (mem_ownSeqs.mpr ⟨m, ?_, howned⟩))
    exact mem_unhandled_of_outstanding (mem_outstanding_of_ingest hm)
  · rw [hwindows, hcount, hhandled]
    exact fun q hq => ⟨(h.fresh q hq).1.trans (Nat.le_succ _), (h.fresh q hq).2⟩

theorem Accounted.store (hs : s.step su .store = some s') : Accounted s' := by
  cases moves_of_step hs
  rename_i chunk seq page rest hexec
  obtain ⟨hle, hnone, hnot⟩ := h.storing seq (by rw [hexec]; rfl)
  have hother : ∀ q, q ≠ seq → storingOf s.session.exec ≠ some q := by
    intro q hne heq
    rw [hexec] at heq
    exact hne (Option.some.inj heq).symm
  have hopen := addWindowRows_self s.session chunk page (Option.not_isSome_iff_eq_none.mp hnone)
  refine { h with
    stored := ?_, storing := nofun, received := nofun
    fresh := ?_ }
  · intro q hq
    refine .inr ?_
    by_cases hseq : q = seq
    · rw [hseq]
      exact hopen
    · rw [addWindowRows_other s.session chunk page hseq]
      exact (h.stored q hq).resolve_left (hother q hseq)
  · intro q hq
    by_cases hseq : q = seq
    · rw [hseq]
      exact ⟨hle, hnot⟩
    · rw [addWindowRows_other s.session chunk page hseq] at hq
      exact h.fresh q hq

/-- The new session has announced nothing yet. -/
theorem Accounted.attach {epoch : Nat} (hs : s.step su (.attach epoch) = some s') :
    Accounted s' := by
  cases moves_of_step hs
  have horigin : ∀ m ∈ opensOf (s.sent ++ s.queue) ++ closingOf s.phase ++ s.opens,
      m.session ≤ s.session.number :=
    fun m hm => h.origins m (mem_unhandled_of_redelivered hm)
  have hnil : ownSeqs (s.session.number + 1)
      (opensOf (s.sent ++ s.queue) ++ closingOf s.phase ++ s.opens) = [] :=
    ownSeqs_eq_nil fun m hm => Nat.lt_succ_of_le (horigin m hm)
  refine
    { nodup := ?_, bounded := ?_, origins := ?_, stored := ?_, storing := nofun
      received := nofun, fresh := nofun, missed := h.missed }
  · change (ownSeqs (s.session.number + 1)
      (opensOf (s.sent ++ s.queue) ++ closingOf s.phase ++ s.opens)).Nodup
    rw [hnil]
    exact nodup_nil
  · intro q hq
    exact absurd (hnil.subst hq) not_mem_nil
  · intro m hm
    rcases mem_append.mp hm with hm | hm
    · exact (horigin m hm).trans (Nat.le_succ _)
    · exact (h.origins m (mem_append_right _ hm)).trans (Nat.le_succ _)
  · intro q hq
    exact absurd (hnil.subst hq) not_mem_nil

/-- Every step under `StoredFirst` keeps the account. -/
theorem Accounted.step {a : RangeAction K} (hiso : Isolated s)
    (hok : StoredFirst s a) (hs : s.step su a = some s') : Accounted s' := by
  by_cases ha : reachesMarkers a = false
  · exact h.aside (aside_step ha hs)
  cases moves_of_step hs with
  | receive => exact h.receive hok hs
  | live hq => exact h.aside (aside_live hq)
  | closes hq => exact h.handleCloses hiso hq
  | announce rows hexec =>
    exact h.announce (by rw [hexec]; rfl) rfl rfl (append_assoc _ _ _).symm rfl rfl rfl
      rfl rfl rfl rfl rfl
  | store => exact h.store hs
  | enqueueMarker hphase =>
    refine h.of_sublist ?_ (fun _ hwo => .inl hwo) rfl (fun _ => rfl) rfl rfl rfl rfl h.received
    rw [← unhandled_queued hphase]
    exact .refl _
  | attach => exact h.attach hs
  | crash =>
    exact { accounted_boot su (s.session.number + 1) s.now s.sink with missed := h.missed }
  | _ => exact absurd rfl ha

end Steps

/-- **Stored before closed.**  In every run under `StoredFirst`, a session that
handles the marker of a window it opened holds the window, and no window stays
open after its marker. -/
theorem stored_before_closed (su : RangeSetup K) (actions : List (RangeAction K))
    (s : RangeState K) (hrun : run (step su) (init su) actions = some s)
    (hstored : Runs.Guarded (step su) StoredFirst (init su) actions) :
    s.missed = [] ∧ ∀ q, (s.session.windows q).isSome → q ∉ s.session.handled := by
  obtain ⟨-, h⟩ := invariant_of_guarded (fun s => Isolated s ∧ Accounted s)
    (fun _ _ _ ⟨hiso, h⟩ hok hs => ⟨hiso.step hok.freshIds hs, h.step hiso hok hs⟩)
    ⟨isolated_init, accounted_boot su 1 0 _⟩ hrun hstored
  exact ⟨h.missed, fun q hq => (h.fresh q hq).2⟩

theorem stored_before_closed_closeRound :
    ∃ s, run (step twoRows) (init twoRows) (announceFirst ++ [.store] ++ closeRound) =
      some s ∧ s.session.handled = [1] ∧ s.missed = [] ∧
      ∀ q, (s.session.windows q).isSome → q ∉ s.session.handled := by
  exact exists_run_and (by decide +kernel) fun s hrun _ => stored_before_closed twoRows _ s
    hrun (by decide +kernel)

/-- The marker's round trip is over before the executor stores the page: the
marker goes to the ack as if its window were empty, and the window stays open. -/
theorem closeRound_overtakes_store :
    ∃ s, run (step twoRows) (init twoRows) (announceFirst ++ closeRound ++ [.store]) =
      some s ∧ s.session.ready = [.markers [1]] ∧ s.session.handled = [1] ∧
      s.session.windows 1 = some ⟨0, [1], []⟩ ∧
      ¬ (s.missed = [] ∧ ∀ q, (s.session.windows q).isSome → q ∉ s.session.handled) := by
  refine exists_run_of (by decide +kernel) fun s _
    (hseen : (s.session.ready = [.markers [1]] ∧ s.session.handled = [1] ∧
      s.session.windows 1 = some ⟨0, [1], []⟩) ∧ s.missed ≠ []) => ?_
  obtain ⟨⟨hready, hhandled, hopen⟩, hmissed⟩ := hseen
  exact ⟨hready, hhandled, hopen, fun h => hmissed h.1⟩

end RangeState

end Urutau
