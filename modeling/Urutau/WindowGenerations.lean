import Urutau.RangeMoves

/-!
# Window ids across sessions

A window is known to the worker and on the wire by its sequence number alone,
and every session counts from one again, while the markers of an earlier
session are redelivered to the next.  A redelivered marker therefore closes
whatever window the new session holds under the same number.

It closes nothing when the two never meet: no marker of an earlier session may
be on its way when a window of its number is stored, nor be queued while one is
open (`FreshIds`).  Then every window is closed by its own marker.
-/

namespace Urutau

open List Runs

namespace RangeState

section Wires

variable {K : Type}

/-- The announcements whose markers are among the deliveries. -/
def opensOf (ds : List (Delivery K)) : List (WindowOpen K) := ds.filterMap fun d => match d with
    | .live _ _ _ => none
    | .closes _ _ wo => some wo

theorem opensOf_append (xs ys : List (Delivery K)) :
    opensOf (xs ++ ys) = opensOf xs ++ opensOf ys :=
  filterMap_append

/-- What is on its way to the batcher. -/
def outstanding (s : RangeState K) : List (Delivery K) :=
  s.session.ingest ++ s.session.stream ++ s.queue

/-- What is queued opens last. -/
theorem opensOf_queue (s : RangeState K) (ds : List (Delivery K)) :
    opensOf (s.session.ingest ++ s.session.stream ++ (s.queue ++ ds)) =
      opensOf s.outstanding ++ opensOf ds := by
  rw [← append_assoc, opensOf_append]
  rfl

variable {wo : WindowOpen K}

/-- A window opened at the worker is outstanding. -/
theorem mem_outstanding_of_ingest {s : RangeState K} (h : wo ∈ opensOf s.session.ingest) :
    wo ∈ opensOf s.outstanding := by
  rw [outstanding, opensOf_append, opensOf_append]
  exact mem_append_left _ (mem_append_left _ h)

/-- The announcement the coordinator is closing, up to the queuing of its
marker. -/
def closingOf : RangePhase K → List (WindowOpen K)
  | .closing wo _ => [wo]
  | _ => []

/-- The window whose page is announced and not stored yet. -/
def storingOf : Exec K → Option Nat
  | .storing _ seq _ _ => some seq
  | _ => none

/-- The windows of one session among announcements. -/
def ownSeqs (number : Nat) (wos : List (WindowOpen K)) : List Nat :=
  (wos.filter fun wo => decide (wo.session = number)).map WindowOpen.seq

theorem ownSeqs_append (number : Nat) (xs ys : List (WindowOpen K)) :
    ownSeqs number (xs ++ ys) = ownSeqs number xs ++ ownSeqs number ys := by
  simp [ownSeqs]

variable {wos : List (WindowOpen K)}

variable {number : Nat}

/-- The windows of the session, by number. -/
theorem mem_ownSeqs {q : Nat} :
    q ∈ ownSeqs number wos ↔ ∃ wo ∈ wos, wo.session = number ∧ wo.seq = q := by
  simp [ownSeqs, and_assoc]

theorem ownSeqs_cons_own (h : wo.session = number) :
    ownSeqs number (wo :: wos) = wo.seq :: ownSeqs number wos := by
  simp [ownSeqs, h]

theorem ownSeqs_cons_other (h : wo.session ≠ number) :
    ownSeqs number (wo :: wos) = ownSeqs number wos := by
  simp [ownSeqs, h]

/-- A new session has no window yet. -/
theorem ownSeqs_eq_nil (h : ∀ wo ∈ wos, wo.session < number) : ownSeqs number wos = [] := by
  rw [ownSeqs, map_eq_nil_iff, filter_eq_nil_iff]
  intro wo hwo heq
  have := h wo hwo
  simp only [decide_eq_true_eq] at heq
  omega

variable {s s' : RangeState K}

/-- The step leaves the windows and the markers on their way to them alone; the
coordinator may have taken up, or dropped, an announcement. -/
structure Aside (s s' : RangeState K) : Prop where
  number : s'.session.number = s.session.number
  windows : ∀ q, (s'.session.windows q).isSome = (s.session.windows q).isSome
  storing : storingOf s'.session.exec = storingOf s.session.exec
  handled : s'.session.handled = s.session.handled
  windowSeq : s'.session.windowSeq = s.session.windowSeq
  outstanding : opensOf s'.outstanding = opensOf s.outstanding
  ingest : opensOf s'.session.ingest = opensOf s.session.ingest
  closings : s'.closings = s.closings
  missed : s'.missed = s.missed
  announced : (closingOf s'.phase ++ s'.opens).Sublist (closingOf s.phase ++ s.opens)
  sent : ∀ wo ∈ opensOf s'.sent, wo ∈ opensOf s.sent ∨ wo ∈ opensOf s.outstanding

/-- A state that stays as it is. -/
theorem aside_refl (s : RangeState K) : Aside s s where
  number := rfl
  windows _ := rfl
  storing := rfl
  handled := rfl
  windowSeq := rfl
  outstanding := rfl
  ingest := rfl
  closings := rfl
  missed := rfl
  announced := .refl _
  sent _ h := .inl h

/-- A filter opens nothing. -/
theorem mem_opensOf_filter {p : Delivery K → Bool} {ds : List (Delivery K)}
    (h : wo ∈ opensOf (ds.filter p)) : wo ∈ opensOf ds := by
  obtain ⟨d, hd, hdwo⟩ := mem_filterMap.mp h
  exact mem_filterMap.mpr ⟨d, (mem_filter.mp hd).1, hdwo⟩

/-- The announcements whose markers the batcher has not handled. -/
def unhandled (s : RangeState K) : List (WindowOpen K) :=
  opensOf s.outstanding ++ closingOf s.phase ++ s.opens

/-- An outstanding window is not handled. -/
theorem mem_unhandled_of_outstanding (h : wo ∈ opensOf s.outstanding) : wo ∈ s.unhandled :=
  mem_append_left _ (mem_append_left _ h)

/-- A queued marker is as unhandled as its announcement was. -/
theorem unhandled_queued {id : Nat} {pending : List Nat} {draining : Bool}
    (hphase : s.phase = .closing wo draining) :
    opensOf (s.session.ingest ++ s.session.stream ++ (s.queue ++ [.closes id pending wo])) ++ [] ++
      s.opens = s.unhandled := by
  rw [opensOf_queue, unhandled, hphase, append_nil]
  rfl

/-- A new session is sent what the last one was sent, and what is queued. -/
theorem mem_unhandled_of_redelivered
    (h : wo ∈ opensOf (s.sent ++ s.queue) ++ closingOf s.phase ++ s.opens) :
    wo ∈ s.unhandled ++ opensOf s.sent := by
  rw [opensOf_append, append_assoc, append_assoc] at h
  rcases mem_append.mp h with h | h
  · exact mem_append_right _ h
  · refine mem_append_left _ ?_
    rw [unhandled, outstanding, opensOf_append, append_assoc, append_assoc]
    exact mem_append_right _ h

/-- A step aside handles no window. -/
theorem Aside.unhandled (h : Aside s s') : s'.unhandled.Sublist s.unhandled := by
  rw [RangeState.unhandled, RangeState.unhandled, h.outstanding, append_assoc, append_assoc]
  exact List.Sublist.append (.refl _) h.announced

end Wires

variable {K : Type} [LinearOrder K] {su : RangeSetup K} {s s' : RangeState K}

/-- The actions that reach the windows or their markers. -/
def reachesMarkers : RangeAction K → Bool
  | .receive | .handleIngest | .announce _ | .store | .enqueueMarker | .attach _ | .crash => true
  | _ => false

variable {a : RangeAction K} {id seq : Nat} {pending : List Nat} {wo : WindowOpen K}

/-- **Every other step is aside.** -/
theorem aside_step (ha : reachesMarkers a = false) (hs : s.step su a = some s') : Aside s s' := by
  have hself := aside_refl s
  cases moves_of_step hs with
  | receive | live | closes | announce | store | enqueueMarker | attach | crash => cases ha
  | pump keys tagged =>
    refine { hself with outstanding := ?_ }
    exact (opensOf_queue s [.live s.nextId keys tagged]).trans (append_nil _)
  | @fetch d rest hq =>
    refine { hself with outstanding := ?_, sent := fun wo hwo => ?_ }
    · rw [outstanding, outstanding, hq, ← append_assoc, append_assoc _ [d]]
      rfl
    rw [opensOf_append, mem_append] at hwo
    refine hwo.imp_right fun hwo => ?_
    rw [outstanding, hq, opensOf_append, ← singleton_append, opensOf_append [d]]
    exact mem_append_right _ (mem_append_left _ hwo)
  | deliverAck =>
    unfold onMarkerAck
    dsimp only
    split
    · exact { hself with sent := fun wo hwo => .inl (mem_opensOf_filter hwo) }
    · exact { hself with }
  | ackLive => exact { hself with sent := fun wo hwo => .inl (mem_opensOf_filter hwo) }
  | startRead hexec | finishRead hexec => exact { hself with storing := by rw [hexec]; rfl }
  | takeOpen hphase hopens =>
    exact { hself with announced := by rw [hphase, hopens]; exact .refl _ }
  | dropOpen hphase hopens =>
    exact { hself with announced := by rw [hphase, hopens]; exact sublist_cons_self _ _ }
  | finished | redo | begin | request | takeReady | drainedLast | drained | noteMarker | leave
  | goOn | abort | lastCommits =>
    exact { hself with announced := sublist_append_right _ _ }
  | _ => exact { hself with }

/-! ## What the handling of a marker does -/

section HandleCloses

variable (s) (id : Nat) (pending : List Nat) (wo : WindowOpen K)

/-- The marker's number is all it closes by. -/
theorem handleCloses_windows (q : Nat) : (handleCloses s id pending wo).session.windows q =
    if q = wo.seq then none else s.session.windows q := by
  rw [handleCloses]
  split
  · rename_i hnone
    by_cases hq : q = wo.seq
    · rw [if_pos hq, hq]
      exact hnone
    · rw [if_neg hq]
      rfl
  · split <;> rfl

/-- A marker of the session handles its window. -/
theorem handleCloses_handled : (handleCloses s id pending wo).session.handled =
    if wo.session = s.session.number then s.session.handled ++ [wo.seq]
    else s.session.handled := by
  rw [handleCloses]
  split
  · rfl
  · split <;> rfl

/-- A marker that finds a window closes it. -/
theorem handleCloses_closings : (handleCloses s id pending wo).closings =
    if (s.session.windows wo.seq).isSome then s.closings ++ [(wo.session, s.session.number)]
    else s.closings := by
  rw [handleCloses]
  split
  · rename_i hnone
    rw [hnone]
    rfl
  · rename_i w hsome
    rw [hsome]
    rfl

/-- A marker of the session that finds no window misses it. -/
theorem handleCloses_missed : (handleCloses s id pending wo).missed =
    if s.session.windows wo.seq = none ∧ wo.session = s.session.number then
      s.missed ++ [(s.session.number, wo.seq)]
    else s.missed := by
  rw [handleCloses]
  split
  · rename_i hnone
    simp only [hnone, true_and]
  · rename_i w hsome
    simp only [hsome, reduceCtorEq, false_and, if_false]

/-- What the handling of a marker leaves alone. -/
structure Kept (s s' : RangeState K) : Prop where
  number : s'.session.number = s.session.number
  exec : s'.session.exec = s.session.exec
  windowSeq : s'.session.windowSeq = s.session.windowSeq
  ingest : s'.session.ingest = s.session.ingest
  stream : s'.session.stream = s.session.stream
  queue : s'.queue = s.queue
  phase : s'.phase = s.phase
  opens : s'.opens = s.opens
  sent : s'.sent = s.sent
  requests : s'.session.requests = s.session.requests
  opened : s'.session.opened = s.session.opened
  chunkLive : s'.session.chunkLive = s.session.chunkLive
  lows : s'.lows = s.lows
  now : s'.now = s.now
  sink : s'.sink = s.sink
  seen : s'.seen = s.seen

/-- A marker changes nothing else. -/
theorem handleCloses_kept : Kept s (handleCloses s id pending wo) := by
  have hself : Kept s s :=
    ⟨rfl, rfl, rfl, rfl, rfl, rfl, rfl, rfl, rfl, rfl, rfl, rfl, rfl, rfl, rfl, rfl⟩
  rw [handleCloses]
  split
  · exact { hself with }
  · split <;> exact { hself with }

/-- The marker was taken before it was handled. -/
theorem unhandled_handleCloses : (handleCloses s id pending wo).unhandled = s.unhandled := by
  have hk := handleCloses_kept s id pending wo
  rw [unhandled, outstanding, hk.ingest, hk.stream, hk.queue, hk.phase, hk.opens]
  rfl

end HandleCloses

variable {rest : List (Delivery K)}

omit [LinearOrder K] in
/-- The marker in front is the one taken. -/
theorem unhandled_taken (hq : s.session.ingest = .closes id pending wo :: rest) :
    s.unhandled = wo :: (s.taken rest).unhandled := by
  rw [unhandled, outstanding, hq]
  rfl

/-- Live changes open and close no window. -/
theorem touchWindows_isSome (ss : Session K) (keys : List K) (tagged : Bool) (q : Nat) :
    ((touchWindows ss keys tagged).windows q).isSome = (ss.windows q).isSome := by
  exact Option.isSome_map

/-- A page is stored in its own window. -/
theorem addWindowRows_other (ss : Session K) (chunk : Nat) (page : List K) {q : Nat}
    (h : q ≠ seq) : (addWindowRows ss chunk seq page).windows q = ss.windows q :=
  if_neg fun hq => h hq.1

/-- A page opens its window. -/
theorem addWindowRows_self (ss : Session K) (chunk : Nat) (page : List K)
    (h : ss.windows seq = none) : ((addWindowRows ss chunk seq page).windows seq).isSome :=
  (congrArg Option.isSome (if_pos ⟨rfl, h⟩)).trans rfl

/-- A live batch marks windows and closes none. -/
theorem aside_live {keys : List K} {tagged : Bool}
    (hq : s.session.ingest = .live id keys tagged :: rest) :
    Aside s (handleLive (s.taken rest) id keys tagged) :=
  { aside_refl s with
    windows := touchWindows_isSome (s.taken rest).session keys tagged
    outstanding := by
      rw [outstanding, outstanding, hq]
      rfl
    ingest := by
      rw [hq]
      rfl }

/-! ## Generations -/

/-- Markers of earlier sessions stay clear of the open windows: none is on its
way when a window of its number is stored, and none is queued while such a
window is open. -/
def FreshIds (s : RangeState K) : RangeAction K → Prop
  | .store => ∀ q ∈ storingOf s.session.exec,
      ∀ wo ∈ opensOf s.outstanding, wo.seq = q → wo.session = s.session.number
  | .enqueueMarker => ∀ wo ∈ closingOf s.phase,
      wo.session ≠ s.session.number → s.session.windows wo.seq = none
  | _ => True

instance (s : RangeState K) (a : RangeAction K) : Decidable (FreshIds s a) := by
  cases a <;> unfold FreshIds <;> infer_instance

/-- The markers that name an open window were sent for it. -/
structure Isolated (s : RangeState K) : Prop where
  own : ∀ wo ∈ opensOf s.outstanding,
    (s.session.windows wo.seq).isSome → wo.session = s.session.number
  closings : ∀ p ∈ s.closings, p.1 = p.2

theorem isolated_init : Isolated (init su) where
  own := nofun
  closings := nofun

omit [LinearOrder K] in
/-- A step aside keeps the sessions apart. -/
theorem Isolated.aside (h : Isolated s) (ha : Aside s s') : Isolated s' where
  own wo hwo hsome := by
    rw [ha.outstanding] at hwo
    rw [ha.windows] at hsome
    rw [ha.number]
    exact h.own wo hwo hsome
  closings := by
    rw [ha.closings]
    exact h.closings

/-- A marker finds a window of its own session or none. -/
theorem Isolated.handleCloses (h : Isolated s)
    (hq : s.session.ingest = .closes id pending wo :: rest) :
    Isolated (RangeState.handleCloses (s.taken rest) id pending wo) := by
  have hk := handleCloses_kept (s.taken rest) id pending wo
  refine ⟨fun m hm hsome => ?_, fun p hp => ?_⟩
  · rw [handleCloses_windows] at hsome
    rw [RangeState.outstanding, hk.ingest, hk.stream, hk.queue] at hm
    rw [hk.number]
    refine h.own m ?_ ?_
    · rw [RangeState.outstanding, hq]
      exact mem_filterMap.mpr ((mem_filterMap.mp hm).imp fun d hd =>
        ⟨mem_cons_of_mem _ hd.1, hd.2⟩)
    · split at hsome
      · cases hsome
      · exact hsome
  · rw [handleCloses_closings] at hp
    split at hp
    · rename_i hopen
      rcases mem_append.mp hp with hp | hp
      · exact h.closings p hp
      · rw [mem_singleton.mp hp]
        refine h.own wo ?_ hopen
        rw [RangeState.outstanding, hq]
        exact mem_cons_self
    · exact h.closings p hp

/-- Every step under `FreshIds` keeps the generations apart. -/
theorem Isolated.step (h : Isolated s) (hok : FreshIds s a)
    (hs : s.step su a = some s') : Isolated s' := by
  by_cases ha : reachesMarkers a = false
  · exact h.aside (aside_step ha hs)
  cases moves_of_step hs with
  | receive hq =>
    refine { h with own := fun wo hwo => h.own wo ?_ }
    simpa [RangeState.outstanding, hq] using hwo
  | live hq => exact h.aside (aside_live hq)
  | closes hq => exact h.handleCloses hq
  | announce => exact { h with }
  | @store chunk seq page rest hexec =>
    refine { h with own := fun wo hwo hsome => ?_ }
    by_cases hseq : wo.seq = seq
    · exact hok seq (by rw [hexec]; rfl) wo hwo hseq
    · refine h.own wo hwo ?_
      rw [← addWindowRows_other s.session chunk page hseq]
      exact hsome
  | @enqueueMarker m draining hphase =>
    refine { h with own := fun wo hwo hsome => ?_ }
    have hmem := (opensOf_queue s [.closes _ _ m]).subst hwo
    rcases mem_append.mp hmem with hwo | hwo
    · exact h.own wo hwo hsome
    -- the marker just queued: the window it names is its own, or not open
    by_contra hne
    have hnone := hok wo (by rw [hphase]; exact hwo) hne
    rw [hnone] at hsome
    cases hsome
  | attach | crash => exact { h with own := nofun }
  | _ => exact absurd rfl ha

/-- **Window generations.**  In every run under `FreshIds`, a window is only
ever closed by a marker of the session that opened it. -/
theorem window_generations (su : RangeSetup K) (actions : List (RangeAction K))
    (s : RangeState K) (hrun : run (step su) (init su) actions = some s)
    (hfresh : Runs.Guarded (step su) FreshIds (init su) actions) :
    ∀ p ∈ s.closings, p.1 = p.2 :=
  (invariant_of_guarded Isolated (fun _ _ _ h hok hs => h.step hok hs)
    isolated_init hrun hfresh).closings

/-- A table of one chunk that holds two rows, with room for two windows. -/
def twoRows : RangeSetup Nat where
  chunks := [⟨1, none⟩]
  rowsAt _ := [1, 2]
  rows_sorted _ := by decide
  maxOpen := 2

/-- The worker announces its first page. -/
def announceFirst : List (RangeAction Nat) := [.top, .request, .startRead, .announce 1]

/-- The coordinator answers an announcement, and the worker handles the
marker. -/
def closeRound : List (RangeAction Nat) :=
  [.takeOpen, .enqueueMarker, .noteMarker, .checkLost, .fetch, .receive, .handleIngest]

/-- The session ends, the loop notices, and the worker's next one begins. -/
def reattach : List (RangeAction Nat) := [.detach, .lose, .signalLoss, .abort, .attach 1]

/-- The first session is lost with its marker on the wire. -/
def markerOnWire : List (RangeAction Nat) :=
  announceFirst ++ [.takeOpen, .store, .enqueueMarker, .noteMarker, .checkLost, .fetch] ++ reattach

/-- The redelivered marker is handled before the new window is stored. -/
def oldMarkerFirst : List (RangeAction Nat) :=
  markerOnWire ++ announceFirst ++ [.receive, .handleIngest, .store, .takeOpen, .enqueueMarker,
    .noteMarker, .checkLost, .fetch, .receive, .handleIngest]

/-- The redelivered marker finds the new window stored. -/
def oldMarkerLast : List (RangeAction Nat) :=
  markerOnWire ++ announceFirst ++ [.store, .receive, .handleIngest]

/-- The old session's marker finds no window; the new one's finds its own. -/
theorem window_generations_oldMarkerFirst :
    ∃ s, run (step twoRows) (init twoRows) oldMarkerFirst = some s ∧
      s.closings = [(2, 2)] ∧ ∀ p ∈ s.closings, p.1 = p.2 := by
  have hrun : (run (step twoRows) (init twoRows) oldMarkerFirst).map closings =
      some [(2, 2)] := by decide +kernel
  obtain ⟨s, hrun, hout⟩ := Option.map_eq_some_iff.mp hrun
  exact ⟨s, hrun, hout, window_generations twoRows oldMarkerFirst s hrun (by decide +kernel)⟩

/-- The marker of the first session closes the window of the second, whose rows
are then committed under it. -/
theorem oldMarker_closes_newWindow : ∃ s, run (step twoRows) (init twoRows) oldMarkerLast = some s ∧
      s.session.pending = [.row 0 1] ∧ s.session.pendingMarkers = [1] ∧
      s.closings = [(1, 2)] ∧ ¬ ∀ p ∈ s.closings, p.1 = p.2 := by
  exact exists_run (by decide +kernel)

end RangeState

end Urutau
