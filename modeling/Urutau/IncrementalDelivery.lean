import Urutau.GuardedRun
import Urutau.IncrementalEnds

/-!
# What the drain of an incremental table delivers

Pages are read, committed in order, and after a restart read again from the position of the
last committed page.  Where the texts of the rows stand for them no wanted row is left out: what
a page does not hold its position still shows.  But behind a key tie-break the filter no longer
applies to later cursors, so a page read from one may hold rows the filter rejects.
-/

namespace Urutau

open List Runs SortedPages Option

section Delivery

variable {C K V : Type*} [LinearOrder C] [LinearOrder K]

/-- A drain over its restarts: the pages committed, those read and not yet committed, the
position the next page is read from, and whether the page loop has ended. -/
structure DeliveryState (C K V : Type*) where
  committed : List (IncrementalPage C K V)
  pending : List (IncrementalPage C K V)
  after : List UInt8
  ended : Bool

inductive DeliveryAction where
  | read
  | commit
  | restart
  deriving DecidableEq

/-- The position of the last of the pages, none before the first. -/
def savedPosition (pages : List (IncrementalPage C K V)) : List UInt8 :=
  (pages.getLast?.map IncrementalPage.next).getD []

def DeliveryState.init : DeliveryState C K V := ⟨[], [], [], false⟩

/-- The pages read and not lost. -/
def DeliveryState.pages (s : DeliveryState C K V) : List (IncrementalPage C K V) :=
  s.committed ++ s.pending

section

variable (schema : WireSchema (CursorRow C K V)) (cols : CursorColumns C K)
  (t : IncrementalTable C K V)

/-- One turn of the page loop, one commit, or a restart at the committed position. -/
def deliveryStep (s : DeliveryState C K V) : DeliveryAction → Option (DeliveryState C K V)
  | .read =>
    if s.ended then none
    else
      match incrementalPage schema cols t s.after with
      | .failed => none
      | .empty => some { s with ended := true }
      | .page p =>
        some { s with pending := s.pending ++ [p], after := p.next, ended := !p.more }
  | .commit =>
    match s.pending with
    | [] => none
    | p :: rest => some { s with committed := s.committed ++ [p], pending := rest }
  | .restart => some ⟨s.committed, [], savedPosition s.committed, false⟩

/-- The pages hold only rows that pass the filter. -/
def OnlyWanted (s : DeliveryState C K V) : Prop := ∀ p ∈ s.pages, ∀ r ∈ p.rows, t.wanted r = true

/-- The pages hold every row that passes the filter. -/
def AllWanted (s : DeliveryState C K V) : Prop :=
  ∀ r ∈ t.rows, t.wanted r = true → ∃ p ∈ s.pages, r ∈ p.rows

/-- Behind a key tie-break no row of a later cursor is rejected. -/
def ReadsUnrejected (s : DeliveryState C K V) (a : DeliveryAction) : Prop :=
  a = .read → ∀ c k, resumeOf cols s.after = some (.tie c k) →
    ∀ r ∈ t.rows, c < r.cursor → t.wanted r = true

instance (s : DeliveryState C K V) (a : DeliveryAction) : Decidable (ReadsUnrejected cols t s a) :=
  match hv : resumeOf cols s.after with
  | some (.tie c k) =>
    decidable_of_iff (a = .read → ∀ r ∈ t.rows, c < r.cursor → t.wanted r = true) (by
      simp [ReadsUnrejected, hv])
  | some .start => isTrue fun _ c k htie => by cases hv.symm.trans htie
  | some (.plain _) => isTrue fun _ c k htie => by cases hv.symm.trans htie
  | none => isTrue fun _ c k htie => by cases hv.symm.trans htie

end

variable {schema : WireSchema (CursorRow C K V)} {cols : CursorColumns C K}
  {t : IncrementalTable C K V} {p : IncrementalPage C K V} {after : List UInt8} {v : Resume C K}

/-! ## Only wanted rows -/

/-- A page holds only wanted rows, unless its position has a tie-break and a row of a later cursor
is rejected. -/
theorem page_wanted (hp : pageFrom t v = .page p)
    (hlater : ∀ c k, v = .tie c k → ∀ r ∈ t.rows, c < r.cursor → t.wanted r = true) :
    ∀ r ∈ p.rows, t.wanted r = true := by
  obtain ⟨x, hx, rfl⟩ := pageFrom_eq_page.mp hp
  intro r hon
  obtain ⟨hr, hread⟩ := mem_filter.mp (mem_of_mem_take hon)
  cases v with
  | start => exact hread
  | plain c => exact (Bool.and_eq_true_iff.mp hread).2
  | tie c k =>
    rcases Bool.or_eq_true_iff.mp hread with hbehind | hsame
    · exact hlater c k rfl r hr (of_decide_eq_true hbehind)
    · exact (Bool.and_eq_true_iff.mp hsame).2

/-! ## Every wanted row -/

/-- A wanted row behind the last row of a page is seen from the position of the page. -/
theorem ReadsBack.seen_next (h : ReadsBack cols t) {x r : CursorRow C K V}
    {lookahead : Option (CursorRow C K V)} (hx : x ∈ t.rows) (hr : r ∈ t.rows)
    (hwanted : t.wanted r = true) (hbehind : x.place < r.place)
    (hv : resumeOf cols (nextPosition x lookahead) = some v) : r ∈ t.seen v := by
  have hstart : r ∈ t.seen .start := mem_filter.mpr ⟨hr, hwanted⟩
  simp only [nextPosition] at hv
  by_cases hspills : lookahead.any (fun l => l.text == x.text) = true
  · rw [if_pos hspills, h.resumeOf_tie hx] at hv
    by_cases hempty : x.text = []
    · rw [if_pos hempty] at hv
      cases hv
      exact hstart
    · rw [if_neg hempty] at hv
      obtain ⟨c, -, hkey⟩ := bind_eq_some_iff.mp hv
      obtain ⟨k, -, rfl⟩ := map_eq_some_iff.mp hkey
      exact mem_seen_tie hr hwanted hbehind
  · rw [if_neg hspills, h.resumeOf_plain hx] at hv
    by_cases hempty : x.text = []
    · rw [if_pos hempty] at hv
      cases hv
      exact hstart
    · rw [if_neg hempty] at hv
      obtain ⟨c, -, rfl⟩ := map_eq_some_iff.mp hv
      exact mem_filter.mpr ⟨hr, by simp [IncrementalTable.reads, place_le hbehind.le, hwanted]⟩

/-- What the pages do not hold every page read from their position shows. -/
def CoversFrom (cols : CursorColumns C K) (t : IncrementalTable C K V)
    (pages : List (IncrementalPage C K V)) : Prop :=
  ∀ r ∈ t.rows, t.wanted r = true → (∃ p ∈ pages, r ∈ p.rows) ∨
    ∀ v, resumeOf cols (savedPosition pages) = some v → r ∈ t.seen v

omit [LinearOrder C] [LinearOrder K] in
theorem savedPosition_append (pages : List (IncrementalPage C K V))
    (p : IncrementalPage C K V) : savedPosition (pages ++ [p]) = p.next := by
  simp [savedPosition]

variable {pages : List (IncrementalPage C K V)}

/-- The next page leaves out no row. -/
theorem CoversFrom.page (h : ReadsBack cols t) (hcovers : CoversFrom cols t pages)
    (hp : incrementalPage schema cols t (savedPosition pages) = .page p) :
    CoversFrom cols t (pages ++ [p]) := by
  intro r hr hwanted
  rw [savedPosition_append]
  obtain ⟨v, hv, hpage⟩ := incrementalPage_eq_page hp
  obtain ⟨x, hx, rfl⟩ := pageFrom_eq_page.mp hpage
  rcases hcovers r hr hwanted with ⟨q, hq, hin⟩ | hshown
  · exact .inl ⟨q, mem_append_left _ hq, hin⟩
  have hseen := hshown v hv
  rw [← take_append_drop incrementalPageSize (t.seen v)] at hseen
  rcases mem_append.mp hseen with hon | hbehind
  · exact .inl ⟨_, mem_concat_self, hon⟩
  · refine .inr fun w hw => h.seen_next (mem_rows_of_last hx) hr hwanted ?_ hw
    exact (ascending_seen v).lt_of_mem (mem_of_getLast? hx) hbehind

/-- What every state keeps: the pages read so far, up to any of them, cover the table from
their position; the next page is read from the position of the last. -/
structure Resumes (cols : CursorColumns C K) (t : IncrementalTable C K V)
    (s : DeliveryState C K V) : Prop where
  covers : ∀ pages, pages <+: s.pages → CoversFrom cols t pages
  after : s.after = savedPosition s.pages
  ended : s.ended = true → AllWanted t s

theorem resumes_init : Resumes cols t DeliveryState.init where
  covers pages hpages := by
    cases prefix_nil.mp hpages
    intro r hr hwanted
    refine .inr fun v hv => ?_
    cases hv
    exact mem_filter.mpr ⟨hr, hwanted⟩
  after := rfl
  ended hended := by cases hended

/-- A page that does not report more is all its position shows. -/
theorem CoversFrom.last (hcovers : CoversFrom cols t pages)
    (hp : incrementalPage schema cols t (savedPosition pages) = .page p) (hmore : p.more = false) :
    ∀ r ∈ t.rows, t.wanted r = true → ∃ q ∈ pages ++ [p], r ∈ q.rows := by
  intro r hr hwanted
  obtain ⟨v, hv, hpage⟩ := incrementalPage_eq_page hp
  obtain ⟨x, hx, rfl⟩ := pageFrom_eq_page.mp hpage
  rcases hcovers r hr hwanted with ⟨q, hq, hin⟩ | hshown
  · exact ⟨q, mem_append_left _ hq, hin⟩
  have hshort : (t.seen v).length ≤ incrementalPageSize := by simpa using hmore
  refine ⟨_, mem_concat_self, ?_⟩
  rw [take_of_length_le hshort]
  exact hshown v hv

/-- With nothing left to read the pages hold every wanted row. -/
theorem CoversFrom.all (hcovers : CoversFrom cols t pages)
    (hempty : incrementalPage schema cols t (savedPosition pages) = .empty) :
    ∀ r ∈ t.rows, t.wanted r = true → ∃ p ∈ pages, r ∈ p.rows := by
  intro r hr hwanted
  obtain ⟨v, hv, hnone⟩ : ∃ v, resumeOf cols (savedPosition pages) = some v ∧ t.seen v = [] := by
    rcases incrementalPage_cases schema cols t (savedPosition pages) with hfail | ⟨v, hv, hpage⟩
    · rw [hfail] at hempty
      cases hempty
    · exact ⟨v, hv, pageFrom_eq_empty (hpage ▸ hempty)⟩
  rcases hcovers r hr hwanted with hin | hshown
  · exact hin
  · have hseen := hshown v hv
    rw [hnone] at hseen
    exact (not_mem_nil hseen).elim

variable {s s' : DeliveryState C K V}

/-- A turn of the page loop that reads a page. -/
theorem deliveryStep_page (hopen : s.ended = false)
    (hbatch : incrementalPage schema cols t s.after = .page p) :
    deliveryStep schema cols t s .read = some ⟨s.committed, s.pending ++ [p], p.next, !p.more⟩ := by
  simp [deliveryStep, hopen, hbatch]

variable {a : DeliveryAction}

/-- What a step can do. -/
theorem deliveryStep_cases (hstep : deliveryStep schema cols t s a = some s') :
    (a = .read ∧ incrementalPage schema cols t s.after = .empty ∧ s' = { s with ended := true }) ∨
    (∃ p, a = .read ∧ incrementalPage schema cols t s.after = .page p ∧
      s'.pages = s.pages ++ [p] ∧ s'.after = p.next ∧ s'.ended = !p.more) ∨
    (a = .commit ∧ s'.pages = s.pages ∧ s'.after = s.after ∧ s'.ended = s.ended) ∨
    (a = .restart ∧ s' = ⟨s.committed, [], savedPosition s.committed, false⟩) := by
  cases a with
  | read =>
    obtain ⟨-, hstep⟩ := ite_none_left_eq_some.mp hstep
    cases hbatch : incrementalPage schema cols t s.after with
    | failed =>
      rw [hbatch] at hstep
      cases hstep
    | empty =>
      rw [hbatch] at hstep
      cases hstep
      exact .inl ⟨rfl, rfl, rfl⟩
    | page p =>
      rw [hbatch] at hstep
      cases hstep
      exact .inr (.inl ⟨p, rfl, rfl, (append_assoc _ _ _).symm, rfl, rfl⟩)
  | commit =>
    cases hpending : s.pending with
    | nil =>
      simp only [deliveryStep, hpending] at hstep
      cases hstep
    | cons p rest =>
      simp only [deliveryStep, hpending] at hstep
      cases hstep
      refine .inr (.inr (.inl ⟨rfl, ?_, rfl, rfl⟩))
      simp [DeliveryState.pages, hpending]
  | restart =>
    cases hstep
    exact .inr (.inr (.inr ⟨rfl, rfl⟩))

theorem Resumes.step (hread : ReadsBack cols t) (h : Resumes cols t s)
    (hstep : deliveryStep schema cols t s a = some s') :
    Resumes cols t s' := by
  have hcovers := h.covers s.pages prefix_rfl
  rcases deliveryStep_cases hstep with ⟨-, hbatch, rfl⟩ | ⟨p, -, hbatch, hpages, hafter, hended⟩ |
    ⟨-, hpages, hafter, hended⟩ | ⟨-, rfl⟩
  · rw [h.after] at hbatch
    exact { h with ended := fun _ => hcovers.all hbatch }
  · rw [h.after] at hbatch
    refine ⟨fun pages hearlier => ?_, ?_, fun hstop => ?_⟩
    · rw [hpages] at hearlier
      rcases prefix_concat_iff.mp hearlier with rfl | hearlier
      · exact hcovers.page hread hbatch
      · exact h.covers pages hearlier
    · rw [hafter, hpages, savedPosition_append]
    · rw [hended] at hstop
      unfold AllWanted
      rw [hpages]
      exact hcovers.last hbatch (by simpa using hstop)
  · refine ⟨?_, ?_, ?_⟩
    · rw [hpages]
      exact h.covers
    · rw [hafter, hpages]
      exact h.after
    · unfold AllWanted
      rw [hended, hpages]
      exact h.ended
  · refine ⟨fun pages hearlier => h.covers pages ?_, ?_, nofun⟩
    · simp only [DeliveryState.pages, append_nil] at hearlier
      exact hearlier.trans (prefix_append _ _)
    · simp [DeliveryState.pages]

/-! ## The run -/

/-- The page loop is a run of reads. -/
theorem runIncremental_reads {fuel : Nat} {d : Drained C K V} (hopen : s.ended = false)
    (hd : runIncremental schema cols t fuel s.after = some d) (hdone : d.failed = false) :
    ∃ n u, run (deliveryStep schema cols t) s (List.replicate n .read) = some u ∧
      u.committed = s.committed ∧ u.pending = s.pending ++ d.pages ∧ u.ended = true := by
  induction fuel generalizing s d with
  | zero => cases hd
  | succ fuel ih =>
    rw [runIncremental] at hd
    cases hbatch : incrementalPage schema cols t s.after with
    | failed =>
      rw [hbatch] at hd
      cases hd
      cases hdone
    | empty =>
      rw [hbatch] at hd
      cases hd
      refine ⟨1, { s with ended := true }, ?_, rfl, (append_nil _).symm, rfl⟩
      simp [run, deliveryStep, hopen, hbatch]
    | page p =>
      rw [hbatch] at hd
      by_cases hmore : p.more = true
      · simp only [if_pos hmore] at hd
        obtain ⟨rest, hrest, rfl⟩ := map_eq_some_iff.mp hd
        obtain ⟨n, u, hrun, hcommitted, hpending, hended⟩ := ih
          (s := ⟨s.committed, s.pending ++ [p], p.next, !p.more⟩) (by simp [hmore]) hrest hdone
        refine ⟨n + 1, u, ?_, hcommitted, by simp [hpending], hended⟩
        rw [replicate_succ, run_cons (deliveryStep_page hopen hbatch)]
        exact hrun
      · simp only [if_neg hmore] at hd
        cases hd
        refine ⟨1, ⟨s.committed, s.pending ++ [p], p.next, !p.more⟩, ?_, rfl, rfl, by simp [hmore]⟩
        rw [replicate_one, run_cons (deliveryStep_page hopen hbatch), run]

theorem OnlyWanted.step (hwanted : OnlyWanted t s) (hguard : ReadsUnrejected cols t s a)
    (hstep : deliveryStep schema cols t s a = some s') : OnlyWanted t s' := by
  rcases deliveryStep_cases hstep with ⟨-, -, rfl⟩ | ⟨p, rfl, hbatch, hpages, -⟩ |
    ⟨-, hpages, -⟩ | ⟨-, rfl⟩
  · exact hwanted
  · obtain ⟨v, hv, hpage⟩ := incrementalPage_eq_page hbatch
    intro q hq
    rw [hpages] at hq
    rcases mem_append.mp hq with hold | hnew
    · exact hwanted q hold
    · rw [mem_singleton.mp hnew]
      exact page_wanted hpage fun c k htie => hguard rfl c k (htie ▸ hv)
  · unfold OnlyWanted
    rw [hpages]
    exact hwanted
  · intro q hq
    simp only [DeliveryState.pages, append_nil] at hq
    exact hwanted q (mem_append_left _ hq)

/-- **The drain delivers exactly the wanted rows, unless a page is read behind a tie-break before a
rejected row.**  The cursor and the key are integers or timestamps.  In every run of reads, commits
and restarts without such a read the pages hold only wanted rows, and every one of them once the
page loop has ended. -/
theorem delivered_exactly_of_unrejected (server : Server) (cursor : ColumnKind)
    (key : List ColumnKind) (schema : WireSchema (CursorRow Int (List Int) V))
    (t : IncrementalTable Int (List Int) V) (hkey : key ≠ []) (htyped : t.Typed cursor key)
    (actions : List DeliveryAction) (s : DeliveryState Int (List Int) V)
    (hrun : run (deliveryStep schema (server.columns cursor key) t) .init actions = some s)
    (hguard : Runs.Guarded (deliveryStep schema (server.columns cursor key) t)
      (ReadsUnrejected (server.columns cursor key) t) .init actions) :
    OnlyWanted t s ∧ (s.ended = true → AllWanted t s) := by
  have hread : ReadsBack (server.columns cursor key) t := htyped.readsBack hkey
  have hkept : Resumes (server.columns cursor key) t s ∧ OnlyWanted t s :=
    invariant_of_guarded (fun u => Resumes (server.columns cursor key) t u ∧ OnlyWanted t u)
      (fun u a u' hu hg hstep => ⟨hu.1.step hread hstep, hu.2.step hg hstep⟩)
      ⟨resumes_init, nofun⟩ hrun hguard
  exact ⟨hkept.2, hkept.1.ended⟩

end Delivery

/-- The filter rejects the last of three rows. -/
def rejectsLast : IncrementalTable Int (List Int) Unit :=
  { threeRows with filter := some fun r => decide (r.cursor = 0) }

theorem rejectsLast_typed : rejectsLast.Typed .integer [.integer] :=
  numberedTable_typed 3 fun _ _ hij => Nat.div_le_div_right hij.le

theorem delivered_exactly_rejectsLast : ∃ s, run (deliveryStep integerSchema integerColumns
      rejectsLast) .init [.read, .commit, .restart, .read] = some s ∧
    Runs.Guarded (deliveryStep integerSchema integerColumns rejectsLast)
      (ReadsUnrejected integerColumns rejectsLast) .init [.read, .commit, .restart, .read] ∧
    OnlyWanted rejectsLast s ∧ (s.ended = true → AllWanted rejectsLast s) := by
  obtain ⟨s, hs⟩ := isSome_iff_exists.mp (show (run (deliveryStep integerSchema integerColumns
    rejectsLast) .init [.read, .commit, .restart, .read]).isSome = true by decide +kernel)
  have hguard : Runs.Guarded (deliveryStep integerSchema integerColumns rejectsLast)
      (ReadsUnrejected integerColumns rejectsLast) .init [.read, .commit, .restart, .read] := by
    decide +kernel
  exact ⟨s, hs, hguard, delivered_exactly_of_unrejected plainServer .integer [.integer]
    integerSchema rejectsLast (cons_ne_nil _ _) rejectsLast_typed _ s hs hguard⟩

/-- **No wanted row is skipped** where the rows' texts stand for them.  Whatever is read, committed
and started again, a row that passes the filter is on a page, or every page read from the position
of the last page shows it; once the page loop has ended it is on a page. -/
theorem none_skipped {C K V : Type*} [LinearOrder C] [LinearOrder K]
    {schema : WireSchema (CursorRow C K V)} {cols : CursorColumns C K} {t : IncrementalTable C K V}
    (hread : ReadsBack cols t) (s : Reachable (deliveryStep schema cols t) .init) :
    CoversFrom cols t s.1.pages ∧ (s.1.ended = false ∨ AllWanted t s.1) := by
  have h : Resumes cols t s.1 := s.keeps resumes_init fun _ _ _ => Resumes.step hread
  refine ⟨h.covers _ prefix_rfl, ?_⟩
  cases hended : s.1.ended with
  | false => exact .inl rfl
  | true => exact .inr (h.ended hended)

theorem none_skipped_rejectsLast : ReadsBack integerColumns rejectsLast ∧
      ∀ s : Reachable (deliveryStep integerSchema integerColumns rejectsLast) .init,
        CoversFrom integerColumns rejectsLast s.1.pages ∧
          (s.1.ended = false ∨ AllWanted rejectsLast s.1) := by
  have hread : ReadsBack integerColumns rejectsLast := rejectsLast_typed.readsBack (cons_ne_nil _ _)
  exact ⟨hread, fun s => none_skipped hread s⟩

/-! ## A spilling group before a rejected row -/

/-- A position that shows less than a page has it all on one. -/
theorem pageFrom_short {C K V : Type*} [LinearOrder C] [LinearOrder K]
    {t : IncrementalTable C K V} {v : Resume C K} (hsome : t.seen v ≠ [])
    (hshort : (t.seen v).length ≤ incrementalPageSize) :
    ∃ q, pageFrom t v = .page q ∧ q.rows = t.seen v ∧ q.more = false := by
  have htake : (t.seen v).take incrementalPageSize = t.seen v := take_of_length_le hshort
  obtain ⟨last, hlast⟩ : ∃ last, (t.seen v).getLast? = some last :=
    ⟨_, getLast?_eq_some_getLast hsome⟩
  rw [← htake] at hlast
  refine ⟨_, pageFrom_eq_page.mpr ⟨_, hlast, rfl⟩, htake, ?_⟩
  rw [getElem?_eq_none hshort, isSome_none]

/-- A group one row longer than a page, and a row behind it that the filter rejects. -/
def spillingGroup : IncrementalTable Int (List Int) Unit :=
  { numberedTable 1002 (· / 1001) fun _ _ hij => Nat.div_le_div_right hij.le with
    filter := some fun r => decide (r.cursor = 0) }

/-- The row of a number. -/
def numberedRow (cursor n : Int) : CursorRow Int (List Int) Unit :=
  ⟨cursor, [n], ColumnKind.integer.cell cursor, [ColumnKind.integer.cell n], ()⟩

/-- The second page is read behind a tie-break, and holds the rejected row. -/
theorem spillingGroup_delivers_rejected : ∃ s,
    run (deliveryStep integerSchema integerColumns spillingGroup) .init [.read, .read] = some s ∧
    s.ended = true ∧ ∃ p ∈ s.pages, ∃ r ∈ p.rows, spillingGroup.wanted r = false := by
  have htakes : integerSchema.Takes spillingGroup := integerSchema_takes rfl
  have hlast : ((spillingGroup.seen .start).take incrementalPageSize).getLast? =
      some (numberedRow 0 999) := by decide +kernel
  have hlook : (spillingGroup.seen .start)[incrementalPageSize]? = some (numberedRow 0 1000) := by
    decide +kernel
  have htie : spillingGroup.seen (.tie 0 [999]) = [numberedRow 0 1000, numberedRow 1 1001] := by
    decide +kernel
  -- the first page saves the tie-break
  obtain ⟨p, hp, hpnext, hpmore⟩ : ∃ p, incrementalPage integerSchema integerColumns spillingGroup
      [] = .page p ∧ resumeOf integerColumns p.next = some (.tie 0 [999]) ∧ p.more = true := by
    refine ⟨_, htakes.page (v := .start) rfl (pageFrom_eq_page.mpr ⟨_, hlast, rfl⟩), ?_,
      by rw [hlook, isSome_some]⟩
    rw [hlook]
    decide +kernel
  obtain ⟨q, hq, hqrows, hqmore⟩ := pageFrom_short (t := spillingGroup)
    (v := .tie 0 [999]) (by rw [htie]; exact cons_ne_nil _ _) (by rw [htie]; decide)
  have hbatch := htakes.page hpnext hq
  refine ⟨⟨[], [p, q], q.next, true⟩, ?_, rfl, q, by simp [DeliveryState.pages],
    numberedRow 1 1001, by rw [hqrows, htie]; simp, rfl⟩
  have hfirst : deliveryStep integerSchema integerColumns spillingGroup .init .read =
      some ⟨[], [p], p.next, false⟩ := by
    rw [deliveryStep_page (s := .init) rfl hp, hpmore]
    rfl
  have hsecond : deliveryStep integerSchema integerColumns spillingGroup
      ⟨[], [p], p.next, false⟩ .read = some ⟨[], [p, q], q.next, true⟩ := by
    rw [deliveryStep_page (s := ⟨[], [p], p.next, false⟩) rfl hbatch, hqmore]
    rfl
  rw [run_cons hfirst, run_cons hsecond, run]

end Urutau
