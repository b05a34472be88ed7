import Urutau.FanoutPasses

/-!
# The owners of a fan-out snapshot

What an owner is sent stays in the order it was queued, whatever is sent to it again: the rows
of a window come ahead of its marker and never come twice.  So as long as an owner has rows of
a read, in a window or on their way, it has not delivered the cycle of that read.
-/

namespace Urutau

open List

variable {K O : Type}

/-- What an owner took that is not acked, then what it has yet to take, as it was queued. -/
def OwnerSession.messages (x : OwnerSession K) : List (FanoutMessage K) :=
  x.unacked ++ x.ingest ++ x.wire ++ x.queue

/-- The rows behind a marker are of a later read. -/
def FanoutMessage.Before : FanoutMessage K → FanoutMessage K → Prop
  | .closes _ _ _ read, .rows _ _ read' => read < read'
  | _, _ => True

/-- Whatever comes before a message without rows. -/
theorem FanoutMessage.before_of_not_rows {m : FanoutMessage K} (hm : m.isRows = false)
    (a : FanoutMessage K) : a.Before m := by
  cases m with
  | rows chunk keys read => cases hm
  | live change key inWindow => cases a <;> trivial
  | closes seq chunk pending read => cases a <;> trivial

namespace FanoutState

/-! ## A later state -/

/-- The reads, the log and the changes taken only grow. -/
structure Extends (s t : FanoutState K O) : Prop where
  reads : s.reads <+: t.reads
  log : s.log <+: t.log
  applied : s.applied ⊆ t.applied

variable {s t : FanoutState K O}

theorem Extends.refl_of_eq (hreads : t.reads = s.reads) (hlog : t.log = s.log)
    (happlied : t.applied = s.applied) : Extends s t :=
  ⟨hreads ▸ prefix_rfl, hlog ▸ prefix_rfl, happlied ▸ .refl _⟩

theorem getElem?_of_extends {A : Type} {l l' : List A} (h : l <+: l') {i : Nat} {a : A}
    (hi : l[i]? = some a) : l'[i]? = some a := by
  obtain ⟨more, rfl⟩ := h
  rw [getElem?_append_left (List.getElem?_eq_some_iff.mp hi).1, hi]

theorem Streamed.mono (hext : Extends s t) {k : K} (h : Streamed s k) : Streamed t k := by
  obtain ⟨i, hi, hk⟩ := h
  exact ⟨i, hext.applied hi, getElem?_of_extends hext.log hk⟩

theorem mem_log_drop_mono (hext : Extends s t) {n : Nat} {k : K} (h : k ∈ s.log.drop n) :
    k ∈ t.log.drop n := by
  obtain ⟨more, hmore⟩ := hext.log
  rw [← hmore, drop_append]
  exact mem_append_left _ h

theorem Superseded.mono (hext : Extends s t) {r : ChunkRead K} {k : K} (h : Superseded s r k) :
    Superseded t r k :=
  h.imp (mem_log_drop_mono hext) (Streamed.mono hext)

/-! ## What an owner has -/

variable [DecidableEq O] {su : FanoutSetup K O}

/-- The read is under way, or the owner has yet to deliver its cycle. -/
def Awaited (s : FanoutState K O) (o : O) (n : Nat) : Prop :=
  (∃ chunk, s.stage = .reading chunk n) ∨ ∃ cy ∈ s.cycles, cy.read = n ∧ o ∉ cy.delivered

variable (su) in
/-- Rows an owner holds, or is sent: its share of a read it still owes. -/
structure ShareSound (s : FanoutState K O) (o : O) (chunk : Nat) (keys : List K) (n : Nat) :
    Prop where
  owner : o ∈ su.owners
  read : ∃ r, s.reads[n]? = some r ∧ r.chunk = chunk ∧ keys = shareOf su r.keys o
  awaited : Awaited s o n

/-- A marker names its cycle, while the cycle is there. -/
structure MarkerSound (s : FanoutState K O) (seq chunk : Nat) (pending : List Nat) (n : Nat) :
    Prop where
  numbered : 0 < seq ∧ seq < s.nextSeq
  read : ∃ r, s.reads[n]? = some r ∧ r.chunk = chunk
  cycle : ∀ cy ∈ s.cycles, cy.seq = seq → cy.chunk = chunk ∧ cy.read = n ∧ cy.remaining = pending

variable (su) in
def MessageSound (s : FanoutState K O) (o : O) : FanoutMessage K → Prop
  | .rows chunk keys n => ShareSound su s o chunk keys n
  | .live i key _ => s.log[i]? = some key
  | .closes seq chunk pending n => MarkerSound s seq chunk pending n

variable (su) in
/-- A window an owner holds.  The stream carries every key touched in it. -/
structure WindowSound (s : FanoutState K O) (o : O) (w : HeldWindow K) : Prop where
  share : ShareSound su s o w.chunk w.keys w.read
  touched : ∀ k ∈ w.touched, Streamed s k

variable (su) in
structure SessionSound (s : FanoutState K O) (o : O) (x : OwnerSession K) : Prop where
  taken : ∀ m ∈ x.unacked ++ x.ingest, m.isRows = false
  order : x.messages.Pairwise FanoutMessage.Before
  messages : ∀ m ∈ x.messages, MessageSound su s o m
  windows : ∀ w ∈ x.windows, WindowSound su s o w

/-! ## The owners a step does not touch -/

variable (su) in
/-- What a step must keep for the owners it does not touch. -/
structure Carries (s t : FanoutState K O) (o : O) : Prop where
  grown : Extends s t
  awaited : o ∈ su.owners → ∀ n, Awaited s o n → Awaited t o n
  marker : ∀ seq chunk pending n, MarkerSound s seq chunk pending n →
    MarkerSound t seq chunk pending n

variable {o : O}

omit [DecidableEq O] in
/-- The stage and the cycles stay. -/
theorem Carries.same (hext : Extends s t) (hstage : t.stage = s.stage)
    (hcycles : t.cycles = s.cycles) (hseq : t.nextSeq = s.nextSeq) : Carries su s t o where
  grown := hext
  awaited _ n ha := by
    unfold Awaited at ha ⊢
    rwa [hstage, hcycles]
  marker _ _ _ _ hm := by
    obtain ⟨r, hr, hchunk⟩ := hm.read
    exact ⟨hseq ▸ hm.numbered, ⟨r, getElem?_of_extends hext.reads hr, hchunk⟩, hcycles ▸ hm.cycle⟩

theorem ShareSound.carried (hc : Carries su s t o) {chunk n : Nat} {keys : List K}
    (h : ShareSound su s o chunk keys n) : ShareSound su t o chunk keys n := by
  obtain ⟨r, hr, hshare⟩ := h.read
  exact ⟨h.owner, ⟨r, getElem?_of_extends hc.grown.reads hr, hshare⟩,
    hc.awaited h.owner n h.awaited⟩

variable {m : FanoutMessage K}

theorem MessageSound.carried (hc : Carries su s t o) (h : MessageSound su s o m) :
    MessageSound su t o m := by
  cases m with
  | rows chunk keys n => exact ShareSound.carried hc h
  | live i key inWindow => exact getElem?_of_extends hc.grown.log h
  | closes seq chunk pending n => exact hc.marker seq chunk pending n h

variable {x y : OwnerSession K}

section Steps

variable (h : SessionSound su s o x)

include h

/-- A session stays sound. -/
theorem SessionSound.carried (hc : Carries su s t o) : SessionSound su t o x where
  taken := h.taken
  order := h.order
  messages m hm := (h.messages m hm).carried hc
  windows w hw := ⟨(h.windows w hw).share.carried hc,
    fun k hk => ((h.windows w hw).touched k hk).mono hc.grown⟩

/-! ## One owner's steps -/

/-- A session with fewer messages, in the same order. -/
theorem SessionSound.of_sublist (hsub : y.messages.Sublist x.messages)
    (htaken : ∀ m ∈ y.unacked ++ y.ingest, m.isRows = false)
    (hwindows : ∀ w ∈ y.windows, WindowSound su s o w) : SessionSound su s o y where
  taken := htaken
  order := h.order.sublist hsub
  messages m hm := h.messages m (hsub.subset hm)
  windows := hwindows

attribute [local simp] OwnerSession.messages

/-- A sound message comes last in the queue. -/
theorem SessionSound.queued (hm : MessageSound su s o m) (hbefore : ∀ a ∈ x.messages, a.Before m) :
    SessionSound su s o { x with queue := x.queue ++ [m] } := by
  have hmessages : OwnerSession.messages { x with queue := x.queue ++ [m] } =
      x.messages ++ [m] := by
    simp
  refine ⟨h.taken, ?_, ?_, h.windows⟩
  · rw [hmessages]
    exact Runs.pairwise_concat.mpr ⟨h.order, hbefore⟩
  · rw [hmessages]
    exact Runs.forall_mem_concat.mpr ⟨h.messages, hm⟩

variable {rest : List (FanoutMessage K)}

/-- A message is put on the wire. -/
theorem SessionSound.send (hqueue : x.queue = m :: rest) :
    SessionSound su s o { x with queue := rest, wire := x.wire ++ [m] } := by
  refine h.of_sublist ?_ h.taken h.windows
  simp [hqueue]

/-- An ack takes messages off the redelivery list. -/
theorem SessionSound.ack (n : Nat) :
    SessionSound su s o { x with unacked := x.unacked.eraseIdx n } := by
  have hsub := eraseIdx_sublist x.unacked n
  refine h.of_sublist ?_ (fun m hm => h.taken m ?_) h.windows
  · exact ((hsub.append_right _).append_right _).append_right _
  · exact (hsub.append_right _).subset hm

/-- What a lost session had is queued again. -/
theorem SessionSound.lose : SessionSound su s o x.lose := by
  refine h.of_sublist ?_ nofun nofun
  exact filter_sublist.append_right _

/-- Rows received are in a window. -/
theorem SessionSound.receive (hy : x.receive = some y) : SessionSound su s o y := by
  unfold OwnerSession.receive at hy
  split at hy
  · cases hy
  · rename_i chunk keys read rest hwire
    cases hy
    refine h.of_sublist ?_ h.taken (fun w hw => ?_)
    · simp [hwire]
    unfold OwnerSession.addWindowRows at hw
    split at hw
    · exact h.windows w hw
    rcases mem_append.mp hw with hold | hnew
    · exact h.windows w hold
    · cases mem_singleton.mp hnew
      refine ⟨h.messages (.rows chunk keys read) ?_, nofun⟩
      simp [hwire]
  · rename_i m rest hnotRows hwire
    cases hy
    refine h.of_sublist ?_ ?_ h.windows
    · simp [hwire]
    rw [← append_assoc]
    refine Runs.forall_mem_concat.mpr ⟨h.taken, ?_⟩
    cases m with
    | rows chunk keys read => exact (hnotRows chunk keys read rfl).elim
    | live change key inWindow => rfl
    | closes seq chunk pending read => rfl

/-- The head of the ingest channel is taken: the messages are the same, in the same order. -/
theorem SessionSound.taken_of_ingest (hingest : x.ingest = m :: rest)
    (windows : List (HeldWindow K)) :
    OwnerSession.messages
        { x with ingest := rest, unacked := x.unacked ++ [m], windows := windows } = x.messages ∧
      ∀ m' ∈ x.unacked ++ [m] ++ rest, m'.isRows = false := by
  refine ⟨by simp [hingest], fun m' hm' => h.taken m' ?_⟩
  rw [hingest]
  simpa using hm'

omit h in
/-- A live change touches its key in every window. -/
theorem mem_touch [DecidableEq K] {windows : List (HeldWindow K)} {key : K} {w : HeldWindow K}
    (hw : w ∈ OwnerSession.touch windows key) : ∃ w₀ ∈ windows,
      w.chunk = w₀.chunk ∧ w.keys = w₀.keys ∧ w.read = w₀.read ∧
        ∀ k ∈ w.touched, k ∈ w₀.touched ∨ k = key := by
  obtain ⟨w₀, hmem, rfl⟩ := mem_map.mp hw
  refine ⟨w₀, hmem, ?_⟩
  split
  · refine ⟨rfl, rfl, rfl, fun k hk => ?_⟩
    simpa using hk
  · exact ⟨rfl, rfl, rfl, fun k hk => .inl hk⟩

/-- A live change is taken: it touches the windows, and from here on the stream carries its
key. -/
theorem SessionSound.live [DecidableEq K] (hc : Carries su s t o)
    {change : Nat} {key : K} {inWindow : Bool}
    (hingest : x.ingest = .live change key inWindow :: rest) (happlied : change ∈ t.applied) :
    SessionSound su t o { x with
      ingest := rest
      unacked := x.unacked ++ [.live change key inWindow]
      windows := if inWindow then OwnerSession.touch x.windows key else x.windows } := by
  have hkey : t.log[change]? = some key := by
    refine getElem?_of_extends hc.grown.log (h.messages (.live change key inWindow) ?_)
    simp [hingest]
  obtain ⟨hmessages, htaken⟩ := h.taken_of_ingest hingest
    (if inWindow then OwnerSession.touch x.windows key else x.windows)
  refine (h.carried hc).of_sublist (hmessages ▸ .refl _) htaken fun w hw => ?_
  split at hw
  · obtain ⟨w₀, hmem, hchunk, hkeys, hread, htouched⟩ := mem_touch hw
    have hw₀ := (h.carried hc).windows w₀ hmem
    refine ⟨?_, fun k hk => ?_⟩
    · rw [hchunk, hkeys, hread]
      exact hw₀.share
    · rcases htouched k hk with hold | rfl
      · exact hw₀.touched k hold
      · exact ⟨change, happlied, hkey⟩
  · exact (h.carried hc).windows w hw

/-- A marker is taken.  The rows behind it are of later reads, and its own window is closed, so
what is left is of other reads. -/
theorem SessionSound.closed {seq chunk n : Nat} {pending : List Nat}
    (hingest : x.ingest = .closes seq chunk pending n :: rest) (hgrown : Extends s t)
    (hawaited : ∀ n', n' ≠ n → Awaited s o n' → Awaited t o n')
    (hmarker : ∀ seq chunk pending n, MarkerSound s seq chunk pending n →
      MarkerSound t seq chunk pending n) :
    SessionSound su t o { x with
      ingest := rest
      unacked := x.unacked ++ [.closes seq chunk pending n]
      windows := x.windows.filter (·.chunk ≠ chunk) } := by
  obtain ⟨hmessages, htaken⟩ := h.taken_of_ingest hingest (x.windows.filter (·.chunk ≠ chunk))
  have hmine : MarkerSound s seq chunk pending n := by
    refine h.messages (.closes seq chunk pending n) ?_
    simp [hingest]
  have hshare : ∀ chunk' keys n', n' ≠ n → ShareSound su s o chunk' keys n' →
      ShareSound su t o chunk' keys n' := by
    intro chunk' keys n' hne hold
    obtain ⟨r, hr, hkeys⟩ := hold.read
    exact ⟨hold.owner, ⟨r, getElem?_of_extends hgrown.reads hr, hkeys⟩,
      hawaited n' hne hold.awaited⟩
  have hbehind : ∀ m ∈ x.wire ++ x.queue, (FanoutMessage.closes seq chunk pending n).Before m := by
    have horder := h.order
    rw [OwnerSession.messages, append_assoc _ x.wire, pairwise_append] at horder
    exact horder.2.2 _ (by simp [hingest])
  refine ⟨htaken, hmessages ▸ h.order, fun m hm => ?_, fun w hw => ?_⟩
  · rw [hmessages] at hm
    have hold := h.messages m hm
    cases m with
    | live i key inWindow => exact getElem?_of_extends hgrown.log hold
    | closes seq' chunk' pending' n' => exact hmarker seq' chunk' pending' n' hold
    | rows chunk' keys n' =>
      refine hshare chunk' keys n' ?_ hold
      rw [OwnerSession.messages, append_assoc _ x.wire] at hm
      rcases mem_append.mp hm with htook | hwait
      · exact (nomatch h.taken _ htook)
      · exact Nat.ne_of_gt (hbehind _ hwait)
  · obtain ⟨hmem, hchunk⟩ := mem_filter.mp hw
    have hold := h.windows w hmem
    refine ⟨hshare _ _ _ (fun heq => ?_) hold.share, fun k hk => (hold.touched k hk).mono hgrown⟩
    obtain ⟨r, hr, hrchunk⟩ := hmine.read
    obtain ⟨r', hr', hr'chunk, -⟩ := hold.share.read
    rw [heq, hr] at hr'
    cases hr'
    exact (of_decide_eq_true hchunk) (hr'chunk.symm.trans hrchunk)

end Steps

end FanoutState

end Urutau
