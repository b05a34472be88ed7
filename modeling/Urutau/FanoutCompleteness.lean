import Urutau.FanoutSessions

/-!
# Completeness of the fan-out snapshot

On a staged table every row that was read is in the sink, is superseded, or is of a chunk
still open.  A cycle that every owner delivered, and none lost, has every row of its read that
no live change touched; what an earlier read of the chunk had and this one has not was changed
in between.  A snapshot that has succeeded has no chunk open.
-/

namespace Urutau

open List OwnerSession WindowCycle Option Runs

variable {K O : Type}

namespace FanoutState

variable [DecidableEq O] {su : FanoutSetup K O}

variable (su) in
/-- A cycle that is not lost has what the owners that delivered it had of its read; and its
read is the last of its chunk. -/
structure CycleSound (s : FanoutState K O) (cy : WindowCycle K O) : Prop where
  read : ∃ r, s.reads[cy.read]? = some r ∧ r.chunk = cy.chunk ∧
    (cy.lost = false → ∀ k ∈ r.keys, su.ownerOf k ∈ cy.delivered →
      ⟨su.ownerOf k, k, cy.read⟩ ∈ cy.rows ∨ Superseded s r k)
  latest : ∀ n r, cy.read < n → s.reads[n]? = some r → r.chunk ≠ cy.chunk

variable (su) in
/-- The reads against the source.  A key that was read and is not there any more was changed
since, and a later read of its chunk has it unless it was changed in between. -/
structure ReadSound (s : FanoutState K O) : Prop where
  seen : ∀ r ∈ s.reads, r.seen ≤ s.log.length
  inChunk : ∀ r ∈ s.reads, ∀ k ∈ r.keys, su.chunkOf k = r.chunk
  kept : ∀ r ∈ s.reads, ∀ k ∈ r.keys, k ∈ s.log.drop r.seen ∨ k ∈ s.source
  again : s.reads.Pairwise fun a b => a.seen ≤ b.seen ∧
    (a.chunk = b.chunk → ∀ k ∈ a.keys, k ∈ s.log.drop a.seen ∨ k ∈ b.keys)
  stage : ∀ chunk n, s.stage = .reading chunk n → n + 1 = s.reads.length ∧
    ∃ r, s.reads[n]? = some r ∧ r.chunk = chunk

variable (su) in
structure FanoutSound (s : FanoutState K O) : Prop where
  pass : PassSound su s
  reads : ReadSound su s
  cycles : ∀ cy ∈ s.committing.toList ++ s.cycles, CycleSound su s cy
  sessions : ∀ o, SessionSound su s o (s.sessions o)
  accounted : ∀ n r, s.reads[n]? = some r → ∀ k ∈ r.keys,
    Durable su s n k ∨ Superseded s r k ∨ r.chunk ∈ openChunks su s
  lost : ∀ c ∈ s.lostChunks, c ∈ openChunks su s

variable {s t : FanoutState K O}

/-- The invariant gives the completeness. -/
theorem FanoutSound.complete (h : FanoutSound su s) : Complete su s := by
  refine ⟨fun hdone n r hr k hk => ?_, fun c hc => h.pass.recorded c (h.lost c hc)⟩
  rcases h.accounted n r hr k hk with hdurable | hsuperseded | hopen
  · exact .inl hdurable
  · exact .inr hsuperseded
  · rw [h.pass.finished hdone] at hopen
    exact (not_mem_nil hopen).elim

variable {cy : WindowCycle K O}

omit [DecidableEq O] in
theorem CycleSound.mono (hext : Extends s t) (hreads : t.reads = s.reads) (h : CycleSound su s cy) :
    CycleSound su t cy := by
  obtain ⟨r, hr, hchunk, hrows⟩ := h.read
  refine ⟨⟨r, hreads ▸ hr, hchunk, fun hlost k hk ho => ?_⟩, hreads ▸ h.latest⟩
  exact (hrows hlost k hk ho).imp_right (Superseded.mono hext)

omit [DecidableEq O] in
theorem Durable.mono (hrows : s.sinkRows ⊆ t.sinkRows) {n : Nat} {k : K} (h : Durable su s n k) :
    Durable su t n k := by
  obtain ⟨row, hrow, hrest⟩ := h
  exact ⟨row, hrows hrow, hrest⟩

variable {o : O}

section Steps

variable (h : FanoutSound su s)

include h

/-- Reads, cycles and rows in the sink stay, and no chunk is settled: the rows stay accounted
for. -/
theorem FanoutSound.kept (hext : Extends s t) (hpass : PassSound su t) (hreads : ReadSound su t)
    (hsame : t.reads = s.reads)
    (hcycles : ∀ cy ∈ t.committing.toList ++ t.cycles, CycleSound su s cy)
    (hrows : t.sinkRows = s.sinkRows) (hopen : openChunks su t = openChunks su s)
    (hsessions : ∀ o, SessionSound su t o (t.sessions o))
    (hlost : ∀ c ∈ t.lostChunks, c ∈ openChunks su s) : FanoutSound su t := by
  refine ⟨hpass, hreads, fun cy hcy => (hcycles cy hcy).mono hext hsame, hsessions,
    fun n r hr k hk => ?_, fun c hc => hopen ▸ hlost c hc⟩
  rw [hsame] at hr
  rw [hopen]
  exact (h.accounted n r hr k hk).imp (Durable.mono (hrows ▸ .refl _))
    (Or.imp_left (Superseded.mono hext))

omit h in
/-- One owner's session is replaced. -/
theorem sessions_set (hcarries : ∀ o', o' ≠ o → Carries su s t o')
    (h : ∀ o, SessionSound su s o (s.sessions o)) {x : OwnerSession K}
    (hx : SessionSound su t o x) (o' : O) : SessionSound su t o' (s.setSession o x o') := by
  by_cases ho : o' = o
  · subst ho
    simp only [setSession, if_true]
    exact hx
  · simp only [setSession, ho, if_false]
    exact (h o').carried (hcarries o' ho)

omit h in
/-- A message is queued for each of some owners. -/
theorem sessions_enqueue (hcarries : ∀ o, Carries su s t o)
    (h : ∀ o, SessionSound su s o (s.sessions o)) {p : O → Prop} [DecidablePred p]
    {m : O → FanoutMessage K}
    (hm : ∀ o, p o → MessageSound su t o (m o) ∧ ∀ a ∈ (s.sessions o).messages, a.Before (m o))
    (o : O) :
    SessionSound su t o (s.enqueue (fun o => if p o then [m o] else []) o) := by
  have hold := (h o).carried (hcarries o)
  by_cases ho : p o
  · simp only [enqueue, ho, if_true]
    exact hold.queued (hm o ho).1 (hm o ho).2
  · simp only [enqueue, ho, if_false, append_nil]
    exact hold

/-- An owner's session changes and nothing else that matters does. -/
theorem FanoutSound.session {x : OwnerSession K} (hx : SessionSound su s o x)
    {lostChunks : List Nat} (hlost : ∀ c ∈ lostChunks, c ∈ openChunks su s) :
    FanoutSound su { s with sessions := s.setSession o x, lostChunks } := by
  have hcarries : ∀ o', Carries su s { s with sessions := s.setSession o x, lostChunks } o' :=
    fun _ => .same (.refl_of_eq rfl rfl rfl) rfl rfl rfl
  exact h.kept (hcarries o).grown (h.pass.unmoved rfl) { h.reads with } rfl h.cycles
    rfl rfl (sessions_set (fun o' _ => hcarries o') h.sessions (hx.carried (hcarries o))) hlost

/-- The source changes a row: a key that was read and is gone was changed since. -/
theorem FanoutSound.change [DecidableEq K] (key : K) (present : Bool) :
    FanoutSound su (s.change key present) := by
  have hext : Extends s (s.change key present) := ⟨prefix_rfl, prefix_append _ _, .refl _⟩
  have hreads : ReadSound su (s.change key present) := by
    refine ⟨fun r hr => ?_, h.reads.inChunk, fun r hr k hk => ?_, ?_, h.reads.stage⟩
    · have hseen := h.reads.seen r hr
      simp only [FanoutState.change, length_append]
      omega
    · rcases h.reads.kept r hr k hk with hchanged | hthere
      · exact .inl (mem_log_drop_mono hext hchanged)
      by_cases hkey : k = key
      · simp only [FanoutState.change, hkey, drop_append_of_le_length (h.reads.seen r hr)]
        simp
      · cases present <;> simp [FanoutState.change, hthere, hkey]
    · exact h.reads.again.imp fun hab =>
        ⟨hab.1, fun hchunk k hk => (hab.2 hchunk k hk).imp_left (mem_log_drop_mono hext)⟩
  exact h.kept hext (h.pass.unmoved rfl) hreads rfl h.cycles rfl rfl
    (fun o => (h.sessions o).carried (.same hext rfl rfl rfl)) h.lost

variable {key : K} {chunk n seq : Nat} {r : ChunkRead K} {rest : List (FanoutMessage K)}
  {cycles : List (WindowCycle K O)}

/-- A change of the stream is queued for the owner of its key. -/
theorem FanoutSound.pumped (hkey : s.log[s.pumped]? = some key) (inWindow : Bool) :
    FanoutSound su { s with
      sessions := s.enqueue fun o =>
        if o = su.ownerOf key then [.live s.pumped key inWindow] else []
      pumped := s.pumped + 1 } := by
  refine h.kept (.refl_of_eq rfl rfl rfl) (h.pass.unmoved rfl) { h.reads with } rfl
    h.cycles rfl rfl (sessions_enqueue (fun o => ?_) h.sessions fun o _ => ?_) h.lost
  · exact .same (.refl_of_eq rfl rfl rfl) rfl rfl rfl
  · exact ⟨hkey, fun a _ => FanoutMessage.before_of_not_rows rfl a⟩

/-- A change pumped is routed to its owner. -/
theorem FanoutSound.pump (ht : pump su s = some t) : FanoutSound su t := by
  unfold FanoutState.pump at ht
  split at ht
  · obtain ⟨key, hkey, rfl⟩ := map_eq_some_iff.mp ht
    exact h.pumped hkey false
  · cases ht
  · obtain ⟨key, hkey, rfl⟩ := map_eq_some_iff.mp ht
    exact h.pumped hkey true

/-- A gate put up reads nothing. -/
theorem FanoutSound.gateOn (ht : s.gateOn = some t) : FanoutSound su t := by
  have hpass := h.pass.gateOn ht
  unfold FanoutState.gateOn at ht
  split at ht
  · rename_i chunk rest hstage htodo
    cases ht
    have hopen : openChunks su { s with stage := .gated chunk, todo := rest } =
        openChunks su s := by
      refine openChunks_congr ?_ ⟨rfl, rfl⟩ rfl
      simp [underway, line, ahead, stageChunks, hstage, htodo]
    have hreads : ReadSound su { s with stage := .gated chunk, todo := rest } :=
      { h.reads with stage := fun _ _ hread => by cases hread }
    refine h.kept (.refl_of_eq rfl rfl rfl) hpass hreads rfl
      h.cycles rfl hopen (fun o => (h.sessions o).carried ⟨.refl_of_eq rfl rfl rfl,
        fun _ n ha => ?_, fun _ _ _ _ hm => ⟨hm.numbered, hm.read, hm.cycle⟩⟩) h.lost
    rcases ha with ⟨chunk', hread⟩ | hcycle
    · rw [hstage] at hread
      cases hread
    · exact .inr hcycle
  · cases ht

/-! ## A chunk is read and released -/

omit h in
/-- The chunk being taken is not that of a cycle. -/
theorem PassSound.cycle_chunk_ne (h : PassSound su s) (hcy : cy ∈ s.committing.toList ++ s.cycles)
    (hchunk : chunk ∈ s.ahead) : cy.chunk ≠ chunk := by
  have hnodup := h.underway_nodup
  rw [underway, nodup_append] at hnodup
  refine hnodup.2.2 cy.chunk ?_ chunk hchunk
  exact mem_map.mpr ⟨(cy.chunk, cy.remaining), mem_map.mpr ⟨cy, hcy, rfl⟩, rfl⟩

omit h in
theorem getElem?_concat_cases {A : Type} {l : List A} {a b : A}
    (h : (l ++ [a])[n]? = some b) : l[n]? = some b ∨ (n = l.length ∧ b = a) := by
  rcases Nat.lt_trichotomy n l.length with hlt | heq | hgt
  · rw [getElem?_append_left hlt] at h
    exact .inl h
  · subst heq
    rw [getElem?_concat_length] at h
    exact .inr ⟨rfl, (some.inj h).symm⟩
  · have hnone : (l ++ [a])[n]? = none := getElem?_eq_none (by simp; omega)
    rw [hnone] at h
    cases h

variable (su) in
/-- What the SELECT of a chunk reads. -/
def readOf (s : FanoutState K O) (chunk : Nat) : ChunkRead K where
  chunk
  seen := s.log.length
  keys := s.source.filter (su.chunkOf · = chunk)

omit h in
/-- A scan: the rows go to their owners, the read is noted. -/
theorem scan_eq (ht : scan su s = some t) : ∃ chunk, s.stage = .gated chunk ∧ t = { s with
      sessions := s.enqueue fun o =>
        if o ∈ su.owners then
          [.rows chunk (shareOf su (readOf su s chunk).keys o) s.reads.length]
        else []
      reads := s.reads ++ [readOf su s chunk]
      stage := .reading chunk s.reads.length } := by
  unfold scan at ht
  split at ht
  · rename_i chunk hstage
    exact ⟨chunk, hstage, (some.inj ht).symm⟩
  · cases ht

omit [DecidableEq O] in
omit h in
/-- A new read has the chunk's rows. -/
theorem ReadSound.scanned (h : ReadSound su s) (chunk : Nat) (sessions : O → OwnerSession K) :
    ReadSound su { s with
      sessions := sessions
      reads := s.reads ++ [readOf su s chunk]
      stage := .reading chunk s.reads.length } := by
  refine ⟨forall_mem_concat.mpr ⟨h.seen, le_rfl⟩,
    forall_mem_concat.mpr ⟨h.inChunk, fun k hk => of_decide_eq_true (mem_filter.mp hk).2⟩,
    forall_mem_concat.mpr ⟨h.kept, fun k hk => .inr (mem_filter.mp hk).1⟩,
    pairwise_concat.mpr ⟨h.again, fun a ha => ?_⟩, fun chunk' n hs => ?_⟩
  · refine ⟨h.seen a ha, fun hchunk k hk => (h.kept a ha k hk).imp_right fun hthere => ?_⟩
    have hin := h.inChunk a ha k hk
    exact mem_filter.mpr ⟨hthere, decide_eq_true (hin.trans hchunk)⟩
  · cases hs
    exact ⟨by simp, readOf su s chunk, getElem?_concat_length, rfl⟩

omit [DecidableEq O] in
omit h in
/-- A read under way is the last one, and no cycle is of its chunk. -/
theorem CycleSound.scanned (hext : Extends s t)
    (hreads : t.reads = s.reads ++ [r]) (h : CycleSound su s cy) (hchunk : r.chunk ≠ cy.chunk) :
    CycleSound su t cy := by
  obtain ⟨r', hr', hchunk', hrows⟩ := h.read
  refine ⟨⟨r', getElem?_of_extends hext.reads hr', hchunk', fun hlost k hk ho =>
    (hrows hlost k hk ho).imp_right (Superseded.mono hext)⟩, fun n r'' hlt hn => ?_⟩
  rw [hreads] at hn
  rcases getElem?_concat_cases hn with hold | ⟨-, rfl⟩
  · exact h.latest n r'' hlt hold
  · exact hchunk

/-- A scan reads each key the source has. -/
theorem FanoutSound.scan (ht : scan su s = some t) : FanoutSound su t := by
  have hpass := h.pass.scan ht
  obtain ⟨chunk, hstage, ht⟩ := scan_eq ht
  have hahead : chunk ∈ s.ahead := by simp [ahead, stageChunks, hstage]
  have hreads : t.reads = s.reads ++ [readOf su s chunk] := by rw [ht]
  have hext : Extends s t := by
    subst ht
    exact ⟨prefix_append _ _, prefix_rfl, .refl _⟩
  have hopen : openChunks su t = openChunks su s := by
    subst ht
    refine openChunks_congr ?_ ⟨rfl, rfl⟩ rfl
    simp [underway, line, ahead, stageChunks, hstage]
  have hcarries : ∀ o, Carries su s t o := by
    refine fun o => ⟨hext, fun _ n ha => ?_, fun seq chunk' pending n hm => ?_⟩
    · rcases ha with ⟨chunk', hread⟩ | hcycle
      · rw [hstage] at hread
        cases hread
      · subst ht
        exact .inr hcycle
    · obtain ⟨r, hr, hchunk'⟩ := hm.read
      have hread := getElem?_of_extends hext.reads hr
      subst ht
      exact ⟨hm.numbered, ⟨r, hread, hchunk'⟩, hm.cycle⟩
  have hrows : ∀ o, o ∈ su.owners →
      MessageSound su t o (.rows chunk (shareOf su (readOf su s chunk).keys o) s.reads.length) ∧
        ∀ a ∈ (s.sessions o).messages,
          a.Before (.rows chunk (shareOf su (readOf su s chunk).keys o) s.reads.length) := by
    refine fun o ho => ⟨⟨ho, ⟨readOf su s chunk, ?_, rfl, rfl⟩, ?_⟩, fun a ha => ?_⟩
    · rw [hreads, getElem?_concat_length]
    · rw [ht]
      exact .inl ⟨chunk, rfl⟩
    · have hsound := (h.sessions o).messages a ha
      cases a with
      | rows _ _ _ => trivial
      | live _ _ _ => trivial
      | closes _ _ _ n =>
        obtain ⟨r, hr, -⟩ := MarkerSound.read hsound
        exact (List.getElem?_eq_some_iff.mp hr).1
  have haccounted : ∀ n r, t.reads[n]? = some r → ∀ k ∈ r.keys,
      Durable su t n k ∨ Superseded t r k ∨ r.chunk ∈ openChunks su t := by
    intro n r hr k hk
    rw [hreads] at hr
    rw [hopen]
    rcases getElem?_concat_cases hr with hold | ⟨-, rfl⟩
    · refine (h.accounted n r hold k hk).imp (Durable.mono ?_) (Or.imp_left (Superseded.mono hext))
      rw [ht]
      exact .refl _
    · exact .inr (.inr (h.pass.underway_open (mem_append_right _ hahead)))
  have hsessions := sessions_enqueue hcarries h.sessions hrows
  subst ht
  exact ⟨hpass, h.reads.scanned chunk _, fun cy hcy => (h.cycles cy hcy).scanned hext hreads
      (h.pass.cycle_chunk_ne hcy hahead).symm,
    hsessions, haccounted, fun c hc => hopen ▸ h.lost c hc⟩

/-- The read under way becomes a cycle, and its marker is queued for every owner. -/
theorem FanoutSound.release (hst : su.staged = true)
    (ht : release su s = some t) : FanoutSound su t := by
  have hpass := h.pass.release hst ht
  have hopen := openChunks_release hst ht
  obtain ⟨chunk, read, hstage, ht⟩ := release_staged hst ht
  obtain ⟨hlast, r, hr, hchunk⟩ := h.reads.stage chunk read hstage
  have hext : Extends s t := by
    subst ht
    exact .refl_of_eq rfl rfl rfl
  have hcarries : ∀ o, Carries su s t o := by
    refine fun o => ⟨hext, fun _ n ha => ?_, fun seq chunk' pending n hm => ?_⟩
    · subst ht
      rcases ha with ⟨chunk', hread⟩ | ⟨cy, hcy, hcycle⟩
      · rw [hstage] at hread
        cases hread
        exact .inr ⟨s.opened chunk read, mem_concat_self, rfl, not_mem_nil⟩
      · exact .inr ⟨cy, mem_append_left _ hcy, hcycle⟩
    · have hlt := hm.numbered
      subst ht
      refine ⟨⟨hlt.1, Nat.lt_succ_of_lt hlt.2⟩, hm.read, fun cy hcy hseq => ?_⟩
      rcases mem_append.mp hcy with hold | hnew
      · exact hm.cycle cy hold hseq
      · cases mem_singleton.mp hnew
        exact (Nat.ne_of_gt hlt.2 hseq).elim
  have hmarker : MarkerSound t s.nextSeq chunk
      (Pipeline.removeFromPending s.pending chunk) read := by
    subst ht
    refine ⟨⟨h.pass.started, Nat.lt_succ_self _⟩, ⟨r, hr, hchunk⟩, fun cy hcy hseq => ?_⟩
    rcases mem_append.mp hcy with hold | hnew
    · exact (Nat.ne_of_lt (h.pass.seq_lt hold) hseq).elim
    · cases mem_singleton.mp hnew
      exact ⟨rfl, rfl, rfl⟩
  have hcycles : ∀ cy ∈ t.committing.toList ++ t.cycles, CycleSound su s cy := by
    subst ht
    rw [← append_assoc]
    refine forall_mem_concat.mpr ⟨h.cycles, ⟨r, hr, hchunk, fun _ _ _ hk => by cases hk⟩,
      fun n r' hlt hn => ?_⟩
    have hbound : n < s.reads.length := (List.getElem?_eq_some_iff.mp hn).1
    simp only [opened] at hlt
    omega
  have hsessions := sessions_enqueue hcarries h.sessions (p := fun o => o ∈ su.owners)
    (m := fun _ => .closes s.nextSeq chunk (Pipeline.removeFromPending s.pending chunk) read)
    fun o _ => ⟨hmarker, fun a _ => FanoutMessage.before_of_not_rows rfl a⟩
  subst ht
  refine h.kept hext hpass { h.reads with stage := ?_ } rfl hcycles rfl hopen hsessions h.lost
  intro _ _ hread
  cases hread

/-! ## What an owner takes -/

/-- A live change is taken by its owner. -/
theorem FanoutSound.live [DecidableEq K] {change : Nat} {inWindow : Bool}
    (hingest : (s.sessions o).ingest = .live change key inWindow :: rest) (ht : t = { s with
      sessions := s.setSession o { s.sessions o with
        ingest := rest
        unacked := (s.sessions o).unacked ++ [.live change key inWindow]
        windows := if inWindow then touch (s.sessions o).windows key
          else (s.sessions o).windows }
      applied := s.applied ++ [change] }) : FanoutSound su t := by
  have hext : Extends s t := by
    subst ht
    exact ⟨prefix_rfl, prefix_rfl, subset_append_left _ _⟩
  have hcarries : ∀ o, Carries su s t o := by
    subst ht
    exact fun _ => .same hext rfl rfl rfl
  have happlied : change ∈ t.applied := by
    subst ht
    exact mem_concat_self
  have hsessions := sessions_set (fun o' _ => hcarries o') h.sessions
    ((h.sessions o).live (hcarries o) hingest happlied)
  subst ht
  exact h.kept hext (h.pass.unmoved rfl) { h.reads with } rfl h.cycles rfl rfl hsessions h.lost

omit [DecidableEq O] in
omit h in
/-- A marker with a cycle always makes its owner deliver: the rows left in its window, or that
the window is lost. -/
theorem closesBatch_of_cycle (hseq : 0 < seq) (pending : List Nat)
    (closed : Option (List (SnapshotRow K O))) :
    ∃ d, closesBatch seq pending closed = some d ∧ (∀ l, d.pending = some l → l = pending) ∧
      (d.windowLost = true ∨ (d.windowLost = false ∧ closed = some d.rows)) := by
  have hne : seq ≠ 0 := Nat.ne_of_gt hseq
  cases closed with
  | none =>
    refine ⟨⟨[], none, true⟩, by simp [closesBatch, hne], fun l hl => ?_, .inl rfl⟩
    cases hl
  | some rows =>
    refine ⟨⟨rows, carried pending, false⟩,
      by simp [closesBatch, hne], fun l hl => ?_, .inr ⟨rfl, rfl⟩⟩
    exact ((ite_none_left_eq_some.mp hl).2 |> some.inj).symm

variable {d : ClosedShare K O}

omit h in
/-- A cycle delivered to, or left as it is. -/
theorem mem_deliver (hcy : cy ∈ deliver cycles seq o d) :
    ∃ cy₀ ∈ cycles, (cy = cy₀ ∧ ¬ (cy₀.seq = seq ∧ o ∉ cy₀.delivered)) ∨
      (cy = cy₀.take o d ∧ cy₀.seq = seq ∧ o ∉ cy₀.delivered) := by
  obtain ⟨cy₀, hmem, rfl⟩ := mem_map.mp hcy
  refine ⟨cy₀, hmem, ?_⟩
  by_cases htake : cy₀.seq = seq ∧ o ∉ cy₀.delivered
  · exact .inr ⟨if_pos htake, htake⟩
  · exact .inl ⟨if_neg htake, htake⟩

omit h in
/-- A delivery keeps every cycle. -/
theorem deliver_mem (hcy : cy ∈ cycles) (seq : Nat) (o : O) (d : ClosedShare K O) :
    ∃ cy' ∈ deliver cycles seq o d, cy'.read = cy.read ∧
      ∀ o', o' ∉ cy.delivered → (o' = o → cy.seq ≠ seq) → o' ∉ cy'.delivered := by
  refine ⟨_, mem_map.mpr ⟨cy, hcy, rfl⟩, ?_⟩
  by_cases htake : cy.seq = seq ∧ o ∉ cy.delivered
  · rw [if_pos htake]
    refine ⟨rfl, fun o' ho' hother hmem => ?_⟩
    rcases mem_append.mp hmem with hold | hnew
    · exact ho' hold
    · exact hother (mem_singleton.mp hnew) htake.1
  · rw [if_neg htake]
    exact ⟨rfl, fun o' ho' _ => ho'⟩

/-- The window an owner closes for a cycle it has yet to deliver holds its share of the cycle's
read: no other read of the chunk is under way. -/
theorem FanoutSound.window_read {w : HeldWindow K}
    (hw : w ∈ (s.sessions o).windows) (hcy : cy ∈ s.cycles) (hchunk : w.chunk = cy.chunk) :
    w.read = cy.read := by
  obtain ⟨r, hr, hrchunk, -⟩ := ((h.sessions o).windows w hw).share.read
  have hcycle := h.cycles cy (mem_append_right _ hcy)
  rcases ((h.sessions o).windows w hw).share.awaited with ⟨chunk, hstage⟩ | ⟨cy', hcy', hread, -⟩
  · obtain ⟨-, r', hr', hchunk'⟩ := h.reads.stage chunk w.read hstage
    rw [hr] at hr'
    cases hr'
    have hahead : chunk ∈ s.ahead := by simp [ahead, stageChunks, hstage]
    have hne := h.pass.cycle_chunk_ne (mem_append_right _ hcy) hahead
    exact (hne (by rw [← hchunk, ← hrchunk, hchunk'])).elim
  · obtain ⟨r', hr', hchunk', -⟩ := (h.cycles cy' (mem_append_right _ hcy')).read
    rw [hread, hr] at hr'
    cases hr'
    have hsame : cy'.chunk = cy.chunk := by rw [← hchunk', hrchunk, hchunk]
    -- Of two cycles of one chunk the later read would be behind the earlier cycle.
    obtain ⟨r'', hr'', hchunk'', -⟩ := hcycle.read
    rcases Nat.lt_trichotomy w.read cy.read with hlt | heq | hgt
    · have hlatest := (h.cycles cy' (mem_append_right _ hcy')).latest cy.read r'' (hread ▸ hlt) hr''
      exact (hlatest (hchunk''.trans hsame.symm)).elim
    · exact heq
    · have hlatest := hcycle.latest w.read r hgt hr
      exact (hlatest (hrchunk.trans hchunk)).elim

/-- An owner's delivery of a cycle it has yet to deliver: what it held of the cycle's read and
no live change touched, or that it lost the window. -/
theorem FanoutSound.taken [DecidableEq K] (hcy : cy ∈ s.cycles)
    (hd : d.windowLost = true ∨ (d.windowLost = false ∧
      closeWindow o (s.sessions o).windows cy.chunk = some d.rows)) :
    CycleSound su s (cy.take o d) := by
  have hcycle := h.cycles cy (mem_append_right _ hcy)
  obtain ⟨r, hr, hchunk, hrows⟩ := hcycle.read
  refine ⟨⟨r, hr, hchunk, fun hlost k hk ho => ?_⟩, hcycle.latest⟩
  obtain ⟨hcylost, hdlost⟩ : cy.lost = false ∧ d.windowLost = false := by
    simpa [WindowCycle.take] using hlost
  rcases mem_append.mp ho with hold | hnew
  · exact (hrows hcylost k hk hold).imp_left (mem_append_left _)
  have howner := mem_singleton.mp hnew
  rcases hd with hbad | ⟨-, hclosed⟩
  · rw [hdlost] at hbad
    cases hbad
  obtain ⟨w, hfind, hwrows⟩ := map_eq_some_iff.mp hclosed
  have hw := mem_of_find?_eq_some hfind
  have hwchunk : w.chunk = cy.chunk := by simpa using find?_some hfind
  have hread := h.window_read hw hcy hwchunk
  have hsound := (h.sessions o).windows w hw
  obtain ⟨r', hr', -, hkeys⟩ := hsound.share.read
  rw [hread, hr] at hr'
  cases hr'
  have hheld : k ∈ w.keys := by
    rw [hkeys]
    exact mem_filter.mpr ⟨hk, decide_eq_true howner⟩
  by_cases htouched : k ∈ w.touched
  · exact .inr (.inr (hsound.touched k htouched))
  refine .inl (mem_append_right _ ?_)
  rw [← hwrows]
  refine mem_map.mpr ⟨k, mem_filter.mpr ⟨hheld, by simpa using htouched⟩, ?_⟩
  rw [howner, hread]
  rfl

/-- A Closes marker is taken by its owner. -/
theorem FanoutSound.closes [DecidableEq K] {pending : List Nat}
    (hingest : (s.sessions o).ingest = .closes seq chunk pending n :: rest)
    (hpending : ∀ l, d.pending = some l → l = pending)
    (hd : d.windowLost = true ∨ (d.windowLost = false ∧
      closeWindow o (s.sessions o).windows chunk = some d.rows))
    (ht : t = { s with
      cycles := deliver s.cycles seq o d
      sessions := s.setSession o { s.sessions o with
        ingest := rest
        unacked := (s.sessions o).unacked ++ [.closes seq chunk pending n]
        windows := (s.sessions o).windows.filter (·.chunk ≠ chunk) } }) : FanoutSound su t := by
  have hmine : MarkerSound s seq chunk pending n := by
    refine (h.sessions o).messages (.closes seq chunk pending n) ?_
    simp [messages, hingest]
  have hpass : PassSound su t := by
    refine h.pass.deliver (fun cy hcy hseq l hl => ?_) ht
    rw [(hmine.cycle cy hcy hseq).2.2]
    exact hpending l hl
  have hcycles : t.cycles = deliver s.cycles seq o d := by rw [ht]
  have hstage : t.stage = s.stage := by rw [ht]
  have hext : Extends s t := by
    subst ht
    exact .refl_of_eq rfl rfl rfl
  have hopen : openChunks su t = openChunks su s := by
    subst ht
    refine openChunks_congr ?_ ⟨rfl, rfl⟩ rfl
    simp only [underway, line, map_append, ahead]
    rw [map_deliver fun cy => rfl]
  have hawaited : ∀ o' n', (o' = o → n' ≠ n) → Awaited s o' n' → Awaited t o' n' := by
    intro o' n' hother ha
    rcases ha with ⟨chunk', hread⟩ | ⟨cy, hcy, hread, ho'⟩
    · exact .inl ⟨chunk', hstage.trans hread⟩
    · obtain ⟨cy', hcy', hread', hleft⟩ := deliver_mem hcy seq o d
      refine .inr ⟨cy', hcycles ▸ hcy', hread'.trans hread, hleft o' ho' fun heq hseq => ?_⟩
      exact hother heq (hread.symm.trans (hmine.cycle cy hcy hseq).2.1)
  have hmarker : ∀ seq' chunk' pending' n', MarkerSound s seq' chunk' pending' n' →
      MarkerSound t seq' chunk' pending' n' := by
    intro seq' chunk' pending' n' hm
    have hold : ∀ cy ∈ t.cycles, cy.seq = seq' →
        cy.chunk = chunk' ∧ cy.read = n' ∧ cy.remaining = pending' := by
      intro cy hcy hseq
      rw [hcycles] at hcy
      obtain ⟨cy₀, hmem, ⟨rfl, -⟩ | ⟨rfl, -⟩⟩ := mem_deliver hcy
      · exact hm.cycle cy hmem hseq
      · exact hm.cycle cy₀ hmem hseq
    subst ht
    exact ⟨hm.numbered, hm.read, hold⟩
  have hsound : ∀ cy ∈ t.committing.toList ++ t.cycles, CycleSound su s cy := by
    intro cy hcy
    rcases mem_append.mp hcy with hold | hnew
    · refine h.cycles cy (mem_append_left _ ?_)
      rwa [ht] at hold
    rw [hcycles] at hnew
    obtain ⟨cy₀, hmem, ⟨rfl, -⟩ | ⟨rfl, hseq, -⟩⟩ := mem_deliver hnew
    · exact h.cycles cy (mem_append_right _ hmem)
    · refine h.taken hmem ?_
      rw [(hmine.cycle cy₀ hmem hseq).1]
      exact hd
  have hclosed := (h.sessions o).closed hingest hext (fun n' hne => hawaited o n' fun _ => hne)
    hmarker
  have hsessions := sessions_set (fun o' ho => ⟨hext, fun _ n' => hawaited o' n' (absurd · ho),
    hmarker⟩) h.sessions hclosed
  subst ht
  exact h.kept hext hpass { h.reads with } rfl hsound rfl hopen hsessions h.lost

/-- A message processed is carried by its cycle. -/
theorem FanoutSound.process [DecidableEq K] (ht : s.process o = some t) : FanoutSound su t := by
  unfold FanoutState.process at ht
  dsimp only at ht
  split at ht
  · cases ht
  rename_i m rest hingest
  cases m with
  | rows chunk keys read =>
    have hnot := (h.sessions o).taken (.rows chunk keys read) (by simp [hingest])
    cases hnot
  | live change key inWindow =>
    cases ht
    exact h.live hingest rfl
  | closes seq chunk pending n =>
    have hmine : MarkerSound s seq chunk pending n := by
      refine (h.sessions o).messages (.closes seq chunk pending n) ?_
      simp [messages, hingest]
    have hpos := hmine.numbered.1
    obtain ⟨d, hbatch, hpending, hd⟩ := closesBatch_of_cycle hpos pending
      (closeWindow o (s.sessions o).windows chunk)
    simp only [hbatch, emit, Nat.ne_of_gt hpos] at ht
    cases ht
    exact h.closes hingest hpending hd rfl

/-- The chunk of rows an owner has is under way. -/
theorem FanoutSound.share_open {keys : List K} (hshare : ShareSound su s o chunk keys n) :
    chunk ∈ openChunks su s := by
  refine h.pass.underway_open ?_
  obtain ⟨r, hr, hchunk, -⟩ := hshare.read
  rcases hshare.awaited with ⟨chunk', hstage⟩ | ⟨cy, hcy, rfl, -⟩
  · obtain ⟨-, r', hr', hchunk'⟩ := h.reads.stage chunk' n hstage
    rw [hr] at hr'
    cases hr'
    refine mem_append_right _ ?_
    simp [ahead, stageChunks, hstage, ← hchunk, hchunk']
  · obtain ⟨r', hr', hchunk', -⟩ := (h.cycles cy (mem_append_right _ hcy)).read
    rw [hr] at hr'
    cases hr'
    refine mem_append_left _ (mem_map.mpr ⟨(cy.chunk, cy.remaining), ?_, ?_⟩)
    · exact mem_map.mpr ⟨cy, mem_append_right _ hcy, rfl⟩
    · rw [← hchunk, hchunk']

/-- A lost session's windows are noted lost. -/
theorem FanoutSound.lose (o : O) : FanoutSound su { s with
      sessions := s.setSession o (s.sessions o).lose
      lostChunks := s.lostChunks ++ (s.sessions o).lostWith } := by
  refine h.session (h.sessions o).lose fun c hc => ?_
  rcases mem_append.mp hc with hold | hnew
  · exact h.lost c hold
  rcases mem_append.mp hnew with hheld | hsent
  · obtain ⟨w, hw, rfl⟩ := mem_map.mp hheld
    exact h.share_open ((h.sessions o).windows w hw).share
  obtain ⟨m, hm, hchunk⟩ := mem_filterMap.mp hsent
  cases m with
  | rows chunk keys n =>
    cases hchunk
    refine h.share_open ((h.sessions o).messages (.rows c keys n) ?_)
    simp [messages, hm]
  | live change key inWindow => cases hchunk
  | closes seq chunk pending n => cases hchunk

/-! ## Cycles leave the line -/

/-- A cycle that lost a share is dropped. -/
theorem FanoutSound.resolve (ht : resolve su s = some t) : FanoutSound su t := by
  have hpass := h.pass.resolve ht
  obtain ⟨hopen, -⟩ := openChunks_resolve h.pass ht
  obtain ⟨cy, rest, pass, committing, -, hcycles, hcomplete, -, hcommitted, rfl⟩ :=
    resolve_eq h.pass ht
  have hmem : ∀ cy' ∈ rest, cy' ∈ s.cycles := fun _ hcy' => hcycles ▸ mem_cons_of_mem _ hcy'
  refine h.kept (.refl_of_eq rfl rfl rfl) hpass { h.reads with } rfl (fun cy' hcy' => ?_) rfl hopen
    (fun o => (h.sessions o).carried ⟨.refl_of_eq rfl rfl rfl, fun ho n ha => ?_,
      fun seq chunk pending n hm =>
        ⟨hm.numbered, hm.read, fun cy' hcy' => hm.cycle cy' (hmem cy' hcy')⟩⟩) h.lost
  · refine h.cycles cy' (mem_append_right _ ?_)
    rcases mem_append.mp hcy' with hnow | hbehind
    · rw [hcycles, (hcommitted cy' (mem_toList.mp hnow)).1]
      exact mem_cons_self
    · exact hmem cy' hbehind
  · refine ha.imp_right fun ⟨cy', hcy', hread, hleft⟩ => ?_
    rw [hcycles] at hcy'
    rcases mem_cons.mp hcy' with rfl | hbehind
    · exact (hleft (of_decide_eq_true (all_eq_true.mp hcomplete o ho))).elim
    · exact ⟨cy', hbehind, hread, hleft⟩

/-- What an earlier read of a committed chunk had is settled too: the cycle's read has it, or it
was changed since. -/
theorem FanoutSound.settled (hcommitting : s.committing = some cy) (hr : s.reads[n]? = some r)
    (hchunk : r.chunk = cy.chunk) {k : K} (hk : k ∈ r.keys) :
    (⟨su.ownerOf k, k, cy.read⟩ ∈ cy.rows ∧ n ≤ cy.read) ∨ Superseded s r k := by
  have hcycle := h.cycles cy (by simp [hcommitting])
  obtain ⟨-, hlost, hcomplete⟩ := h.pass.whole cy hcommitting
  have hdelivered : su.ownerOf k ∈ cy.delivered :=
    of_decide_eq_true (all_eq_true.mp hcomplete _ (su.owned k))
  obtain ⟨r', hr', hchunk', hrows⟩ := hcycle.read
  rcases Nat.lt_trichotomy n cy.read with hlt | heq | hgt
  · have hboth : r.seen ≤ r'.seen ∧
        (r.chunk = r'.chunk → ∀ k ∈ r.keys, k ∈ s.log.drop r.seen ∨ k ∈ r'.keys) := by
      obtain ⟨hn, rfl⟩ := List.getElem?_eq_some_iff.mp hr
      obtain ⟨hn', rfl⟩ := List.getElem?_eq_some_iff.mp hr'
      exact pairwise_iff_getElem.mp h.reads.again n cy.read hn hn' hlt
    rcases hboth.2 (hchunk.trans hchunk'.symm) k hk with hchanged | hagain
    · exact .inr (.inl hchanged)
    rcases hrows hlost k hagain hdelivered with hrow | hlater | hstreamed
    · exact .inl ⟨hrow, Nat.le_of_lt hlt⟩
    · refine .inr (.inl ?_)
      rw [← Nat.add_sub_cancel' hboth.1, ← drop_drop] at hlater
      exact mem_of_mem_drop hlater
    · exact .inr (.inr hstreamed)
  · subst heq
    rw [hr] at hr'
    cases hr'
    exact (hrows hlost k hk hdelivered).imp_left fun hrow => ⟨hrow, le_rfl⟩
  · exact (hcycle.latest n r hgt hr hchunk).elim

/-- A commit that lands makes its rows durable. -/
theorem FanoutSound.land {ok : Bool} (ht : s.land ok = some t) : FanoutSound su t := by
  have hpass := h.pass.land ht
  cases ok with
  | false =>
    obtain ⟨cy, -, rfl⟩ := map_eq_some_iff.mp ht
    exact h.kept (.refl_of_eq rfl rfl rfl) hpass { h.reads with } rfl h.cycles rfl rfl
      (fun o => (h.sessions o).carried (.same (.refl_of_eq rfl rfl rfl) rfl rfl rfl)) h.lost
  | true =>
    obtain ⟨cy, hcommitting, hopen, -, ht⟩ := openChunks_land h.pass ht
    have hext : Extends s t := by
      subst ht
      exact .refl_of_eq rfl rfl rfl
    have hrows : t.sinkRows = s.sinkRows ++ cy.rows := by rw [ht]
    have haccounted : ∀ n r, s.reads[n]? = some r → ∀ k ∈ r.keys,
        Durable su t n k ∨ Superseded t r k ∨ r.chunk ∈ openChunks su t := by
      intro n r hr k hk
      by_cases hchunk : r.chunk = cy.chunk
      · rcases h.settled hcommitting hr hchunk hk with ⟨hrow, hle⟩ | hsuperseded
        · exact .inl ⟨_, hrows ▸ mem_append_right _ hrow, rfl, rfl, hle⟩
        · exact .inr (.inl (hsuperseded.mono hext))
      · rcases h.accounted n r hr k hk with hdurable | hsuperseded | hstill
        · exact .inl (hdurable.mono (hrows ▸ subset_append_left _ _))
        · exact .inr (.inl (hsuperseded.mono hext))
        · rw [hopen] at hstill
          exact .inr (.inr ((mem_cons.mp hstill).resolve_left hchunk))
    subst ht
    refine ⟨hpass, { h.reads with }, fun cy' hcy' => ?_,
      fun o => (h.sessions o).carried (.same hext rfl rfl rfl), haccounted, fun c hc => ?_⟩
    · exact (h.cycles cy' (mem_append_right _ hcy')).mono hext rfl
    · obtain ⟨hmem, hne⟩ := mem_filter.mp hc
      have hstill := h.lost c hmem
      rw [hopen] at hstill
      exact (mem_cons.mp hstill).resolve_left (of_decide_eq_true hne)

/-- A pass that ends leaves open what it lost. -/
theorem FanoutSound.await (hlanded : s.committing = none)
    (ht : await su s = some t) : FanoutSound su t := by
  have hpass := h.pass.await hlanded ht
  have hopen := openChunks_await h.pass ht
  obtain ⟨passChunks, todo, pending, pass, outcome, rfl⟩ : ∃ passChunks todo pending pass outcome,
      t = { s with passChunks, todo, pending, pass, outcome } := by
    obtain ⟨-, -, rfl | ⟨-, rfl⟩ | ⟨-, rfl⟩⟩ := await_cases h.pass ht
    all_goals exact ⟨_, _, _, _, _, rfl⟩
  exact h.kept (.refl_of_eq rfl rfl rfl) hpass { h.reads with } rfl h.cycles rfl hopen
    (fun o => (h.sessions o).carried (.same (.refl_of_eq rfl rfl rfl) rfl rfl rfl)) h.lost

/-! ## Every run -/

/-- **A step keeps the account.** -/
theorem FanoutSound.step [DecidableEq K] (hst : su.staged = true)
    {a : FanoutAction K O} (hok : Landed s a) (ht : step su s a = some t) :
    FanoutSound su t := by
  unfold FanoutState.step at ht
  split at ht
  · cases ht
  cases a with
  | change key present =>
    cases ht
    exact h.change key present
  | pump => exact h.pump ht
  | gateOn => exact h.gateOn ht
  | scan => exact h.scan ht
  | release => exact h.release hst ht
  | send owner =>
    dsimp only at ht
    split at ht
    · cases ht
    · rename_i m rest hqueue
      cases ht
      exact h.session ((h.sessions owner).send hqueue) h.lost
  | receive owner =>
    obtain ⟨x, hx, rfl⟩ := map_eq_some_iff.mp ht
    exact h.session ((h.sessions owner).receive hx) h.lost
  | process owner => exact h.process ht
  | ack owner n =>
    cases ht
    exact h.session ((h.sessions owner).ack n) h.lost
  | lose owner =>
    cases ht
    exact h.lose owner
  | resolve => exact h.resolve ht
  | land ok => exact h.land ht
  | await => exact h.await hok ht

end Steps

/-- Keys below ten are of chunk 0, the others of chunk 1; even keys are of owner 0, odd ones of
owner 1. -/
def twoOwners (stagesCycles : Bool) : FanoutSetup Nat Nat where
  owners := [0, 1]
  ownerOf k := k % 2
  chunkOf k := if k < 10 then 0 else 1
  chunks := 2
  plan := [0, 1]
  initial := [1, 2, 11]
  stagesCycles
  owned k := by
    have hlt := Nat.mod_lt k Nat.two_pos
    simp only [mem_cons, not_mem_nil, or_false]
    omega
  distinct := by decide

/-- An owner takes the next message of its queue. -/
def takes (owner : Nat) : List (FanoutAction Nat Nat) :=
  [.send owner, .receive owner, .process owner]

end FanoutState

end Urutau
