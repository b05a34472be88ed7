import Urutau.FanoutSnapshot

/-!
# The passes of a fan-out snapshot

The chunks a pass has not settled are those of its cycles, in send order, then the one being
read, then those left to take.  A cycle an owner lost settles none, nor does one behind it: the
chunks from the first lost one on stay open until the next pass takes them.  So only a commit
settles a chunk, and it settles the first of the line.
-/

namespace Urutau

open List Pipeline

variable {chunk : Nat}

/-- The chunks from one on, in a plan that has it once. -/
theorem pendingFrom_append {before after : List Nat} (h : chunk ∉ before) :
    pendingFrom (before ++ chunk :: after) chunk = chunk :: after := by
  have hskip : ∀ c ∈ before, (c != chunk) = true := by
    intro c hc
    have hne : c ≠ chunk := fun heq => h (heq ▸ hc)
    simp [hne]
  simp [pendingFrom, dropWhile_append_of_pos hskip]

/-- The chunks pending are the end of the plan. -/
theorem pendingFrom_suffix (plan : List Nat) (chunk : Nat) : pendingFrom plan chunk <:+ plan :=
  dropWhile_suffix _

theorem filter_pendingFrom {p : Nat → Bool} (hp : p chunk = true) (plan : List Nat) :
    (pendingFrom plan chunk).filter p = pendingFrom (plan.filter p) chunk := by
  induction plan with
  | nil => rfl
  | cons c rest ih =>
    by_cases hc : c = chunk
    · subst hc
      simp [pendingFrom, hp]
    have hdrop : pendingFrom (c :: rest) chunk = pendingFrom rest chunk := by
      simp [pendingFrom, hc]
    rw [hdrop, ih]
    by_cases hpc : p c = true
    · simp [pendingFrom, hc, hpc]
    · simp [hpc]

theorem mem_removeFromPending {pending : List Nat} {c : Nat} :
    c ∈ removeFromPending pending chunk ↔ c ∈ pending ∧ c ≠ chunk := by
  simp [removeFromPending]

namespace FanoutPass

/-- The cycle at the head of the send order is resolved.  It is dropped when the pass is lost
already, or when an owner lost it. -/
theorem resolve_head {p : FanoutPass} {seq chunk : Nat} {rest : List (Nat × Nat)}
    (hchunks : p.chunks = (seq, chunk) :: rest) (hseq : seq ∉ rest.map Prod.fst) ( lost : Bool) :
    p.resolve seq lost = if p.lost = true then (true, { p with chunks := rest })
      else if lost = true then (true, ⟨rest, true, chunk⟩)
      else (false, { p with chunks := rest }) := by
  have hfilter : rest.filter (fun e => !decide (e.1 = seq)) = rest := by
    refine filter_eq_self.mpr fun e he => ?_
    have hne : e.1 ≠ seq := fun heq => hseq (mem_map.mpr ⟨e, he, heq⟩)
    simp [hne]
  cases hp : p.lost <;> cases lost <;> simp [resolve, hchunks, hp, hfilter]

end FanoutPass

namespace WindowCycle

variable {K O : Type} [DecidableEq O]

/-- A delivery leaves alone what a cycle was opened with. -/
theorem map_deliver {B : Type} {f : WindowCycle K O → B} {owner : O} {d : ClosedShare K O}
    (hf : ∀ cy : WindowCycle K O, f (cy.take owner d) = f cy)
    (cycles : List (WindowCycle K O)) (seq : Nat) :
    (deliver cycles seq owner d).map f = cycles.map f := by
  rw [deliver, map_map]
  refine map_congr_left fun cy _ => ?_
  by_cases h : cy.seq = seq ∧ owner ∉ cy.delivered
  · simp [h, hf]
  · simp [h]

end WindowCycle

namespace FanoutState

variable {K O : Type} [DecidableEq O] {su : FanoutSetup K O}

/-- The chunk a stage is at. -/
def stageChunks : FanoutStage → List Nat
  | .between => []
  | .gated chunk => [chunk]
  | .reading chunk _ => [chunk]

/-- The cycles no commit has returned for, each with its chunk and its markers' list. -/
def line (s : FanoutState K O) : List (Nat × List Nat) :=
  (s.committing.toList ++ s.cycles).map fun cy => (cy.chunk, cy.remaining)

/-- The chunks behind the line: the one being read and those left to take. -/
def ahead (s : FanoutState K O) : List Nat := stageChunks s.stage ++ s.todo

/-- The chunks under way in the pass, in its order. -/
def underway (s : FanoutState K O) : List Nat := s.line.map Prod.fst ++ s.ahead

variable (su) in
/-- The chunks not settled: those under way, and in a lost pass those from the first lost one
on. -/
def openChunks (s : FanoutState K O) : List Nat :=
  if s.pass.lost then readable su (pendingFrom s.passChunks s.pass.first) else s.underway

variable (su) in
/-- What holds of the bookkeeping of a pass on a staged table. -/
structure PassSound (s : FanoutState K O) : Prop where
  distinct : s.passChunks.Nodup
  suffix : s.underway <:+ readable su s.passChunks
  behind : s.underway <:+ openChunks su s
  noted : s.pass.chunks = s.cycles.map fun cy => (cy.seq, cy.chunk)
  seqs : (s.pass.chunks.map Prod.fst).Nodup
  fresh : ∀ e ∈ s.pass.chunks, 0 < e.1 ∧ e.1 < s.nextSeq
  started : 0 < s.nextSeq
  whole : ∀ cy ∈ s.committing, s.pass.lost = false ∧ cy.lost = false ∧ cy.complete su = true
  finished : s.outcome = .succeeded → openChunks su s = []
  pending : ∀ c ∈ s.ahead, c ∈ s.pending
  remaining : s.line.Pairwise fun a b => b.1 ∈ a.2
  left : ∀ e ∈ s.line, ∀ c ∈ s.ahead, c ∈ e.2
  progress : ∀ cy ∈ s.committing.toList ++ s.cycles, ∀ l, cy.progress = some l → l = cy.remaining
  recorded : ∀ c ∈ openChunks su s, c ∈ s.sinkPending

attribute [local simp] underway line openChunks

omit [DecidableEq O] in
/-- Without a loss the chunks under way are open. -/
theorem openChunks_of_not_lost (s : FanoutState K O) (h : s.pass.lost = false) :
    openChunks su s = s.underway := by
  simp [h]

variable {s t : FanoutState K O}

omit [DecidableEq O] in
/-- The open chunks depend on the pass alone. -/
theorem openChunks_congr (hunder : t.underway = s.underway)
    (hpass : t.pass.lost = s.pass.lost ∧ t.pass.first = s.pass.first)
    (hchunks : t.passChunks = s.passChunks) : openChunks su t = openChunks su s := by
  rw [openChunks, openChunks, hunder, hpass.1, hpass.2, hchunks]

section Steps

variable (h : PassSound su s)

include h

theorem PassSound.seq_lt {cy : WindowCycle K O} (hcy : cy ∈ s.cycles) : cy.seq < s.nextSeq := by
  refine (h.fresh (cy.seq, cy.chunk) ?_).2
  rw [h.noted]
  exact mem_map.mpr ⟨cy, hcy, rfl⟩

theorem PassSound.underway_nodup : s.underway.Nodup := h.suffix.sublist.nodup (h.distinct.filter _)

/-- A chunk under way is open. -/
theorem PassSound.underway_open {c : Nat} (hc : c ∈ s.underway) : c ∈ openChunks su s :=
  h.behind.subset hc

variable {sessions : O → OwnerSession K}

/-- A step that moves no chunk.  A chunk that is gated or read stays in its place, between the
line and what is left to take. -/
theorem PassSound.unmoved {source log : List K} {pumped : Nat}
    {todo : List Nat} {stage : FanoutStage}
    {reads : List (ChunkRead K)} {applied lostChunks : List Nat}
    (hahead : stageChunks stage ++ todo = s.ahead) :
    PassSound su { s with
      source, log, pumped, todo, stage, sessions, reads, applied, lostChunks } := by
  generalize ht : { s with
      source, log, pumped, todo, stage, sessions, reads, applied, lostChunks } = t
  have hsame : t.ahead = s.ahead := by rw [← ht]; exact hahead
  have hunder : t.underway = s.underway := by rw [underway, hsame, ← ht]; rfl
  have hopen : openChunks su t = openChunks su s :=
    openChunks_congr hunder (ht ▸ ⟨rfl, rfl⟩) (ht ▸ rfl)
  subst ht
  exact { h with
    suffix := hunder ▸ h.suffix
    behind := hunder ▸ hopen ▸ h.behind
    finished := fun hdone => hopen ▸ h.finished hdone
    pending := fun c hc => h.pending c (hsame ▸ hc)
    left := fun e he c hc => h.left e he c (hsame ▸ hc)
    recorded := fun c hc => h.recorded c (hopen ▸ hc) }

/-- The next chunk is taken off the plan. -/
theorem PassSound.gateOn (ht : s.gateOn = some t) : PassSound su t := by
  unfold FanoutState.gateOn at ht
  split at ht
  · rename_i chunk rest hstage htodo
    cases ht
    exact h.unmoved (by simp [ahead, stageChunks, hstage, htodo])
  · cases ht

/-- A scan leaves the pass as it is. -/
theorem PassSound.scan (ht : scan su s = some t) : PassSound su t := by
  unfold FanoutState.scan at ht
  split at ht
  · rename_i chunk hstage
    cases ht
    exact h.unmoved (by simp [ahead, stageChunks, hstage])
  · cases ht

/-- The cycle `Release` opens for a chunk. -/
def opened (s : FanoutState K O) (chunk read : Nat) : WindowCycle K O where
  seq := s.nextSeq
  chunk
  read
  remaining := removeFromPending s.pending chunk
  delivered := []
  rows := []
  progress := none
  lost := false

section

variable (hst : su.staged = true) (ht : release su s = some t)
include hst ht

omit h in
/-- A release, and the cycle it opens. -/
theorem release_staged : ∃ chunk read, s.stage = .reading chunk read ∧ t = { s with
        stage := .between
        pending := removeFromPending s.pending chunk
        nextSeq := s.nextSeq + 1
        cycles := s.cycles ++ [s.opened chunk read]
        pass := s.pass.note s.nextSeq chunk
        sessions := s.enqueue fun o =>
          if o ∈ su.owners then
            [.closes s.nextSeq chunk (removeFromPending s.pending chunk) read]
          else [] } := by
  unfold release at ht
  split at ht
  · rename_i chunk read hstage
    cases ht
    refine ⟨chunk, read, hstage, ?_⟩
    simp only [closeFanoutChunk, hst, if_true]
    rfl
  · cases ht

omit h in
/-- The released chunk was under way. -/
theorem underway_release : t.underway = s.underway := by
  obtain ⟨chunk, read, hstage, rfl⟩ := release_staged hst ht
  simp [ahead, stageChunks, hstage, opened]

omit h in
theorem openChunks_release : openChunks su t = openChunks su s := by
  refine openChunks_congr (underway_release hst ht) ?_ ?_
  · obtain ⟨chunk, read, -, rfl⟩ := release_staged hst ht
    exact ⟨rfl, rfl⟩
  · obtain ⟨chunk, read, -, rfl⟩ := release_staged hst ht
    rfl

/-- A release moves its chunk to the cycles. -/
theorem PassSound.release : PassSound su t := by
  have hunder := underway_release hst ht
  have hopen : openChunks su t = openChunks su s := openChunks_release hst ht
  obtain ⟨chunk, read, hstage, ht⟩ := release_staged hst ht
  have hahead : s.ahead = chunk :: s.todo := by simp [ahead, stageChunks, hstage]
  have hline : t.line = s.line ++ [(chunk, (s.opened chunk read).remaining)] := by
    rw [ht]
    simp [opened]
  have hnodup : (chunk :: s.todo).Nodup := by
    have hall := h.underway_nodup
    rw [underway, hahead] at hall
    exact (nodup_append.mp hall).2.1
  have hleft : ∀ c ∈ s.todo, c ∈ (s.opened chunk read).remaining := by
    intro c hc
    refine mem_removeFromPending.mpr ⟨h.pending c (hahead ▸ mem_cons_of_mem _ hc), ?_⟩
    exact fun heq => (nodup_cons.mp hnodup).1 (heq ▸ hc)
  have hchunks : t.pass.chunks = s.pass.chunks ++ [(s.nextSeq, chunk)] := by rw [ht]; rfl
  have hseqs : (t.pass.chunks.map Prod.fst).Nodup := by
    rw [hchunks, map_append]
    refine Runs.pairwise_concat.mpr ⟨h.seqs, fun a ha => ?_⟩
    obtain ⟨e, he, rfl⟩ := mem_map.mp ha
    exact Nat.ne_of_lt (h.fresh e he).2
  have hfresh : ∀ e ∈ t.pass.chunks, 0 < e.1 ∧ e.1 < s.nextSeq + 1 := by
    rw [hchunks]
    refine Runs.forall_mem_concat.mpr ⟨fun e he => ?_, h.started, Nat.lt_succ_self _⟩
    have hlt := h.fresh e he
    omega
  have hpair : t.line.Pairwise fun a b => b.1 ∈ a.2 := by
    rw [hline]
    refine Runs.pairwise_concat.mpr ⟨h.remaining, fun a ha => ?_⟩
    exact h.left a ha chunk (hahead ▸ mem_cons_self)
  have hbehind : ∀ e ∈ t.line, ∀ c ∈ s.todo, c ∈ e.2 := by
    rw [hline]
    refine Runs.forall_mem_concat.mpr ⟨fun e he c hc => ?_, hleft⟩
    exact h.left e he c (hahead ▸ mem_cons_of_mem _ hc)
  subst ht
  exact {
    distinct := h.distinct
    suffix := hunder ▸ h.suffix
    behind := hunder ▸ hopen ▸ h.behind
    noted := by
      rw [hchunks, h.noted]
      simp [opened]
    seqs := hseqs
    fresh := hfresh
    started := Nat.succ_pos _
    whole := h.whole
    finished := fun hdone => hopen ▸ h.finished hdone
    pending := hleft
    remaining := hpair
    left := hbehind
    progress := by
      intro cy hcy l hl
      rw [← append_assoc] at hcy
      rcases mem_append.mp hcy with hcy | hcy
      · exact h.progress cy hcy l hl
      · cases mem_singleton.mp hcy
        cases hl
    recorded := fun c hc => h.recorded c (hopen ▸ hc) }

end

/-- A delivery changes nothing the pass looks at. -/
theorem PassSound.deliver {seq : Nat} {owner : O} {d : ClosedShare K O}
    (hd : ∀ cy ∈ s.cycles, cy.seq = seq → ∀ l, d.pending = some l → l = cy.remaining)
    (ht : t = { s with cycles := WindowCycle.deliver s.cycles seq owner d, sessions }) :
    PassSound su t := by
  have hline : t.line = s.line := by
    rw [ht]
    simp only [line, map_append]
    rw [WindowCycle.map_deliver fun cy => rfl]
  have hunder : t.underway = s.underway := by rw [underway, hline, ht]; rfl
  have hopen : openChunks su t = openChunks su s :=
    openChunks_congr hunder (by rw [ht]; exact ⟨rfl, rfl⟩) (by rw [ht])
  have hprogress : ∀ cy ∈ t.committing.toList ++ t.cycles,
      ∀ l, cy.progress = some l → l = cy.remaining := by
    intro cy hcy l hl
    rw [ht] at hcy
    rcases mem_append.mp hcy with hcy | hcy
    · exact h.progress cy (mem_append_left _ hcy) l hl
    obtain ⟨cy₀, hmem, rfl⟩ := mem_map.mp hcy
    have hold := h.progress cy₀ (mem_append_right _ hmem)
    by_cases htake : cy₀.seq = seq ∧ owner ∉ cy₀.delivered
    · rw [if_pos htake] at hl ⊢
      cases hpending : d.pending with
      | none => exact hold l (by simpa [WindowCycle.take, hpending] using hl)
      | some l' =>
        have heq : l' = l := by simpa [WindowCycle.take, hpending] using hl
        exact heq ▸ hd cy₀ hmem htake.1 l' hpending
    · rw [if_neg htake] at hl ⊢
      exact hold l hl
  subst ht
  exact { h with
    suffix := hunder ▸ h.suffix
    behind := hunder ▸ hopen ▸ h.behind
    noted := by rw [WindowCycle.map_deliver fun cy => rfl]; exact h.noted
    finished := fun hdone => hopen ▸ h.finished hdone
    remaining := hline ▸ h.remaining
    left := fun e he c hc => h.left e (hline ▸ he) c hc
    progress := hprogress
    recorded := fun c hc => h.recorded c (hopen ▸ hc) }

/-- The three ways the head of the send order leaves it: behind a lost cycle, as the first lost
one, or for its commit. -/
theorem resolve_cases (ht : resolve su s = some t) :
    ∃ cy rest, s.committing = none ∧ s.cycles = cy :: rest ∧ cy.complete su = true ∧
      s.pass.chunks = (cy.seq, cy.chunk) :: rest.map (fun cy => (cy.seq, cy.chunk)) ∧
      (((s.pass.lost = true ∧ t = { s with
          cycles := rest, pass := { s.pass with chunks := s.pass.chunks.tail } }) ∨
        (s.pass.lost = false ∧ cy.lost = true ∧ t = { s with
          cycles := rest, pass := ⟨s.pass.chunks.tail, true, cy.chunk⟩ })) ∨
        (s.pass.lost = false ∧ cy.lost = false ∧ t = { s with
          cycles := rest
          pass := { s.pass with chunks := s.pass.chunks.tail }
          committing := some cy })) := by
  unfold resolve at ht
  split at ht
  · rename_i cy rest hcommitting hcycles
    obtain ⟨hcomplete, ht⟩ := Option.ite_none_right_eq_some.mp ht
    have hchunks : s.pass.chunks = (cy.seq, cy.chunk) ::
        rest.map (fun cy => (cy.seq, cy.chunk)) := by
      rw [h.noted, hcycles]
      rfl
    have hseq : cy.seq ∉ (rest.map fun cy => (cy.seq, cy.chunk)).map Prod.fst := by
      have hall := h.seqs
      rw [hchunks] at hall
      exact (nodup_cons.mp hall).1
    refine ⟨cy, rest, hcommitting, hcycles, hcomplete, hchunks, ?_⟩
    rw [FanoutPass.resolve_head hchunks hseq] at ht
    cases hlost : s.pass.lost with
    | true =>
      simp only at ht
      cases ht
      exact .inl (.inl ⟨rfl, by simp [hchunks, hcommitting, hlost]⟩)
    | false =>
      cases hcy : cy.lost with
      | true =>
        simp only [hlost, hcy] at ht
        cases ht
        exact .inl (.inr ⟨rfl, rfl, by simp [hchunks, hcommitting]⟩)
      | false =>
        simp only [hcy] at ht
        cases ht
        exact .inr ⟨rfl, rfl, by simp [hchunks, hlost]⟩
  · cases ht

/-- The chunks from the first one under way on are those under way. -/
theorem PassSound.readable_pendingFrom {chunk : Nat} {rest : List Nat}
    (hunder : s.underway = chunk :: rest) :
    readable su (pendingFrom s.passChunks chunk) = chunk :: rest := by
  obtain ⟨before, hbefore⟩ := h.suffix
  rw [hunder] at hbefore
  have hnodup : (before ++ chunk :: rest).Nodup := hbefore ▸ h.distinct.filter _
  have hread : chunk ∈ readable su s.passChunks := by
    rw [← hbefore]
    simp
  have hfresh : chunk ∉ before := by
    intro hmem
    exact (nodup_append.mp hnodup).2.2 chunk hmem chunk mem_cons_self rfl
  rw [readable, filter_pendingFrom (mem_filter.mp hread).2, ← pendingFrom_append hfresh, hbefore]
  rfl

/-- A cycle that leaves the send order settles no chunk. -/
theorem openChunks_resolve (ht : resolve su s = some t) :
    openChunks su t = openChunks su s ∧ t.underway <:+ s.underway := by
  obtain ⟨cy, rest, hcommitting, hcycles, -, -, hcases⟩ := resolve_cases h ht
  have hunder : s.underway =
      cy.chunk :: (rest.map (fun cy => (cy.chunk, cy.remaining))).map Prod.fst ++ s.ahead := by
    simp [hcommitting, hcycles]
  rcases hcases with (⟨hlost, rfl⟩ | ⟨hlost, hcy, rfl⟩) | ⟨hlost, hcy, ht⟩
  · refine ⟨by simp [hlost], ?_⟩
    rw [hunder]
    simp [hcommitting, ahead]
  · refine ⟨?_, ?_⟩
    · rw [openChunks_of_not_lost s hlost, hunder]
      exact h.readable_pendingFrom hunder
    · rw [hunder]
      simp [hcommitting, ahead]
  · have hsame : t.underway = s.underway := by
      simp [ht, ahead, hcommitting, hcycles]
    refine ⟨?_, hsame ▸ suffix_refl _⟩
    rw [openChunks_of_not_lost s hlost, ← hsame]
    exact openChunks_of_not_lost t (ht ▸ hlost)

/-- The head of the send order leaves it, and it alone may be committed. -/
theorem resolve_eq (ht : resolve su s = some t) :
    ∃ cy rest pass committing, s.committing = none ∧ s.cycles = cy :: rest ∧
      cy.complete su = true ∧ pass.chunks = s.pass.chunks.tail ∧
      (∀ cy' ∈ committing, cy' = cy ∧ pass.lost = false ∧ cy.lost = false) ∧
      t = { s with cycles := rest, pass, committing } := by
  obtain ⟨cy, rest, hcommitting, hcycles, hcomplete, -, hcases⟩ := resolve_cases h ht
  rcases hcases with (⟨-, rfl⟩ | ⟨-, -, rfl⟩) | ⟨hlost, hcy, rfl⟩
  · exact ⟨cy, rest, _, _, hcommitting, hcycles, hcomplete, rfl, by simp [hcommitting], rfl⟩
  · exact ⟨cy, rest, _, _, hcommitting, hcycles, hcomplete, rfl, by simp [hcommitting], rfl⟩
  · refine ⟨cy, rest, _, _, hcommitting, hcycles, hcomplete, rfl, fun cy' hcy' => ?_, rfl⟩
    cases hcy'
    exact ⟨rfl, hlost, hcy⟩

/-- A cycle that lost a share loses the pass. -/
theorem PassSound.resolve (ht : resolve su s = some t) : PassSound su t := by
  obtain ⟨hopen, hunder⟩ := openChunks_resolve h ht
  obtain ⟨cy, rest, pass, committing, hcommitting, hcycles, hcomplete, htail, hwhole, rfl⟩ :=
    resolve_eq h ht
  have hsub : (committing.toList ++ rest).Sublist (s.committing.toList ++ s.cycles) := by
    rw [hcommitting, hcycles]
    cases hc : committing with
    | none => exact sublist_cons_self cy rest
    | some cy' =>
      rw [(hwhole cy' hc).1]
      exact .refl _
  exact { h with
    suffix := hunder.trans h.suffix
    behind := hopen ▸ hunder.trans h.behind
    noted := by
      rw [htail, h.noted, hcycles]
      rfl
    seqs := by
      rw [htail]
      exact ((tail_sublist _).map _).nodup h.seqs
    fresh := fun e he => h.fresh e (mem_of_mem_tail (htail ▸ he))
    whole := fun cy' hmem => by
      obtain ⟨rfl, hlost, hcy⟩ := hwhole cy' hmem
      exact ⟨hlost, hcy, hcomplete⟩
    finished := fun hdone => hopen ▸ h.finished hdone
    remaining := h.remaining.sublist (hsub.map _)
    left := fun e he => h.left e ((hsub.map _).subset he)
    progress := fun cy' hmem => h.progress cy' (hsub.subset hmem)
    recorded := fun c hc => h.recorded c (hopen ▸ hc) }

/-- A commit that returns settles the chunk at the head of the line. -/
theorem openChunks_land (ht : s.land true = some t) :
    ∃ cy, s.committing = some cy ∧ openChunks su s = cy.chunk :: openChunks su t ∧
      t.underway <:+ s.underway ∧ t = { s with
        committing := none
        sinkRows := s.sinkRows ++ cy.rows
        sinkPending := cy.progress.getD s.sinkPending
        lostChunks := s.lostChunks.filter (· ≠ cy.chunk) } := by
  obtain ⟨cy, hcommitting, rfl⟩ := Option.map_eq_some_iff.mp ht
  obtain ⟨hlost, -, -⟩ := h.whole cy hcommitting
  have hunder : s.underway = cy.chunk :: underway { s with committing := none } := by
    simp [ahead, hcommitting]
  refine ⟨cy, hcommitting, ?_, ?_, rfl⟩
  · rw [openChunks_of_not_lost s hlost, hunder]
    exact congrArg _ (openChunks_of_not_lost { s with committing := none } hlost).symm
  · rw [hunder]
    exact suffix_cons _ _

/-- A commit that lands closes its chunk. -/
theorem PassSound.land {ok : Bool} (ht : s.land ok = some t) : PassSound su t := by
  cases ok with
  | false =>
    obtain ⟨cy, -, rfl⟩ := Option.map_eq_some_iff.mp ht
    exact { h with finished := nofun }
  | true =>
    obtain ⟨cy, hcommitting, hopen, hunder, ht⟩ := openChunks_land h ht
    obtain ⟨hlost, -, -⟩ := h.whole cy hcommitting
    have hline : s.line = (cy.chunk, cy.remaining) ::
        s.cycles.map fun cy => (cy.chunk, cy.remaining) := by
      simp [hcommitting]
    have hpair := h.remaining
    rw [hline, pairwise_cons] at hpair
    have hopen' : openChunks su t = s.cycles.map (·.chunk) ++ s.ahead := by
      simp [ht, hlost, ahead]
    -- The chunks left are named by the list the cycle committed, if it committed one.
    have hrecorded : ∀ c ∈ s.cycles.map (·.chunk) ++ s.ahead,
        c ∈ cy.progress.getD s.sinkPending := by
      intro c hc
      cases hprogress : cy.progress with
      | none =>
        refine h.recorded c ?_
        rw [openChunks_of_not_lost s hlost]
        simpa using .inr (by simpa using hc)
      | some l =>
        have hl := h.progress cy (by simp [hcommitting]) l hprogress
        rw [hl]
        rcases mem_append.mp hc with hc | hc
        · obtain ⟨cy', hcy', rfl⟩ := mem_map.mp hc
          exact hpair.1 _ (mem_map.mpr ⟨cy', hcy', rfl⟩)
        · exact h.left _ (hline ▸ mem_cons_self) c hc
    subst ht
    exact { h with
      suffix := hunder.trans h.suffix
      behind := by simp [hlost]
      whole := nofun
      finished := fun hdone => by
        have hnil := h.finished hdone
        rw [hopen] at hnil
        cases hnil
      remaining := hpair.2
      left := fun e he => h.left e (hline ▸ mem_cons_of_mem _ he)
      progress := fun cy' hmem => h.progress cy' (mem_append_right _ hmem)
      recorded := fun c hc => hrecorded c (hopen' ▸ hc) }

/-- `Await` begins a pass with the chunks that were open, or ends the snapshot. -/
theorem await_cases (ht : await su s = some t) : s.ahead = [] ∧ s.cycles = [] ∧
      (t = { s with outcome := .failed } ∨
        (s.pass.lost = false ∧ t = { s with outcome := .succeeded }) ∨
        (s.pass.lost = true ∧ t = { s with
          passChunks := pendingFrom s.passChunks s.pass.first
          todo := readable su (pendingFrom s.passChunks s.pass.first)
          pending := pendingFrom s.passChunks s.pass.first
          pass := { s.pass with lost := false, first := 0 } })) := by
  obtain ⟨⟨-, hstage, htodo⟩, ht⟩ := Option.ite_none_right_eq_some.mp ht
  obtain ⟨found, hdrained, ht⟩ := Option.map_eq_some_iff.mp ht
  obtain ⟨hchunks, hfound⟩ := Option.ite_none_right_eq_some.mp hdrained
  refine ⟨by simp [ahead, stageChunks, hstage, htodo], ?_, ?_⟩
  · have hnoted := h.noted
    rw [hchunks] at hnoted
    exact map_eq_nil_iff.mp hnoted.symm
  cases hlost : s.pass.lost with
  | false =>
    simp only [hlost, Option.some.injEq] at hfound
    subst hfound
    exact .inr (.inl ⟨rfl, ht.symm⟩)
  | true =>
    simp only [hlost, if_true, Option.some.injEq] at hfound
    subst hfound
    by_cases hredo : pendingFrom s.passChunks s.pass.first = [] ∨ su.chunks = 0
    · simp only [hredo] at ht
      exact .inl ht.symm
    · simp only [hredo] at ht
      exact .inr (.inr ⟨rfl, ht.symm⟩)

/-- A pass that ends leaves open what was open. -/
theorem openChunks_await (ht : await su s = some t) : openChunks su t = openChunks su s := by
  obtain ⟨hahead, hcycles, rfl | ⟨-, rfl⟩ | ⟨hlost, rfl⟩⟩ := await_cases h ht
  · rfl
  · rfl
  have hcommitting : s.committing = none := by
    cases hc : s.committing with
    | none => rfl
    | some cy =>
      have hno := (h.whole cy hc).1
      rw [hlost] at hno
      cases hno
  have hstage : stageChunks s.stage = [] := (append_eq_nil_iff.mp hahead).1
  simp [hlost, ahead, hcommitting, hcycles, hstage]

/-- The next pass starts at the first chunk lost. -/
theorem PassSound.await (hlanded : s.committing = none)
    (ht : await su s = some t) : PassSound su t := by
  have hopen := openChunks_await h ht
  obtain ⟨hahead, hcycles, rfl | ⟨hlost, rfl⟩ | ⟨-, ht⟩⟩ := await_cases h ht
  · exact { h with finished := nofun }
  · refine { h with finished := fun _ => ?_ }
    rw [hopen, openChunks_of_not_lost s hlost]
    simp [hlanded, hcycles, hahead]
  have hstage : stageChunks s.stage = [] := (append_eq_nil_iff.mp hahead).1
  have hunder : t.underway = readable su (pendingFrom s.passChunks s.pass.first) := by
    simp [ht, ahead, hlanded, hcycles, hstage]
  subst ht
  exact { h with
    distinct := (pendingFrom_suffix _ _).sublist.nodup h.distinct
    suffix := (congrArg (· <:+ _) hunder).mpr (suffix_refl _)
    behind := by simp
    whole := fun cy hcy => by simp [hlanded] at hcy
    finished := fun hdone => hopen ▸ h.finished hdone
    pending := fun c hc => by
      rw [ahead, hstage] at hc
      exact (mem_filter.mp hc).1
    left := fun e he => by simp [hlanded, hcycles] at he
    recorded := fun c hc => h.recorded c (hopen ▸ hc) }

end Steps

end FanoutState

end Urutau
