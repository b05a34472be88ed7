import Urutau.CommittedPrefix
import Urutau.GuardedRun

/-!
# The position a replication slot is confirmed at

In collapsed mode the reader, the relay and the sink run in one process.  The relay
notes the last position of every batch it reads, for the batch's table and over all
of them; the sink reports the last position of what a table has committed.  A table
whose noted position is past its committed one has rows in flight and holds the slot
at what it has committed.  With nothing in flight the slot moves to the last position
noted.

Tables commit in any order, each its own batches in order.  Every batch is kept here
with the commit position of its transaction, which its rows need not carry.
-/

namespace Urutau

open List Position Option Runs LSN

/-- `Compare` is positive.  The sentinel of an undecided comparison is the largest
number there is, so it counts. -/
def Position.past {P : Type} [Position P] (pos cur : P) : Bool :=
  match compare pos cur with
  | .greater | .incomparable => true
  | _ => false

/-- The runner's positions and the batches of the run: those decoded that the relay
has not read, and those read that their table has not committed.  `tables` are the
keys of `delivered`. -/
structure Confirming (P : Type) where
  reader : Reader P
  queue : List (P × Batch P)
  inFlight : String → List (P × Batch P)
  tables : List String
  delivered : String → Option P
  dispatched : Option P
  committedPositions : String → Option P

/-- What happens: the reader decodes a transaction, the relay reads a batch, the sink
commits the oldest batches of a table, the one at index `n` the last of them. -/
inductive ConfirmingAction (P : Type)
  | txn (txn : Txn P)
  | deliver
  | commit (table : String) (n : Nat)

namespace Confirming

section Model

variable {P : Type} [Position P]

/-- A run starts with a reader at a position and nothing noted. -/
def init (start : P) : Confirming P where
  reader := freshReader start
  queue := []
  inFlight _ := []
  tables := []
  delivered _ := none
  dispatched := none
  committedPositions _ := none

/-- `delivered` of a table, after a position is noted for it. -/
def newer (cur : Option P) (pos : P) : P :=
  match cur with
  | none => pos
  | some cur => if past pos cur then pos else cur

/-- `dispatched`, after a position is noted.  Here an undecided comparison changes
nothing. -/
def furthest (cur : Option P) (pos : P) : P :=
  match cur with
  | none => pos
  | some cur => if advances pos cur then pos else cur

/-- `noteDelivered`. -/
def noteDelivered (s : Confirming P) (table : String) (pos : P) : Confirming P :=
  { s with
    tables := if table ∈ s.tables then s.tables else s.tables ++ [table]
    delivered := Function.update s.delivered table (some (newer (s.delivered table) pos))
    dispatched := some (furthest s.dispatched pos) }

/-- `deliverNote`: a batch without rows is not noted. -/
def deliverNote (s : Confirming P) (b : Batch P) : Confirming P :=
  match b.highPos with
  | none => s
  | some pos => s.noteDelivered b.table pos

/-- `updateCommitted`. -/
def updateCommitted (s : Confirming P) (table : String) (pos : Option P) : Confirming P :=
  match pos with
  | none => s
  | some p => { s with
      committedPositions := Function.update s.committedPositions table (some p) }

def step (cfg : String → Option TableConfig) (s : Confirming P) :
    ConfirmingAction P → Option (Confirming P)
  | .txn txn =>
    match decodeTxn .postgres cfg s.reader txn with
    | .error _ => none
    | .ok (reader, out) =>
      some { s with reader, queue := s.queue ++ out.map (fun b => (txn.commit, b)) }
  | .deliver =>
    match s.queue with
    | [] => none
    | x :: rest =>
      some (({ s with
        queue := rest
        inFlight := Function.update s.inFlight x.2.table
          (s.inFlight x.2.table ++ [x]) } : Confirming P).deliverNote x.2)
  | .commit table n =>
    match (s.inFlight table)[n]? with
    | none => none
    | some x =>
      some (({ s with
        inFlight := Function.update s.inFlight table
          ((s.inFlight table).drop (n + 1)) } : Confirming P).updateCommitted table x.2.highPos)

/-- The loop of `confirmedPosition`: the committed positions of the tables with rows
in flight, or nothing when a table read from has committed nothing. -/
def heldAt (s : Confirming P) : List String → Option (List P)
  | [] => some []
  | table :: rest =>
    match s.delivered table with
    | none => heldAt s rest
    | some d =>
      match s.committedPositions table with
      | none => none
      | some c =>
        (heldAt s rest).map (fun vals => if past d c then c :: vals else vals)

/-- `confirmedPosition`, over the tables in the order they are met. -/
def confirmedPosition [Meeter P] (s : Confirming P) (order : List String) : Option P :=
  match s.heldAt order with
  | none => none
  | some [] => s.dispatched
  | some (v :: vals) =>
    match minSafe (v :: vals) with
    | .error _ => none
    | .ok best => best

/-- A batch read from the source that is not durable, under its transaction's commit
position. -/
def Undurable (s : Confirming P) (x : P × Batch P) : Prop :=
  x ∈ s.queue ∨ ∃ table, x ∈ s.inFlight table

/-- Commit positions advance, and a batch is read at a position past the last one
noted for its table. -/
def Outpaces (s : Confirming P) : ConfirmingAction P → Prop
  | .txn txn => advances txn.commit s.reader.safePos = true
  | .deliver => ∀ x ∈ s.queue.head?, ∀ pos ∈ x.2.highPos, ∀ d ∈ s.delivered x.2.table,
      advances pos d = true
  | .commit _ _ => True

instance (s : Confirming P) (a : ConfirmingAction P) : Decidable (s.Outpaces a) := by
  cases a <;> unfold Outpaces <;> infer_instance

end Model

/-! ## What a decoded transaction adds -/

section Decoded

variable {cfg : String → Option TableConfig} {r r' : Reader LSN} {txn : Txn LSN}
  {out : List (Batch LSN)}

/-- A batch's rows are stamped at or before its transaction's commit position. -/
def Stamped (x : LSN × Batch LSN) : Prop := ∃ pos, x.2.highPos = some pos ∧ pos.value ≤ x.1.value

/-- A batch is stamped before the commit position of one that follows it. -/
def Precedes (x y : LSN × Batch LSN) : Prop := ∀ pos, x.2.highPos = some pos → pos.value < y.1.value

section

variable (hi : r.Idle ReaderKind.postgres.dialect cfg)
  (h : decodeTxn .postgres cfg r txn = .ok (r', out)) (hadv : r.safePos.value < txn.commit.value)
include hi h hadv

/-- The safe position moves to the commit of a transaction that has batches and never
back. -/
theorem decodeTxn_safePos_of_mem :
    r.safePos.value ≤ r'.safePos.value ∧ ∀ b ∈ out, r'.safePos = txn.commit := by
  obtain ⟨r₁, happ, hout, -, -, hsafe⟩ := decodeTxn_ok h
  have hkeep := (appendAll_records hi.built happ).2.1
  by_cases hnil : r₁.held = []
  · rw [if_pos hnil, hkeep] at hsafe
    refine ⟨Nat.le_of_eq (congrArg value hsafe.symm), fun b hb => ?_⟩
    rw [hout, hnil] at hb
    cases hb
  · rw [if_neg hnil] at hsafe
    rw [hsafe]
    exact ⟨Nat.le_of_lt hadv, fun _ _ => rfl⟩

/-- The batches of a transaction are stamped no later than its commit, and all but the
last one before it. -/
theorem decodeTxn_stamped : (∀ b ∈ out, Stamped (txn.commit, b)) ∧
      (out.map (fun b => (txn.commit, b))).Pairwise Precedes := by
  obtain ⟨r₁, happ, hout, -⟩ := decodeTxn_ok h
  have hheld : HeldAt r.safePos r₁.held := held_carries_safe hi happ
  change out = postgresStamp txn.commit r₁.held at hout
  subst hout
  refine ⟨fun b hb => ?_, ?_⟩
  · obtain ⟨i, hi⟩ := mem_iff_getElem?.mp hb
    rcases postgresStamp_carries hheld hi with ⟨-, hc⟩ | ⟨-, hc⟩
    · exact ⟨_, hc.highPos, le_rfl⟩
    · exact ⟨_, hc.highPos, Nat.le_of_lt hadv⟩
  · rw [pairwise_map, pairwise_iff_getElem]
    intro i j hi hj hij pos hpos
    rcases postgresStamp_carries hheld (getElem?_eq_getElem hi) with
      ⟨hlast, -⟩ | ⟨-, hc⟩
    · omega
    · have heq := hc.highPos.symm.trans hpos
      cases heq
      exact hadv

end

end Decoded

/-! ## The invariant -/

/-- Along a run whose batches outpace what is noted: batches wait in log order, no later
than the reader's safe position; the last position noted is before the commit of all
that waits; and the batches a table has in flight are stamped in order, past what the
table has committed and up to what is noted for it. -/
structure Trails (cfg : String → Option TableConfig) (s : Confirming LSN) : Prop where
  idle : s.reader.Idle ReaderKind.postgres.dialect cfg
  queued : ∀ x ∈ s.queue, Stamped x ∧ x.1.value ≤ s.reader.safePos.value
  ordered : s.queue.Pairwise Precedes
  dispatched : ∀ d ∈ s.dispatched,
    d.value ≤ s.reader.safePos.value ∧ ∀ x ∈ s.queue, d.value < x.1.value
  flying : ∀ table, ∀ x ∈ s.inFlight table, Stamped x ∧ ∀ pos ∈ x.2.highPos,
    (∀ c ∈ s.committedPositions table, c.value < pos.value) ∧
      ∃ d ∈ s.delivered table, pos.value ≤ d.value
  inOrder : ∀ table, (s.inFlight table).Pairwise fun x y =>
    ∀ p ∈ x.2.highPos, ∀ q ∈ y.2.highPos, p.value < q.value
  noted : ∀ table, ∀ d ∈ s.delivered table, table ∈ s.tables ∧ ∃ e ∈ s.dispatched, d.value ≤ e.value
  behind : ∀ table, ∀ c ∈ s.committedPositions table, ∃ d ∈ s.delivered table, c.value ≤ d.value

section Steps

variable {cfg : String → Option TableConfig} {s s' : Confirming LSN}

theorem trails_init (cfg : String → Option TableConfig) (start : LSN) :
    Trails cfg (init start) where
  idle := freshReader_idle _ _ _
  queued := nofun
  ordered := .nil
  dispatched := nofun
  flying := nofun
  inOrder _ := .nil
  noted := nofun
  behind := nofun

theorem Trails.txn {txn : Txn LSN} (h : Trails cfg s)
    (hadv : advances txn.commit s.reader.safePos = true)
    (hs : step cfg s (.txn txn) = some s') : Trails cfg s' := by
  rw [advances_iff_value] at hadv
  unfold step at hs
  cases hdec : decodeTxn .postgres cfg s.reader txn with
  | error e => simp [hdec] at hs
  | ok res =>
    simp only [hdec, some.injEq] at hs
    subst hs
    obtain ⟨hsafe, hcommit⟩ := decodeTxn_safePos_of_mem h.idle hdec hadv
    obtain ⟨hstamped, hpair⟩ := decodeTxn_stamped h.idle hdec hadv
    refine { h with
      idle := decodeTxn_idle h.idle hdec
      queued := fun x hx => ?_
      ordered := pairwise_append.mpr ⟨h.ordered, hpair, fun x hx y hy pos hpos => ?_⟩
      dispatched := fun d hd => ⟨Nat.le_trans (h.dispatched d hd).1 hsafe, fun x hx => ?_⟩ }
    · rcases mem_append.mp hx with hx | hx
      · exact ⟨(h.queued x hx).1, Nat.le_trans (h.queued x hx).2 hsafe⟩
      · obtain ⟨b, hb, rfl⟩ := mem_map.mp hx
        exact ⟨hstamped b hb, Nat.le_of_eq (congrArg value (hcommit b hb).symm)⟩
    · -- What waited is stamped at or before the safe position, and this commit is past it.
      obtain ⟨b, hb, rfl⟩ := mem_map.mp hy
      obtain ⟨⟨p, hp, hle⟩, hx⟩ := h.queued x hx
      rw [hp, some.injEq] at hpos
      subst hpos
      dsimp only
      omega
    · rcases mem_append.mp hx with hx | hx
      · exact (h.dispatched d hd).2 x hx
      · obtain ⟨b, hb, rfl⟩ := mem_map.mp hx
        have hd := (h.dispatched d hd).1
        dsimp only
        omega

theorem newer_of_advances {cur : Option LSN} {pos : LSN}
    (h : ∀ d ∈ cur, advances pos d = true) : newer cur pos = pos := by
  cases cur with
  | none => rfl
  | some d =>
    have hadv := h d rfl
    unfold advances at hadv
    unfold newer past
    cases hc : compare pos d <;> simp_all

/-- `dispatched` is the greatest position noted. -/
theorem furthest_spec (cur : Option LSN) (pos : LSN) :
    pos.value ≤ (furthest cur pos).value ∧ (∀ d ∈ cur, d.value ≤ (furthest cur pos).value) ∧
      (furthest cur pos = pos ∨ furthest cur pos ∈ cur) := by
  cases cur with
  | none => exact ⟨le_rfl, nofun, .inl rfl⟩
  | some e =>
    unfold furthest
    simp only [advances_iff_value, mem_some_iff, forall_eq']
    split
    · exact ⟨le_rfl, by omega, .inl rfl⟩
    · exact ⟨by omega, le_rfl, .inr rfl⟩

theorem Trails.deliver (h : Trails cfg s) (hok : s.Outpaces .deliver)
    (hs : step cfg s .deliver = some s') : Trails cfg s' := by
  unfold step at hs
  cases hq : s.queue with
  | nil => simp [hq] at hs
  | cons x rest =>
    simp only [hq, some.injEq] at hs
    obtain ⟨⟨pos, hpos, hle⟩, hsafe⟩ := h.queued x (by simp [hq])
    obtain ⟨hfirst, hrest⟩ := pairwise_cons.mp (hq ▸ h.ordered)
    have hpast : ∀ d ∈ s.delivered x.2.table, advances pos d = true := hok x (by simp [hq]) pos hpos
    have hnew := newer_of_advances hpast
    simp only [advances_iff_value] at hpast
    obtain ⟨hfar, hkeep, hone⟩ := furthest_spec s.dispatched pos
    simp only [deliverNote, hpos, noteDelivered, hnew] at hs
    subst hs
    refine ⟨h.idle, fun y hy => h.queued y (by simp [hq, hy]), hrest, ?_, ?_, ?_, ?_, ?_⟩
    · intro d hd
      cases hd
      rcases hone with heq | hmem
      · rw [heq]
        exact ⟨Nat.le_trans hle hsafe, fun y hy => hfirst y hy pos hpos⟩
      · exact ⟨(h.dispatched _ hmem).1, fun y hy => (h.dispatched _ hmem).2 y (by simp [hq, hy])⟩
    · intro table y hy
      by_cases htable : table = x.2.table
      · subst htable
        simp only [Function.update_self, mem_append, mem_singleton] at hy ⊢
        rcases hy with hy | rfl
        · obtain ⟨hstamp, hy⟩ := h.flying _ y hy
          refine ⟨hstamp, fun p hp => ⟨(hy p hp).1, pos, rfl, ?_⟩⟩
          obtain ⟨d, hd, hpd⟩ := (hy p hp).2
          have hlt := hpast d hd
          omega
        · refine ⟨⟨pos, hpos, hle⟩, fun p hp => ?_⟩
          cases hpos.symm.trans hp
          refine ⟨fun c hc => ?_, pos, rfl, le_rfl⟩
          obtain ⟨d, hd, hcd⟩ := h.behind _ c hc
          have hlt := hpast d hd
          omega
      · simp only [Function.update_of_ne htable] at hy ⊢
        exact h.flying table y hy
    · intro table
      by_cases htable : table = x.2.table
      · subst htable
        simp only [Function.update_self]
        refine pairwise_concat.mpr ⟨h.inOrder _, fun y hy p hp q hpos' => ?_⟩
        cases hpos.symm.trans hpos'
        obtain ⟨d, hd, hpd⟩ := ((h.flying _ y hy).2 p hp).2
        have hlt := hpast d hd
        omega
      · simp only [Function.update_of_ne htable]
        exact h.inOrder table
    · intro table d hd
      by_cases htable : table = x.2.table
      · subst htable
        simp only [Function.update_self, mem_some_iff] at hd
        subst hd
        refine ⟨?_, _, rfl, hfar⟩
        split
        · assumption
        · simp
      · simp only [Function.update_of_ne htable] at hd
        obtain ⟨hmem, e, he, hde⟩ := h.noted table d hd
        refine ⟨?_, _, rfl, Nat.le_trans hde (hkeep e he)⟩
        split
        · exact hmem
        · exact mem_append_left _ hmem
    · intro table c hc
      obtain ⟨d, hd, hcd⟩ := h.behind table c hc
      by_cases htable : table = x.2.table
      · subst htable
        simp only [Function.update_self]
        have hlt := hpast d hd
        exact ⟨pos, rfl, by omega⟩
      · simp only [Function.update_of_ne htable]
        exact ⟨d, hd, hcd⟩

theorem Trails.commit {table : String} {n : Nat} (h : Trails cfg s)
    (hs : step cfg s (.commit table n) = some s') : Trails cfg s' := by
  unfold step at hs
  cases hget : (s.inFlight table)[n]? with
  | none => simp [hget] at hs
  | some x =>
    simp only [hget, some.injEq] at hs
    have hx : x ∈ s.inFlight table := mem_of_getElem? hget
    obtain ⟨⟨pos, hpos, -⟩, hflying⟩ := h.flying table x hx
    simp only [hpos, updateCommitted] at hs
    subst hs
    -- What stays in flight follows the batch the commit ends with.
    have hafter : ∀ y ∈ (s.inFlight table).drop (n + 1), ∀ p ∈ y.2.highPos,
        pos.value < p.value := by
      intro y hy p hp
      obtain ⟨hlt, heq⟩ := List.getElem?_eq_some_iff.mp hget
      have hdrop := (h.inOrder table).drop (i := n)
      rw [drop_eq_getElem_cons hlt, heq] at hdrop
      exact (pairwise_cons.mp hdrop).1 y hy pos hpos p hp
    refine { h with flying := ?_, inOrder := ?_, behind := ?_ }
    · intro t y hy
      by_cases ht : t = table
      · subst ht
        simp only [Function.update_self] at hy ⊢
        obtain ⟨hstamp, hy'⟩ := h.flying t y (mem_of_mem_drop hy)
        refine ⟨hstamp, fun p hp => ⟨fun c hc => ?_, (hy' p hp).2⟩⟩
        cases hc
        exact hafter y hy p hp
      · simp only [Function.update_of_ne ht] at hy ⊢
        exact h.flying t y hy
    · intro t
      by_cases ht : t = table
      · subst ht
        simp only [Function.update_self]
        exact (h.inOrder t).drop
      · simp only [Function.update_of_ne ht]
        exact h.inOrder t
    · intro t c hc
      by_cases ht : t = table
      · subst ht
        simp only [Function.update_self, mem_some_iff] at hc
        subst hc
        exact (hflying pos hpos).2
      · simp only [Function.update_of_ne ht] at hc
        exact h.behind t c hc

/-- A step that outpaces what is noted keeps the invariant. -/
theorem Trails.step {a : ConfirmingAction LSN} (h : Trails cfg s) (hok : s.Outpaces a)
    (hs : step cfg s a = some s') : Trails cfg s' := by
  cases a with
  | txn txn => exact h.txn hok hs
  | deliver => exact h.deliver hok hs
  | commit table n => exact h.commit hs

end Steps

/-! ## The confirmed position -/

section Confirmed

variable {cfg : String → Option TableConfig} {s : Confirming LSN}

theorem past_iff (pos cur : LSN) : past pos cur = true ↔ cur.value < pos.value := by
  rw [← advances_iff_value]
  unfold past advances
  rcases compare_cases pos cur with ⟨-, hc⟩ | ⟨-, hc⟩ | ⟨-, hc⟩ <;> rw [hc]

variable {order : List String}

/-- Every table met that was read from has committed, and the positions held at are
those of the tables read past what they committed. -/
theorem heldAt_spec {vals : List LSN} (h : s.heldAt order = some vals) :
    (∀ table ∈ order, ∀ d ∈ s.delivered table, ∃ c ∈ s.committedPositions table,
      c.value < d.value → c ∈ vals) ∧
      ∀ v ∈ vals, ∃ table, v ∈ s.committedPositions table := by
  induction order generalizing vals with
  | nil =>
    cases h
    exact ⟨nofun, nofun⟩
  | cons t rest ih =>
    unfold heldAt at h
    cases hd : s.delivered t with
    | none =>
      simp only [hd] at h
      obtain ⟨hall, hvals⟩ := ih h
      refine ⟨fun table ht d hmem => ?_, hvals⟩
      rcases mem_cons.mp ht with rfl | ht
      · rw [hd] at hmem
        cases hmem
      · exact hall table ht d hmem
    | some d =>
      simp only [hd] at h
      cases hc : s.committedPositions t with
      | none => simp [hc] at h
      | some c =>
        simp only [hc] at h
        obtain ⟨vals', hrest, rfl⟩ := map_eq_some_iff.mp h
        obtain ⟨hall, hvals⟩ := ih hrest
        have hsub : ∀ v ∈ vals', v ∈ if past d c then c :: vals' else vals' := by
          intro v hv
          split
          · exact mem_cons_of_mem c hv
          · exact hv
        refine ⟨fun table ht d' hmem => ?_, fun v hv => ?_⟩
        · rcases mem_cons.mp ht with rfl | ht
          · cases hd.symm.trans hmem
            refine ⟨c, hc, fun hlt => ?_⟩
            rw [if_pos ((past_iff d c).mpr hlt)]
            exact mem_cons_self
          · obtain ⟨c', hc', hin⟩ := hall table ht d' hmem
            exact ⟨c', hc', fun hlt => hsub c' (hin hlt)⟩
        · split at hv
          · rcases mem_cons.mp hv with rfl | hv
            · exact ⟨t, hc⟩
            · exact hvals v hv
          · exact hvals v hv

/-- The confirmed position is one noted, or at or before every position held at. -/
theorem confirmedPosition_spec {c : LSN} (h : s.confirmedPosition order = some c) :
    ∃ vals, s.heldAt order = some vals ∧ (vals = [] → c ∈ s.dispatched) ∧
      ∀ v ∈ vals, c.value ≤ v.value := by
  unfold confirmedPosition at h
  split at h
  · cases h
  · rename_i hheld
    exact ⟨[], hheld, fun _ => h, nofun⟩
  · rename_i v vals hheld
    refine ⟨v :: vals, hheld, nofun, fun u hu => ?_⟩
    split at h
    · cases h
    · rename_i best hmin
      subst h
      have hself : Position.covered c c = true := (covered_iff_value c c).mpr (le_rfl)
      exact (covered_iff_value c u).mp ((Position.covered_minSafe hmin c).mp hself u hu)

/-- Under the invariant the confirmed position is before the commit of every batch that
is not durable. -/
theorem Trails.confirmed_lt (h : Trails cfg s) {c : LSN}
    (horder : ∀ table ∈ s.tables, table ∈ order) (hc : s.confirmedPosition order = some c)
    {x : LSN × Batch LSN} (hx : s.Undurable x) : c.value < x.1.value := by
  obtain ⟨vals, hheld, hnone, hall⟩ := confirmedPosition_spec hc
  obtain ⟨hcommitted, hvals⟩ := heldAt_spec hheld
  rcases hx with hx | ⟨table, hx⟩
  · -- A batch that waits commits past all that is noted, the confirmed position included.
    obtain ⟨e, he, hce⟩ : ∃ e ∈ s.dispatched, c.value ≤ e.value := by
      cases vals with
      | nil => exact ⟨c, hnone rfl, le_rfl⟩
      | cons v rest =>
        obtain ⟨t, ht⟩ := hvals v mem_cons_self
        obtain ⟨d, hd, hvd⟩ := h.behind t v ht
        obtain ⟨-, e, he, hde⟩ := h.noted t d hd
        have hcv := hall v mem_cons_self
        exact ⟨e, he, by omega⟩
    have hlt := (h.dispatched e he).2 x hx
    omega
  · -- A batch in flight is stamped past what its table has committed.
    obtain ⟨⟨pos, hpos, hle⟩, hflying⟩ := h.flying table x hx
    obtain ⟨hpast, d, hd, hpd⟩ := hflying pos hpos
    obtain ⟨p, hp, hin⟩ := hcommitted table (horder table (h.noted table d hd).1) d hd
    have hlt := hpast p hp
    have hcp := hall p (hin (by omega))
    omega

/-- **Nothing undurable is confirmed.**  In every run whose commit positions advance and
whose batches are each read at a position past the last one noted for their table, the
slot's position covers no transaction with a batch that is not durable, in whatever
order the tables are met. -/
theorem confirmed_covers_only_durable (cfg : String → Option TableConfig) (start : LSN)
    (actions : List (ConfirmingAction LSN)) (s : Confirming LSN)
    (hrun : run (step cfg) (init start) actions = some s)
    (hok : Runs.Guarded (step cfg) Outpaces (init start) actions)
    (order : List String) (horder : order.Perm s.tables) (c : LSN)
    (hc : s.confirmedPosition order = some c) (x : LSN × Batch LSN) (hx : s.Undurable x) :
    Position.covered x.1 c = false := by
  have h : Trails cfg s := invariant_of_guarded (Trails cfg)
    (fun s a s' hinv hok hs => hinv.step hok hs) (trails_init cfg start) hrun hok
  have hlt := h.confirmed_lt (fun table ht => horder.mem_iff.mpr ht) hc hx
  rw [← Bool.not_eq_true, covered_iff_value]
  omega

end Confirmed

/-! ### Two transactions over two tables -/

/-- One order, committed at 10. -/
def orderTxn : Txn LSN := ⟨[⟨"orders", .insert, [.scalar 1], 1⟩], ⟨10⟩⟩

/-- One line, committed at 20. -/
def lineTxn : Txn LSN := ⟨[⟨"lines", .insert, [.scalar 7], 1⟩], ⟨20⟩⟩

/-- A line is committed, then an order and a second line; the second line is in
flight. -/
def linesTwice : List (ConfirmingAction LSN) :=
  [.txn { lineTxn with commit := ⟨5⟩ }, .deliver, .commit "lines" 0, .txn orderTxn, .deliver,
    .commit "orders" 0, .txn lineTxn, .deliver]

/-- With the second line in flight the slot stays at the first one. -/
theorem confirmed_covers_only_durable_linesTwice :
    ∃ s, run (step shopConfig) (init ⟨1⟩) linesTwice = some s ∧
      s.confirmedPosition ["lines", "orders"] = some ⟨5⟩ ∧
      (⟨20⟩, linesBatch ⟨20⟩) ∈ s.inFlight "lines" ∧
      Position.covered (⟨20⟩ : LSN) ⟨5⟩ = false := by
  refine exists_run_of (by decide +kernel) fun s hrun
    (hseen : s.confirmedPosition ["lines", "orders"] = some ⟨5⟩ ∧
      (⟨20⟩, linesBatch ⟨20⟩) ∈ s.inFlight "lines" ∧ s.tables = ["lines", "orders"]) => ?_
  obtain ⟨hc, hmem, htables⟩ := hseen
  exact ⟨hc, hmem, confirmed_covers_only_durable shopConfig ⟨1⟩ linesTwice s hrun
    (by decide +kernel) ["lines", "orders"] (htables ▸ .rfl) ⟨5⟩ hc _
    (.inr ⟨"lines", hmem⟩)⟩

/-- An order is committed at 10; of the transaction at 20, over both tables, only the
line is. -/
def lineCommitted : List (ConfirmingAction LSN) :=
  [.txn orderTxn, .deliver, .commit "orders" 0, .txn shopTxn, .deliver, .deliver, .commit "lines" 0]

/-- **The slot passes an order.**  The order of the second transaction is read at 10,
where its table is committed already, so nothing seems in flight. -/
theorem confirmed_covers_undurable_order :
    ∃ s, run (step shopConfig) (init ⟨1⟩) lineCommitted = some s ∧
      s.confirmedPosition s.tables = some ⟨20⟩ ∧
      s.Undurable (shopTxn.commit, ordersBatch ⟨10⟩) ∧
      Position.covered shopTxn.commit (⟨20⟩ : LSN) = true := by
  exact exists_run_of (by decide +kernel) fun s _
    (hseen : s.confirmedPosition s.tables = some ⟨20⟩ ∧
      (⟨20⟩, ordersBatch ⟨10⟩) ∈ s.inFlight "orders") =>
    ⟨hseen.1, .inr ⟨"orders", hseen.2⟩, by decide⟩

end Confirming

end Urutau
