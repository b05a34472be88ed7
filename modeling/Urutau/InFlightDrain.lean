import Urutau.GuardedRun
import Urutau.InFlightRuns
import Urutau.Offsets

/-!
# Draining the in-flight index of a Kafka worker

A Kafka record's position names its own partition only, and a batch is sent under the
position of its last record.  The index keeps one acked position for each table and moves
it by an ack that compares with it; the ack of a batch that ends in another partition
compares with nothing.  So of each table the partition acked first is the only one whose
batches ever leave, and what stands behind another stays with it.
-/

namespace Urutau

open List PositionIndex Runs InFlightBatch

namespace PositionIndex

variable {P : Type} [Position P] {idx : PositionIndex P} {t : String} {pos : P}

/-- What a table's acks cover they cover after one more. -/
theorem ackedAfter_covers [LawfulPosition P] {t' : String} {cur x : P}
    (hcur : idx.acked t' = some cur) (hx : Position.covered x cur = true) :
    ∃ cur', idx.ackedAfter t pos t' = some cur' ∧ Position.covered x cur' = true := by
  unfold ackedAfter
  split
  · rename_i hmoves
    by_cases heq : t' = t
    · subst heq
      simp only [moves, hcur] at hmoves
      exact ⟨pos, if_pos rfl, LawfulPosition.covered_trans hx (Position.covered_of_advances hmoves)⟩
    · exact ⟨cur, (if_neg heq).trans hcur, hx⟩
  · exact ⟨cur, hcur, hx⟩

/-- The acked position is what it was, or the one just acked. -/
theorem ackedAfter_eq_some {t' : String} {p : P} (h : idx.ackedAfter t pos t' = some p) :
    t' = t ∧ p = pos ∨ idx.acked t' = some p := by
  unfold ackedAfter at h
  split at h
  · by_cases heq : t' = t
    · exact .inl ⟨heq, (Option.some.inj ((if_pos heq).symm.trans h)).symm⟩
    · exact .inr ((if_neg heq).symm.trans h)
  · exact .inr h

/-- After an ack its table has a position: the one acked, or one it did not move. -/
theorem ackedAfter_self (idx : PositionIndex P) (t : String) (pos : P) :
    idx.ackedAfter t pos t = some pos ∨
      ∃ cur, idx.acked t = some cur ∧ idx.ackedAfter t pos t = some cur ∧
        Position.advances pos cur = false := by
  unfold ackedAfter
  split
  · exact .inl (if_pos rfl)
  rename_i hmoves
  cases hcur : idx.acked t with
  | none => simp [moves, hcur] at hmoves
  | some cur =>
    simp only [moves, hcur, Bool.not_eq_true] at hmoves
    exact .inr ⟨cur, rfl, rfl, hmoves⟩

end PositionIndex

/-- Where a Kafka record stands. -/
structure Coordinate where
  topic : String
  part : Nat
  offset : Nat
  deriving DecidableEq, Repr

/-- A batch of one table: the records it was decoded from, and what it is charged. -/
structure KafkaBatch where
  id : Nat
  table : String
  records : List Coordinate
  nonempty : records ≠ []
  bytes : Nat
  oversized : Bool
  deriving DecidableEq, Repr

namespace KafkaBatch

/-- The last record. -/
def last (b : KafkaBatch) : Coordinate := b.records.getLast b.nonempty

/-- The partition of the last record. -/
def partition (b : KafkaBatch) : String × Nat := (b.last.topic, b.last.part)

/-- The position the batch is sent under: that of its last row. -/
def high (b : KafkaBatch) : Offsets := Offsets.record b.last.topic b.last.part b.last.offset

/-- How the index holds the batch. -/
def inFlight (b : KafkaBatch) : InFlightBatch Offsets where
  id := b.id
  table := b.table
  high := some b.high
  bytes := b.bytes
  oversized := b.oversized
  marker := false
  isPartial := false

/-- A batch covers those before it in its partition. -/
theorem covered_high_iff (b b' : KafkaBatch) : Position.covered b.high b'.high = true ↔
    b.partition = b'.partition ∧ b.last.offset ≤ b'.last.offset :=
  Offsets.covered_record_iff ..

/-- Within a partition an ack either moves the position or is behind it. -/
theorem covered_of_not_advances {b b' : KafkaBatch} (hpart : b.partition = b'.partition)
    (h : Position.advances b.high b'.high = false) : Position.covered b.high b'.high = true := by
  rw [covered_high_iff]
  refine ⟨hpart, ?_⟩
  obtain ⟨htopic, hnum⟩ := Prod.mk.inj hpart
  unfold high at h
  rw [htopic, hnum, ← Bool.not_eq_true, Offsets.advances_record_iff] at h
  omega

/-- A batch is released once its table's ack covers it. -/
theorem releasable_inFlight {acked : String → Option Offsets} {b : KafkaBatch} :
    releasable acked b.inFlight = true ↔
      ∃ cur, acked b.table = some cur ∧ Position.covered b.high cur = true := by
  unfold releasable inFlight
  cases acked b.table with
  | none => simp
  | some cur => simp

end KafkaBatch

/-- A worker's index, the batches sent to it, and those of them with no ack yet. -/
structure DrainRun where
  history : IndexHistory Offsets
  sent : List KafkaBatch
  unacked : List KafkaBatch

inductive DrainAction
  | send (b : KafkaBatch)
  | ack
  deriving DecidableEq, Repr

namespace DrainRun

def start : DrainRun := ⟨IndexHistory.start, [], []⟩

/-- Batches are registered as they are sent, and acked in that order, each at its own
position. -/
def step (s : DrainRun) : DrainAction → Option DrainRun
  | .send b =>
    some {
      history := s.history.step (.add b.inFlight)
      sent := s.sent ++ [b]
      unacked := s.unacked ++ [b] }
  | .ack =>
    match s.unacked with
    | [] => none
    | b :: rest =>
      some { s with history := s.history.step (.truncate b.table b.high), unacked := rest }

/-- The batches of a table all end in one partition. -/
def OnePartition (sent : List KafkaBatch) : Prop :=
  ∀ b ∈ sent, ∀ b' ∈ sent, b.table = b'.table → b.partition = b'.partition

instance (sent : List KafkaBatch) : Decidable (OnePartition sent) := by
  unfold OnePartition
  infer_instance

/-- **The invariant.**  The index holds the last of what was sent, and all before is
covered by what is acked; when tables have one partition each, nothing acked is held. -/
structure Draining (s : DrainRun) : Prop where
  order : ∃ done, s.sent = done ++ s.unacked
  known : ∀ t p, s.history.index.acked t = some p → ∃ b ∈ s.sent, b.table = t ∧ b.high = p
  left : ∃ out kept, s.sent = out ++ kept ∧ s.history.index.head = kept.map KafkaBatch.inFlight ∧
    ∀ b ∈ out, releasable s.history.index.acked b.inFlight = true
  bytes : s.history.freed + (s.history.index.head.map bytes).sum = (s.sent.map KafkaBatch.bytes).sum
  drained : OnePartition s.sent → s.history.index.head.length ≤ s.unacked.length

theorem draining_start : Draining start where
  order := ⟨[], rfl⟩
  known := nofun
  left := ⟨[], [], rfl, rfl, nofun⟩
  bytes := rfl
  drained _ := le_rfl

variable {s s' : DrainRun}

/-- A batch sent is in flight. -/
theorem Draining.send (h : Draining s) {b : KafkaBatch} (hs : s.step (.send b) = some s') :
    Draining s' := by
  cases hs
  obtain ⟨done, hdone⟩ := h.order
  obtain ⟨out, kept, hsent, hhead, hout⟩ := h.left
  refine ⟨⟨done, ?_⟩, fun t p hp => ?_, ⟨out, kept ++ [b], ?_, ?_, hout⟩, ?_, fun hone => ?_⟩
  · rw [hdone, append_assoc]
  · obtain ⟨b', hb', hrest⟩ := h.known t p hp
    exact ⟨b', mem_append_left _ hb', hrest⟩
  · rw [hsent, append_assoc]
  · change s.history.index.head ++ [b.inFlight] = _
    rw [hhead, map_append]
    rfl
  · change s.history.freed + ((s.history.index.head ++ [b.inFlight]).map InFlightBatch.bytes).sum =
      ((s.sent ++ [b]).map KafkaBatch.bytes).sum
    rw [map_append, map_append, sum_append, sum_append, ← h.bytes, Nat.add_assoc]
    rfl
  · have hold : OnePartition s.sent := fun x hx y hy =>
      hone x (mem_append_left _ hx) y (mem_append_left _ hy)
    have hle := h.drained hold
    change (s.history.index.head ++ [b.inFlight]).length ≤ (s.unacked ++ [b]).length
    simp only [length_append, length_singleton]
    omega

/-- What an ack leaves of the index. -/
theorem head_ack (s : DrainRun) (t : String) (pos : Offsets) :
    (s.history.step (.truncate t pos)).index.head = s.history.index.head.dropWhile
      (releasable (s.history.index.ackedAfter t pos)) := by
  change (s.history.index.truncate t pos).2.head = _
  rw [truncate_eq]
  rfl

theorem acked_ack (s : DrainRun) (t : String) (pos : Offsets) :
    (s.history.step (.truncate t pos)).index.acked = s.history.index.ackedAfter t pos := by
  change (s.history.index.truncate t pos).2.acked = _
  rw [truncate_eq]
  rfl

/-- What an ack frees and what it leaves is what was held. -/
theorem freed_ack (s : DrainRun) (t : String) (pos : Offsets) :
    (s.history.step (.truncate t pos)).freed +
        ((s.history.step (.truncate t pos)).index.head.map bytes).sum =
      s.history.freed + (s.history.index.head.map bytes).sum := by
  rw [head_ack]
  change s.history.freed + (s.history.index.truncateFreed t pos).1.freed + _ = _
  rw [truncateFreed_eq, truncate_eq, Nat.add_assoc]
  change s.history.freed + (((s.history.index.head.takeWhile _).map bytes).sum + _) = _
  rw [← sum_append, ← map_append, takeWhile_append_dropWhile]

/-- In a table with one partition an ack covers its own batch. -/
theorem releasable_acked (h : Draining s) {b : KafkaBatch} (hb : b ∈ s.sent)
    (hone : OnePartition s.sent) :
    releasable (s.history.index.ackedAfter b.table b.high) b.inFlight = true := by
  rw [KafkaBatch.releasable_inFlight]
  rcases s.history.index.ackedAfter_self b.table b.high with hself | ⟨cur, hcur, hself, hnot⟩
  · exact ⟨b.high, hself, (KafkaBatch.covered_high_iff b b).mpr ⟨rfl, le_rfl⟩⟩
  · obtain ⟨b', hb', htable, rfl⟩ := h.known _ cur hcur
    exact ⟨b'.high, hself, KafkaBatch.covered_of_not_advances (hone b hb b' hb' htable.symm) hnot⟩

/-- An ack pops its batch. -/
theorem Draining.ack (h : Draining s) (hs : s.step .ack = some s') : Draining s' := by
  simp only [step] at hs
  split at hs
  · cases hs
  rename_i b rest hunacked
  cases hs
  obtain ⟨done, hdone⟩ := h.order
  obtain ⟨out, kept, hsent, hhead, hout⟩ := h.left
  have hb : b ∈ s.sent := by
    rw [hdone, hunacked]
    exact mem_append_right _ mem_cons_self
  refine ⟨⟨done ++ [b], ?_⟩, fun t p hp => ?_, ?_, ?_, fun hone => ?_⟩
  · rw [hdone, hunacked, append_assoc]
    rfl
  · rw [acked_ack] at hp
    rcases ackedAfter_eq_some hp with ⟨rfl, rfl⟩ | hp
    · exact ⟨b, hb, rfl, rfl⟩
    · exact h.known t p hp
  · -- What is popped now is covered; what was popped before is covered still.
    let covers : KafkaBatch → Bool := fun x =>
      releasable (s.history.index.ackedAfter b.table b.high) x.inFlight
    refine ⟨out ++ kept.takeWhile covers, kept.dropWhile covers, ?_, ?_, ?_⟩
    · rw [append_assoc, takeWhile_append_dropWhile]
      exact hsent
    · rw [head_ack, hhead, dropWhile_map]
      rfl
    · intro x hx
      rw [acked_ack]
      rcases mem_append.mp hx with hx | hx
      · obtain ⟨cur, hcur, hcov⟩ := KafkaBatch.releasable_inFlight.mp (hout x hx)
        exact KafkaBatch.releasable_inFlight.mpr (ackedAfter_covers hcur hcov)
      · have hcov : covers x = true := mem_takeWhile_imp hx
        exact hcov
  · exact (freed_ack s b.table b.high).trans h.bytes
  · have hle := h.drained hone
    change (s.history.step (.truncate b.table b.high)).index.head.length ≤ rest.length
    rw [head_ack]
    rw [hunacked, length_cons] at hle
    rcases Nat.lt_or_eq_of_le hle with hlt | heq
    · have hdrop := (dropWhile_sublist (releasable
        (s.history.index.ackedAfter b.table b.high)) (l := s.history.index.head)).length_le
      omega
    · -- The batch acked is the head of the index.
      have hkept : kept = b :: rest := by
        have hlen : kept.length = (b :: rest).length := by
          rw [hhead, length_map] at heq
          exact heq
        rw [hdone, hunacked] at hsent
        exact (append_inj_right' hsent hlen.symm).symm
      rw [hhead, hkept, map_cons, dropWhile_cons_of_pos (releasable_acked h hb hone)]
      exact ((dropWhile_sublist _).length_le).trans (Nat.le_of_eq (length_map _))

theorem Draining.step (h : Draining s) {a : DrainAction} (hs : s.step a = some s') :
    Draining s' := by
  cases a with
  | send b => exact h.send hs
  | ack => exact h.ack hs

/-- **When the index drains.**  Once every batch has been acked, the index is empty and
all bytes are freed exactly when the batches of each table end in one partition. -/
theorem index_drained_iff {s : DrainRun} {actions : List DrainAction}
    (hrun : run DrainRun.step start actions = some s) (hacked : s.unacked = []) :
    s.history.index.head = [] ∧ s.history.freed = (s.sent.map KafkaBatch.bytes).sum ↔
      OnePartition s.sent := by
  have h : Draining s := invariant_of_run Draining (fun _ _ _ h hs => h.step hs) draining_start hrun
  constructor
  · intro hempty
    obtain ⟨out, kept, hsent, hhead, hout⟩ := h.left
    rw [hempty.1] at hhead
    rw [map_eq_nil_iff.mp hhead.symm, append_nil] at hsent
    intro b hb b' hb' htable
    rw [hsent] at hb hb'
    obtain ⟨cur, hcur, hcov⟩ := KafkaBatch.releasable_inFlight.mp (hout b hb)
    obtain ⟨cur', hcur', hcov'⟩ := KafkaBatch.releasable_inFlight.mp (hout b' hb')
    rw [← htable, hcur] at hcur'
    cases hcur'
    obtain ⟨first, -, -, rfl⟩ := h.known _ cur hcur
    exact ((KafkaBatch.covered_high_iff b first).mp hcov).1.trans
      ((KafkaBatch.covered_high_iff b' first).mp hcov').1.symm
  · intro hone
    have hlen := h.drained hone
    rw [hacked, length_nil, Nat.le_zero, length_eq_zero_iff] at hlen
    refine ⟨hlen, ?_⟩
    have hbytes := h.bytes
    rw [hlen] at hbytes
    exact hbytes

/-- A batch of one record. -/
def fromPartition (id part offset : Nat) : KafkaBatch where
  id
  table := "orders"
  records := [⟨"shop.orders", part, offset⟩]
  nonempty := cons_ne_nil _ _
  bytes := 100
  oversized := false

/-- Two batches of one partition are drained. -/
theorem index_drained_iff_samePartition :
    ∃ s, run DrainRun.step start
        [.send (fromPartition 1 0 5), .send (fromPartition 2 0 9), .ack, .ack] = some s ∧
      s.unacked = [] ∧ OnePartition s.sent ∧ s.history.index.head = [] ∧ s.history.freed = 200 := by
  refine exists_run_of (by decide +kernel) fun s hrun
    (hseen : s.unacked = [] ∧ s.sent = [fromPartition 1 0 5, fromPartition 2 0 9]) => ?_
  obtain ⟨hacked, hsent⟩ := hseen
  have hone : OnePartition s.sent := by
    rw [hsent]
    decide
  obtain ⟨hempty, hfreed⟩ := (index_drained_iff hrun hacked).mpr hone
  rw [hsent] at hfreed
  exact ⟨hacked, hone, hempty, hfreed⟩

/-- The second batch ends in another partition: its ack compares with nothing and it is
never released. -/
theorem index_never_drains : ∃ s, run DrainRun.step start
        [.send (fromPartition 1 0 5), .send (fromPartition 2 1 3), .ack, .ack] = some s ∧
      s.unacked = [] ∧ s.history.index.head = [(fromPartition 2 1 3).inFlight] ∧
      s.history.freed = 100 ∧ (s.sent.map KafkaBatch.bytes).sum = 200 := by
  exact exists_run (by decide +kernel)

end DrainRun

end Urutau
