import Urutau.InFlightDrain
import Urutau.PartitionedSend
import Urutau.ResumeStart
import Urutau.FifoOrder

/-!
# Coverage by a Kafka position

A record's position names its own partition, and a batch is judged by the position of its
last row.  A batch that ends with a record of a partition the table has committed is left out
as covered, whatever other partitions its rows are of.

The machine follows one line of commits of a table.  The reader takes the records of each
partition in their order, the partitions in any order; a restart reads each partition from
the resume point on, so the records may be interleaved and cut in another way.
-/

namespace Urutau

open List Offsets Runs

namespace Coordinate

/-- The partition of a record. -/
def partition (c : Coordinate) : String × Nat := (c.topic, c.part)

/-- `recordPosition`. -/
def position (c : Coordinate) : Offsets := record c.topic c.part c.offset

/-- A record covers those before it in its partition. -/
theorem covered_position_iff (a b : Coordinate) : Position.covered a.position b.position = true ↔
      a.partition = b.partition ∧ a.offset ≤ b.offset :=
  covered_record_iff ..

end Coordinate

/-- Which records are rows of the line, and each row's owner. -/
structure KafkaSetup where
  mine : Coordinate → Bool
  owner : Coordinate → Nat

/-- A batch that waits for its commit: the rows that are not left out, and the last row, whose
position is committed with them. -/
structure KafkaEntry where
  kept : List Coordinate
  last : Coordinate
  deriving DecidableEq, Repr

/-- One line of the table: the offset each partition is read at next, the rows of the batch
not yet cut, the batches that wait, and the committed position, now and at boot.  History:
the rows committed so far and those left out as covered. -/
structure KafkaLine where
  next : String × Nat → Nat
  buffer : List Coordinate
  pending : List KafkaEntry
  boot : Option Offsets
  committed : Option Offsets
  durable : List Coordinate
  skipped : List Coordinate

inductive KafkaAction
  | read (topic : String) (part : Nat)
  | cut
  | commit (n : Nat)
  | restart (resume : Option Offsets)

namespace KafkaLine

def init : KafkaLine where
  next _ := 0
  buffer := []
  pending := []
  boot := none
  committed := none
  durable := []
  skipped := []

variable (su : KafkaSetup)

/-- The rows of one owner. -/
def shareOf (rows : List Coordinate) (owner : Nat) : List Coordinate :=
  rows.filter fun r => su.owner r = owner

/-- The row's share of the batch is covered by its last row's position.  A Kafka batch is never
partial. -/
def leftOut (boot : Option Offsets) (rows : List Coordinate) (r : Coordinate) : Bool :=
  coveredAtBoot boot ((shareOf su rows (su.owner r)).getLast?.map Coordinate.position) false

/-- What a batch adds to the line: nothing when every share is left out. -/
def entryOf (boot : Option Offsets) (rows : List Coordinate) : List KafkaEntry :=
  let kept := rows.filter fun r => !leftOut su boot rows r
  match kept, rows.getLast? with
  | _ :: _, some last => [⟨kept, last⟩]
  | _, _ => []

def step (s : KafkaLine) : KafkaAction → Option KafkaLine
  | .read topic part =>
    let c : Coordinate := ⟨topic, part, s.next (topic, part)⟩
    some { s with
      next := fun key => if key = (topic, part) then s.next key + 1 else s.next key
      buffer := s.buffer ++ if su.mine c then [c] else [] }
  | .cut =>
    some { s with
      buffer := []
      pending := s.pending ++ entryOf su s.boot s.buffer
      skipped := s.skipped ++ s.buffer.filter fun r => leftOut su s.boot s.buffer r }
  | .commit n =>
    if 0 < n ∧ n ≤ s.pending.length then
      some { s with
        pending := s.pending.drop n
        committed := (s.pending.take n).getLast?.map fun e => e.last.position
        durable := s.durable ++ (s.pending.take n).flatMap KafkaEntry.kept }
    else none
  | .restart resume =>
    some { s with
      next := Resume.readFrom resume
      buffer := []
      pending := []
      boot := s.committed }

/-- The condition on an action.  Each owner's share of a batch is of one partition; a restart
resumes at a point the committed position contains, or one that passes no row of the line. -/
def OnePartition (s : KafkaLine) : KafkaAction → Prop
  | .cut => ∀ r ∈ s.buffer, ∀ last ∈ (shareOf su s.buffer (su.owner r)).getLast?,
      r.partition = last.partition
  | .restart resume => ∀ start ∈ resume, (∃ c ∈ s.committed, c.contains start = true) ∨
      ∀ e ∈ start.entries, ∀ offset ≤ e.2, su.mine ⟨e.1.1, e.1.2, offset⟩ = false
  | _ => True

instance decidableOnePartition (s : KafkaLine) : ∀ a, Decidable (OnePartition su s a)
  | .cut => inferInstanceAs (Decidable (∀ r ∈ s.buffer, _))
  | .restart resume => inferInstanceAs (Decidable (∀ start ∈ resume, _ ∨ _))
  | .read _ _ | .commit _ => inferInstanceAs (Decidable True)

/-! ## What is settled -/

/-- A position that was committed settles its partition: every row of it up to there is
durable. -/
def Settles (durable : List Coordinate) (o : Offsets) : Prop :=
  ∃ c : Coordinate, o = c.position ∧ ∀ row, su.mine row = true → row.partition = c.partition →
    row.offset ≤ c.offset → row ∈ durable

/-- What holds of the line.  The rows of a partition wait in their order, so the last row of a
batch lies before every row of its partition behind it. -/
structure Sound (s : KafkaLine) : Prop where
  boot : ∀ o ∈ s.boot, Settles su s.durable o
  committed : ∀ o ∈ s.committed, Settles su s.durable o
  read : ∀ row, su.mine row = true → row.offset < s.next row.partition →
    row ∈ s.durable ∨ (∃ e ∈ s.pending, row ∈ e.kept) ∨ row ∈ s.buffer
  buffered : ∀ r ∈ s.buffer, su.mine r = true ∧ r.offset < s.next r.partition
  ordered : s.buffer.Pairwise fun a b => a.partition = b.partition → a.offset ≤ b.offset
  entries : s.pending.Pairwise fun a b => ∀ row ∈ b.kept, row.partition = a.last.partition →
    a.last.offset < row.offset
  ahead : ∀ e ∈ s.pending, e.last.offset < s.next e.last.partition ∧
    ∀ r ∈ s.buffer, r.partition = e.last.partition → e.last.offset < r.offset
  skipped : ∀ row ∈ s.skipped, row ∈ s.durable

theorem sound_init : Sound su init where
  boot := nofun
  committed := nofun
  read := nofun
  buffered := nofun
  ordered := .nil
  entries := .nil
  ahead := nofun
  skipped := nofun

variable {su} {s : KafkaLine}

theorem Settles.mono {durable more : List Coordinate} {o : Offsets} (h : Settles su durable o) :
    Settles su (durable ++ more) o := by
  obtain ⟨c, hc, hrows⟩ := h
  exact ⟨c, hc, fun row hmine hpart hle => mem_append_left _ (hrows row hmine hpart hle)⟩

variable {rows : List Coordinate}

/-- A batch that waits has its kept rows and its last row from the batch. -/
theorem mem_entryOf {boot : Option Offsets} {e : KafkaEntry}
    (h : e ∈ entryOf su boot rows) : e.last ∈ rows ∧ ∀ row ∈ e.kept, row ∈ rows := by
  simp only [entryOf] at h
  split at h
  · rename_i hkept hlast
    rw [mem_singleton] at h
    subst h
    exact ⟨mem_of_getLast? hlast, fun row hrow => (mem_filter.mp hrow).1⟩
  · cases h

/-- Every row of a batch is left out or waits. -/
theorem leftOut_or_kept (boot : Option Offsets) {row : Coordinate} (hrow : row ∈ rows) :
    leftOut su boot rows row = true ∨ ∃ e ∈ entryOf su boot rows, row ∈ e.kept := by
  cases hout : leftOut su boot rows row with
  | true => exact .inl rfl
  | false =>
    have hkept : row ∈ rows.filter fun r => !leftOut su boot rows r :=
      mem_filter.mpr ⟨hrow, by rw [hout]; rfl⟩
    refine .inr ?_
    simp only [entryOf]
    split
    · exact ⟨_, mem_cons_self, hkept⟩
    · rename_i hnone
      have hlast := getLast?_eq_some_getLast (ne_nil_of_mem hrow)
      obtain ⟨first, rest, hcons⟩ := exists_cons_of_ne_nil (ne_nil_of_mem hkept)
      exact (hnone first rest _ hcons hlast).elim

/-- In a list that does not go back on a partition, the last row is the furthest of its own. -/
theorem offset_le_last {l : List Coordinate} {last a : Coordinate}
    (h : l.Pairwise fun a b => a.partition = b.partition → a.offset ≤ b.offset)
    (hlast : last ∈ l.getLast?) (ha : a ∈ l) (hpart : a.partition = last.partition) :
    a.offset ≤ last.offset := by
  obtain ⟨front, rfl⟩ := getLast?_eq_some_iff.mp hlast
  rcases mem_append.mp ha with ha | ha
  · exact (pairwise_append.mp h).2.2 a ha last mem_cons_self hpart
  · exact Nat.le_of_eq (congrArg Coordinate.offset (mem_singleton.mp ha))

section

variable (h : Sound su s)
include h

/-- **A share of one partition is covered only by what is settled.** -/
theorem durable_of_leftOut (hpart : OnePartition su s .cut) {r : Coordinate}
    (hr : r ∈ s.buffer) (hout : leftOut su s.boot s.buffer r = true) : r ∈ s.durable := by
  have hshare : r ∈ shareOf su s.buffer (su.owner r) := mem_filter.mpr ⟨hr, decide_eq_true rfl⟩
  have hlast := getLast?_eq_some_getLast (ne_nil_of_mem hshare)
  generalize (shareOf su s.buffer (su.owner r)).getLast _ = last at hlast
  rw [leftOut, hlast] at hout
  cases hboot : s.boot with
  | none =>
    rw [hboot] at hout
    cases hout
  | some o =>
    obtain ⟨c, rfl, hrows⟩ := h.boot o hboot
    rw [hboot] at hout
    obtain ⟨hsame, hle⟩ := (Coordinate.covered_position_iff last c).mp hout
    have hone := hpart r hr last hlast
    have hoffset := offset_le_last (h.ordered.filter _) hlast hshare hone
    exact hrows r (h.buffered r hr).1 (hone.trans hsame) (Nat.le_trans hoffset hle)

/-! ## The steps -/

theorem Sound.read_step (topic : String) (part : Nat) : Sound su { s with
      next := fun key => if key = (topic, part) then s.next key + 1 else s.next key
      buffer := s.buffer ++ if su.mine ⟨topic, part, s.next (topic, part)⟩ then
        [⟨topic, part, s.next (topic, part)⟩] else [] } := by
  generalize hc : (⟨topic, part, s.next (topic, part)⟩ : Coordinate) = c
  have hkey : c.partition = (topic, part) := by
    rw [← hc]
    rfl
  have hoffset : c.offset = s.next c.partition := by
    rw [hkey, ← hc]
  rw [← hkey]
  have hgrow : ∀ key, s.next key ≤ if key = c.partition then s.next key + 1 else s.next key := by
    intro key
    split <;> omega
  have hnew : ∀ r ∈ (if su.mine c then [c] else []), r = c ∧ su.mine c = true := by
    intro r hr
    split at hr
    · rename_i hmine
      exact ⟨mem_singleton.mp hr, hmine⟩
    · cases hr
  refine ⟨h.boot, h.committed, fun row hmine hlt => ?_, fun r hr => ?_, ?_, h.entries,
    fun e he => ⟨Nat.lt_of_lt_of_le (h.ahead e he).1 (hgrow _), fun r hr hpart => ?_⟩, h.skipped⟩
  · by_cases hold : row.offset < s.next row.partition
    · rcases h.read row hmine hold with hd | he | hb
      · exact .inl hd
      · exact .inr (.inl he)
      · exact .inr (.inr (mem_append_left _ hb))
    -- the row just read
    dsimp only at hlt
    have hpart : row.partition = c.partition := by
      by_contra hne
      rw [if_neg hne] at hlt
      exact hold hlt
    rw [if_pos hpart] at hlt
    have hrow : row = c := by
      have heq : row.offset = c.offset := by
        rw [hoffset, ← hpart]
        omega
      obtain ⟨htopic, hnum⟩ := Prod.mk.inj hpart
      cases row
      cases c
      simp_all
    subst hrow
    refine .inr (.inr (mem_append_right _ ?_))
    rw [if_pos hmine]
    exact mem_cons_self
  · rcases mem_append.mp hr with hr | hr
    · exact ⟨(h.buffered r hr).1, Nat.lt_of_lt_of_le (h.buffered r hr).2 (hgrow _)⟩
    obtain ⟨rfl, hmine⟩ := hnew r hr
    refine ⟨hmine, ?_⟩
    dsimp only
    rw [if_pos rfl]
    omega
  · refine pairwise_append.mpr ⟨h.ordered, ?_, fun a ha b hb hpart => ?_⟩
    · split
      · exact pairwise_singleton _ _
      · exact .nil
    · obtain ⟨rfl, -⟩ := hnew b hb
      have hlt := (h.buffered a ha).2
      rw [hpart] at hlt
      omega
  · rcases mem_append.mp hr with hr | hr
    · exact (h.ahead e he).2 r hr hpart
    · obtain ⟨rfl, -⟩ := hnew r hr
      have hlt := (h.ahead e he).1
      rw [← hpart] at hlt
      omega

/-- A batch of one partition covers its rows. -/
theorem Sound.cut (hpart : OnePartition su s .cut) : Sound su { s with
      buffer := []
      pending := s.pending ++ entryOf su s.boot s.buffer
      skipped := s.skipped ++ s.buffer.filter fun r => leftOut su s.boot s.buffer r } where
  boot := h.boot
  committed := h.committed
  read row hmine hlt := by
    rcases h.read row hmine hlt with hd | ⟨e, he, hkept⟩ | hb
    · exact .inl hd
    · exact .inr (.inl ⟨e, mem_append_left _ he, hkept⟩)
    · rcases leftOut_or_kept s.boot hb with hout | ⟨e, he, hkept⟩
      · exact .inl (durable_of_leftOut h hpart hb hout)
      · exact .inr (.inl ⟨e, mem_append_right _ he, hkept⟩)
  buffered := nofun
  ordered := .nil
  entries := by
    refine pairwise_append.mpr ⟨h.entries, ?_, fun a ha b hb row hrow => ?_⟩
    · simp only [entryOf]
      split
      · exact pairwise_singleton _ _
      · exact .nil
    · exact (h.ahead a ha).2 row ((mem_entryOf hb).2 row hrow)
  ahead e he := by
    refine ⟨?_, nofun⟩
    rcases mem_append.mp he with he | he
    · exact (h.ahead e he).1
    · exact (h.buffered _ (mem_entryOf he).1).2
  skipped row hrow := by
    rcases mem_append.mp hrow with hrow | hrow
    · exact h.skipped row hrow
    · obtain ⟨hb, hout⟩ := mem_filter.mp hrow
      exact durable_of_leftOut h hpart hb hout

/-- A commit settles its position. -/
theorem Sound.commit {n : Nat} : Sound su { s with
      pending := s.pending.drop n
      committed := (s.pending.take n).getLast?.map fun e => e.last.position
      durable := s.durable ++ (s.pending.take n).flatMap KafkaEntry.kept } where
  boot o ho := (h.boot o ho).mono
  committed o ho := by
    obtain ⟨e, he, rfl⟩ := Option.map_eq_some_iff.mp ho
    have hmem : e ∈ s.pending := mem_of_mem_take (mem_of_getLast? he)
    refine ⟨e.last, rfl, fun row hmine hpart hle => ?_⟩
    have hlt : row.offset < s.next row.partition := by
      rw [hpart]
      exact Nat.lt_of_le_of_lt hle (h.ahead e hmem).1
    rcases Fifo.done_or_waits n (h.read row hmine hlt) with hd | ⟨e', he', hkept⟩ | hb
    · exact hd
    · have hbehind := Fifo.behind_of_mem_drop h.entries he he' row hkept hpart
      exact absurd hle (Nat.not_le_of_lt hbehind)
    · exact absurd hle (Nat.not_le_of_lt ((h.ahead e hmem).2 row hb hpart))
  read row hmine hlt := Fifo.done_or_waits n (h.read row hmine hlt)
  buffered := h.buffered
  ordered := h.ordered
  entries := h.entries.sublist (drop_sublist _ _)
  ahead e he := h.ahead e (mem_of_mem_drop he)
  skipped row hrow := mem_append_left _ (h.skipped row hrow)

/-- What a resume point passes has been committed. -/
theorem Sound.restart {resume : Option Offsets} (hresume : OnePartition su s (.restart resume)) :
    Sound su { s with
      next := Resume.readFrom resume
      buffer := []
      pending := []
      boot := s.committed } where
  boot := h.committed
  committed := h.committed
  read row hmine hlt := by
    refine .inl ?_
    cases resume with
    | none => cases hlt
    | some start =>
      have hcovered := (Resume.lt_readFrom_iff start row.topic row.part row.offset).mp hlt
      rw [covered_iff] at hcovered
      rcases hresume start rfl with ⟨o, ho, hcontains⟩ | hnone
      · obtain ⟨c, rfl, hrows⟩ := h.committed o ho
        have hrecord := contains_trans hcovered hcontains
        obtain ⟨hpart, hle⟩ := (record_contains_iff ..).mp hrecord
        exact hrows row hmine hpart hle
      · obtain ⟨mine, hget, hle⟩ := (contains_iff _ _).mp hcovered _ mem_cons_self
        have hfalse := hnone _ (mem_of_get hget) row.offset hle
        exact absurd (hmine.symm.trans hfalse) Bool.true_eq_false.mp
  buffered := nofun
  ordered := .nil
  entries := .nil
  ahead := nofun
  skipped := h.skipped

theorem Sound.step {s' : KafkaLine} {a : KafkaAction}
    (hok : OnePartition su s a) (hs : step su s a = some s') : Sound su s' := by
  cases a with
  | read topic part =>
    cases hs
    exact h.read_step topic part
  | cut =>
    cases hs
    exact h.cut hok
  | commit n =>
    obtain ⟨-, hs⟩ := Option.ite_none_right_eq_some.mp hs
    cases hs
    exact h.commit
  | restart resume =>
    cases hs
    exact h.restart hok

end

/-- **Covered records are durable.**  In every run whose batches and restarts meet the condition,
every record left out as covered was part of a commit of the table. -/
theorem skipped_committed {actions : List KafkaAction} (hrun : run (step su) init actions = some s)
    (hok : Runs.Guarded (step su) (OnePartition su) init actions) :
    ∀ row ∈ s.skipped, row ∈ s.durable :=
  (invariant_of_guarded (Sound su) (fun _ _ _ hinv hone hstep => hinv.step hone hstep)
    (sound_init su) hrun hok).skipped

/-! ## A batch of two partitions -/

/-- Every record of the topics is a row, of one owner. -/
def wholeTopic : KafkaSetup where
  mine _ := true
  owner _ := 0

/-- Two records of partition 1 are committed.  Another table is behind, so partition 1 is read
again from its second record; partition 0 is read from its start. -/
def readAgain (after : List KafkaAction) : List KafkaAction :=
  [.read "orders" 1, .read "orders" 1, .cut, .commit 1,
    .restart (some (record "orders" 1 0))] ++ after

/-- The partitions are cut apart. -/
def apart : List KafkaAction :=
  readAgain [.read "orders" 0, .cut, .read "orders" 1, .cut, .commit 1]

/-- The record skipped was committed. -/
theorem skipped_committed_apart : ∃ s, run (step wholeTopic) init apart = some s ∧
      s.skipped = [⟨"orders", 1, 1⟩] ∧ ∀ row ∈ s.skipped, row ∈ s.durable := by
  exact exists_run_and (by decide +kernel) fun s hs _ => skipped_committed hs (by decide +kernel)

/-- The record of partition 0 is cut into one batch with the record read again. -/
def together : List KafkaAction := readAgain [.read "orders" 0, .read "orders" 1, .cut]

/-- The batch is covered by the position of partition 1, and its record of partition 0 was
never committed. -/
theorem other_partition_left_out : ∃ s, run (step wholeTopic) init together = some s ∧
      ⟨"orders", 0, 0⟩ ∈ s.skipped ∧ ⟨"orders", 0, 0⟩ ∉ s.durable := by
  exact exists_run (by decide +kernel)

end KafkaLine

end Urutau
