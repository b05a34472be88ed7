import Urutau.PartitionedSend
import Urutau.FifoOrder

/-!
# Coalesced pieces of transactions

A transaction's rows of a table are emitted in pieces.  All but the last are partial and
carry the position of the transaction before; the last carries the transaction's own.
Consecutive pieces are coalesced into one batch, which is partial if its last piece is, and
the batch is split by owner.  A share is left out as covered by the position of its own last
row and the batch's one flag.

The machine follows one line of commits of the table: the cycles of a staging sink, which
take the shares of all owners, or the commits of one worker.  A row is known by its
transaction and its place in it.
-/

namespace Urutau

open List Option Runs

/-- A row of the table: its transaction, numbered from 1, and its place there. -/
structure TxnRow where
  txn : Nat
  index : Nat
  deriving DecidableEq, Repr

/-- A record of one transaction's rows.  `stamp` is the transaction whose position the rows
carry. -/
structure TxnPiece where
  txn : Nat
  rows : List TxnRow
  stamp : Nat
  isPartial : Bool
  deriving DecidableEq, Repr

/-- A batch that waits for its commit: the rows that are not left out, and the transaction
whose position is committed with them. -/
structure LineEntry where
  kept : List TxnRow
  stamp : Nat
  deriving DecidableEq, Repr

/-- The source and the routing: the transactions up to the last one, the position of each,
how many rows of the table it has, which rows the line commits, and each row's owner. -/
structure PieceSetup (P : Type) [Position P] where
  last : Nat
  pos : Nat → P
  covered_iff : ∀ i ≤ last, ∀ j ≤ last, Position.covered (pos i) (pos j) = true ↔ i ≤ j
  less_iff : ∀ i ≤ last, ∀ j ≤ last, Position.compare (pos i) (pos j) = .less ↔ i < j
  size : Nat → Nat
  mine : TxnRow → Bool
  owner : TxnRow → Nat

/-- One line of the table.  The reader stands after `taken` rows of transaction `next`; `acc`
are the pieces not sent.  `boot` is the committed position the run started with.  History:
the rows committed so far and those left out as covered. -/
structure PieceLine where
  next : Nat
  taken : Nat
  acc : List TxnPiece
  pending : List LineEntry
  boot : Option Nat
  committed : Option Nat
  durable : List TxnRow
  skipped : List TxnRow
  deriving DecidableEq, Repr

inductive PieceAction
  | cut (n : Nat)
  | close
  | send (n : Nat)
  | commit (n : Nat)
  | restart (resume : Nat)
  deriving DecidableEq, Repr

namespace PieceLine

def init : PieceLine where
  next := 1
  taken := 0
  acc := []
  pending := []
  boot := none
  committed := none
  durable := []
  skipped := []

/-- `n` rows of a transaction, from a place on. -/
def rowsFrom (txn start n : Nat) : List TxnRow := (List.range' start n).map fun i => ⟨txn, i⟩

/-- `Concat`: the rows of the pieces, each with its stamp. -/
def concat (pieces : List TxnPiece) : List (TxnRow × Nat) :=
  pieces.flatMap fun p => p.rows.map fun row => (row, p.stamp)

/-- The merged batch is partial when its last piece is. -/
def concatPartial (pieces : List TxnPiece) : Bool := pieces.getLast?.any fun p => p.isPartial

variable {P : Type} [Position P] (su : PieceSetup P)

/-- The rows of a merged batch that go to the line. -/
def lineRows (pieces : List TxnPiece) : List (TxnRow × Nat) :=
  (concat pieces).filter fun r => su.mine r.1

/-- The rows of one owner. -/
def shareOf (rows : List (TxnRow × Nat)) (owner : Nat) : List (TxnRow × Nat) :=
  rows.filter fun r => su.owner r.1 = owner

/-- The share is covered: the worker skips it, and its cycle does not expect it. -/
def shareCovered (boot : Option Nat) (isPartial : Bool) (share : List (TxnRow × Nat)) : Bool :=
  coveredAtBoot (boot.map su.pos) (share.getLast?.map fun r => su.pos r.2) isPartial

/-- The row's share of the batch is covered. -/
def leftOut (boot : Option Nat) (isPartial : Bool) (rows : List (TxnRow × Nat))
    (r : TxnRow × Nat) : Bool :=
  shareCovered su boot isPartial (shareOf su rows (su.owner r.1))

/-- What a merged batch adds to the line: nothing when every share is left out. -/
def entryOf (boot : Option Nat) (pieces : List TxnPiece) : List LineEntry :=
  let rows := lineRows su pieces
  let kept := rows.filter fun r => !leftOut su boot (concatPartial pieces) rows r
  match kept, rows.getLast? with
  | _ :: _, some last => [⟨kept.map Prod.fst, last.2⟩]
  | _, _ => []

/-- The rows of a merged batch that are left out. -/
def skippedOf (boot : Option Nat) (pieces : List TxnPiece) : List TxnRow :=
  let rows := lineRows su pieces
  (rows.filter fun r => leftOut su boot (concatPartial pieces) rows r).map Prod.fst

def step (s : PieceLine) : PieceAction → Option PieceLine
  | .cut n =>
    -- a ceiling was crossed inside the transaction
    if s.next ≤ su.last ∧ 0 < n ∧ s.taken + n < su.size s.next then
      some { s with
        taken := s.taken + n
        acc := s.acc ++ [⟨s.next, rowsFrom s.next s.taken n, s.next - 1, true⟩] }
    else none
  | .close =>
    if s.next ≤ su.last then
      some { s with
        next := s.next + 1
        taken := 0
        acc := s.acc ++ if s.taken < su.size s.next then
            [⟨s.next, rowsFrom s.next s.taken (su.size s.next - s.taken), s.next, false⟩]
          else [] }
    else none
  | .send n =>
    if 0 < n ∧ n ≤ s.acc.length then
      some { s with
        acc := s.acc.drop n
        pending := s.pending ++ entryOf su s.boot (s.acc.take n)
        skipped := s.skipped ++ skippedOf su s.boot (s.acc.take n) }
    else none
  | .commit n =>
    if 0 < n ∧ n ≤ s.pending.length then
      some { s with
        pending := s.pending.drop n
        committed := (s.pending.take n).getLast?.map LineEntry.stamp
        durable := s.durable ++ (s.pending.take n).flatMap LineEntry.kept }
    else none
  | .restart resume =>
    if resume ≤ su.last then
      some { s with
        next := resume + 1
        taken := 0
        acc := []
        pending := []
        boot := s.committed }
    else none

/-- The condition on an action.  Every share of a batch that is not partial ends with a row
that carries its own transaction's position; a restart resumes at or before the committed
position, or passes no row of the table. -/
def Stamped (s : PieceLine) : PieceAction → Prop
  | .send n =>
    concatPartial (s.acc.take n) = false → ∀ r ∈ lineRows su (s.acc.take n),
        ∀ last ∈ (shareOf su (lineRows su (s.acc.take n)) (su.owner r.1)).getLast?,
          last.2 = last.1.txn
  | .restart resume =>
    (∃ c ∈ s.committed, resume ≤ c) ∨ ∀ txn < resume + 1, su.size txn = 0
  | _ => True

instance decidableStamped (s : PieceLine) : ∀ a, Decidable (Stamped su s a)
  | .send _ => inferInstanceAs (Decidable (_ → _))
  | .restart _ => inferInstanceAs (Decidable (_ ∨ _))
  | .cut _ | .close | .commit _ => inferInstanceAs (Decidable True)

/-! ## Rows in order -/

/-- The row is one of the table's and the line commits it. -/
def Has (row : TxnRow) : Prop := su.mine row = true ∧ 1 ≤ row.txn ∧ row.index < su.size row.txn

/-- Every row up to a transaction of the source is durable. -/
def Settled (durable : List TxnRow) (c : Nat) : Prop :=
  c ≤ su.last ∧ ∀ row, Has su row → row.txn ≤ c → row ∈ durable

/-- The reader is past the row. -/
def Passed (s : PieceLine) (row : TxnRow) : Prop :=
  row.txn < s.next ∨ row.txn = s.next ∧ row.index < s.taken

/-- A piece the reader has emitted: its rows are of one transaction, stamped with that
transaction or the one before. -/
structure Emitted (next : Nat) (p : TxnPiece) : Prop where
  reached : p.txn ≤ next
  passed : p.stamp < next
  stamped : p.stamp ≤ p.txn ∧ p.txn ≤ p.stamp + 1
  positive : 1 ≤ p.txn
  rows : ∀ row ∈ p.rows, row.txn = p.txn ∧ row.index < su.size p.txn

/-- What holds of the line.  The position of a batch that waits lies before every row behind
it, so committing it settles every row up to that position. -/
structure Sound (s : PieceLine) : Prop where
  started : 1 ≤ s.next
  bounded : s.next ≤ su.last + 1
  boot : ∀ c ∈ s.boot, Settled su s.durable c
  committed : ∀ c ∈ s.committed, Settled su s.durable c
  read : ∀ row, Has su row → s.Passed row →
    row ∈ s.durable ∨ (∃ e ∈ s.pending, row ∈ e.kept) ∨ ∃ p ∈ s.acc, row ∈ p.rows
  entries : s.pending.Pairwise fun a b => ∀ row ∈ b.kept, a.stamp < row.txn
  ahead : ∀ e ∈ s.pending, e.stamp < s.next ∧ ∀ p ∈ s.acc, e.stamp < p.txn
  pieces : s.acc.Pairwise fun a b => a.txn ≤ b.txn ∧ a.stamp < b.txn
  emitted : ∀ p ∈ s.acc, Emitted su s.next p
  skipped : ∀ row ∈ s.skipped, row ∈ s.durable

theorem sound_init : Sound su init where
  started := Nat.le_refl _
  bounded := Nat.succ_le_succ (Nat.zero_le _)
  boot := nofun
  committed := nofun
  read row hrow hpassed := by
    have hpos := hrow.2.1
    rcases hpassed with hlt | ⟨-, hlt⟩
    · exact absurd (show row.txn < 1 from hlt) (by omega)
    · cases hlt
  entries := .nil
  ahead := nofun
  pieces := .nil
  emitted := nofun
  skipped := nofun

variable {su}

theorem Settled.mono {durable more : List TxnRow} {c : Nat} (h : Settled su durable c) :
    Settled su (durable ++ more) c :=
  ⟨h.1, fun row hrow hle => mem_append_left _ (h.2 row hrow hle)⟩

theorem mem_rowsFrom {txn start n : Nat} {row : TxnRow} :
    row ∈ rowsFrom txn start n ↔ row.txn = txn ∧ start ≤ row.index ∧ row.index < start + n := by
  obtain ⟨t, i⟩ := row
  simp only [rowsFrom, List.mem_map, mem_range'_1, TxnRow.mk.injEq]
  constructor
  · intro h
    obtain ⟨j, hj, rfl, rfl⟩ := h
    exact ⟨rfl, hj⟩
  · intro h
    exact ⟨i, h.2, h.1.symm, rfl⟩

/-- In a list that does not go back, the last entry is the furthest. -/
theorem le_last {α : Type} {f : α → Nat} {l : List α} {last a : α}
    (h : l.Pairwise fun a b => f a ≤ f b) (hlast : last ∈ l.getLast?) (ha : a ∈ l) :
    f a ≤ f last := by
  obtain ⟨front, rfl⟩ := getLast?_eq_some_iff.mp hlast
  rcases mem_append.mp ha with ha | ha
  · exact (pairwise_append.mp h).2.2 a ha last mem_cons_self
  · exact Nat.le_of_eq (congrArg f (mem_singleton.mp ha))

variable {pieces : List TxnPiece}

/-- A stamped row of a merged batch is of one of its pieces. -/
theorem mem_concat {r : TxnRow × Nat} (h : r ∈ concat pieces) :
    ∃ p ∈ pieces, r.1 ∈ p.rows ∧ r.2 = p.stamp := by
  obtain ⟨p, hp, hr⟩ := mem_flatMap.mp h
  obtain ⟨row, hrow, rfl⟩ := mem_map.mp hr
  exact ⟨p, hp, hrow, rfl⟩

/-- The rows of pieces in order are in order. -/
theorem concat_ordered {next : Nat} (hpieces : pieces.Pairwise fun a b => a.txn ≤ b.txn)
    (hemitted : ∀ p ∈ pieces, Emitted su next p) :
    (concat pieces).Pairwise fun a b => a.1.txn ≤ b.1.txn := by
  rw [concat, pairwise_flatMap]
  refine ⟨fun p hp => ?_, ?_⟩
  · rw [pairwise_map]
    refine pairwise_of_forall_mem_list fun a ha b hb => ?_
    have hrows := (hemitted p hp).rows
    have ha := (hrows a ha).1
    have hb := (hrows b hb).1
    dsimp only
    omega
  · refine hpieces.imp_of_mem fun {p q} hp hq hle r hr t ht => ?_
    obtain ⟨row, hrow, rfl⟩ := mem_map.mp hr
    obtain ⟨row', hrow', rfl⟩ := mem_map.mp ht
    have ha := ((hemitted p hp).rows row hrow).1
    have hb := ((hemitted q hq).rows row' hrow').1
    dsimp only
    omega

/-- A share is left out by its last row's position. -/
theorem shareCovered_iff {boot : Option Nat} {isPartial : Bool} {share : List (TxnRow × Nat)}
    (hboot : ∀ c ∈ boot, c ≤ su.last) (hshare : ∀ r ∈ share, r.2 ≤ su.last) :
    shareCovered su boot isPartial share = true ↔ ∃ c ∈ boot, ∃ last ∈ share.getLast?,
        if isPartial then last.2 < c else last.2 ≤ c := by
  cases boot with
  | none => simp [shareCovered, coveredAtBoot]
  | some c =>
    cases hlast : share.getLast? with
    | none => simp [shareCovered, coveredAtBoot, hlast]
    | some last =>
      have hc := hboot c rfl
      have hl := hshare last (mem_of_getLast? hlast)
      cases isPartial with
      | true => simp [shareCovered, coveredAtBoot, hlast, su.less_iff _ hl _ hc]
      | false => simp [shareCovered, coveredAtBoot, hlast, su.covered_iff _ hl _ hc]

section Skipped

variable {next : Nat} {boot : Option Nat} (hnext : next ≤ su.last + 1)
  (hpieces : pieces.Pairwise fun a b => a.txn ≤ b.txn) (hemitted : ∀ p ∈ pieces, Emitted su next p)
  (hstamped : concatPartial pieces = false → ∀ r ∈ lineRows su pieces,
    ∀ last ∈ (shareOf su (lineRows su pieces) (su.owner r.1)).getLast?, last.2 = last.1.txn)
include hnext hpieces hemitted hstamped

/-- **A share is covered only by what is settled.**  Its last row is the furthest; the row's
transaction is its stamp, or in a partial batch at most the one after. -/
theorem txn_le_boot (hboot : ∀ c ∈ boot, c ≤ su.last) {r : TxnRow × Nat}
    (hr : r ∈ lineRows su pieces)
    (hout : leftOut su boot (concatPartial pieces) (lineRows su pieces) r = true) :
    ∃ c ∈ boot, r.1.txn ≤ c := by
  have hstamps : ∀ t ∈ shareOf su (lineRows su pieces) (su.owner r.1), t.2 ≤ su.last := by
    intro t ht
    obtain ⟨p, hp, -, hstamp⟩ := mem_concat (mem_filter.mp (mem_filter.mp ht).1).1
    have hlt := (hemitted p hp).passed
    omega
  obtain ⟨c, hc, last, hlast, hle⟩ := (shareCovered_iff hboot hstamps).mp hout
  refine ⟨c, hc, ?_⟩
  have hordered : (shareOf su (lineRows su pieces) (su.owner r.1)).Pairwise
      fun a b => a.1.txn ≤ b.1.txn :=
    ((concat_ordered hpieces hemitted).filter _).filter _
  have hshare : r ∈ shareOf su (lineRows su pieces) (su.owner r.1) :=
    mem_filter.mpr ⟨hr, decide_eq_true rfl⟩
  have hfurthest : r.1.txn ≤ last.1.txn := le_last (f := fun r => r.1.txn) hordered hlast hshare
  have hmem : last ∈ concat pieces := (mem_filter.mp (mem_filter.mp (mem_of_getLast? hlast)).1).1
  obtain ⟨p, hp, hrow, hstamp⟩ := mem_concat hmem
  have htxn := ((hemitted p hp).rows _ hrow).1
  have hone := (hemitted p hp).stamped.2
  cases hflag : concatPartial pieces with
  | true =>
    rw [hflag, if_pos rfl] at hle
    omega
  | false =>
    rw [hflag, if_neg Bool.false_ne_true] at hle
    have hown := hstamped hflag r hr last hlast
    omega

/-- A row left out is durable, if the position is settled. -/
theorem skippedOf_settled {durable : List TxnRow} (hboot : ∀ c ∈ boot, Settled su durable c) :
    ∀ row ∈ skippedOf su boot pieces, row ∈ durable := by
  intro row hrow
  obtain ⟨r, hr, rfl⟩ := mem_map.mp hrow
  obtain ⟨hline, hout⟩ := mem_filter.mp hr
  obtain ⟨hmem, hmine⟩ := mem_filter.mp hline
  obtain ⟨c, hc, hle⟩ := txn_le_boot hnext hpieces hemitted hstamped (fun c hc => (hboot c hc).1)
    hline hout
  obtain ⟨p, hp, hrows, -⟩ := mem_concat hmem
  obtain ⟨htxn, hindex⟩ := (hemitted p hp).rows _ hrows
  refine (hboot c hc).2 r.1 ⟨hmine, ?_, ?_⟩ hle
  · rw [htxn]
    exact (hemitted p hp).positive
  · rw [htxn]
    exact hindex

end Skipped

/-! ## The steps -/

section Steps

variable {s : PieceLine}

variable {p : TxnPiece} {n : Nat}

theorem Emitted.mono {next next' : Nat} (h : Emitted su next p) (hle : next ≤ next') :
    Emitted su next' p :=
  { h with reached := Nat.le_trans h.reached hle, passed := Nat.lt_of_lt_of_le h.passed hle }

section

variable (h : Sound su s)
include h

/-- The reader emits a piece: it is of the transaction read, stamped with it or the one
before, and brings the reader past its rows only. -/
theorem Sound.emit {s' : PieceLine} (hp : Emitted su s'.next p)
    (hnext : s.next ≤ s'.next) (hbounded : s'.next ≤ su.last + 1) (htxn : p.txn = s.next)
    (hacc : s'.acc = s.acc ++ [p]) (hpending : s'.pending = s.pending)
    (hdurable : s'.durable = s.durable) (hboot : s'.boot = s.boot)
    (hcommitted : s'.committed = s.committed) (hskipped : s'.skipped = s.skipped)
    (hread : ∀ row, Has su row → s'.Passed row → s.Passed row ∨ row ∈ p.rows) :
    Sound su s' where
  started := Nat.le_trans h.started hnext
  bounded := hbounded
  boot := by
    rw [hboot, hdurable]
    exact h.boot
  committed := by
    rw [hcommitted, hdurable]
    exact h.committed
  read row hrow hpassed := by
    rw [hdurable, hpending, hacc]
    rcases hread row hrow hpassed with hpassed | hmem
    · rcases h.read row hrow hpassed with hd | he | ⟨q, hq, hmem⟩
      · exact .inl hd
      · exact .inr (.inl he)
      · exact .inr (.inr ⟨q, mem_append_left _ hq, hmem⟩)
    · exact .inr (.inr ⟨p, mem_concat_self, hmem⟩)
  entries := by
    rw [hpending]
    exact h.entries
  ahead e he := by
    rw [hpending] at he
    refine ⟨Nat.lt_of_lt_of_le (h.ahead e he).1 hnext, ?_⟩
    rw [hacc]
    refine forall_mem_concat.mpr ⟨(h.ahead e he).2, ?_⟩
    rw [htxn]
    exact (h.ahead e he).1
  pieces := by
    rw [hacc]
    refine pairwise_concat.mpr ⟨h.pieces, fun a ha => ?_⟩
    rw [htxn]
    exact ⟨(h.emitted a ha).reached, (h.emitted a ha).passed⟩
  emitted := by
    rw [hacc]
    exact forall_mem_concat.mpr ⟨fun q hq => (h.emitted q hq).mono hnext, hp⟩
  skipped := by
    rw [hskipped, hdurable]
    exact h.skipped

/-- A partial piece carries the transaction before. -/
theorem Sound.cut (hn : s.taken + n < su.size s.next) : Sound su { s with
      taken := s.taken + n
      acc := s.acc ++ [⟨s.next, rowsFrom s.next s.taken n, s.next - 1, true⟩] } := by
  have hstarted := h.started
  refine h.emit (p := ⟨s.next, rowsFrom s.next s.taken n, s.next - 1, true⟩) ?_ (Nat.le_refl _)
    h.bounded rfl rfl rfl rfl rfl rfl rfl fun row hrow hpassed => ?_
  · refine ⟨Nat.le_refl _, ?_, ⟨?_, ?_⟩, hstarted, fun row hrow => ?_⟩
    · show s.next - 1 < s.next
      omega
    · show s.next - 1 ≤ s.next
      omega
    · show s.next ≤ s.next - 1 + 1
      omega
    · obtain ⟨htxn, -, hlt⟩ := mem_rowsFrom.mp hrow
      exact ⟨htxn, Nat.lt_trans hlt hn⟩
  · rcases hpassed with hlt | ⟨htxn, hlt⟩
    · exact .inl (.inl hlt)
    · by_cases hold : row.index < s.taken
      · exact .inl (.inr ⟨htxn, hold⟩)
      · exact .inr (mem_rowsFrom.mpr ⟨htxn, Nat.le_of_not_lt hold, hlt⟩)

/-- The last piece carries its own. -/
theorem Sound.close (hlast : s.next ≤ su.last) : Sound su { s with
    next := s.next + 1
    taken := 0
    acc := s.acc ++ if s.taken < su.size s.next then
        [⟨s.next, rowsFrom s.next s.taken (su.size s.next - s.taken), s.next, false⟩]
      else [] } := by
  have hstarted := h.started
  split
  · refine h.emit (p := ⟨s.next, rowsFrom s.next s.taken (su.size s.next - s.taken), s.next, false⟩)
      ?_ (Nat.le_succ _) (Nat.succ_le_succ hlast) rfl rfl rfl rfl rfl rfl rfl
      fun row hrow hpassed => ?_
    · refine ⟨Nat.le_succ _, Nat.lt_succ_self _, ⟨Nat.le_refl _, Nat.le_succ _⟩, hstarted,
        fun row hrow => ?_⟩
      obtain ⟨htxn, -, hlt⟩ := mem_rowsFrom.mp hrow
      refine ⟨htxn, ?_⟩
      show row.index < su.size s.next
      omega
    · have hlt : row.txn < s.next + 1 := by
        rcases hpassed with hlt | ⟨-, hlt⟩
        · exact hlt
        · cases hlt
      by_cases htxn : row.txn = s.next
      · by_cases hold : row.index < s.taken
        · exact .inl (.inr ⟨htxn, hold⟩)
        · have hsize := hrow.2.2
          rw [htxn] at hsize
          exact .inr (mem_rowsFrom.mpr ⟨htxn, Nat.le_of_not_lt hold, by omega⟩)
      · exact .inl (.inl (by omega))
  · -- nothing is left of the transaction
    rw [append_nil]
    refine ⟨Nat.le_trans hstarted (Nat.le_succ _), Nat.succ_le_succ hlast, h.boot, h.committed,
      fun row hrow hpassed => ?_, h.entries,
      fun e he => ⟨Nat.lt_succ_of_lt (h.ahead e he).1, (h.ahead e he).2⟩, h.pieces,
      fun p hp => (h.emitted p hp).mono (Nat.le_succ _), h.skipped⟩
    refine h.read row hrow ?_
    have hlt : row.txn < s.next + 1 := by
      rcases hpassed with hlt | ⟨-, hlt⟩
      · exact hlt
      · cases hlt
    by_cases htxn : row.txn = s.next
    · have hsize := hrow.2.2
      rw [htxn] at hsize
      exact .inr ⟨htxn, by omega⟩
    · exact .inl (by omega)

/-- A restart goes back to a settled position. -/
theorem Sound.restart {resume : Nat} (hlast : resume ≤ su.last)
    (hresume : (∃ c ∈ s.committed, resume ≤ c) ∨ ∀ txn < resume + 1, su.size txn = 0) :
    Sound su { s with
      next := resume + 1
      taken := 0
      acc := []
      pending := []
      boot := s.committed } where
  started := Nat.succ_le_succ (Nat.zero_le _)
  bounded := Nat.succ_le_succ hlast
  boot := h.committed
  committed := h.committed
  read row hrow hpassed := by
    have hlt : row.txn < resume + 1 := by
      rcases hpassed with hlt | ⟨-, hlt⟩
      · exact hlt
      · cases hlt
    rcases hresume with ⟨c, hc, hle⟩ | hnone
    · exact .inl ((h.committed c hc).2 row hrow (by omega))
    · have hsize := hrow.2.2
      rw [hnone row.txn hlt] at hsize
      cases hsize
  entries := .nil
  ahead := nofun
  pieces := .nil
  emitted := nofun
  skipped := h.skipped

/-- **A commit settles.**  Every row up to the position committed is durable: it has been
read, and what still waits lies behind the position. -/
theorem Sound.commit : Sound su { s with
      pending := s.pending.drop n
      committed := (s.pending.take n).getLast?.map LineEntry.stamp
      durable := s.durable ++ (s.pending.take n).flatMap LineEntry.kept } where
  started := h.started
  bounded := h.bounded
  boot c hc := (h.boot c hc).mono
  committed c hc := by
    obtain ⟨e, he, rfl⟩ := map_eq_some_iff.mp hc
    have hmem : e ∈ s.pending := mem_of_mem_take (mem_of_getLast? he)
    have hstamp := (h.ahead e hmem).1
    have hbounded := h.bounded
    refine ⟨by omega, fun row hrow hle => ?_⟩
    have hlt : row.txn < s.next := Nat.lt_of_le_of_lt hle (h.ahead e hmem).1
    rcases Fifo.done_or_waits n (h.read row hrow (.inl hlt)) with
      hd | ⟨e', he', hkept⟩ | ⟨p, hp, hmemp⟩
    · exact hd
    · have hbehind := Fifo.behind_of_mem_drop h.entries he he' row hkept
      exact absurd hle (Nat.not_le_of_lt hbehind)
    · have hbehind := (h.ahead e hmem).2 p hp
      have htxn := ((h.emitted p hp).rows row hmemp).1
      exact absurd hle (by omega)
  read row hrow hpassed := Fifo.done_or_waits n (h.read row hrow hpassed)
  entries := h.entries.sublist (drop_sublist _ _)
  ahead e he := h.ahead e (mem_of_mem_drop he)
  pieces := h.pieces
  emitted := h.emitted
  skipped row hrow := mem_append_left _ (h.skipped row hrow)

end

end Steps

section Send

variable {s : PieceLine} {boot : Option Nat} {pieces : List TxnPiece}

/-- A batch that waits has the stamp and the rows of its pieces. -/
theorem mem_entryOf {e : LineEntry} (h : e ∈ entryOf su boot pieces) :
    (∃ p ∈ pieces, e.stamp = p.stamp) ∧ ∀ row ∈ e.kept, ∃ p ∈ pieces, row ∈ p.rows := by
  simp only [entryOf] at h
  split at h
  · rename_i hkept hlast
    rw [mem_singleton] at h
    subst h
    refine ⟨?_, fun row hrow => ?_⟩
    · obtain ⟨p, hp, -, hstamp⟩ := mem_concat (mem_filter.mp (mem_of_getLast? hlast)).1
      exact ⟨p, hp, hstamp⟩
    · obtain ⟨r, hr, rfl⟩ := mem_map.mp hrow
      obtain ⟨p, hp, hmem, -⟩ := mem_concat (mem_filter.mp (mem_filter.mp hr).1).1
      exact ⟨p, hp, hmem⟩
  · cases h

/-- Every row of the line is left out or waits. -/
theorem skipped_or_kept (boot : Option Nat) {p : TxnPiece} {row : TxnRow} (hp : p ∈ pieces)
    (hrow : row ∈ p.rows) (hmine : su.mine row = true) :
    row ∈ skippedOf su boot pieces ∨ ∃ e ∈ entryOf su boot pieces, row ∈ e.kept := by
  have hline : (row, p.stamp) ∈ lineRows su pieces := mem_filter.mpr
      ⟨mem_flatMap.mpr ⟨p, hp, mem_map.mpr ⟨row, hrow, rfl⟩⟩, hmine⟩
  cases hout : leftOut su boot (concatPartial pieces) (lineRows su pieces) (row, p.stamp) with
  | true => exact .inl (mem_map.mpr ⟨_, mem_filter.mpr ⟨hline, hout⟩, rfl⟩)
  | false =>
    have hkept : (row, p.stamp) ∈ (lineRows su pieces).filter fun r =>
        !leftOut su boot (concatPartial pieces) (lineRows su pieces) r :=
      mem_filter.mpr ⟨hline, by rw [hout]; rfl⟩
    refine .inr ?_
    simp only [entryOf]
    split
    · exact ⟨_, mem_cons_self, mem_map.mpr ⟨_, hkept, rfl⟩⟩
    · rename_i hnone
      have hlast := getLast?_eq_some_getLast (ne_nil_of_mem hline)
      obtain ⟨first, rest, hcons⟩ := exists_cons_of_ne_nil (ne_nil_of_mem hkept)
      exact (hnone first rest _ hcons hlast).elim

/-- What a batch leaves out is durable. -/
theorem Sound.send {n : Nat} (h : Sound su s) (hstamped : Stamped su s (.send n)) :
    Sound su { s with
      acc := s.acc.drop n
      pending := s.pending ++ entryOf su s.boot (s.acc.take n)
      skipped := s.skipped ++ skippedOf su s.boot (s.acc.take n) } := by
  have hsplit := h.pieces
  rw [← take_append_drop n s.acc] at hsplit
  obtain ⟨htake, hdrop, hcross⟩ := pairwise_append.mp hsplit
  have hemitted : ∀ p ∈ s.acc.take n, Emitted su s.next p :=
    fun p hp => h.emitted p (mem_of_mem_take hp)
  have hdurable : ∀ row ∈ skippedOf su s.boot (s.acc.take n), row ∈ s.durable :=
    skippedOf_settled h.bounded (htake.imp fun hle => hle.1) hemitted hstamped h.boot
  refine ⟨h.started, h.bounded, h.boot, h.committed, fun row hrow hpassed => ?_, ?_,
    fun e he => ?_, hdrop,
    fun p hp => h.emitted p (mem_of_mem_drop hp), fun row hrow => ?_⟩
  · rcases h.read row hrow hpassed with hd | ⟨e, he, hkept⟩ | ⟨p, hp, hmem⟩
    · exact .inl hd
    · exact .inr (.inl ⟨e, mem_append_left _ he, hkept⟩)
    rcases Fifo.mem_take_or_drop n hp with hp | hp
    · rcases skipped_or_kept s.boot hp hmem hrow.1 with hskip | ⟨e, he, hkept⟩
      · exact .inl (hdurable row hskip)
      · exact .inr (.inl ⟨e, mem_append_right _ he, hkept⟩)
    · exact .inr (.inr ⟨p, hp, hmem⟩)
  · -- the new batch's rows are of pieces that every waiting position lies before
    refine pairwise_append.mpr ⟨h.entries, ?_, fun a ha b hb row hrow => ?_⟩
    · simp only [entryOf]
      split
      · exact pairwise_singleton _ _
      · exact .nil
    · obtain ⟨p, hp, hmem⟩ := (mem_entryOf hb).2 row hrow
      have hlt := (h.ahead a ha).2 p (mem_of_mem_take hp)
      have htxn := ((hemitted p hp).rows row hmem).1
      omega
  · rcases mem_append.mp he with he | he
    · exact ⟨(h.ahead e he).1, fun p hp => (h.ahead e he).2 p (mem_of_mem_drop hp)⟩
    · obtain ⟨p, hp, hstamp⟩ := (mem_entryOf he).1
      rw [hstamp]
      exact ⟨(hemitted p hp).passed, fun q hq => (hcross p hp q hq).2⟩
  · rcases mem_append.mp hrow with hrow | hrow
    · exact h.skipped row hrow
    · exact hdurable row hrow

theorem Sound.step {s' : PieceLine} {a : PieceAction} (h : Sound su s) (hok : Stamped su s a)
    (hs : PieceLine.step su s a = some s') : Sound su s' := by
  cases a with
  | cut n =>
    obtain ⟨⟨-, -, hn⟩, hs⟩ := ite_none_right_eq_some.mp hs
    cases hs
    exact h.cut hn
  | close =>
    obtain ⟨hlast, hs⟩ := ite_none_right_eq_some.mp hs
    cases hs
    exact h.close hlast
  | send n =>
    obtain ⟨-, hs⟩ := ite_none_right_eq_some.mp hs
    cases hs
    exact h.send hok
  | commit n =>
    obtain ⟨-, hs⟩ := ite_none_right_eq_some.mp hs
    cases hs
    exact h.commit
  | restart resume =>
    obtain ⟨hlast, hs⟩ := ite_none_right_eq_some.mp hs
    cases hs
    exact h.restart hlast hok

end Send

/-- **Covered rows are durable.**  In every run whose batches and restarts meet the condition,
every row left out as covered has been committed. -/
theorem skipped_durable {actions : List PieceAction} {s : PieceLine}
    (hrun : run (step su) init actions = some s)
    (hok : Runs.Guarded (step su) (Stamped su) init actions) :
    ∀ row ∈ s.skipped, row ∈ s.durable :=
  (invariant_of_guarded (Sound su) (fun _ _ _ hinv hstamped hstep => hinv.step hstamped hstep)
    (sound_init su) hrun hok).skipped

/-! ## Two owners of one transaction -/

/-- One row in transaction 1 and two in transaction 2, of two owners; one cycle takes both
owners' shares. -/
def twoOwners : PieceSetup LSN where
  last := 9
  pos i := ⟨i.toUInt64⟩
  covered_iff := by decide +kernel
  less_iff := by decide +kernel
  size txn := if txn = 1 then 1 else if txn = 2 then 2 else 0
  mine _ := true
  owner row := row.index

/-- The pieces of transaction 2 are sent one by one; a later run resumes before transaction 1
and leaves it out. -/
def piecewise : List PieceAction :=
  [.close, .send 1, .commit 1, .restart 1, .cut 1, .send 1, .close, .send 1, .commit 2,
    .restart 0, .close, .send 1]

/-- The row left out was durable before the restart. -/
theorem skipped_durable_piecewise :
    ∃ s, run (step twoOwners) init piecewise = some s ∧ s.skipped = [⟨1, 0⟩] ∧
      ∀ row ∈ s.skipped, row ∈ s.durable := by
  exact exists_run_and (by decide +kernel) fun s hs _ => skipped_durable hs (by decide +kernel)

/-- The pieces of transaction 2 are coalesced. -/
def coalesced : List PieceAction :=
  [.close, .send 1, .commit 1, .restart 1, .cut 1, .close, .send 2]

/-- The first owner's row carries the position of transaction 1 in a batch that is not
partial: it is left out, and was never committed. -/
theorem partial_row_left_out : ∃ s, run (step twoOwners) init coalesced = some s ∧
      ⟨2, 0⟩ ∈ s.skipped ∧ ⟨2, 0⟩ ∉ s.durable := by
  exact exists_run (by decide +kernel)

end PieceLine

end Urutau
