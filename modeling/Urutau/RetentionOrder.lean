import Urutau.SourceRetention

/-!
# Where the rows that are not durable stand

A row read is in a batch before enqueue, in a share that is not delivered, or in a cycle
that is not committed.  What a worker has reported lies before every row still ahead of
it; what is recorded for it lies before every row it still stands for: its own, or on a
staged table all rows of the table.
-/

namespace Urutau

open List

namespace Retention

open Function (update)

variable {B R P : Type}

/-! ## Places -/

variable (su : RetentionSetup B R P) (s : Retention B R P)

/-- The rows of what has not come to enqueue. -/
def upstream : List R :=
  (s.out ++ su.tables.flatMap (s.hand.waiting su.toHandoverSetup)).flatMap su.rowsOf

/-- What the calls under way hold, by what is taken of a call. -/
def ofCalls {α : Type} (f : ShareCall R P → List α) : List α :=
  (s.call .pump).elim [] f ++ (s.call .drain).elim [] f

/-- The rows of a call's shares. -/
def shareRows (c : ShareCall R P) : List R := c.shares.flatMap fun x => x.2.rows

/-- The rows of the cycle a call is to open. -/
def openingRows (c : ShareCall R P) : List R := c.opening.elim [] ShareCycle.rows

/-- A call's shares of a worker. -/
def sharesOf (w : String) (c : ShareCall R P) : List (RowShare R P) :=
  c.shares.filterMap fun x => if x.1 = w then some x.2 else none

/-- The rows read that are in no share registered. -/
def unsent : List R := s.upstream su ++ s.ofCalls shareRows

/-- The rows read that are in no cycle opened. -/
def uncycled : List R := s.upstream su ++ s.ofCalls openingRows

/-- A worker's shares that are not delivered, registered or not. -/
def pending (w : String) : List (RowShare R P) := s.queued w ++ s.ofCalls (sharesOf w)

/-- The row is still to come to the worker, or to be delivered by it. -/
def Ahead (w : String) (r : R) : Prop :=
  (∃ sh ∈ s.queued w, r ∈ sh.rows) ∨ r ∈ s.unsent su ∧ su.ownerOf r = w

/-- The row's cycle is not committed, if it is open at all. -/
def Uncommitted (t : String) (r : R) : Prop :=
  (∃ cy ∈ s.cycles t, r ∈ cy.rows) ∨ r ∈ s.uncycled su ∧ su.tableOf r = t

/-- A worker stands for a row: for what is ahead of it, or for all its table has not
committed. -/
def StandsFor (w : String) (r : R) : Prop :=
  if su.staged (su.serves w) then Uncommitted su s (su.serves w) r else Ahead su s w r

/-- A share is in an open cycle that waits for its worker. -/
def InCycle (w : String) (sh : RowShare R P) : Prop :=
  ∃ cy ∈ s.cycles (su.serves w), cy.id = sh.id ∧ w ∈ cy.missing ∧ ∀ r ∈ sh.rows, r ∈ cy.rows

/-- What stands on either side of a choice may be weakened. -/
theorem ite_imp {c : Prop} [Decidable c] {p q p' q' : Prop} (hp : c → p → p') (hq : ¬ c → q → q')
    (h : if c then p else q) : if c then p' else q' := by
  split
  · rename_i hc
    exact hp hc ((if_pos hc).mp h)
  · rename_i hc
    exact hq hc ((if_neg hc).mp h)

variable {s : Retention B R P} {su : RetentionSetup B R P}

variable {r : R} {sh : RowShare R P} {w : String}

/-- A row upstream: out of the reader, or waiting for a hand-over. -/
theorem mem_upstream : r ∈ s.upstream su ↔ (∃ b ∈ s.out, r ∈ su.rowsOf b) ∨
      ∃ t ∈ su.tables, ∃ b ∈ s.hand.waiting su.toHandoverSetup t, r ∈ su.rowsOf b := by
  unfold upstream
  simp only [mem_flatMap, mem_append]
  constructor
  · intro h
    obtain ⟨b, hb | ⟨t, ht, hb⟩, hr⟩ := h
    · exact .inl ⟨b, hb, hr⟩
    · exact .inr ⟨t, ht, b, hb, hr⟩
  · intro h
    rcases h with ⟨b, hb, hr⟩ | ⟨t, ht, b, hb, hr⟩
    · exact ⟨b, .inl hb, hr⟩
    · exact ⟨b, .inr ⟨t, ht, hb⟩, hr⟩

theorem mem_ofCalls {α : Type} {f : ShareCall R P → List α} {x : α} :
    x ∈ s.ofCalls f ↔ ∃ who c, s.call who = some c ∧ x ∈ f c := by
  have helim : ∀ o : Option (ShareCall R P), x ∈ o.elim [] f ↔ ∃ c, o = some c ∧ x ∈ f c := by
    intro o
    cases o <;> simp
  unfold ofCalls
  rw [mem_append, helim, helim]
  constructor
  · intro h
    rcases h with ⟨c, hc, hx⟩ | ⟨c, hc, hx⟩
    · exact ⟨.pump, c, hc, hx⟩
    · exact ⟨.drain, c, hc, hx⟩
  · intro h
    obtain ⟨who, c, hc, hx⟩ := h
    cases who with
    | pump => exact .inl ⟨c, hc, hx⟩
    | drain => exact .inr ⟨c, hc, hx⟩

variable {c : ShareCall R P}

theorem mem_shareRows : r ∈ shareRows c ↔ ∃ w sh, (w, sh) ∈ c.shares ∧ r ∈ sh.rows := by
  simp [shareRows]

theorem mem_openingRows : r ∈ openingRows c ↔ ∃ cy, c.opening = some cy ∧ r ∈ cy.rows := by
  unfold openingRows
  cases c.opening <;> simp

theorem mem_sharesOf : sh ∈ sharesOf w c ↔ (w, sh) ∈ c.shares := by
  unfold sharesOf
  rw [mem_filterMap]
  constructor
  · intro h
    obtain ⟨⟨o, sh'⟩, hmem, heq⟩ := h
    by_cases ho : o = w
    · subst ho
      cases (if_pos rfl).symm.trans heq
      exact hmem
    · cases (if_neg ho).symm.trans heq
  · intro h
    exact ⟨(w, sh), h, if_pos rfl⟩

/-- A row not sent: upstream, or in a call. -/
theorem mem_unsent : r ∈ s.unsent su ↔ r ∈ s.upstream su ∨
      ∃ who c, s.call who = some c ∧ ∃ w sh, (w, sh) ∈ c.shares ∧ r ∈ sh.rows := by
  unfold unsent
  rw [mem_append, mem_ofCalls]
  simp only [mem_shareRows]

/-- A row without a cycle: upstream, or in a call that opens one. -/
theorem mem_uncycled : r ∈ s.uncycled su ↔ r ∈ s.upstream su ∨
      ∃ who c, s.call who = some c ∧ ∃ cy, c.opening = some cy ∧ r ∈ cy.rows := by
  unfold uncycled
  rw [mem_append, mem_ofCalls]
  simp only [mem_openingRows]

/-- A share not delivered: queued, or in a call. -/
theorem mem_pending : sh ∈ s.pending w ↔ sh ∈ s.queued w ∨
      ∃ who c, s.call who = some c ∧ (w, sh) ∈ c.shares := by
  unfold pending
  rw [mem_append, mem_ofCalls]
  simp only [mem_sharesOf]

/-! ## The invariant -/

/-- What a share of a worker's is. -/
structure Fits (su : RetentionSetup B R P) (w : String) (sh : RowShare R P) : Prop where
  high : sh.high = su.high sh.rows
  owner : w ∈ su.owners (su.serves w)
  owned : ∀ r ∈ sh.rows, su.ownerOf r = w ∧ su.tableOf r = su.serves w

/-- What a cycle of a table is. -/
structure FitsCycle (su : RetentionSetup B R P) (t : String) (cy : ShareCycle R P) : Prop where
  staged : su.staged t = true
  pos : cy.pos = su.high cy.rows
  rows : ∀ r ∈ cy.rows, su.tableOf r = t
  owners : ∀ w ∈ cy.owners, w ∈ su.owners t
  missing : ∀ w ∈ cy.missing, w ∈ su.owners t

/-- What a call under way is: a cycle it is to open waits for all its shares. -/
structure FitsCall (su : RetentionSetup B R P) (c : ShareCall R P) : Prop where
  shares : ∀ w sh, (w, sh) ∈ c.shares → Fits su w sh ∧ su.serves w = c.table
  names : (c.shares.map Prod.fst).Nodup
  cycle : ∀ cy, c.opening = some cy → FitsCycle su c.table cy
  starts : ∀ cy, c.opening = some cy → cy.missing ≠ []
  waits : ∀ cy, c.opening = some cy → ∀ w ∈ cy.missing,
    ∃ sh, (w, sh) ∈ c.shares ∧ sh.id = cy.id ∧ sh.rows ≠ []
  covers : ∀ cy, c.opening = some cy → ∀ w sh, (w, sh) ∈ c.shares →
    w ∈ cy.missing ∧ sh.id = cy.id ∧ ∀ r ∈ sh.rows, r ∈ cy.rows

/-- **Where rows stand.**  Batches are in their table's buffers, shares with their owner,
and a row that is not durable is on its way. -/
structure Placed (su : RetentionSetup B R P) (s : Retention B R P) : Prop where
  out : ∀ b ∈ s.out, su.table b ∈ su.tables
  waiting : ∀ t, ∀ b ∈ s.hand.waiting su.toHandoverSetup t, su.table b = t ∧ t ∈ su.tables
  calls : ∀ who c, s.call who = some c → FitsCall su c
  queued : ∀ w, ∀ sh ∈ s.queued w, Fits su w sh
  cycles : ∀ t, ∀ cy ∈ s.cycles t, FitsCycle su t cy
  isRead : ∀ r, (∃ w, Ahead su s w r) ∨ (∃ t, Uncommitted su s t r) → r ∈ s.read
  kept : ∀ r ∈ s.read, r ∉ s.settled →
    if su.staged (su.tableOf r) then Uncommitted su s (su.tableOf r) r
    else Ahead su s (su.ownerOf r) r

/-- **What cycles wait for.**  A worker's shares have numbers of their own; an open cycle
waits for shares that are not delivered, and a share sent belongs to one that waits. -/
structure Awaited (su : RetentionSetup B R P) (s : Retention B R P) : Prop where
  distinct : ∀ w, ((s.pending w).map RowShare.id).Nodup
  numbered : ∀ w, ∀ sh ∈ s.pending w, sh.id ≤ s.seq
  missing : ∀ t, ∀ cy ∈ s.cycles t, ∀ w ∈ cy.missing,
    ∃ sh ∈ s.pending w, sh.id = cy.id ∧ sh.rows ≠ []
  front : ∀ t, ∀ cy ∈ (s.cycles t).head?, cy.missing ≠ []
  queued : ∀ w, su.staged (su.serves w) = true → ∀ sh ∈ s.queued w, InCycle su s w sh
  called : ∀ who c, s.call who = some c → c.opening = none → su.staged c.table = true →
    ∀ w sh, (w, sh) ∈ c.shares → InCycle su s w sh

section Ranked

variable [Position P] (su : RetentionSetup B R P) (s : Retention B R P)

/-- The worker has reported the position, or is about to. -/
def Reported (w : String) (p : P) : Prop :=
  p ∈ s.acks w ∨ s.reporting w = some p ∨ (s.index w).acked (su.serves w) = some p

/-- The position is recorded for the worker, or about to be. -/
def Recorded (w : String) (p : P) : Prop := p ∈ s.records w ∨ s.byWorker w = some p

/-- The rows of the first do not reach those of the second. -/
def Before (xs ys : List R) : Prop :=
  ∀ x ∈ xs, ∀ y ∈ ys, Position.covered (su.posOf y) (su.posOf x) = false

/-- **What comes first lies before.** -/
structure Ranked (su : RetentionSetup B R P) (s : Retention B R P) : Prop where
  queued : ∀ w, (s.queued w).Pairwise fun sh sh' => Before su sh.rows sh'.rows
  unsent : ∀ w, ∀ sh ∈ s.queued w, ∀ r ∈ s.unsent su, su.ownerOf r = w → Before su sh.rows [r]
  cycles : ∀ t, (s.cycles t).Pairwise fun cy cy' => Before su cy.rows cy'.rows
  uncycled : ∀ t, ∀ cy ∈ s.cycles t, ∀ r ∈ s.uncycled su, su.tableOf r = t → Before su cy.rows [r]
  reported : ∀ w p, Reported su s w p → ∀ r, Ahead su s w r →
    Position.covered (su.posOf r) p = false
  recorded : ∀ w p, Recorded s w p → ∀ r, StandsFor su s w r →
    Position.covered (su.posOf r) p = false
  known : ∀ w p, Reported su s w p ∨ Recorded s w p →
    su.resume = some p ∨ ∃ r ∈ s.read, su.tableOf r = su.serves w ∧ su.posOf r = p

/-- What is not delivered is in the worker's index. -/
def Indexed : Prop := ∀ w, ∀ sh ∈ s.queued w, sh.rows ≠ [] →
    ∃ e ∈ (s.index w).head, e.marker = false ∧ e.table = su.serves w ∧ e.high = sh.high

instance (xs ys : List R) (su : RetentionSetup B R P) : Decidable (Before su xs ys) := by
  unfold Before
  infer_instance

/-- A call under way is replaced. -/
def withCall (who : Caller) (c : ShareCall R P) : Retention B R P :=
  { s with call := update s.call who (some c) }

/-- Rows are read past the start and past those of their table read before; when a cycle
is opened, the rows of its table that are in none lie past it, and when a share is
registered, those of its owner that are not lie past it. -/
def Orderly : RetentionAction B P → Prop
  | .read b => ∀ r ∈ su.rowsOf b, (∀ r' ∈ s.read, su.tableOf r' = su.table b → Before su [r'] [r]) ∧
        ∀ p ∈ su.resume, Position.covered (su.posOf r) p = false
  | .sendNext who => ∀ c ∈ s.call who,
      (∀ cy ∈ c.opening, ∀ r ∈ (s.withCall who { c with opening := none }).uncycled su,
        su.tableOf r = c.table → Before su cy.rows [r]) ∧
      (c.opening = none → c.noting = none → ∀ x ∈ c.shares.head?,
        ∀ r ∈ (s.withCall who { c with shares := c.shares.tail }).unsent su,
          su.ownerOf r = x.1 → Before su x.2.rows [r])
  | _ => True

end Ranked

end Retention

end Urutau
