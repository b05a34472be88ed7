import Urutau.GuardedRun

/-!
# The flow budget of the coordinator

A batch is charged to its worker from before it is queued until it is acked.  Admission has
one rule and three exceptions: the total stays under the ceiling; a worker below its minimum
is served all the same; a worker that holds nothing may take one batch past its own cap; and
one batch larger than the whole ceiling is let through at a time, in a slot that names its
worker.

The lock is held over each call, so a call is one step.  An ack is two calls: it returns the
bytes of the batches it pops, and then frees the slot if an oversized one was among them.
-/

namespace Urutau

open List

/-- The parameters of a `Budget`, in bytes; without a cap `perWorkerMax` is zero. -/
structure BudgetConfig where
  totalBytes : Nat
  perWorkerMin : Nat
  perWorkerMax : Nat
  deriving DecidableEq, Repr

/-- A batch in flight, with what its worker was charged when it was taken. -/
structure Charge (W : Type) where
  id : Nat
  worker : W
  bytes : Nat
  heldBefore : Int
  deriving DecidableEq, Repr

/-- `Budget`, with the batches whose bytes have not been returned and the workers of the acks
that have returned the bytes of an oversized batch and not yet freed its slot. -/
structure Budget (W : Type) where
  used : W → Int
  usedTotal : Int
  oversizedOwner : Option W
  inFlight : List (Charge W)
  clears : List W

inductive BudgetAction (W : Type)
  | acquire (id : Nat) (worker : W) (n : Nat)
  | release (worker : W) (ids : List Nat)
  | clear (i : Nat)

namespace BudgetConfig

variable (cfg : BudgetConfig)

/-- `IsOversized`. -/
def isOversized (n : Nat) : Bool := decide (cfg.totalBytes < n)

end BudgetConfig

namespace Budget

variable {W : Type} [DecidableEq W]

/-- `NewBudget`. -/
def new (W : Type) : Budget W where
  used _ := 0
  usedTotal := 0
  oversizedOwner := none
  inFlight := []
  clears := []

variable (cfg : BudgetConfig) (b : Budget W)

/-- `underWorkerMax`. -/
def underWorkerMax (worker : W) (n : Nat) : Bool :=
  decide (cfg.perWorkerMax = 0) || decide (b.used worker = 0) ||
    decide (b.used worker + n ≤ cfg.perWorkerMax)

/-- The condition `Acquire` waits for. -/
def admits (worker : W) (n : Nat) : Bool :=
  if cfg.isOversized n then b.oversizedOwner.isNone
  else (decide (b.usedTotal + n ≤ cfg.totalBytes) ||
      decide (b.used worker + n ≤ cfg.perWorkerMin)) && underWorkerMax cfg b worker n

/-- `Acquire`, once it is admitted.  A call whose context ends meanwhile changes nothing. -/
def acquire (id : Nat) (worker : W) (n : Nat) : Option (Budget W) :=
  if admits cfg b worker n then
    some { b with
      used := fun v => if v = worker then b.used v + n else b.used v
      usedTotal := b.usedTotal + n
      oversizedOwner := if cfg.isOversized n then some worker else b.oversizedOwner
      inFlight := b.inFlight ++ [⟨id, worker, n, b.used worker⟩] }
  else none

/-- `Release`.  A charge that is used up leaves the map. -/
def release (worker : W) (n : Nat) : Budget W :=
  let left := b.used worker - n
  { b with
    used := fun v => if v = worker then (if left ≤ 0 then 0 else left) else b.used v
    usedTotal := b.usedTotal - n
    oversizedOwner :=
      if left ≤ 0 ∧ b.oversizedOwner = some worker then none else b.oversizedOwner }

/-- `ClearOversized`. -/
def clearOversized (worker : W) : Budget W :=
  { b with oversizedOwner := if b.oversizedOwner = some worker then none else b.oversizedOwner }

/-- The worker's batches that an ack pops from its index. -/
def popped (worker : W) (ids : List Nat) : List (Charge W) :=
  b.inFlight.filter fun c => decide (c.worker = worker ∧ c.id ∈ ids)

/-- The first half of an ack, and of `releaseUndelivered`: the bytes of the popped batches are
returned. -/
def ack (worker : W) (ids : List Nat) : Budget W :=
  let freed := ((b.popped worker ids).map Charge.bytes).sum
  let freedOversized := (b.popped worker ids).any fun c => cfg.isOversized c.bytes
  { (if 0 < freed then b.release worker freed else b) with
    inFlight := b.inFlight.filter fun c => !decide (c.worker = worker ∧ c.id ∈ ids)
    clears := if freedOversized then b.clears ++ [worker] else b.clears }

/-- One call. -/
def step : BudgetAction W → Option (Budget W)
  | .acquire id worker n => b.acquire cfg id worker n
  | .release worker ids => some (b.ack cfg worker ids)
  | .clear i =>
    match b.clears[i]? with
    | none => none
    | some worker => some { b.clearOversized worker with clears := b.clears.eraseIdx i }

/-! ## Accounts -/

/-- The bytes of some batches. -/
def bytes (charges : List (Charge W)) : Nat := (charges.map Charge.bytes).sum

/-- The bytes of a worker's batches. -/
def bytesOf (worker : W) (charges : List (Charge W)) : Nat :=
  bytes (charges.filter fun c => decide (c.worker = worker))

omit [DecidableEq W] in
theorem bytes_append (xs ys : List (Charge W)) : bytes (xs ++ ys) = bytes xs + bytes ys := by
  rw [bytes, map_append, sum_append]
  rfl

omit [DecidableEq W] in
/-- What is kept of a list and what is taken out of it make up its bytes. -/
theorem bytes_filter (p : Charge W → Bool) (xs : List (Charge W)) :
    bytes (xs.filter p) + bytes (xs.filter fun c => !p c) = bytes xs := by
  induction xs with
  | nil => rfl
  | cons c rest ih =>
    have hcons : ∀ ys : List (Charge W), bytes (c :: ys) = c.bytes + bytes ys := fun ys => sum_cons
    cases hp : p c
    · rw [filter_cons_of_neg (by simp [hp]), filter_cons_of_pos (by simp [hp]), hcons, hcons]
      omega
    · rw [filter_cons_of_pos (by simp [hp]), filter_cons_of_neg (by simp [hp]), hcons, hcons]
      omega

theorem bytesOf_append (worker : W) (xs ys : List (Charge W)) :
    bytesOf worker (xs ++ ys) = bytesOf worker xs + bytesOf worker ys := by
  rw [bytesOf, filter_append, bytes_append]
  rfl

theorem bytesOf_singleton (worker : W) (c : Charge W) :
    bytesOf worker [c] = if c.worker = worker then c.bytes else 0 := by
  by_cases hw : c.worker = worker <;> simp [bytesOf, bytes, hw]

/-- A worker's bytes, in two parts. -/
theorem bytesOf_filter (worker : W) (p : Charge W → Bool) (xs : List (Charge W)) :
    bytesOf worker (xs.filter p) + bytesOf worker (xs.filter fun c => !p c) =
      bytesOf worker xs := by
  rw [bytesOf, bytesOf, filter_comm _ p, filter_comm _ fun c => !p c]
  exact bytes_filter p _

theorem le_bytesOf {c : Charge W} {charges : List (Charge W)} (hc : c ∈ charges) :
    c.bytes ≤ bytesOf c.worker charges := by
  refine single_le_sum (fun _ _ => Nat.zero_le _) _ (mem_map_of_mem ?_)
  exact mem_filter.mpr ⟨hc, decide_eq_true rfl⟩

/-- The bytes of all workers are the bytes of all batches. -/
theorem sum_bytesOf [Fintype W] (charges : List (Charge W)) :
    ∑ worker, bytesOf worker charges = bytes charges := by
  induction charges with
  | nil => exact Finset.sum_eq_zero fun _ _ => rfl
  | cons c rest ih =>
    have hcons : ∀ worker, bytesOf worker (c :: rest) =
        (if c.worker = worker then c.bytes else 0) + bytesOf worker rest := fun worker => by
      rw [← bytesOf_singleton]
      exact bytesOf_append worker [c] rest
    simp only [hcons, Finset.sum_add_distrib, Finset.sum_ite_eq, Finset.mem_univ, ih]
    exact sum_cons.symm

/-- The charges are those of the batches in flight. -/
structure Accounted (b : Budget W) : Prop where
  charged : ∀ worker, b.used worker = bytesOf worker b.inFlight
  total : b.usedTotal = bytes b.inFlight

theorem accounted_new : Accounted (new W) := ⟨fun _ => rfl, rfl⟩

variable {cfg : BudgetConfig} {b b' : Budget W}

variable {id n : Nat} {worker : W}

/-- An admitted charge, and what it adds. -/
theorem acquire_some (h : b.acquire cfg id worker n = some b') :
    b.admits cfg worker n = true ∧ b' = { b with
        used := fun v => if v = worker then b.used v + n else b.used v
        usedTotal := b.usedTotal + n
        oversizedOwner := if cfg.isOversized n then some worker else b.oversizedOwner
        inFlight := b.inFlight ++ [⟨id, worker, n, b.used worker⟩] } := by
  rw [acquire] at h
  split at h
  · rename_i hadmits
    exact ⟨hadmits, (Option.some.inj h).symm⟩
  · cases h

/-- A charge is accounted for. -/
theorem Accounted.acquire (h : Accounted b)
    (hs : b.acquire cfg id worker n = some b') : Accounted b' := by
  obtain ⟨-, rfl⟩ := acquire_some hs
  refine ⟨fun v => ?_, ?_⟩
  · rw [bytesOf_append, bytesOf_singleton, Int.natCast_add, ← h.charged]
    by_cases hv : v = worker
    · subst hv
      simp
    · simp [hv, Ne.symm hv]
  · rw [bytes_append, Int.natCast_add, ← h.total]
    simp [bytes]

section Ack

variable {worker : W} {ids : List Nat}

/-- The batches an ack leaves in flight. -/
def kept (b : Budget W) (worker : W) (ids : List Nat) : List (Charge W) :=
  b.inFlight.filter fun c => !decide (c.worker = worker ∧ c.id ∈ ids)

/-- The bytes popped and the bytes kept. -/
theorem bytes_kept (b : Budget W) (worker : W) (ids : List Nat) :
    bytes (b.popped worker ids) + bytes (b.kept worker ids) = bytes b.inFlight :=
  bytes_filter _ _

/-- Only the acking worker gives bytes back. -/
theorem bytesOf_kept (b : Budget W) (worker : W) (ids : List Nat) (v : W) :
    bytesOf v (b.kept worker ids) +
      (if v = worker then bytes (b.popped worker ids) else 0) = bytesOf v b.inFlight := by
  have hsplit : bytesOf v (b.popped worker ids) + bytesOf v (b.kept worker ids) =
      bytesOf v b.inFlight := bytesOf_filter v _ _
  have hpopped : bytesOf v (b.popped worker ids) =
      if v = worker then bytes (b.popped worker ids) else 0 := by
    split
    · rename_i hv
      rw [bytesOf, filter_eq_self.mpr]
      intro c hc
      have hc := of_decide_eq_true (mem_filter.mp hc).2
      exact decide_eq_true (hc.1.trans hv.symm)
    · rename_i hv
      rw [bytesOf, filter_eq_nil_iff.mpr]
      · rfl
      · intro c hc heq
        have hc := of_decide_eq_true (mem_filter.mp hc).2
        exact hv ((of_decide_eq_true heq).symm.trans hc.1)
  omega

/-- An ack keeps the charges it does not name. -/
theorem ack_inFlight : (b.ack cfg worker ids).inFlight = b.kept worker ids := rfl

/-- An ack gives back what was charged. -/
theorem Accounted.ack (h : Accounted b) : Accounted (b.ack cfg worker ids) := by
  have hbytes := bytes_kept b worker ids
  have hfreed : ((b.popped worker ids).map Charge.bytes).sum = bytes (b.popped worker ids) := rfl
  refine ⟨fun v => ?_, ?_⟩
  · have hkept := bytesOf_kept b worker ids v
    have hv := h.charged v
    rw [ack_inFlight]
    by_cases hpos : 0 < bytes (b.popped worker ids)
    · simp only [Budget.ack, hfreed, hpos, if_true, release]
      split at hkept
      · rename_i heq
        subst heq
        simp only [if_true]
        split <;> omega
      · rename_i hne
        rw [if_neg hne]
        omega
    · simp only [Budget.ack, hfreed, hpos, if_false]
      split at hkept <;> omega
  · have htotal := h.total
    rw [ack_inFlight]
    by_cases hpos : 0 < bytes (b.popped worker ids)
    · simp only [Budget.ack, hfreed, hpos, if_true, release]
      omega
    · simp only [Budget.ack, hfreed, hpos, if_false]
      omega

end Ack

theorem Accounted.step {a : BudgetAction W} (h : Accounted b) (hs : b.step cfg a = some b') :
    Accounted b' := by
  cases a with
  | acquire id worker n => exact h.acquire hs
  | release worker ids =>
    cases hs
    exact h.ack
  | clear i =>
    simp only [Budget.step] at hs
    split at hs
    · cases hs
    · cases hs
      exact ⟨h.charged, h.total⟩

end Budget

end Urutau
