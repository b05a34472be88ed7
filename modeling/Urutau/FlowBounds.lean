import Urutau.FlowBudget

/-!
# What the flow budget bounds

The total is the sum of the charges.  Batches that fit the ceiling exceed it by no more than
one minimum for each worker: a batch let in by the minimum leaves its worker within it, so
that what the workers hold beyond their minimum never grows past the ceiling.

The cap of a worker is not looked at for an oversized batch.  The slot of such a batch is
cleared by worker, so that an ack that comes to it late may clear the slot of a batch
acquired since.
-/

namespace Urutau

open List Runs

namespace Budget

variable {W : Type} [DecidableEq W] {cfg : BudgetConfig} {b b' : Budget W}

/-- The batches that fit the ceiling. -/
def normal (cfg : BudgetConfig) (charges : List (Charge W)) : List (Charge W) :=
  charges.filter fun c => !cfg.isOversized c.bytes

/-- The batches larger than the ceiling. -/
def oversized (cfg : BudgetConfig) (charges : List (Charge W)) : List (Charge W) :=
  charges.filter fun c => cfg.isOversized c.bytes

/-! ## The ceiling -/

/-- What the workers hold beyond their minimum is within the ceiling. -/
def Floored [Fintype W] (cfg : BudgetConfig) (b : Budget W) : Prop :=
  ∑ worker, (bytesOf worker (normal cfg b.inFlight) - cfg.perWorkerMin) ≤ cfg.totalBytes

/-- A part of the charges holds no more bytes. -/
theorem bytesOf_filter_le (worker : W) (p : Charge W → Bool) (xs : List (Charge W)) :
    bytesOf worker (xs.filter p) ≤ bytesOf worker xs := by
  have := bytesOf_filter worker p xs
  omega

omit [DecidableEq W] in
theorem normal_concat (cfg : BudgetConfig) (xs : List (Charge W)) (c : Charge W) :
    normal cfg (xs ++ [c]) =
      if cfg.isOversized c.bytes then normal cfg xs else normal cfg xs ++ [c] := by
  cases hc : cfg.isOversized c.bytes <;> simp [hc, normal]

section Ceiling

variable [Fintype W]

section

variable (h : Floored cfg b)
include h

/-- Fewer bytes above the minimum. -/
theorem Floored.of_le (hle : ∀ worker, bytesOf worker (normal cfg b'.inFlight) - cfg.perWorkerMin ≤
      bytesOf worker (normal cfg b.inFlight) - cfg.perWorkerMin) : Floored cfg b' :=
  (Finset.sum_le_sum fun worker _ => hle worker).trans h

/-- A charge admitted keeps the shared part in bounds. -/
theorem Floored.acquire {id n : Nat} {worker : W} (hb : Accounted b)
    (hs : b.acquire cfg id worker n = some b') : Floored cfg b' := by
  have hb' := hb.acquire hs
  obtain ⟨hadmits, hb''⟩ := acquire_some hs
  have hlist : b'.inFlight = b.inFlight ++ [⟨id, worker, n, b.used worker⟩] := by rw [hb'']
  have htotal : b'.usedTotal = b.usedTotal + n := by rw [hb'']
  have hnormal := normal_concat cfg b.inFlight ⟨id, worker, n, b.used worker⟩
  rw [← hlist] at hnormal
  rw [admits] at hadmits
  split at hadmits
  · rename_i hover
    rw [if_pos hover] at hnormal
    exact h.of_le fun v => by rw [hnormal]
  rename_i hfits
  rw [if_neg hfits] at hnormal
  simp only [Bool.and_eq_true, Bool.or_eq_true, decide_eq_true_eq] at hadmits
  rcases hadmits.1 with hroom | hmin
  · -- under the ceiling with everything in flight
    have hall : bytes (normal cfg b'.inFlight) ≤ cfg.totalBytes := by
      have hsplit : bytes (oversized cfg b'.inFlight) + bytes (normal cfg b'.inFlight) =
        bytes b'.inFlight := bytes_filter _ _
      have := hb'.total
      omega
    calc ∑ v, (bytesOf v (normal cfg b'.inFlight) - cfg.perWorkerMin)
        ≤ ∑ v, bytesOf v (normal cfg b'.inFlight) := Finset.sum_le_sum fun _ _ => Nat.sub_le _ _
      _ = bytes (normal cfg b'.inFlight) := sum_bytesOf _
      _ ≤ cfg.totalBytes := hall
  · -- the worker stays within its minimum, and the others are as they were
    refine h.of_le fun v => ?_
    rw [hnormal, bytesOf_append, bytesOf_singleton]
    by_cases hv : worker = v
    · subst hv
      rw [if_pos rfl]
      have hused := hb.charged worker
      have hle : bytesOf worker (normal cfg b.inFlight) ≤ bytesOf worker b.inFlight :=
        bytesOf_filter_le worker _ _
      have hzero : bytesOf worker (normal cfg b.inFlight) + n - cfg.perWorkerMin = 0 := by
        omega
      exact hzero.le.trans (Nat.zero_le _)
    · rw [if_neg hv, Nat.add_zero]

/-- An ack only gives bytes back. -/
theorem Floored.ack {worker : W} {ids : List Nat} : Floored cfg (b.ack cfg worker ids) := by
  refine h.of_le fun v => ?_
  have hle : bytesOf v (normal cfg (b.kept worker ids)) ≤ bytesOf v (normal cfg b.inFlight) := by
    rw [normal, kept, filter_comm]
    exact bytesOf_filter_le v _ _
  rw [ack_inFlight]
  omega

theorem Floored.step {a : BudgetAction W} (hb : Accounted b)
    (hs : b.step cfg a = some b') : Floored cfg b' := by
  cases a with
  | acquire id worker n => exact h.acquire hb hs
  | release worker ids =>
    cases hs
    exact h.ack
  | clear i =>
    simp only [Budget.step] at hs
    split at hs
    · cases hs
    · cases hs
      exact h

/-- The batches that fit the ceiling exceed it by a minimum for each worker at most. -/
theorem Floored.bytes_le :
    bytes (normal cfg b.inFlight) ≤ cfg.totalBytes + Fintype.card W * cfg.perWorkerMin := by
  calc bytes (normal cfg b.inFlight)
      = ∑ v, bytesOf v (normal cfg b.inFlight) := (sum_bytesOf _).symm
    _ ≤ ∑ v, (bytesOf v (normal cfg b.inFlight) - cfg.perWorkerMin + cfg.perWorkerMin) :=
        Finset.sum_le_sum fun _ _ => by omega
    _ = ∑ v, (bytesOf v (normal cfg b.inFlight) - cfg.perWorkerMin) +
          Fintype.card W * cfg.perWorkerMin := by
        rw [Finset.sum_add_distrib, Finset.sum_const_nat fun _ _ => rfl, Finset.card_univ]
    _ ≤ cfg.totalBytes + Fintype.card W * cfg.perWorkerMin := Nat.add_le_add_right h _

end

end Ceiling

/-! ## The cap of a worker -/

/-- A worker with a cap is within it, but for a single batch taken when it held nothing. -/
def Capped (cfg : BudgetConfig) (b : Budget W) : Prop :=
  cfg.perWorkerMax = 0 ∨ ∀ worker, b.used worker ≤ cfg.perWorkerMax ∨
    ∃ c ∈ b.inFlight, c.worker = worker ∧ c.heldBefore = 0 ∧ b.used worker = c.bytes

/-- An oversized batch is acquired as the cap allows. -/
def WithinCap (cfg : BudgetConfig) (b : Budget W) : BudgetAction W → Prop
  | .acquire _ worker n => cfg.isOversized n = true → underWorkerMax cfg b worker n = true
  | _ => True

instance (b : Budget W) (a : BudgetAction W) : Decidable (WithinCap cfg b a) := by
  cases a <;> unfold WithinCap <;> infer_instance

variable {worker : W}

variable {id n : Nat} {ids : List Nat} {a : BudgetAction W}

/-- A charge under the maximum keeps each worker capped. -/
theorem Capped.acquire (h : Capped cfg b)
    (hmax : underWorkerMax cfg b worker n = true) (hs : b.acquire cfg id worker n = some b') :
    Capped cfg b' := by
  obtain ⟨-, rfl⟩ := acquire_some hs
  rcases h with hnone | h
  · exact .inl hnone
  simp only [underWorkerMax, Bool.or_eq_true, decide_eq_true_eq] at hmax
  rcases hmax with (hnone | hfirst) | hroom
  · exact .inl hnone
  · refine .inr fun v => ?_
    by_cases hv : v = worker
    · simp [hv, hfirst]
    · simp only [hv]
      refine (h v).imp_right fun ⟨c, hc, hrest⟩ => ?_
      exact ⟨c, mem_append_left _ hc, hrest⟩
  · refine .inr fun v => ?_
    by_cases hv : v = worker
    · left
      simpa [hv] using hroom
    · simp only [hv]
      refine (h v).imp_right fun ⟨c, hc, hrest⟩ => ?_
      exact ⟨c, mem_append_left _ hc, hrest⟩

/-- Past the cap, a worker that holds something holds more than one batch. -/
theorem not_capped_acquire (hb : Accounted b) (hover : cfg.isOversized n = true)
    (hmax : ¬ underWorkerMax cfg b worker n = true) (hs : b.acquire cfg id worker n = some b') :
    ¬ Capped cfg b' := by
  obtain ⟨-, rfl⟩ := acquire_some hs
  simp only [underWorkerMax, Bool.or_eq_true, decide_eq_true_eq, not_or] at hmax
  obtain ⟨⟨hcap, hheld⟩, hpast⟩ := hmax
  have hn : cfg.totalBytes < n := of_decide_eq_true hover
  intro hcapped
  rcases hcapped with hnone | hall
  · exact hcap hnone
  rcases hall worker with hwithin | ⟨c, hc, hworker, -, hsame⟩
  · simp only at hwithin
    exact hpast hwithin
  simp only [if_true] at hsame
  rcases mem_append.mp hc with hold | hnew
  · have hle := le_bytesOf hold
    have hcharged := hb.charged c.worker
    rw [hworker] at hle hcharged
    omega
  · rw [mem_singleton.mp hnew] at hsame
    simp only at hsame
    omega

/-- An ack keeps each worker capped. -/
theorem Capped.ack (h : Capped cfg b) (hb : Accounted b) : Capped cfg (b.ack cfg worker ids) := by
  refine h.imp_right fun h v => ?_
  have hkept := bytesOf_kept b worker ids v
  have hbefore := hb.charged v
  have hacked : Accounted (b.ack cfg worker ids) := hb.ack
  have hafter := hacked.charged v
  rw [ack_inFlight] at hafter
  rcases h v with hwithin | ⟨c, hc, hworker, hheld, hsame⟩
  · split at hkept <;> omega
  by_cases hpopped : c.worker = worker ∧ c.id ∈ ids
  · -- the batch itself is acked: its bytes were all the worker's
    have hmem : c ∈ b.popped worker ids := mem_filter.mpr ⟨hc, decide_eq_true hpopped⟩
    have hle : c.bytes ≤ bytes (b.popped worker ids) :=
      single_le_sum (fun _ _ => Nat.zero_le _) _ (mem_map_of_mem hmem)
    rw [if_pos (hworker.symm.trans hpopped.1)] at hkept
    omega
  · have hmem : c ∈ b.kept worker ids := mem_filter.mpr ⟨hc, by rw [decide_eq_false hpopped]; rfl⟩
    have hle := le_bytesOf hmem
    rw [hworker] at hle
    refine .inr ⟨c, hmem, hworker, hheld, ?_⟩
    split at hkept <;> omega

/-- A step meets the condition exactly when the caps hold after it. -/
theorem withinCap_iff (hb : Accounted b) (h : Capped cfg b)
    (hs : b.step cfg a = some b') : WithinCap cfg b a ↔ Capped cfg b' := by
  cases a with
  | acquire id worker n =>
    refine ⟨fun hok => ?_, fun hcapped hover => ?_⟩
    · have hmax : underWorkerMax cfg b worker n = true := by
        by_cases hover : cfg.isOversized n = true
        · exact hok hover
        · have hadmits := (acquire_some hs).1
          rw [admits, if_neg hover, Bool.and_eq_true] at hadmits
          exact hadmits.2
      exact h.acquire hmax hs
    · by_contra hmax
      exact not_capped_acquire hb hover hmax hs hcapped
  | release worker ids =>
    cases hs
    exact ⟨fun _ => h.ack hb, fun _ => trivial⟩
  | clear i =>
    simp only [Budget.step] at hs
    split at hs
    · cases hs
    · cases hs
      exact ⟨fun _ => h, fun _ => trivial⟩

/-- **The bounds of the budget.**  In every run the total is the sum of the charges, and the
batches that fit the ceiling exceed it by one minimum for each worker at most.  The caps of
the workers hold all along a run exactly when its oversized batches are acquired within
them. -/
theorem budget_bounds [Fintype W] (cfg : BudgetConfig) (actions : List (BudgetAction W))
    (b : Budget W) (hrun : run (step cfg) (new W) actions = some b) :
    b.usedTotal = ∑ worker, b.used worker ∧
      bytes (normal cfg b.inFlight) ≤ cfg.totalBytes + Fintype.card W * cfg.perWorkerMin ∧
      (Runs.Guarded (step cfg) (WithinCap cfg) (new W) actions ↔
        ∀ before u, before <+: actions → run (step cfg) (new W) before = some u →
          Capped cfg u) := by
  have hinv : Accounted b ∧ Floored cfg b := invariant_of_run (fun b => Accounted b ∧ Floored cfg b)
      (fun _ _ _ ⟨hb, hf⟩ hs => ⟨hb.step hs, hf.step hb hs⟩)
      ⟨accounted_new, by simp [Floored, new, normal, bytesOf, bytes]⟩ hrun
  refine ⟨?_, hinv.2.bytes_le, ?_⟩
  · rw [hinv.1.total, ← sum_bytesOf, Nat.cast_sum]
    exact Finset.sum_congr rfl fun worker _ => (hinv.1.charged worker).symm
  · exact guarded_iff_always Accounted (Capped cfg) (fun _ _ _ hb hs => hb.step hs)
      (fun _ _ _ hb h hs => withinCap_iff hb h hs) accounted_new
      (.inr fun _ => .inl (Int.natCast_nonneg _)) hrun

/-- A ceiling of 100 bytes, a minimum of 10 and a cap of 60. -/
def smallBudget : BudgetConfig := ⟨100, 10, 60⟩

/-- One worker's oversized batch comes when it holds nothing; another is served from its
minimum, and takes more once the first is acked. -/
def oversizedFirst : List (BudgetAction (Fin 2)) :=
  [.acquire 1 0 150, .acquire 2 1 10, .release 0 [1], .clear 0, .acquire 3 1 50]

theorem budget_bounds_oversizedFirst :
    ∃ b, run (step smallBudget) (new (Fin 2)) oversizedFirst = some b ∧
      b.usedTotal = 60 ∧ b.usedTotal = ∑ worker, b.used worker ∧ Capped smallBudget b := by
  refine exists_run_and (by decide +kernel) fun b hrun _ => ?_
  obtain ⟨hsum, -, hcap⟩ := budget_bounds smallBudget oversizedFirst b hrun
  exact ⟨hsum, hcap.mp (by decide +kernel) oversizedFirst b (prefix_refl _) hrun⟩

/-- The worker holds a batch within its cap when the oversized one comes. -/
def oversizedSecond : List (BudgetAction (Fin 2)) := [.acquire 1 0 50, .acquire 2 0 150]

/-- It then holds two batches, and more than its cap. -/
theorem oversizedSecond_past_cap :
    ∃ b, run (step smallBudget) (new (Fin 2)) oversizedSecond = some b ∧
      b.inFlight = [⟨1, 0, 50, 0⟩, ⟨2, 0, 150, 50⟩] ∧ b.used 0 = 200 ∧
      ¬ Capped smallBudget b := by
  refine exists_run_of (by decide +kernel) fun b _
    (hseen : b.inFlight = [⟨1, 0, 50, 0⟩, ⟨2, 0, 150, 50⟩] ∧ b.used 0 = 200) => ?_
  obtain ⟨hlist, hused⟩ := hseen
  refine ⟨hlist, hused, fun hcapped => ?_⟩
  rcases hcapped with hnone | hall
  · cases hnone
  rcases hall 0 with hwithin | ⟨c, hc, -, -, hsame⟩
  · rw [hused] at hwithin
    exact absurd hwithin (by decide)
  · rw [hused] at hsame
    rw [hlist] at hc
    simp only [mem_cons, not_mem_nil, or_false] at hc
    rcases hc with rfl | rfl <;> exact absurd hsame (by decide)

/-! ## The oversized slot -/

/-- One oversized batch is in flight at most; the slot is its worker's, and no ack is about to
clear it. -/
structure Slotted (cfg : BudgetConfig) (b : Budget W) : Prop where
  one : (oversized cfg b.inFlight).length ≤ 1
  slot : ∀ c ∈ oversized cfg b.inFlight, b.oversizedOwner = some c.worker ∧ c.worker ∉ b.clears

/-- No oversized batch is acquired for a worker between the two halves of an ack of its last
one. -/
def SlotSettled (cfg : BudgetConfig) (b : Budget W) : BudgetAction W → Prop
  | .acquire _ worker n => cfg.isOversized n = true → worker ∉ b.clears
  | _ => True

instance (b : Budget W) (a : BudgetAction W) : Decidable (SlotSettled cfg b a) := by
  cases a <;> unfold SlotSettled <;> infer_instance

/-- An oversized charge takes the free slot. -/
theorem Slotted.acquire (h : Slotted cfg b) (hok : cfg.isOversized n = true → worker ∉ b.clears)
    (hs : b.acquire cfg id worker n = some b') : Slotted cfg b' := by
  obtain ⟨hadmits, rfl⟩ := acquire_some hs
  by_cases hover : cfg.isOversized n = true
  · -- the slot is free, so no oversized batch is in flight
    rw [admits, if_pos hover, Option.isNone_iff_eq_none] at hadmits
    have hnil : oversized cfg b.inFlight = [] := by
      refine eq_nil_iff_forall_not_mem.mpr fun c hc => ?_
      have hslot := (h.slot c hc).1
      rw [hadmits] at hslot
      cases hslot
    have hlist : oversized cfg (b.inFlight ++ [⟨id, worker, n, b.used worker⟩]) =
        [⟨id, worker, n, b.used worker⟩] := by
      rw [oversized, filter_append]
      rw [oversized] at hnil
      rw [hnil]
      simp [hover]
    refine ⟨?_, fun c hc => ?_⟩
    · rw [hlist]
      exact le_rfl
    · rw [hlist] at hc
      cases mem_singleton.mp hc
      exact ⟨if_pos hover, hok hover⟩
  · have hlist : oversized cfg (b.inFlight ++ [⟨id, worker, n, b.used worker⟩]) =
        oversized cfg b.inFlight := by
      simp [hover, oversized]
    refine ⟨?_, fun c hc => ?_⟩
    · rw [hlist]
      exact h.one
    · rw [hlist] at hc
      simp only [if_neg hover]
      exact h.slot c hc

/-- An ack frees the slot of its own charge. -/
theorem Slotted.ack (h : Slotted cfg b) (hb : Accounted b) :
    Slotted cfg (b.ack cfg worker ids) := by
  have hsplit : (oversized cfg (b.popped worker ids)).length +
      (oversized cfg (b.kept worker ids)).length = (oversized cfg b.inFlight).length := by
    have hcomm : ∀ p, oversized cfg (b.inFlight.filter p) = (oversized cfg b.inFlight).filter p :=
      fun p => filter_comm _ p _
    rw [popped, kept, hcomm, hcomm]
    exact (length_eq_length_filter_add _).symm
  have hone := h.one
  refine ⟨?_, fun c hc => ?_⟩
  · rw [ack_inFlight]
    omega
  rw [ack_inFlight] at hc
  obtain ⟨hkept, hover⟩ := mem_filter.mp hc
  obtain ⟨hslot, hclears⟩ := h.slot c (mem_filter.mpr ⟨(mem_filter.mp hkept).1, hover⟩)
  have hpopped : ¬ (b.popped worker ids).any (fun c => cfg.isOversized c.bytes) = true := by
    intro hany
    obtain ⟨c', hc', hover'⟩ := any_eq_true.mp hany
    have h₁ := length_pos_of_mem hc
    have hmem : c' ∈ oversized cfg (b.popped worker ids) := mem_filter.mpr ⟨hc', hover'⟩
    have h₂ := length_pos_of_mem hmem
    omega
  refine ⟨?_, ?_⟩
  · -- the batch's bytes are still charged, so the slot is not freed with the charge
    have hbytes : cfg.totalBytes < c.bytes := of_decide_eq_true hover
    have hle := le_bytesOf hkept
    have hsum := bytesOf_kept b worker ids c.worker
    have hused := hb.charged c.worker
    simp only [Budget.ack]
    split
    · simp only [release]
      rw [if_neg]
      · exact hslot
      intro hfreed
      obtain ⟨hleft, howner⟩ := hfreed
      rw [hslot] at howner
      cases howner
      rw [if_pos rfl] at hsum
      rw [bytes] at hsum
      omega
    · exact hslot
  · simp only [Budget.ack, if_neg hpopped]
    exact hclears

theorem Slotted.step (h : Slotted cfg b) (hb : Accounted b)
    (hok : SlotSettled cfg b a) (hs : b.step cfg a = some b') : Slotted cfg b' := by
  cases a with
  | acquire id worker n => exact h.acquire hok hs
  | release worker ids =>
    cases hs
    exact h.ack hb
  | clear i =>
    simp only [Budget.step] at hs
    split at hs
    · cases hs
    rename_i worker hi
    cases hs
    refine ⟨h.one, fun c hc => ?_⟩
    obtain ⟨hslot, hclears⟩ := h.slot c hc
    have hother : ¬ b.oversizedOwner = some worker := by
      intro howner
      rw [hslot] at howner
      exact hclears (Option.some.inj howner ▸ mem_of_getElem? hi)
    refine ⟨?_, fun hmem => hclears (mem_of_mem_eraseIdx hmem)⟩
    simp only [clearOversized, if_neg hother]
    exact hslot

/-- **One oversized batch at a time.**  In every run under `SlotSettled`, at most one batch
larger than the ceiling is in flight. -/
theorem one_oversized (cfg : BudgetConfig) (actions : List (BudgetAction W)) (b : Budget W)
    (hrun : run (step cfg) (new W) actions = some b)
    (hsettled : Runs.Guarded (step cfg) (SlotSettled cfg) (new W) actions) :
    (oversized cfg b.inFlight).length ≤ 1 := by
  have hinv : Accounted b ∧ Slotted cfg b :=
    invariant_of_guarded (fun b => Accounted b ∧ Slotted cfg b)
      (fun _ _ _ ⟨hb, h⟩ hok hs => ⟨hb.step hs, h.step hb hok hs⟩)
      ⟨accounted_new, ⟨Nat.zero_le _, nofun⟩⟩ hrun hsettled
  exact hinv.2.one

/-- The ack of one oversized batch is over before the worker's next one is acquired. -/
def settledSlot : List (BudgetAction (Fin 2)) :=
  [.acquire 1 0 150, .release 0 [1], .clear 0, .acquire 2 0 150]

theorem one_oversized_settledSlot : ∃ b, run (step smallBudget) (new (Fin 2)) settledSlot = some b ∧
      b.inFlight = [⟨2, 0, 150, 0⟩] ∧ (oversized smallBudget b.inFlight).length ≤ 1 := by
  exact exists_run_and (by decide +kernel) fun b hrun _ => one_oversized smallBudget
    settledSlot b hrun (by decide +kernel)

/-- The worker's next oversized batch is acquired between the two halves of the ack, and
another worker's after it. -/
def lateClear : List (BudgetAction (Fin 2)) :=
  [.acquire 1 0 150, .release 0 [1], .acquire 2 0 150, .clear 0, .acquire 3 1 150]

/-- The late clear has freed the slot of the batch in flight. -/
theorem lateClear_two_oversized : ∃ b, run (step smallBudget) (new (Fin 2)) lateClear = some b ∧
      b.inFlight = [⟨2, 0, 150, 0⟩, ⟨3, 1, 150, 0⟩] ∧
      (oversized smallBudget b.inFlight).length = 2 := by
  have hrun : (run (step smallBudget) (new (Fin 2)) lateClear).map Budget.inFlight =
      some [⟨2, 0, 150, 0⟩, ⟨3, 1, 150, 0⟩] := by decide +kernel
  obtain ⟨b, hrun, hlist⟩ := Option.map_eq_some_iff.mp hrun
  exact ⟨b, hrun, hlist, by rw [hlist]; decide⟩

end Budget

end Urutau
