import Mathlib

/-!
# The owner of a slot

Rendezvous hashing: a slot belongs to the worker whose weight for it is the greatest, and at
equal weights to the one whose name comes first.  The weights may be any function of slot
and name.
-/

namespace Urutau

open List

namespace Rendezvous

variable {W : Type}

/-- Workers in the order of preference. -/
def rank (weight : W → Nat) (w : W) : Natᵒᵈ ×ₗ W := toLex (.toDual (weight w), w)

theorem rank_injective (weight : W → Nat) : Function.Injective (rank weight) :=
  fun _ _ h => congrArg (fun x => (ofLex x).2) h

variable [LinearOrder W]

/-- The loop of `Owner` from worker `i` on, with the index and the name of the best so far. -/
def ownerFrom (weight : W → Nat) : Nat → Nat × W → List W → Nat × W
  | _, best, [] => best
  | i, best, w :: rest =>
    if weight best.2 < weight w ∨ weight w = weight best.2 ∧ w < best.2 then
      ownerFrom weight (i + 1) (i, w) rest
    else ownerFrom weight (i + 1) best rest

/-- `Owner`: an index into the workers, or -1. -/
def owner (weight : Nat → W → Nat) (slot : Nat) : List W → Int
  | [] => -1
  | w :: rest => (ownerFrom (weight slot) 1 (0, w) rest).1

/-- The name of the worker `Owner` points at. -/
def ownerName (weight : Nat → W → Nat) (slot : Nat) (workers : List W) : Option W :=
  workers[(owner weight slot workers).toNat]?

theorem rank_lt_iff (weight : W → Nat) (w best : W) : rank weight w < rank weight best ↔
    weight best < weight w ∨ weight w = weight best ∧ w < best := by
  simp [rank, Prod.Lex.toLex_lt_toLex]

/-- The loop keeps the index and the name together, and the best of the workers seen. -/
theorem ownerFrom_spec (weight : W → Nat) (rest seen : List W) (best : Nat × W)
    (hbest : seen[best.1]? = some best.2)
    (hleast : ∀ w ∈ seen, rank weight best.2 ≤ rank weight w) :
    let out := ownerFrom weight seen.length best rest
    (seen ++ rest)[out.1]? = some out.2 ∧
      ∀ w ∈ seen ++ rest, rank weight out.2 ≤ rank weight w := by
  induction rest generalizing seen best with
  | nil =>
    rw [append_nil]
    exact ⟨hbest, hleast⟩
  | cons w rest ih =>
    have hlength : seen.length + 1 = (seen ++ [w]).length := by simp
    rw [append_cons]
    simp only [ownerFrom, ← rank_lt_iff]
    rw [hlength]
    split
    · rename_i hlt
      refine ih (seen ++ [w]) (seen.length, w) (by simp) fun w' hw' => ?_
      rcases mem_append.mp hw' with hseen | hw'
      · exact hlt.le.trans (hleast w' hseen)
      · rw [mem_singleton.mp hw']
    · rename_i hnot
      refine ih (seen ++ [w]) best ?_ fun w' hw' => ?_
      · rw [getElem?_append_left (List.getElem?_eq_some_iff.mp hbest).1, hbest]
      · rcases mem_append.mp hw' with hseen | hw'
        · exact hleast w' hseen
        · rw [mem_singleton.mp hw']
          exact not_lt.mp hnot

/-- The owner is the worker every other ranks behind. -/
theorem ownerName_eq_some_iff (weight : Nat → W → Nat) (slot : Nat) (workers : List W) (o : W) :
    ownerName weight slot workers = some o ↔
      o ∈ workers ∧ ∀ w ∈ workers, rank (weight slot) o ≤ rank (weight slot) w := by
  cases workers with
  | nil => simp [ownerName]
  | cons w rest =>
    obtain ⟨hget, hleast⟩ := ownerFrom_spec (weight slot) rest [w] (0, w) rfl (by simp)
    have hname : ownerName weight slot (w :: rest) =
        some (ownerFrom (weight slot) 1 (0, w) rest).2 := hget
    rw [hname, Option.some.injEq]
    constructor
    · rintro rfl
      exact ⟨mem_of_getElem? hget, hleast⟩
    · intro ⟨ho, hall⟩
      exact rank_injective _ (le_antisymm (hleast o ho) (hall _ (mem_of_getElem? hget)))

/-- **Ownership is stable.**  Workers in another order give the slot to the same one; a worker
that joins takes the slot or leaves it where it is; when a worker that does not own the slot
leaves, it stays where it is. -/
theorem owner_stable (weight : Nat → W → Nat) (slot : Nat) (workers : List W) :
    (workers ≠ [] → ∃ o ∈ workers, ownerName weight slot workers = some o) ∧
    (∀ workers', workers'.Perm workers →
      ownerName weight slot workers' = ownerName weight slot workers) ∧
    (∀ w workers', workers'.Perm (w :: workers) → ownerName weight slot workers' = some w ∨
        ownerName weight slot workers' = ownerName weight slot workers) ∧
    ∀ w, ownerName weight slot workers ≠ some w →
      ownerName weight slot (workers.erase w) = ownerName weight slot workers := by
  have hsome : ∀ {ws : List W}, ws ≠ [] → ∃ o ∈ ws, ownerName weight slot ws = some o := by
    intro ws hne
    obtain ⟨w, rest, rfl⟩ := exists_cons_of_ne_nil hne
    obtain ⟨hget, -⟩ := ownerFrom_spec (weight slot) rest [w] (0, w) rfl (by simp)
    exact ⟨_, mem_of_getElem? hget, hget⟩
  refine ⟨hsome, fun workers' hperm => ?_, fun w workers' hperm => ?_, fun w hne => ?_⟩
  · refine Option.ext fun o => ?_
    simp only [ownerName_eq_some_iff, hperm.mem_iff]
  · have hne : workers' ≠ [] := by
      rintro rfl
      exact cons_ne_nil w workers hperm.nil_eq.symm
    obtain ⟨o, hmem, ho⟩ := hsome hne
    by_cases heq : o = w
    · exact .inl (heq ▸ ho)
    · have hmem := (mem_cons.mp (hperm.mem_iff.mp hmem)).resolve_left heq
      have hleast := ((ownerName_eq_some_iff ..).mp ho).2
      refine .inr (ho.trans ((ownerName_eq_some_iff ..).mpr ⟨hmem, fun w' hw' => ?_⟩).symm)
      exact hleast w' (hperm.mem_iff.mpr (mem_cons_of_mem w hw'))
  · rcases eq_or_ne workers [] with rfl | hworkers
    · rfl
    obtain ⟨o, hmem, ho⟩ := hsome hworkers
    have hother : o ≠ w := fun heq => hne (heq ▸ ho)
    have hleast := ((ownerName_eq_some_iff ..).mp ho).2
    rw [ho, ownerName_eq_some_iff]
    exact ⟨(mem_erase_of_ne hother).mpr hmem, fun w' hw' => hleast w' (mem_of_mem_erase hw')⟩

end Rendezvous

end Urutau
