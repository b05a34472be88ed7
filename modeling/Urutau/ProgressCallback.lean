import Urutau.CollapsedPipeline

/-!
# The progress callback of a collapsed snapshot

The snapshot of a table works through a list of chunks: all of them on a cold start, those
the sink named as pending on a resume.  After each chunk the caller is handed the chunks
that remain, which the worker then records with its commits.

The list is computed from the one the snapshot started with, without the chunk just done.
The chunks done before it in the same run are back on it.
-/

namespace Urutau

open List Pipeline

variable {B E : Type}

/-- `SnapshotProgress`, as a table's properties hold it. -/
structure SavedProgress (B : Type) where
  state : SnapshotState
  bounds : List B
  pending : List Nat

/-- `Resumable`. -/
def SavedProgress.resumable (sp : SavedProgress B) : Bool :=
  decide (sp.state = .inProgress) && !sp.bounds.isEmpty

/-- What a call of `SnapshotTable` meets: the progress it is given, what the chunker and the
persist hook answer, and for each round of its loop whether the context has ended and how
the work on the chunk, from the gate to the release, comes out. -/
structure SnapshotCall (B E : Type) where
  progress : Option (SavedProgress B)
  bounds : Except E (List B)
  persist : Except E Unit
  context : Nat → Except E Unit
  work : Nat → Nat → Except E Unit

/-- A call of the progress callback: the chunk done, and those that remain. -/
structure ProgressCall where
  chunk : Nat
  remaining : List Nat
  deriving DecidableEq, Repr

namespace SnapshotCall

variable (call : SnapshotCall B E)

/-- The bounds and the pending list the snapshot starts from. -/
def start : Except E (List B × List Nat) :=
  match call.progress.filter SavedProgress.resumable with
  | some sp => .ok (sp.bounds, sp.pending)
  | none => do
    let bounds ← call.bounds
    call.persist
    .ok (bounds, List.range bounds.length)

/-- The loop over the chunks, from a round on: the callbacks it makes, and its error. -/
def rounds (chunks : Nat) (pending : List Nat) : Nat → List Nat → List ProgressCall × Except E Unit
  | _, [] => ([], .ok ())
  | i, chunk :: rest =>
    match call.context i with
    | .error e => ([], .error e)
    | .ok () =>
      -- bounds may have shrunk since the list was written
      if chunks ≤ chunk then rounds chunks pending (i + 1) rest
      else
        match call.work i chunk with
        | .error e => ([], .error e)
        | .ok () =>
          let out := rounds chunks pending (i + 1) rest
          (⟨chunk, removeFromPending pending chunk⟩ :: out.1, out.2)

/-- `SnapshotTable`. -/
def snapshotTable : List ProgressCall × Except E Unit :=
  match call.start with
  | .error e => ([], .error e)
  | .ok (bounds, pending) => call.rounds (chunksOf bounds).length pending 0 pending

variable {call} {c : ProgressCall}

/-- Each callback is for a chunk of the list, and leaves out that chunk alone. -/
theorem rounds_calls {chunks i : Nat} {pending todo : List Nat}
    (hc : c ∈ (call.rounds chunks pending i todo).1) :
    c.chunk ∈ todo ∧ c.remaining = removeFromPending pending c.chunk := by
  induction todo generalizing i with
  | nil => cases hc
  | cons chunk rest ih =>
    have hlater : c ∈ (call.rounds chunks pending (i + 1) rest).1 →
        c.chunk ∈ chunk :: rest ∧ c.remaining = removeFromPending pending c.chunk :=
      fun h => ⟨mem_cons_of_mem _ (ih h).1, (ih h).2⟩
    rw [rounds] at hc
    split at hc
    · cases hc
    split at hc
    · exact hlater hc
    split at hc
    · cases hc
    rcases mem_cons.mp hc with rfl | hc
    · exact ⟨mem_cons_self, rfl⟩
    · exact hlater hc

theorem snapshotTable_calls {bounds : List B} {pending : List Nat}
    (hstart : call.start = .ok (bounds, pending)) (hc : c ∈ call.snapshotTable.1) :
    c.chunk ∈ pending ∧ c.remaining = removeFromPending pending c.chunk := by
  rw [snapshotTable, hstart] at hc
  exact rounds_calls hc

theorem removeFromPending_perm (pending : List Nat) (chunk : Nat) :
    (removeFromPending pending chunk).Perm (pending.filter fun c => c ≠ chunk) :=
  perm_insertionSort _ _

/-- The chunks done in the run up to a callback, with the one it is for. -/
def doneBy (calls : List ProgressCall) (i : Nat) : List Nat :=
  (calls.take (i + 1)).map ProgressCall.chunk

theorem mem_doneBy_self {calls : List ProgressCall} {i : Nat} (hi : calls[i]? = some c) :
    c.chunk ∈ doneBy calls i := by
  refine mem_map_of_mem (mem_of_getElem? (i := i) ?_)
  rw [getElem?_take_of_lt (Nat.lt_succ_self i)]
  exact hi

/-- **The remaining list.**  What a callback is handed is the starting list without the
chunks done so far in the run exactly when no other chunk was done before. -/
theorem remaining_iff (call : SnapshotCall B E) (bounds : List B) (pending : List Nat)
    (hstart : call.start = .ok (bounds, pending)) (i : Nat) (c : ProgressCall)
    (hi : call.snapshotTable.1[i]? = some c) :
    c.remaining.Perm (pending.filter fun chunk => chunk ∉ doneBy call.snapshotTable.1 i) ↔
      ∀ chunk ∈ doneBy call.snapshotTable.1 i, chunk = c.chunk := by
  obtain ⟨-, hremaining⟩ := snapshotTable_calls hstart (mem_of_getElem? hi)
  rw [hremaining]
  refine ⟨fun hperm chunk hdone => ?_, fun hsame => ?_⟩
  · by_contra hother
    -- a chunk done earlier is back on the list
    obtain ⟨before, hbefore, rfl⟩ := mem_map.mp hdone
    have hpending := (snapshotTable_calls hstart (mem_of_mem_take hbefore)).1
    have hback : before.chunk ∈ removeFromPending pending c.chunk :=
      (removeFromPending_perm pending c.chunk).mem_iff.mpr
        (mem_filter.mpr ⟨hpending, decide_eq_true hother⟩)
    have hout := (mem_filter.mp (hperm.mem_iff.mp hback)).2
    exact of_decide_eq_true hout hdone
  · refine (removeFromPending_perm pending c.chunk).trans (List.Perm.of_eq ?_)
    refine filter_congr fun chunk _ => decide_eq_decide.mpr (not_congr ?_)
    exact ⟨fun heq => heq ▸ mem_doneBy_self hi, hsame chunk⟩

/-- A cold start over three chunks that all go through. -/
def threeChunks : SnapshotCall Nat Unit where
  progress := none
  bounds := .ok [10, 20, 30]
  persist := .ok ()
  context _ := .ok ()
  work _ _ := .ok ()

theorem remaining_iff_firstChunk : threeChunks.snapshotTable.1[0]? = some ⟨0, [1, 2]⟩ ∧
      [1, 2].Perm ([0, 1, 2].filter fun chunk => chunk ∉ doneBy threeChunks.snapshotTable.1 0) :=
  ⟨by decide, (remaining_iff threeChunks [10, 20, 30] [0, 1, 2] rfl 0 ⟨0, [1, 2]⟩ (by decide)).mpr
    (by decide)⟩

/-- After its second chunk the first is recorded as pending again. -/
theorem threeChunks_first_back :
    threeChunks.snapshotTable = ([⟨0, [1, 2]⟩, ⟨1, [0, 2]⟩, ⟨2, [0, 1]⟩], .ok ()) ∧
      doneBy threeChunks.snapshotTable.1 1 = [0, 1] ∧
      ¬ [0, 2].Perm
        ([0, 1, 2].filter fun chunk => chunk ∉ doneBy threeChunks.snapshotTable.1 1) := by
  refine ⟨by rfl, by decide, by decide⟩

end SnapshotCall

end Urutau
