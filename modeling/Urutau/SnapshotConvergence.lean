import Urutau.WindowInvariant

/-!
# Convergence of the collapsed snapshot

What the worker emits for a table is a mix of window rows and live changes.
The live changes come out in log order, whatever the relay and the gate do.  A
window row is right as of its SELECT, so the mix folds to the source's table
as long as no window row is emitted after a change of the same key that is
newer than the SELECT.
-/

namespace Urutau

open List LastWrite Runs

namespace Pipeline

variable {K V : Type}

variable [LinearOrder K] {su : Setup K V} {s : Pipeline K V}

/-- Snapshot and stream have come to rest: the orchestrator is done and every
change of the log has reached the batcher. -/
structure Settled (su : Setup K V) (s : Pipeline K V) : Prop where
  done : s.phase = .done
  pulled : s.pulled = su.log.length
  batchCh : s.batchCh = []
  hand : s.hand = none
  buf : s.gate.buf = []
  ingest : s.ingest = []

theorem onlyChunk_nodup : ([0] : List Nat).Nodup := by decide

/-- A table of one row, which the source changes once. -/
def oneRow : Setup Nat Nat where
  history := [⟨1, some 10⟩]
  log := [⟨1, some 20⟩]
  bounds := [1]
  plan := [0]
  plan_nodup := onlyChunk_nodup
  boundsAt := 0
  resuming := false
  begun := false
  heldRows := false
  mode := .upsert
  maxRows := 0
  maxBytes := 1000
  batchBytes items := 8 * items.length
  liveBytes batch := 8 * batch.length
  keepsDelete _ := false
  guardHits keys k := decide (k ∈ keys)

end Pipeline

end Urutau
