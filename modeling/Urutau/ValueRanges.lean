import Mathlib

/-!
# Splitting an integer column by value range

The chunks of a Postgres table with an integer chunk column start at its minimum, one chunk
size apart.  What is left of the range is a machine subtraction: over half of all values it
wraps around, and the loop stops at its first bound.
-/

namespace Urutau

/-- `maxChunkBounds`. -/
def maxChunkBounds : Nat := 2 ^ 20

/-- What `MIN` and `MAX` of the chunk column return, of a table with rows. -/
structure ValueRange where
  min : Int64
  max : Int64
  ordered : min.toInt ≤ max.toInt

/-- The chunk size of a `Chunker`: `New` refuses any other. -/
structure ChunkSize where
  size : Int64
  positive : 0 < size.toInt

/-- The value-range split exceeds `maxChunkBounds` chunks. -/
inductive SplitError
  | exceedsChunks
  deriving DecidableEq, Repr

namespace ValueRange

/-- The loop of `batchBounds` from `v` on, when `room` more bounds stay under the limit. -/
def boundsFrom (step max : Int64) : (room : Nat) → (v : Int64) → Except SplitError (List Int64)
  | 0, v => if v ≤ max then .error .exceedsChunks else .ok []
  | room + 1, v =>
    if v ≤ max then
      if max - v < step then .ok [v]
      else (boundsFrom step max room (v + step)).map (v :: ·)
    else .ok []

/-- `batchBounds` of an integer column.  A table without rows has no minimum. -/
def batchBounds (chunkSize : ChunkSize) : Option ValueRange → Except SplitError (List Int64)
  | none => .ok []
  | some r =>
    let step := if chunkSize.size < 1 then 1 else chunkSize.size
    (boundsFrom step r.max (maxChunkBounds - 1) r.min).map fun bounds =>
      if bounds.isEmpty then [r.min] else bounds

/-- The bounds from `v` on are a step apart, up to less than a step before the maximum. -/
structure Stepped (step max v : Int) (bounds : List Int64) : Prop where
  first : bounds.head?.map Int64.toInt = some v
  apart : bounds.IsChain fun a b => b.toInt = a.toInt + step
  within : ∀ b ∈ bounds, b.toInt ≤ max
  last : ∀ b ∈ bounds.getLast?, max < b.toInt + step

/-- The number of chunks that cover a range. -/
def chunksOf (step width : Int) : Int := width / step + 1

/-- **What a split is to be**: the bounds, or an error when they are more than the limit. -/
def Splits (chunkSize : ChunkSize) (r : ValueRange) : Except SplitError (List Int64) → Prop
  | .ok bounds => Stepped chunkSize.size.toInt r.max.toInt r.min.toInt bounds
  | .error _ => maxChunkBounds < chunksOf chunkSize.size.toInt (r.max.toInt - r.min.toInt)

/-- While the subtraction does not wrap, the loop collects all bounds, or more are needed
than it has room for. -/
theorem boundsFrom_spec {step max : Int64} (hstep : 0 < step.toInt) (room : Nat) {v : Int64}
    (hle : v.toInt ≤ max.toInt) (hwidth : max.toInt - v.toInt < 2 ^ 63) :
    match boundsFrom step max room v with
    | .ok bounds => Stepped step.toInt max.toInt v.toInt bounds ∧
        chunksOf step.toInt (max.toInt - v.toInt) ≤ room
    | .error _ => room < chunksOf step.toInt (max.toInt - v.toInt) := by
  have hsub : (max - v).toInt = max.toInt - v.toInt := by
    rw [Int64.toInt_sub, Int.bmod_eq_of_le (by omega) (by omega)]
  induction room generalizing v with
  | zero =>
    rw [boundsFrom, if_pos (Int64.le_iff_toInt_le.mpr hle)]
    have hdiv : 0 ≤ (max.toInt - v.toInt) / step.toInt := Int.ediv_nonneg (by omega) (by omega)
    simp only [chunksOf]
    omega
  | succ room ih =>
    rw [boundsFrom, if_pos (Int64.le_iff_toInt_le.mpr hle)]
    by_cases hlast : max - v < step
    · rw [if_pos hlast]
      rw [Int64.lt_iff_toInt_lt, hsub] at hlast
      refine ⟨⟨rfl, .singleton v, by simpa using hle, by simp; omega⟩, ?_⟩
      rw [chunksOf, Int.ediv_eq_zero_of_lt (by omega) hlast]
      omega
    rw [if_neg hlast]
    rw [Int64.lt_iff_toInt_lt, hsub] at hlast
    have hnext : (v + step).toInt = v.toInt + step.toInt := by
      have hmax := max.toInt_lt
      have hmin := v.le_toInt
      rw [Int64.toInt_add, Int.bmod_eq_of_le (by omega) (by omega)]
    have hsub' : (max - (v + step)).toInt = max.toInt - (v + step).toInt := by
      rw [Int64.toInt_sub, Int.bmod_eq_of_le (by omega) (by omega)]
    have hrest := ih (v := v + step) (by omega) (by omega) hsub'
    -- one step further, one chunk less is needed
    have hless : chunksOf step.toInt (max.toInt - v.toInt) =
        chunksOf step.toInt (max.toInt - (v + step).toInt) + 1 := by
      have hsplit : max.toInt - v.toInt = max.toInt - (v + step).toInt + 1 * step.toInt := by omega
      rw [chunksOf, chunksOf, hsplit, Int.add_mul_ediv_right _ _ (by omega)]
    cases hfrom : boundsFrom step max room (v + step) with
    | error e =>
      rw [hfrom] at hrest
      simp only [Except.map] at hrest ⊢
      omega
    | ok bounds =>
      rw [hfrom] at hrest
      obtain ⟨hstepped, hroom⟩ := hrest
      cases bounds with
      | nil => cases hstepped.first
      | cons b rest =>
        have hb : b.toInt = v.toInt + step.toInt := (Option.some.inj hstepped.first).trans hnext
        refine ⟨⟨rfl, .cons_cons hb hstepped.apart, ?_, ?_⟩, by omega⟩
        · exact List.forall_mem_cons.mpr ⟨hle, hstepped.within⟩
        · rw [List.getLast?_cons_cons]
          exact hstepped.last

/-- Over half of all values and more the subtraction wraps: the minimum is the only bound. -/
theorem boundsFrom_wide {step max : Int64} (hstep : 0 < step.toInt) (room : Nat) {v : Int64}
    (hwidth : 2 ^ 63 ≤ max.toInt - v.toInt) : boundsFrom step max (room + 1) v = .ok [v] := by
  have hle : v ≤ max := Int64.le_iff_toInt_le.mpr (by omega)
  have hwrap : max - v < step := by
    have hmax := max.toInt_lt
    have hmin := v.le_toInt
    rw [Int64.lt_iff_toInt_lt, Int64.toInt_sub, Int.bmod_def]
    omega
  rw [boundsFrom, if_pos hle, if_pos hwrap]

/-- **The split is right exactly** for a range of less than half of all values that does not
need just as many chunks as the limit. -/
theorem splits_iff (chunkSize : ChunkSize) (r : ValueRange) :
    Splits chunkSize r (batchBounds chunkSize (some r)) ↔ r.max.toInt - r.min.toInt < 2 ^ 63 ∧
        chunksOf chunkSize.size.toInt (r.max.toInt - r.min.toInt) ≠ maxChunkBounds := by
  have hpos := chunkSize.positive
  have hstep : (if chunkSize.size < 1 then 1 else chunkSize.size) = chunkSize.size :=
    if_neg (by rw [Int64.lt_iff_toInt_lt]; exact Int.not_lt.mpr hpos)
  simp only [batchBounds, hstep]
  by_cases hwidth : r.max.toInt - r.min.toInt < 2 ^ 63
  · have hspec := boundsFrom_spec hpos (maxChunkBounds - 1) r.ordered hwidth
    have hlimit : ((maxChunkBounds - 1 : Nat) : Int) + 1 = maxChunkBounds := rfl
    cases hfrom : boundsFrom chunkSize.size r.max (maxChunkBounds - 1) r.min with
    | error e =>
      rw [hfrom] at hspec
      simp only [Except.map, Splits] at hspec ⊢
      omega
    | ok bounds =>
      rw [hfrom] at hspec
      obtain ⟨hstepped, hroom⟩ := hspec
      have hsome : bounds.isEmpty = false := by
        cases bounds with
        | nil => cases hstepped.first
        | cons b rest => rfl
      simp only [Except.map, hsome]
      exact iff_of_true hstepped ⟨hwidth, by omega⟩
  · refine iff_of_false (fun h => ?_) fun h => hwidth h.1
    rw [show maxChunkBounds - 1 = 2 ^ 20 - 2 + 1 from rfl, boundsFrom_wide hpos _ (by omega)] at h
    have hlast := h.last r.min rfl
    have hsize := chunkSize.size.toInt_lt
    omega

/-- All 64-bit values, in chunks of a thousand. -/
theorem widest_range_one_chunk :
    batchBounds ⟨1000, by decide⟩ (some ⟨.minValue, .maxValue, by decide⟩) = .ok [.minValue] ∧
      ¬Splits ⟨1000, by decide⟩ ⟨.minValue, .maxValue, by decide⟩ (.ok [.minValue]) :=
  ⟨rfl, fun h => absurd (h.last .minValue rfl) (by decide)⟩

end ValueRange

end Urutau
