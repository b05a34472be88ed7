import Urutau.InFlightIndex

/-!
# Runs of the in-flight index

Every batch added to the index is accounted for: it is still held, it was
popped, or its add was undone.  A batch is popped from the head, by what its
table has acked; a Closes marker is released by its own id; nothing else leaves
but by `Remove`.

The history kept beside the index records each departure with what was known at
the time: for a popped batch the position its table had acked.
-/

namespace Urutau

open List PositionIndex

namespace PositionIndex

variable {P : Type} [Position P] (idx : PositionIndex P) (table : String)

/-- `Remove`: undo the add of a batch that was never sent. -/
def remove (id : Nat) : PositionIndex P :=
  { idx with head := idx.head.eraseP (fun h => h.id == id) }

/-! ## What a pop hands back -/

/-- What `Truncate` and `ReleaseMarker` return: the bytes released, whether an
oversized batch was among them, and the ids of the popped batches. -/
structure Freed where
  freed : Nat
  freedOversized : Bool
  popped : List Nat
  deriving DecidableEq, Repr

/-- The loop of `popCoveredLocked`, with what it has accumulated. -/
def popCoveredLocked (acked : String → Option P) :
    List (InFlightBatch P) → Freed → Freed × List (InFlightBatch P)
  | [], acc => (acc, [])
  | h :: rest, acc =>
    if releasable acked h then
      popCoveredLocked acked rest
        { freed := acc.freed + h.bytes
          freedOversized := acc.freedOversized || h.oversized
          popped := acc.popped ++ [h.id] }
    else (acc, h :: rest)

/-- The ack moves its table's position: it is the first, or goes beyond the
last. -/
def moves (pos : P) : Bool :=
  match idx.acked table with
  | none => true
  | some cur => Position.advances pos cur

/-- The acked positions once an ack is recorded. -/
def ackedAfter (pos : P) : String → Option P :=
  if idx.moves table pos then (fun t => if t = table then some pos else idx.acked t)
  else idx.acked

/-- What `Truncate` returns, and the index it leaves. -/
def truncateFreed (pos : P) : Freed × PositionIndex P :=
  let acked := idx.ackedAfter table pos
  let (out, head) := popCoveredLocked acked idx.head ⟨0, false, []⟩
  (out, { head, acked })

/-- What `ReleaseMarker` returns, and the index it leaves: the marker's own
bytes, then those of the batches popped behind it. -/
def releaseMarkerFreed (id : Nat) : Freed × PositionIndex P :=
  let found := idx.head.find? (fun h => h.id == id && h.marker)
  let (out, head) := popCoveredLocked idx.acked
    (idx.head.eraseP (fun h => h.id == id && h.marker)) ⟨0, false, []⟩
  match found with
  | none => (out, { idx with head })
  | some m =>
    ({ freed := m.bytes + out.freed
       freedOversized := m.oversized || out.freedOversized
       popped := m.id :: out.popped }, { idx with head })

/-- The sums over a list of popped batches. -/
def freedOf (bs : List (InFlightBatch P)) : Freed where
  freed := (bs.map InFlightBatch.bytes).sum
  freedOversized := bs.any InFlightBatch.oversized
  popped := bs.map InFlightBatch.id

/-- The pops count what they take off the front. -/
theorem popCoveredLocked_eq (acked : String → Option P) (head : List (InFlightBatch P))
    (acc : Freed) :
    popCoveredLocked acked head acc =
      ({ freed := acc.freed + (freedOf (head.takeWhile (releasable acked))).freed
         freedOversized := acc.freedOversized ||
           (freedOf (head.takeWhile (releasable acked))).freedOversized
         popped := acc.popped ++ (freedOf (head.takeWhile (releasable acked))).popped },
        head.dropWhile (releasable acked)) := by
  induction head generalizing acc with
  | nil => simp [popCoveredLocked, freedOf]
  | cons h rest ih =>
    by_cases hr : releasable acked h = true
    · rw [popCoveredLocked, if_pos hr, ih, takeWhile_cons_of_pos hr,
        dropWhile_cons_of_pos hr]
      simp only [freedOf, map_cons, sum_cons, any_cons, Nat.add_assoc,
        Bool.or_assoc, append_assoc, singleton_append]
    · rw [popCoveredLocked, if_neg hr, takeWhile_cons_of_neg hr,
        dropWhile_cons_of_neg hr]
      simp [freedOf]

/-- The loop starts with nothing. -/
theorem popCoveredLocked_start (acked : String → Option P) (head : List (InFlightBatch P)) :
    popCoveredLocked acked head ⟨0, false, []⟩ =
      (freedOf (head.takeWhile (releasable acked)), head.dropWhile (releasable acked)) := by
  rw [popCoveredLocked_eq]
  simp

/-- An ack moves its table's position and pops what it covers. -/
theorem truncate_eq (pos : P) :
    idx.truncate table pos = { idx with acked := idx.ackedAfter table pos }.popCovered := by
  change (if idx.moves table pos = true then
    { idx with acked := fun t => if t = table then some pos else idx.acked t }
    else idx).popCovered = _
  rw [ackedAfter]
  split
  · rfl
  · rfl

/-- What an ack frees is what it pops. -/
theorem truncateFreed_eq (pos : P) : truncateFreed idx table pos =
      (freedOf (idx.truncate table pos).1, (idx.truncate table pos).2) := by
  rw [truncate_eq, truncateFreed, popCoveredLocked_start]
  rfl

/-- What a marker's release frees is what it pops. -/
theorem releaseMarkerFreed_eq (id : Nat) : releaseMarkerFreed idx id =
      (freedOf (idx.releaseMarker id).1, (idx.releaseMarker id).2) := by
  simp only [releaseMarkerFreed, releaseMarker, popCoveredLocked_start]
  cases idx.head.find? (fun h => h.id == id && h.marker) with
  | none => rfl
  | some m => rfl

end PositionIndex

/-! ## Histories -/

/-- The mutations of an index. -/
inductive IndexOp (P : Type)
  | add (b : InFlightBatch P)
  | truncate (table : String) (pos : P)
  | releaseMarker (id : Nat)
  | remove (id : Nat)
  deriving DecidableEq, Repr

/-- How a batch left: popped from the head, with the position its table had
acked at the time; as the marker released by an id; or removed by an id. -/
inductive Departure (P : Type)
  | popped (b : InFlightBatch P) (acked : Option P)
  | released (b : InFlightBatch P) (id : Nat)
  | removed (b : InFlightBatch P) (id : Nat)
  deriving DecidableEq, Repr

/-- An index with its past: the batches added, how each left, the positions each
table acked, and the bytes the calls have returned as freed. -/
structure IndexHistory (P : Type) where
  index : PositionIndex P
  added : List (InFlightBatch P)
  departures : List (Departure P)
  ackLog : String → List P
  freed : Nat

namespace IndexHistory

variable {P : Type} [Position P]

/-- `NewPositionIndex`. -/
def start : IndexHistory P where
  index := ⟨[], fun _ => none⟩
  added := []
  departures := []
  ackLog _ := []
  freed := 0

/-- The departures of a pop, under what is acked. -/
def popsOf (acked : String → Option P) (bs : List (InFlightBatch P)) : List (Departure P) :=
  bs.map fun b => .popped b (acked b.table)

def step (h : IndexHistory P) : IndexOp P → IndexHistory P
  | .add b => { h with index := h.index.add b, added := h.added ++ [b] }
  | .truncate table pos =>
    let out := h.index.truncate table pos
    { h with
      index := out.2
      departures := h.departures ++ popsOf out.2.acked out.1
      ackLog := fun t => if t = table ∧ h.index.moves table pos then h.ackLog t ++ [pos]
        else h.ackLog t
      freed := h.freed + (h.index.truncateFreed table pos).1.freed }
  | .releaseMarker id =>
    let marker := h.index.head.find? (fun b => b.id == id && b.marker)
    let rest := { h.index with head := h.index.head.eraseP (fun b => b.id == id && b.marker) }
    { h with
      index := (h.index.releaseMarker id).2
      departures := h.departures ++ marker.toList.map (.released · id) ++
        popsOf rest.acked rest.popCovered.1
      freed := h.freed + (h.index.releaseMarkerFreed id).1.freed }
  | .remove id =>
    { h with
      index := h.index.remove id
      departures := h.departures ++
        (h.index.head.find? (fun b => b.id == id)).toList.map (.removed · id) }

def run (ops : List (IndexOp P)) : IndexHistory P := ops.foldl step start

/-- The batches popped by position, in order. -/
def poppedInOrder (ds : List (Departure P)) : List (InFlightBatch P) :=
  ds.filterMap fun d => match d with
    | .popped b _ => some b
    | _ => none

/-- The batches whose bytes a call has returned: those popped by position, and
the markers released. -/
def popped (ds : List (Departure P)) : List (InFlightBatch P) := ds.filterMap fun d => match d with
    | .popped b _ => some b
    | .released b _ => some b
    | .removed _ _ => none

/-- The batches whose add was undone. -/
def removed (ds : List (Departure P)) : List (InFlightBatch P) := ds.filterMap fun d => match d with
    | .removed b _ => some b
    | _ => none

/-- What entitles a batch to leave. -/
def Justified : Departure P → Prop
  | .popped b acked => b.marker = false ∧ ∀ high, b.high = some high →
      ∃ cur, acked = some cur ∧ Position.covered high cur = true ∧
        (b.isPartial = true → Position.advances cur high = true)
  | .released b id => b.marker = true ∧ b.id = id
  | .removed b id => b.id = id

/-! ## One step -/

theorem perm_find_eraseP {α : Type} (p : α → Bool) (l : List α) :
    (l.eraseP p ++ (l.find? p).toList).Perm l := by
  induction l with
  | nil => exact .rfl
  | cons x rest ih =>
    by_cases hx : p x = true
    · rw [eraseP_cons_of_pos hx, find?_cons_of_pos hx]
      exact perm_append_singleton x rest
    · rw [eraseP_cons_of_neg hx, find?_cons_of_neg hx]
      exact ih.cons x

/-- What holds of an index with its past. -/
structure Sound (h : IndexHistory P) : Prop where
  justified : ∀ d ∈ h.departures, Justified d
  fifo : (poppedInOrder h.departures ++ h.index.head).Sublist h.added
  forward : ∀ t, (h.ackLog t).IsChain (fun old new => Position.advances new old = true)
  latest : ∀ t, (h.ackLog t).getLast? = h.index.acked t
  accounted : (h.index.head ++ popped h.departures ++ removed h.departures).Perm h.added
  bytes : h.freed = ((popped h.departures).map InFlightBatch.bytes).sum

theorem sound_start : Sound (start : IndexHistory P) where
  justified := nofun
  fifo := .refl _
  forward _ := .nil
  latest _ := rfl
  accounted := .rfl
  bytes := rfl

/-- A pop is entitled to what it takes. -/
theorem justified_popsOf {idx : PositionIndex P} {d : Departure P}
    (hd : d ∈ popsOf idx.acked idx.popCovered.1) : Justified d := by
  obtain ⟨b, hb, rfl⟩ := mem_map.mp hd
  have hrel := mem_popCovered hb
  refine ⟨?_, fun high hhigh => ?_⟩
  · unfold releasable at hrel
    simp only [Bool.and_eq_true, Bool.not_eq_true'] at hrel
    exact hrel.1
  · obtain ⟨cur, hcur, hcov⟩ := releasable_spec hrel hhigh
    refine ⟨cur, hcur, hcov, fun hpart => ?_⟩
    unfold releasable at hrel
    simp only [hhigh, hcur, hpart, Bool.true_and, Bool.not_not, Bool.and_eq_true] at hrel
    exact hrel.2.2

omit [Position P] in
theorem poppedInOrder_append (xs ys : List (Departure P)) :
    poppedInOrder (xs ++ ys) = poppedInOrder xs ++ poppedInOrder ys :=
  filterMap_append

omit [Position P] in
theorem popped_append (xs ys : List (Departure P)) : popped (xs ++ ys) = popped xs ++ popped ys :=
  filterMap_append

omit [Position P] in
theorem removed_append (xs ys : List (Departure P)) :
    removed (xs ++ ys) = removed xs ++ removed ys :=
  filterMap_append

omit [Position P] in
/-- Batches popped by position are popped, and not removed. -/
theorem popped_pops (f : InFlightBatch P → Option P) (bs : List (InFlightBatch P)) :
    poppedInOrder (bs.map fun b => .popped b (f b)) = bs ∧
      popped (bs.map fun b => .popped b (f b)) = bs ∧
      removed (bs.map fun b => .popped b (f b)) = [] := by
  induction bs with
  | nil => exact ⟨rfl, rfl, rfl⟩
  | cons b rest ih =>
    obtain ⟨horder, hpopped, hremoved⟩ := ih
    refine ⟨?_, ?_, ?_⟩
    · exact congrArg (b :: ·) horder
    · exact congrArg (b :: ·) hpopped
    · exact hremoved

variable {h : IndexHistory P}

variable {head : List (InFlightBatch P)} {n : Nat}

/-- A pop moves batches from the head to the popped ones. -/
theorem sound_pop {acked : String → Option P} {ackLog : String → List P}
    {departures : List (Departure P)} {freed : Nat}
    (hs : Sound { h with index := ⟨head, acked⟩, departures, ackLog, freed })
    (hn : n = ((popCovered ⟨head, acked⟩).1.map InFlightBatch.bytes).sum) :
    Sound { h with
      index := (popCovered ⟨head, acked⟩).2
      departures := departures ++ popsOf acked (popCovered ⟨head, acked⟩).1
      ackLog
      freed := freed + n } := by
  obtain ⟨horder, hpopped, hremoved⟩ :=
    popped_pops (fun b => acked b.table) (popCovered ⟨head, acked⟩).1
  have hsplit : (popCovered ⟨head, acked⟩).1 ++
      (popCovered ⟨head, acked⟩).2.head = head := takeWhile_append_dropWhile
  refine { justified := fun d hd => ?_, fifo := ?_, forward := hs.forward, latest := hs.latest
           accounted := ?_, bytes := ?_ }
  · rcases mem_append.mp hd with hd | hd
    · exact hs.justified d hd
    · exact @justified_popsOf P _ ⟨head, acked⟩ d hd
  · rw [poppedInOrder_append, popsOf, horder, append_assoc, hsplit]
    exact hs.fifo
  · rw [popped_append, removed_append, popsOf, hpopped, hremoved, append_nil]
    refine List.Perm.trans ?_ hs.accounted
    refine List.Perm.append_right _ ?_
    -- the popped batches move past those popped before them
    refine (perm_append_comm.append_left _).trans ?_
    rw [← append_assoc]
    refine List.Perm.append_right _ ?_
    exact perm_append_comm.trans (List.Perm.of_eq hsplit)
  · rw [popped_append, popsOf, hpopped, map_append, sum_append, hn]
    exact congrArg (· + _) hs.bytes

section

variable (hs : Sound h)
include hs

theorem sound_add (b : InFlightBatch P) : Sound (h.step (.add b)) where
  justified := hs.justified
  fifo := by
    change (_ ++ (h.index.head ++ [b])).Sublist (h.added ++ [b])
    rw [← append_assoc]
    exact hs.fifo.append (.refl _)
  forward := hs.forward
  latest := hs.latest
  accounted := by
    change (h.index.head ++ [b] ++ popped h.departures ++ removed h.departures).Perm
      (h.added ++ [b])
    refine List.Perm.trans ?_ (hs.accounted.append_right _)
    simp only [append_assoc]
    refine List.Perm.append_left _ ?_
    rw [← append_assoc (popped h.departures)]
    exact perm_append_comm
  bytes := hs.bytes

/-- An ack is recorded: the log of its table grows when the position moves. -/
theorem sound_acked (table : String) (pos : P) : Sound { h with
      index := { h.index with acked := h.index.ackedAfter table pos }
      ackLog := fun t => if t = table ∧ h.index.moves table pos then h.ackLog t ++ [pos]
        else h.ackLog t } := by
  refine { hs with forward := fun t => ?_, latest := fun t => ?_ }
  · change List.IsChain _ (if t = table ∧ h.index.moves table pos then h.ackLog t ++ [pos]
      else h.ackLog t)
    split
    · rename_i hmove
      refine isChain_append.mpr ⟨hs.forward t, .singleton _, fun old hold new hnew => ?_⟩
      rw [hs.latest t, hmove.1] at hold
      have hmoves := hmove.2
      rw [moves, Option.mem_def.mp hold] at hmoves
      obtain rfl : pos = new := Option.some.inj hnew
      exact hmoves
    · exact hs.forward t
  · change (if t = table ∧ h.index.moves table pos then h.ackLog t ++ [pos]
      else h.ackLog t).getLast? = h.index.ackedAfter table pos t
    rw [ackedAfter]
    by_cases hmoves : h.index.moves table pos = true
    · by_cases ht : t = table
      · rw [if_pos ⟨ht, hmoves⟩, if_pos hmoves, if_pos ht, getLast?_concat]
      · rw [if_neg fun hc => ht hc.1, if_pos hmoves, if_neg ht]
        exact hs.latest t
    · rw [if_neg fun hc => hmoves hc.2, if_neg hmoves]
      exact hs.latest t

/-- An ack pops what it is entitled to. -/
theorem sound_truncate (table : String) (pos : P) : Sound (h.step (.truncate table pos)) := by
  have hpop := sound_pop (sound_acked hs table pos) rfl
  rw [step, truncateFreed_eq, truncate_eq]
  exact hpop

/-- One batch leaves from anywhere in the index. -/
theorem sound_leave {b : InFlightBatch P} {d : Departure P} (hsub : head.Sublist h.index.head)
    (hperm : (head ++ [b]).Perm h.index.head) (hd : Justified d) (horder : poppedInOrder [d] = [])
    (hplace : popped [d] ++ removed [d] = [b])
    (hn : n = ((popped [d]).map InFlightBatch.bytes).sum) :
    Sound { h with
      index := { h.index with head }
      departures := h.departures ++ [d]
      freed := h.freed + n } := by
  refine { justified := fun d' hd' => ?_, fifo := ?_, forward := hs.forward
           latest := hs.latest, accounted := ?_, bytes := ?_ }
  · rcases mem_append.mp hd' with hd' | hd'
    · exact hs.justified d' hd'
    · rw [mem_singleton.mp hd']
      exact hd
  · rw [poppedInOrder_append, horder, append_nil]
    exact ((List.Sublist.refl _).append hsub).trans hs.fifo
  · rw [popped_append, removed_append]
    refine List.Perm.trans ?_ hs.accounted
    refine List.Perm.trans ?_ ((hperm.append_right _).append_right _)
    rw [← hplace]
    simp only [append_assoc]
    refine List.Perm.append_left _ ?_
    rcases append_eq_singleton_iff.mp hplace with ⟨hpop, -⟩ | ⟨-, hrem⟩
    · rw [hpop, nil_append, ← append_assoc]
      exact perm_append_comm
    · rw [hrem, append_nil]
      exact perm_append_comm_assoc _ _ _
  · rw [popped_append, map_append, sum_append, hn]
    exact congrArg (· + _) hs.bytes

/-- A marker's release pops what it is entitled to. -/
theorem sound_releaseMarker (id : Nat) : Sound (h.step (.releaseMarker id)) := by
  have hperm := perm_find_eraseP (fun b => b.id == id && b.marker) h.index.head
  rw [step, releaseMarkerFreed_eq, releaseMarker]
  cases hfind : h.index.head.find? (fun b => b.id == id && b.marker) with
  | none =>
    have hself : h.index.head.eraseP (fun b => b.id == id && b.marker) = h.index.head :=
      eraseP_of_forall_not fun b hb => find?_eq_none.mp hfind b hb
    rw [hself, Option.toList_none, map_nil, append_nil]
    exact sound_pop hs rfl
  | some m =>
    have hm := find?_some hfind
    simp only [Bool.and_eq_true, beq_iff_eq] at hm
    rw [hfind] at hperm
    have hleave := sound_leave hs eraseP_sublist hperm
      (d := .released m id) ⟨hm.2, hm.1⟩ rfl rfl rfl
    have hpop := sound_pop hleave rfl
    rw [Nat.add_assoc] at hpop
    exact hpop

theorem sound_remove (id : Nat) : Sound (h.step (.remove id)) := by
  have hperm := perm_find_eraseP (fun b => b.id == id) h.index.head
  rw [step, remove]
  cases hfind : h.index.head.find? (fun b => b.id == id) with
  | none =>
    have hself : h.index.head.eraseP (fun b => b.id == id) = h.index.head :=
      eraseP_of_forall_not fun b hb => find?_eq_none.mp hfind b hb
    rw [hself, Option.toList_none, map_nil, append_nil]
    exact hs
  | some m =>
    have hm := find?_some hfind
    simp only [beq_iff_eq] at hm
    rw [hfind] at hperm
    exact sound_leave hs eraseP_sublist hperm (d := .removed m id) hm rfl rfl rfl

theorem sound_step (op : IndexOp P) : Sound (h.step op) := by
  cases op with
  | add b => exact sound_add hs b
  | truncate table pos => exact sound_truncate hs table pos
  | releaseMarker id => exact sound_releaseMarker hs id
  | remove id => exact sound_remove hs id

end

/-- **The in-flight index.**  After every run of its mutations: each batch that
left was entitled to, positions by what their table had acked, a marker by its
own id; batches popped by position left in the order they were added, ahead of
all that are held; each table's acked position has only moved forward; and every
batch added is held, popped or removed, with the freed bytes those of the popped
ones. -/
theorem inFlight_index (ops : List (IndexOp P)) : (∀ d ∈ (run ops).departures, Justified d) ∧
      (poppedInOrder (run ops).departures ++ (run ops).index.head).Sublist (run ops).added ∧
      (∀ t, ((run ops).ackLog t).IsChain (fun old new => Position.advances new old = true) ∧
        ((run ops).ackLog t).getLast? = (run ops).index.acked t) ∧
      ((run ops).index.head ++ popped (run ops).departures ++
        removed (run ops).departures).Perm (run ops).added ∧
      (run ops).freed = ((popped (run ops).departures).map InFlightBatch.bytes).sum := by
  have hsound : Sound (run ops) := by
    unfold run
    generalize hstart : (start : IndexHistory P) = h
    have hs : Sound h := hstart ▸ sound_start
    clear hstart
    induction ops generalizing h with
    | nil => exact hs
    | cons op rest ih => exact ih _ (sound_step hs op)
  exact ⟨hsound.justified, hsound.fifo, fun t => ⟨hsound.forward t, hsound.latest t⟩,
    hsound.accounted, hsound.bytes⟩

end IndexHistory

end Urutau
