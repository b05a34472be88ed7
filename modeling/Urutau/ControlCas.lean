import Urutau.AssocLists
import Urutau.CasLoop

/-!
# Writers of the control document

Couchbase keeps a table's positions and properties in one document.  In fast mode the
workers' commits, the seeding of owners and the orchestrator's property updates all go
through `mergeControl`: read, merge, and write if the document has not changed since.
-/

namespace Urutau

open Runs

open Option

open AssocLists CasLoop

/-- `controlDoc`, the maps without an order. -/
structure ControlBody where
  position : String
  positions : List (String × String)
  updatedAt : Nat
  properties : List (String × String)
  deriving DecidableEq, Repr

/-- `batchInfo`, as far as `controlWrite` reads it. -/
structure BatchInfo where
  position : String
  owner : String
  snapshotState : String
  snapshotPending : Option (List Nat)
  deriving DecidableEq, Repr

namespace ControlBody

def propSnapshotState : String := "cdc.snapshot.state"

def propSnapshotPending : String := "cdc.snapshot.pending"

/-- `EncodePending`. -/
def encodePending (pending : List Nat) : String :=
  "[" ++ ",".intercalate (pending.map toString) ++ "]"

/-- Entries of a map are written over, in whatever order. -/
def putAll (m props : List (String × String)) : List (String × String) :=
  props.foldr (fun e m => put m e.1 e.2) m

/-- The properties a batch sets. -/
def BatchInfo.properties (info : BatchInfo) : List (String × String) :=
  (if info.snapshotState ≠ "" then [(propSnapshotState, info.snapshotState)] else []) ++
    (info.snapshotPending.map fun p => (propSnapshotPending, encodePending p)).toList

/-- `controlWrite`: a batch without a position leaves the positions as they are. -/
def controlWrite (prev : Option ControlBody) (info : BatchInfo) (now : Nat) : ControlBody :=
  let ctrl : ControlBody := prev.getD ⟨"", [], 0, []⟩
  { position := if info.position ≠ "" then info.position else ctrl.position
    positions := if info.position ≠ "" ∧ info.owner ≠ ""
      then put ctrl.positions info.owner info.position else ctrl.positions
    updatedAt := now
    properties := putAll ctrl.properties (BatchInfo.properties info) }

/-- An owner without an entry gets the baseline. -/
def seedOwner (baseline : String) (merged : List (String × String)) (owner : String) :
    List (String × String) :=
  if (merged.lookup owner).isSome then merged else put merged owner baseline

/-- The merge of `seedPositions`; nothing is written for a fresh table, when there is no
least position, or when every owner has one. -/
def seedPositions (minSafe : List String → Option String) (owners : List String)
    (doc : Option ControlBody) : Option ControlBody :=
  doc.bind fun doc =>
  if owners.length < 2 ∨ doc.positions.isEmpty then none
  else
    (minSafe (doc.positions.map Prod.snd)).bind fun baseline =>
    if owners.all fun o => (doc.positions.lookup o).isSome then none
    else some { doc with positions := owners.foldl (seedOwner baseline) doc.positions }

/-- The merge of `setProperties`. -/
def setProperties (prev : Option ControlBody) (props : List (String × String)) (now : Nat) :
    Option ControlBody :=
  if props.isEmpty then none
  else
    let ctrl : ControlBody := prev.getD ⟨"", [], 0, []⟩
    some { ctrl with properties := putAll ctrl.properties props, updatedAt := now }

end ControlBody

open ControlBody

/-- What `mergeControl` is called for. -/
inductive ControlOp where
  | commit (info : BatchInfo)
  | seed (owners : List String)
  | setProperties (props : List (String × String))
  deriving DecidableEq, Repr

namespace ControlOp

/-- The merge; none writes nothing. -/
def apply (minSafe : List String → Option String) (op : ControlOp) (now : Nat)
    (prev : Option ControlBody) : Option ControlBody :=
  match op with
  | .commit info => some (controlWrite prev info now)
  | .seed owners => seedPositions minSafe owners prev
  | .setProperties props => ControlBody.setProperties prev props now

/-- The position a commit records for an owner. -/
def positionFor (owner : String) : ControlOp → Option String
  | .commit info =>
    if info.position ≠ "" ∧ info.owner ≠ "" ∧ info.owner = owner then some info.position else none
  | _ => none

/-- The value an update, or a commit, gives a property. -/
def property (key : String) : ControlOp → Option String
  | .commit info => (BatchInfo.properties info).lookup key
  | .seed _ => none
  | .setProperties props => props.lookup key

/-- Whether the merge writes whatever is there. -/
def writes : ControlOp → Bool
  | .commit _ => true
  | .seed _ => false
  | .setProperties props => !props.isEmpty

end ControlOp

/-- `maxControlCASRetries`. -/
def maxControlCASRetries : Nat := 16

/-- The control document under any number of writers. -/
abbrev ControlState := CasLoop.State ControlOp Nat ControlBody

def ControlState.step (minSafe : List String → Option String) :
    ControlState → Action ControlOp Nat → Option ControlState :=
  CasLoop.State.step (ControlOp.apply minSafe) maxControlCASRetries

/-- The value written last, or the one that was there. -/
def lastWritten (f : ControlOp → Option String) (was : Option String)
    (applied : List (Call ControlOp × Nat)) : Option String :=
  applied.foldl (fun v a => (f a.1.op).or v) was

section Fields

variable {minSafe : List String → Option String}

theorem lookup_putAll (m props : List (String × String)) (k : String) :
    (putAll m props).lookup k = (props.lookup k).or (m.lookup k) := by
  induction props with
  | nil => rfl
  | cons e rest ih =>
    simp only [putAll, List.foldr_cons] at ih ⊢
    rw [lookup_put, ih, lookup_cons_ite]
    by_cases heq : k = e.1 <;> simp [heq]

/-- Seeding leaves an owner's position as it is. -/
theorem lookup_seedOwners {baseline o p : String} (owners : List String)
    {m : List (String × String)} (h : m.lookup o = some p) :
    (owners.foldl (seedOwner baseline) m).lookup o = some p := by
  induction owners generalizing m with
  | nil => exact h
  | cons owner rest ih =>
    apply ih
    unfold seedOwner
    split
    · exact h
    rename_i hnone
    have hne : o ≠ owner := by
      rintro rfl
      exact hnone (by rw [h]; rfl)
    rw [lookup_put, beq_false_of_ne hne]
    exact h

variable {f : ControlOp → Option String} {prev : Option ControlBody}

/-- What is written counts, whatever was there. -/
theorem lastWritten_of_none {v : String} (was : Option String)
    {applied : List (Call ControlOp × Nat)} (h : lastWritten f none applied = some v) :
    lastWritten f was applied = some v := by
  induction applied generalizing was with
  | nil => cases h
  | cons a rest ih =>
    simp only [lastWritten, List.foldl_cons] at h ⊢
    cases hf : f a.1.op with
    | some u => simpa [hf] using h
    | none => exact ih was (by simpa [hf, lastWritten] using h)

/-- A merge gives a field the value of its own, or keeps the one that was there. -/
structure Field (minSafe : List String → Option String) (f : ControlOp → Option String)
    (get : ControlBody → Option String) : Prop where
  merged : ∀ op now prev next v, op.apply minSafe now prev = some next →
    (f op).or (prev.bind get) = some v → get next = some v
  unwritten : ∀ op now prev, op.apply minSafe now prev = none → f op = none

/-- Such a field has the value written last. -/
theorem Field.replay {get : ControlBody → Option String}
    (h : Field minSafe f get) (applied : List (Call ControlOp × Nat)) (d : Option ControlBody)
    (v : String) (hv : lastWritten f (d.bind get) applied = some v) :
    (State.replay (ControlOp.apply minSafe) d applied).bind get = some v := by
  induction applied generalizing d with
  | nil => exact hv
  | cons a rest ih =>
    apply ih
    simp only [lastWritten, List.foldl_cons] at hv
    dsimp only
    cases hnext : a.1.op.apply minSafe a.2 d with
    | none =>
      rw [h.unwritten _ _ _ hnext] at hv
      simpa [lastWritten] using hv
    | some next =>
      cases hwas : (f a.1.op).or (d.bind get) with
      | none =>
        rw [hwas] at hv
        exact lastWritten_of_none _ hv
      | some u =>
        rw [hwas] at hv
        simpa [lastWritten, h.merged _ _ _ _ _ hnext hwas] using hv

theorem unwritten_of_none {op : ControlOp} {now : Nat}
    (h : op.apply minSafe now prev = none) : op.writes = false := by
  cases op with
  | commit info => cases h
  | seed owners => rfl
  | setProperties props =>
    simp only [ControlOp.apply, ControlBody.setProperties] at h
    split at h
    · rename_i hempty
      simp [ControlOp.writes, hempty]
    · cases h

theorem seedPositions_eq_some {owners : List String}
    {next : ControlBody} (h : seedPositions minSafe owners prev = some next) :
    ∃ doc baseline, prev = some doc ∧
      next = { doc with positions := owners.foldl (seedOwner baseline) doc.positions } := by
  obtain ⟨doc, rfl, h⟩ := bind_eq_some_iff.mp h
  obtain ⟨-, h⟩ := ite_none_left_eq_some.mp h
  obtain ⟨baseline, -, h⟩ := bind_eq_some_iff.mp h
  obtain ⟨-, h⟩ := ite_none_left_eq_some.mp h
  exact ⟨doc, baseline, rfl, (some.inj h).symm⟩

/-- An owner's position is its last commit's. -/
theorem field_positions (o : String) :
    Field minSafe (ControlOp.positionFor o) fun d => d.positions.lookup o where
  merged op now prev next v hnext hv := by
    cases op with
    | commit info =>
      cases hnext
      have hold : (prev.bind fun d => d.positions.lookup o) =
          (prev.getD ⟨"", [], 0, []⟩).positions.lookup o := by
        cases prev <;> rfl
      simp only [ControlOp.positionFor, controlWrite, hold] at hv ⊢
      split
      · rename_i hnamed
        rw [lookup_put]
        by_cases ho : o = info.owner
        · simpa [hnamed, ho] using hv
        · simpa [ho, Ne.symm ho] using hv
      · rename_i hnamed
        rwa [if_neg fun h => hnamed ⟨h.1, h.2.1⟩] at hv
    | seed owners =>
      obtain ⟨doc, baseline, rfl, rfl⟩ := seedPositions_eq_some hnext
      exact lookup_seedOwners owners hv
    | setProperties props =>
      obtain ⟨-, hnext⟩ := ite_none_left_eq_some.mp hnext
      cases hnext
      cases prev <;> exact hv
  unwritten op now prev h := by
    cases op with
    | commit info => cases h
    | _ => rfl

/-- A property's value is the last it was given. -/
theorem field_properties (k : String) :
    Field minSafe (ControlOp.property k) fun d => d.properties.lookup k where
  merged op now prev next v hnext hv := by
    cases op with
    | commit info =>
      cases hnext
      change (putAll _ _).lookup k = some v
      rw [lookup_putAll]
      cases prev <;> exact hv
    | seed owners =>
      obtain ⟨doc, baseline, rfl, rfl⟩ := seedPositions_eq_some hnext
      exact hv
    | setProperties props =>
      obtain ⟨-, hnext⟩ := ite_none_left_eq_some.mp hnext
      cases hnext
      rw [lookup_putAll]
      cases prev <;> exact hv
  unwritten op now prev h := by
    have hwrites := unwritten_of_none h
    cases op with
    | commit info => cases h
    | seed owners => rfl
    | setProperties props =>
      simp only [ControlOp.writes, Bool.not_eq_false', List.isEmpty_iff] at hwrites
      rw [hwrites]
      rfl

end Fields

/-- **Nothing is lost in the control document.**  In every run, whatever the conflicts,
the writes of one writer get through in the order they were begun, every commit or
property update that was answered without an error got through, and the document has for
each owner the position of the last commit that got through, and for each property its
last value; an owner without such a commit keeps the position it had.  Seeding changes none
of these. -/
theorem control_kept (minSafe : List String → Option String) (d : Option ControlBody)
    {actions : List (Action ControlOp Nat)} {s : ControlState}
    (hrun : run (ControlState.step minSafe) (State.init d) actions = some s) :
    (s.applied.Pairwise fun a b => a.1.writer = b.1.writer → a.1.id < b.1.id) ∧
    (∀ call ∈ s.returned, call.op.writes → ∃ a ∈ s.applied, a.1 = call) ∧
    (∀ o p, lastWritten (ControlOp.positionFor o) (d.bind fun d => d.positions.lookup o)
      s.applied = some p → ∃ doc, s.doc.map Prod.fst = some doc ∧ doc.positions.lookup o = some p) ∧
    (∀ k v, lastWritten (ControlOp.property k) (d.bind fun d => d.properties.lookup k)
      s.applied = some v → ∃ doc, s.doc.map Prod.fst = some doc ∧
        doc.properties.lookup k = some v) := by
  have hserial : State.Serial (ControlOp.apply minSafe) d s :=
    invariant_of_run (State.Serial _ d) (fun _ _ _ h hs => h.step hs) (State.serial_init d) hrun
  have hfield : ∀ {f get}, Field minSafe f get →
      ∀ v, lastWritten f (d.bind get) s.applied = some v →
        ∃ doc, s.doc.map Prod.fst = some doc ∧ get doc = some v := by
    intro f get hf v hv
    rw [hserial.replayed]
    exact bind_eq_some_iff.mp (hf.replay s.applied d v hv)
  refine ⟨hserial.ordered, fun call hcall hwrites => ?_, fun o => hfield (field_positions o),
    fun k => hfield (field_properties k)⟩
  rcases hserial.answered call hcall with happlied | ⟨now, prev, hnone⟩
  · exact happlied
  · rw [unwritten_of_none hnone] at hwrites
    cases hwrites

/-- **The control document is serial.**  Whatever the conflicts and retries, it is what the writes
that got through make of the first one, in order. -/
theorem control_serial (minSafe : List String → Option String) (d : Option ControlBody)
    (s : Reachable (ControlState.step minSafe) (State.init d)) :
    s.1.doc.map Prod.fst = State.replay (ControlOp.apply minSafe) d s.1.applied :=
  (s.keeps (State.serial_init d) fun _ _ _ h hs => h.step hs).replayed

/-- Two owners race, one of them twice; the third is seeded; a property is set meanwhile. -/
def raced : List (Action ControlOp Nat) :=
  [.start 0 (.commit ⟨"p1", "a", "", none⟩), .start 1 (.commit ⟨"q1", "b", "", some [2]⟩),
    .get 0 5, .get 1 5, .replace 0, .replace 1, .get 1 6,
    .start 2 (.setProperties [("k", "v")]), .get 2 6, .replace 1, .replace 2,
    .start 3 (.seed ["a", "b", "c"]), .get 2 7, .get 3 7, .replace 2, .replace 3, .get 3 8,
    .start 0 (.commit ⟨"p2", "a", "", none⟩), .get 0 8, .replace 3, .replace 0, .get 0 9,
    .replace 0]

theorem control_kept_raced :
    ∃ s, run (ControlState.step fun ps => ps.head?) (State.init none) raced = some s ∧
      (s.doc.map fun x => (x.1.positions, x.1.properties)) =
        some ([("a", "p2"), ("b", "q1"), ("c", "p1")],
          [("cdc.snapshot.pending", "[2]"), ("k", "v")]) ∧
      ∃ doc, s.doc.map Prod.fst = some doc ∧ doc.positions.lookup "a" = some "p2" := by
  refine exists_run_and (by decide +kernel) fun s hs hdoc =>
    (control_kept _ none hs).2.2.1 "a" "p2" ?_
  obtain ⟨t, ht, hlast⟩ : ∃ t, run (ControlState.step fun ps => ps.head?) (State.init none)
      raced = some t ∧ lastWritten (ControlOp.positionFor "a") none t.applied = some "p2" :=
    exists_run (by decide +kernel)
  cases hs.symm.trans ht
  exact hlast

end Urutau
