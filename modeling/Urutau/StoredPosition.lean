import Urutau.SinkPositions
import Urutau.IcebergTable
import Urutau.GuardedRun

/-!
# The position a built-in sink reports after a collapsed run

A collapsed runner commits a table's batches one after another; a batch of a snapshot
window carries rows and no position, a batch of the stream a position and, as a rule,
rows.  Between commits the runner may be started again, and the store compacts its data.

Iceberg keeps the position as a property of the table and Couchbase in the control
document: a batch without a position leaves both as they are.  ClickHouse keeps it in the
rows, so a batch without a position hides the one before it, and a batch without rows does
not store its own.
-/

namespace Urutau

open List IcebergTable Option ClickHouse Runs

/-- The identity of an Iceberg commit: the keys whose deletes are resolved at each attempt,
the files written, and the position. -/
structure CycleKey (K P : Type) where
  keys : List K
  files : List Nat
  position : Option P
  deriving DecidableEq, Repr

/-- How an Iceberg table is written. -/
structure IcebergMode where
  positional : Bool
  upsert : Bool
  deriving DecidableEq, Repr

/-- What a commit finds at hand: the clock, the coordinator's number, and how many deletion
vectors and further data files it writes. -/
structure Circumstance where
  now : Nat
  batchSeq : Nat
  vectors : Nat
  split : Nat
  deriving DecidableEq, Repr

namespace IcebergMode

variable {K P : Type} (m : IcebergMode) (b : SinkBatch K P) (next : Nat) (c : Circumstance)

/-- The keys whose deletes are looked up at each attempt. -/
def resolvedKeys : List K := if m.upsert && m.positional then b.rows.map Prod.fst else []

/-- The equality deletes are one file. -/
def deleteFiles : List Nat := if m.upsert && !m.positional && !b.rows.isEmpty then [next] else []

/-- The rows written as data: in append mode every row, else the upserts. -/
def dataRows : List (K × Bool) := if m.upsert then b.rows.filter fun r => !r.2 else b.rows

def dataFiles : List Nat :=
  if (m.dataRows b).isEmpty then [] else List.range' (next + 1) (c.split + 1)

/-- The deletion vectors, none when no row of the table has one of the keys. -/
def vectorFiles : List Nat :=
  if (m.resolvedKeys b).isEmpty then [] else List.range' (next + c.split + 2) c.vectors

/-- The first file number a commit does not use. -/
def afterFiles : Nat := next + c.split + 2 + c.vectors

/-- `cycleKey` and `keyedCycle`. -/
def cycleKey : CycleKey K P :=
  ⟨m.resolvedKeys b, m.deleteFiles b next ++ m.dataFiles b next c, b.position⟩

/-- The properties of the commit. -/
def commitProps : CommitProps P (CycleKey K P) :=
  ⟨b.position, some (m.cycleKey b next c), b.snapshotState, b.snapshotPending⟩

/-- Nothing at all to commit. -/
def nothing : Bool :=
  b.rows.isEmpty && b.position.isNone && b.snapshotState.isNone && b.snapshotPending.isNone

/-- `Commit`: skipped when the table carries the cycle's key already. -/
def commit [DecidableEq K] [DecidableEq P] (t : IcebergTable Nat P (CycleKey K P)) :
    IcebergTable Nat P (CycleKey K P) :=
  if nothing b || t.cycleCommitted (m.cycleKey b next c) then t
  else
    t.commit (m.commitProps b next c)
      (m.deleteFiles b next ++ m.vectorFiles b next c ++ m.dataFiles b next c)

end IcebergMode

/-! ## The stores and their runs -/

/-- What a sink keeps of a table, with its writer. -/
inductive TableStore (K P : Type)
  | iceberg (mode : IcebergMode) (table : IcebergTable Nat P (CycleKey K P)) (nextFile : Nat)
  | clickhouse (upsert : Bool) (table : ClickHouse K P) (writer : ChWriter)
  | couchbase (doc : Option (ControlDoc P))
  deriving DecidableEq, Repr

/-- The built-in sinks, with the options that matter here. -/
inductive BuiltinSink
  | iceberg (positional : Bool)
  | clickhouse
  | couchbase
  deriving DecidableEq, Repr

/-- One thing that happens to a table. -/
inductive StoreAct (K P : Type)
  | commit (b : SinkBatch K P) (c : Circumstance)
  | reopen
  | maintain (keys : List K)
  deriving DecidableEq, Repr

namespace TableStore

variable {K P : Type}

/-- A table nobody has written to, opened without an owner. -/
def fresh (upsert : Bool) : BuiltinSink → TableStore K P
  | .iceberg positional => .iceberg ⟨positional, upsert⟩ .empty 0
  | .clickhouse => .clickhouse upsert .empty (empty.openTableWriter (K := K) (P := P) none)
  | .couchbase => .couchbase none

variable [DecidableEq K] [DecidableEq P]

/-- A batch is committed. -/
def commit (b : SinkBatch K P) (c : Circumstance) : TableStore K P → TableStore K P
  | .iceberg m t next => .iceberg m (m.commit b next c t) (IcebergMode.afterFiles next c)
  | .clickhouse upsert t w =>
    .clickhouse upsert (t.commit w b c.now c.batchSeq).1 (t.commit w b c.now c.batchSeq).2
  | .couchbase doc => .couchbase (some (controlWrite doc none b))

/-- The runner is started again. -/
def reopen : TableStore K P → TableStore K P
  | .clickhouse upsert t _ => .clickhouse upsert t (t.openTableWriter none)
  | store => store

/-- ClickHouse merges parts of an upsert table; a maintenance job rewrites an Iceberg table
in a snapshot of its own. -/
def maintain (keys : List K) : TableStore K P → TableStore K P
  | .iceberg m t next => .iceberg m (t.addSnapshot .none []) next
  | .clickhouse true t w => .clickhouse true (t.merge keys) w
  | store => store

/-- `Position` of the sink, for a table without owners. -/
def position [Position P] [Meeter P] : TableStore K P → Except (P × P) (Option P)
  | .iceberg _ t _ => .ok t.walkBackPosition
  | .clickhouse _ t _ => t.position 0 []
  | .couchbase doc => positionOf doc 0 []

end TableStore

/-- A table and the last position committed to it. -/
structure StoredTable (K P : Type) where
  store : TableStore K P
  last : Option P
  deriving DecidableEq, Repr

namespace StoredTable

variable {K P : Type} [DecidableEq K] [DecidableEq P]

/-- One step. -/
def step (s : StoredTable K P) : StoreAct K P → Option (StoredTable K P)
  | .commit b c => some ⟨s.store.commit b c, b.position.or s.last⟩
  | .reopen => some { s with store := s.store.reopen }
  | .maintain keys => some { s with store := s.store.maintain keys }

end StoredTable

/-- The positions the commits of a run carry. -/
def StoreAct.committed {K P : Type} : StoreAct K P → Option P
  | .commit b _ => b.position
  | _ => none

/-- The last position committed. -/
def lastPosition {K P : Type} (actions : List (StoreAct K P)) : Option P :=
  (actions.filterMap StoreAct.committed).getLast?

/-! ## ClickHouse -/

namespace ClickHouse

variable {K P : Type} {t : ClickHouse K P} {w : ChWriter}

/-- The writer's number is the highest, and rows of one number, being of one commit, agree
on the position; nobody has written as an owner. -/
structure Ordered (t : ClickHouse K P) (w : ChWriter) : Prop where
  bound : ∀ r ∈ t.rows, r.seq ≤ w.lastSeq
  agree : ∀ r ∈ t.rows, ∀ r' ∈ t.rows, r.seq = r'.seq → r.position = r'.position
  positions : t.positions = []
  owner : w.owner = none

variable {r : ChRow K P}

theorem le_maxSeq (hr : r ∈ t.rows) : r.seq ≤ t.maxSeq := by
  have hfold : ∀ (ns : List Nat), ∀ n ∈ ns, n ≤ ns.foldr Nat.max 0 := by
    intro ns
    induction ns with
    | nil => intro n hn; cases hn
    | cons m rest ih =>
      intro n hn
      rcases mem_cons.mp hn with rfl | hn
      · exact Nat.le_max_left _ _
      · exact Nat.le_trans (ih n hn) (Nat.le_max_right _ _)
  exact hfold _ _ (mem_map_of_mem hr)

/-- The highest row's position is reported. -/
theorem legacyPosition_eq
    (hagree : ∀ r ∈ t.rows, ∀ r' ∈ t.rows, r.seq = r'.seq → r.position = r'.position)
    (hr : r ∈ t.rows) (hmax : ∀ r' ∈ t.rows, r'.seq ≤ r.seq) :
    t.legacyPosition = r.position := by
  have hne : t.rows.map (fun r => (r.position, r.seq)) ≠ [] := ne_nil_of_mem (mem_map_of_mem hr)
  obtain ⟨x, hx⟩ := argMax_isSome hne
  obtain ⟨r', hr', rfl⟩ := mem_map.mp (argMax_mem hx)
  have hle : r.seq ≤ r'.seq := le_argMax hx (mem_map_of_mem (f := fun r => (r.position, r.seq)) hr)
  rw [legacyPosition, hx]
  exact hagree r' hr' r hr (Nat.le_antisymm (hmax r' hr') hle)

/-- Some row is the highest. -/
theorem exists_highest (h : t.rows ≠ []) : ∃ r ∈ t.rows, ∀ r' ∈ t.rows, r'.seq ≤ r.seq := by
  obtain ⟨x, hx⟩ : ∃ x, argMax (t.rows.map fun r => (r.position, r.seq)) = some x :=
    argMax_isSome (by simpa using h)
  obtain ⟨r, hr, rfl⟩ := mem_map.mp (argMax_mem hx)
  exact ⟨r, hr, fun r' hr' =>
    le_argMax hx (mem_map_of_mem (f := fun r => (r.position, r.seq)) hr')⟩

section

variable (h : t.Ordered w)
include h

/-- Short of the highest word a commit's number is the highest. -/
theorem Ordered.commit (hlast : w.lastSeq + 1 < 2 ^ 64) (b : SinkBatch K P) (now batchSeq : Nat) :
    (t.commit w b now batchSeq).1.Ordered (t.commit w b now batchSeq).2 := by
  have hlt := (le_versionSeq hlast now batchSeq).1
  have hnew : ∀ r ∈ b.rows.map (fun r => (⟨r.1, r.2, b.position, versionSeq w now batchSeq⟩ :
      ChRow K P)), r.seq = versionSeq w now batchSeq ∧ r.position = b.position := by
    intro r hr
    obtain ⟨x, -, rfl⟩ := mem_map.mp hr
    exact ⟨rfl, rfl⟩
  refine ⟨fun r hr => ?_, fun r hr r' hr' heq => ?_, ?_, h.owner⟩
  · rcases mem_append.mp hr with hr | hr
    · exact Nat.le_trans (h.bound r hr) (Nat.le_of_lt hlt)
    · exact Nat.le_of_eq (hnew r hr).1
  · rcases mem_append.mp hr with hr | hr <;> rcases mem_append.mp hr' with hr' | hr'
    · exact h.agree r hr r' hr' heq
    · have hle := h.bound r hr
      rw [heq, (hnew r' hr').1] at hle
      omega
    · have hle := h.bound r' hr'
      rw [← heq, (hnew r hr).1] at hle
      omega
    · rw [(hnew r hr).2, (hnew r' hr').2]
  · simp [ClickHouse.commit, insertRows, h.positions, h.owner]

/-- A commit with rows is what is read from then on; one without rows is not there. -/
theorem legacyPosition_commit (hlast : w.lastSeq + 1 < 2 ^ 64) (b : SinkBatch K P)
    (now batchSeq : Nat) :
    (t.commit w b now batchSeq).1.legacyPosition =
      if b.rows = [] then t.legacyPosition else b.position := by
  split
  · rename_i hnil
    simp [legacyPosition, commit, insertRows, hnil]
  rename_i hne
  obtain ⟨x, hx⟩ := exists_mem_of_ne_nil _ hne
  have hordered := h.commit hlast b now batchSeq
  refine legacyPosition_eq (r := ⟨x.1, x.2, b.position, versionSeq w now batchSeq⟩)
    hordered.agree (mem_append_right _ (mem_map.mpr ⟨x, hx, rfl⟩)) hordered.bound

/-- A writer opened again starts above every row. -/
theorem Ordered.reopen : t.Ordered (t.openTableWriter none) where
  bound _ hr := le_maxSeq hr
  agree := h.agree
  positions := h.positions
  owner := rfl

/-- The position read is that of the highest version. -/
theorem position_of_ordered [Position P] [Meeter P] : t.position 0 [] = .ok t.legacyPosition := by
  have hnone : t.readOwnerPositions = [] := by
    rw [readOwnerPositions, h.positions]
    rfl
  rw [position, hnone]
  rfl

end

variable [DecidableEq K]

/-- A merge keeps the versions in order. -/
theorem Ordered.merge (h : t.Ordered w) (keys : List K) : (t.merge keys).Ordered w where
  bound r hr := h.bound r (mem_filter.mp hr).1
  agree r hr r' hr' := h.agree r (mem_filter.mp hr).1 r' (mem_filter.mp hr').1
  positions := h.positions
  owner := h.owner

/-- A merge keeps the highest rows. -/
theorem legacyPosition_merge (h : t.Ordered w) (keys : List K) :
    (t.merge keys).legacyPosition = t.legacyPosition := by
  by_cases hnil : t.rows = []
  · simp [legacyPosition, merge, hnil]
  obtain ⟨r, hr, hmax⟩ := exists_highest hnil
  have hkept : r ∈ (t.merge keys).rows := by
    refine mem_filter.mpr ⟨hr, ?_⟩
    have hall : (t.rows.all fun r' => r'.key ≠ r.key || r'.seq ≤ r.seq) = true :=
      all_eq_true.mpr fun r' hr' => by simp [hmax r' hr']
    simp only [hall, Bool.or_true]
  rw [legacyPosition_eq h.agree hr hmax, legacyPosition_eq (h.merge keys).agree hkept
    fun r' hr' => hmax r' (mem_filter.mp hr').1]

end ClickHouse

/-! ## Iceberg -/

namespace IcebergMode

variable {K P : Type} {m : IcebergMode} {t : IcebergTable Nat P (CycleKey K P)} {next : Nat}

/-- What the table's properties and summaries say of the commits so far: the property has
the position if any summary has one, the marker is of a commit that left its position
there, and the files of a key are old ones. -/
structure Recorded (m : IcebergMode) (t : IcebergTable Nat P (CycleKey K P)) (next : Nat) :
    Prop where
  summaries : t.props.position = none → ∀ s ∈ t.snapshots, s.summary.position = none
  marker : ∀ key ∈ t.props.cycle, key.position = none ∨ key.position = t.props.position
  files : m.positional = false → ∀ s ∈ t.snapshots, ∀ key ∈ s.summary.cycle,
    ∃ f ∈ key.files, f < next

theorem recorded_empty : m.Recorded (K := K) (P := P) .empty next where
  summaries := nofun
  marker := nofun
  files := nofun

section

variable (h : m.Recorded t next)
include h

/-- The position read is the property. -/
theorem walkBackPosition_of_recorded : t.walkBackPosition = t.props.position := by
  unfold walkBackPosition
  cases hprop : t.props.position with
  | some p => rfl
  | none =>
    refine findSome?_eq_none_iff.mpr fun s hs => ?_
    exact h.summaries hprop s (mem_of_mem_ancestorsOf hs)

theorem Recorded.mono {next' : Nat} (hle : next ≤ next') : m.Recorded t next' where
  summaries := h.summaries
  marker := h.marker
  files hpos s hs key hkey := by
    obtain ⟨f, hf, hlt⟩ := h.files hpos s hs key hkey
    exact ⟨f, hf, Nat.lt_of_lt_of_le hlt hle⟩

/-- A maintenance snapshot records no position. -/
theorem Recorded.addSnapshot : m.Recorded (t.addSnapshot .none []) next where
  summaries hprop s hs := by
    rcases mem_cons.mp hs with rfl | hs
    · rfl
    · exact h.summaries hprop s hs
  marker := h.marker
  files hpos s hs key hkey := by
    rcases mem_cons.mp hs with rfl | hs
    · cases hkey
    · exact h.files hpos s hs key hkey

end

variable (m) in
/-- The files of a commit are new. -/
theorem cycleKey_files (b : SinkBatch K P) (next : Nat) (c : Circumstance) :
    ∀ f ∈ (m.cycleKey b next c).files, next ≤ f ∧ f < afterFiles next c := by
  intro f hf
  unfold afterFiles
  rcases mem_append.mp hf with hf | hf
  · unfold deleteFiles at hf
    split at hf
    · cases mem_singleton.mp hf
      omega
    · cases hf
  · unfold dataFiles at hf
    split at hf
    · cases hf
    · have hrange := mem_range'_1.mp hf
      omega

/-- Without positional deletes a snapshot's key names a file. -/
theorem cycleKey_files_ne_nil (hpos : m.positional = false) {b : SinkBatch K P} {c : Circumstance}
    (hfiles : (m.deleteFiles b next ++ m.vectorFiles b next c ++ m.dataFiles b next c).isEmpty =
      false) : (m.cycleKey b next c).files ≠ [] := by
  have hvec : m.vectorFiles b next c = [] := by simp [vectorFiles, resolvedKeys, hpos]
  rw [hvec, append_nil] at hfiles
  intro hnil
  change m.deleteFiles b next ++ m.dataFiles b next c = [] at hnil
  rw [hnil] at hfiles
  cases hfiles

variable [DecidableEq K] [DecidableEq P]

/-- A commit records its position in summary and property. -/
theorem Recorded.commit (h : m.Recorded t next) (b : SinkBatch K P) (c : Circumstance) :
    m.Recorded (m.commit b next c t) (afterFiles next c) := by
  have hold : m.Recorded t (afterFiles next c) := h.mono (by unfold afterFiles; omega)
  unfold IcebergMode.commit
  split
  · exact hold
  -- the summary of the new snapshot and the properties are the batch's
  have hnone : ((m.commitProps b next c).over t.props).position = none →
      b.position = none ∧ t.props.position = none := by
    intro hor
    exact or_eq_none_iff.mp hor
  have hmarker : ∀ key ∈ ((m.commitProps b next c).over t.props).cycle, key.position = none ∨
        key.position = ((m.commitProps b next c).over t.props).position := by
    intro key hkey
    cases hkey
    change b.position = none ∨ b.position = b.position.or t.props.position
    cases b.position with
    | none => exact .inl rfl
    | some p => exact .inr rfl
  unfold IcebergTable.commit
  split
  · exact ⟨fun hor s hs => h.summaries (hnone hor).2 s hs, hmarker, hold.files⟩
  rename_i hfiles
  refine ⟨fun hor s hs => ?_, hmarker, fun hpos s hs key hkey => ?_⟩
  · rcases mem_cons.mp hs with rfl | hs
    · exact (hnone hor).1
    · exact h.summaries (hnone hor).2 s hs
  · rcases mem_cons.mp hs with rfl | hs
    · cases hkey
      obtain ⟨f, hf⟩ := exists_mem_of_ne_nil _
        (cycleKey_files_ne_nil hpos (Bool.eq_false_iff.mpr hfiles))
      exact ⟨f, hf, (cycleKey_files m b next c f hf).2⟩
    · exact hold.files hpos s hs key hkey

end IcebergMode

/-! ## The stores together -/

namespace TableStore

variable {K P : Type} {store : TableStore K P}

/-- The invariant of each store. -/
def Sound : TableStore K P → Prop
  | .iceberg m t next => m.Recorded t next
  | .clickhouse _ t w => t.Ordered w
  | .couchbase doc => ∀ d ∈ doc, d.positions = []

/-- The position a store holds. -/
def kept : TableStore K P → Option P
  | .iceberg _ t _ => t.props.position
  | .clickhouse _ t _ => t.legacyPosition
  | .couchbase doc => doc.bind ControlDoc.position

/-- The position read at the start is the one kept. -/
theorem position_of_sound [Position P] [Meeter P] (h : store.Sound) :
    store.position = .ok store.kept := by
  cases store with
  | iceberg m t next => exact congrArg Except.ok (IcebergMode.walkBackPosition_of_recorded h)
  | clickhouse upsert t w => exact position_of_ordered h
  | couchbase doc =>
    cases doc with
    | none => rfl
    | some d =>
      have hnil : d.positions = [] := h d rfl
      simp only [position, positionOf, hnil]
      rfl

theorem sound_fresh (upsert : Bool) (sink : BuiltinSink) :
    (fresh upsert sink : TableStore K P).Sound := by
  cases sink with
  | iceberg positional => exact IcebergMode.recorded_empty
  | clickhouse => exact ⟨nofun, nofun, rfl, rfl⟩
  | couchbase => exact nofun

theorem Sound.reopen (h : store.Sound) : store.reopen.Sound := by
  cases store with
  | iceberg m t next => exact h
  | clickhouse upsert t w => exact ClickHouse.Ordered.reopen h
  | couchbase doc => exact h

theorem kept_reopen : store.reopen.kept = store.kept := by
  cases store <;> rfl

variable [DecidableEq K] [DecidableEq P]

/-- The number of the writer is short of the highest word, so the next one is above it. -/
def Unwrapped : TableStore K P → Prop
  | .clickhouse _ _ w => w.lastSeq + 1 < 2 ^ 64
  | _ => True

instance decidableUnwrapped : ∀ store : TableStore K P, Decidable store.Unwrapped
  | .clickhouse _ _ w => inferInstanceAs (Decidable (w.lastSeq + 1 < 2 ^ 64))
  | .iceberg _ _ _ | .couchbase _ => inferInstanceAs (Decidable True)

/-- A commit keeps the store sound. -/
theorem Sound.commit (h : store.Sound) (hnext : store.Unwrapped) (b : SinkBatch K P)
    (c : Circumstance) : (store.commit b c).Sound := by
  cases store with
  | iceberg m t next => exact IcebergMode.Recorded.commit h b c
  | clickhouse upsert t w => exact ClickHouse.Ordered.commit h hnext b c.now c.batchSeq
  | couchbase doc =>
    intro d hd
    cases hd
    cases doc with
    | none =>
      simp only [controlWrite]
      cases b.position <;> rfl
    | some d =>
      have hnil : d.positions = [] := h d rfl
      simp only [controlWrite, getD_some, hnil]
      cases b.position <;> rfl

omit [DecidableEq P] in
theorem Sound.maintain (h : store.Sound) (keys : List K) : (store.maintain keys).Sound := by
  cases store with
  | iceberg m t next => exact IcebergMode.Recorded.addSnapshot h
  | clickhouse upsert t w =>
    cases upsert with
    | true => exact ClickHouse.Ordered.merge h keys
    | false => exact h
  | couchbase doc => exact h

omit [DecidableEq P] in
theorem kept_maintain (h : store.Sound) (keys : List K) :
    (store.maintain keys).kept = store.kept := by
  cases store with
  | iceberg m t next => rfl
  | clickhouse upsert t w =>
    cases upsert with
    | true => exact legacyPosition_merge h keys
    | false => rfl
  | couchbase doc => rfl

/-- **What a batch must be for its store.**  On ClickHouse rows come with a position, once
one has been committed, and a new position with rows.  On Iceberg with positional deletes
the deletes the head was made of come back only with the last position or none. -/
def Carries (last : Option P) (b : SinkBatch K P) (c : Circumstance) : TableStore K P → Prop
  | .iceberg m t next =>
    m.positional = true →
      (t.currentSnapshot.any fun s => s.summary.cycle = some (m.cycleKey b next c)) = true →
        b.position = none ∨ b.position = last
  | .clickhouse _ _ _ =>
    (b.rows ≠ [] → b.position = none → last = none) ∧
      (b.rows = [] → b.position = none ∨ b.position = last)
  | .couchbase _ => True

instance decidableCarries (last : Option P) (b : SinkBatch K P) (c : Circumstance) :
    ∀ store : TableStore K P, Decidable (store.Carries last b c)
  | .iceberg m t next => inferInstanceAs (Decidable (m.positional = true →
      (t.currentSnapshot.any fun s => s.summary.cycle = some (m.cycleKey b next c)) = true →
        b.position = none ∨ b.position = last))
  | .clickhouse _ _ _ => inferInstanceAs (Decidable
      ((b.rows ≠ [] → b.position = none → last = none) ∧
        (b.rows = [] → b.position = none ∨ b.position = last)))
  | .couchbase _ => inferInstanceAs (Decidable True)

omit [DecidableEq K] [DecidableEq P] in
theorem or_eq_right_iff {p last : Option P} : last = p.or last ↔ p = none ∨ p = last := by
  cases p with
  | none => simp
  | some p => simp [eq_comm]

/-- What a commit keeps in ClickHouse. -/
theorem kept_commit_clickhouse {upsert : Bool} {t : ClickHouse K P} {w : ChWriter}
    (h : t.Ordered w) (hlast : w.lastSeq + 1 < 2 ^ 64) (b : SinkBatch K P) (c : Circumstance) :
    (commit b c (.clickhouse upsert t w)).kept = b.position.or t.legacyPosition ↔
      (clickhouse upsert t w).Carries t.legacyPosition b c := by
  change (t.commit w b c.now c.batchSeq).1.legacyPosition = _ ↔ _
  rw [legacyPosition_commit h hlast]
  simp only [Carries]
  by_cases hnil : b.rows = []
  · simp [hnil, or_eq_right_iff]
  · cases hpos : b.position with
    | none => simp [eq_comm]
    | some p => simp [hnil]

/-- What a commit keeps in Iceberg. -/
theorem kept_commit_iceberg {m : IcebergMode} {t : IcebergTable Nat P (CycleKey K P)} {next : Nat}
    (h : m.Recorded t next) (b : SinkBatch K P) (c : Circumstance) :
    (commit b c (.iceberg m t next)).kept = b.position.or t.props.position ↔
      (iceberg m t next).Carries t.props.position b c := by
  change (m.commit b next c t).props.position = _ ↔ _
  simp only [Carries]
  by_cases hnothing : IcebergMode.nothing b = true
  · have hpos : b.position = none := by
      simp only [IcebergMode.nothing, Bool.and_eq_true, isNone_iff_eq_none] at hnothing
      exact hnothing.1.1.2
    simp [IcebergMode.commit, hnothing, hpos]
  by_cases hdone : t.cycleCommitted (m.cycleKey b next c) = true
  · -- skipped: the marker on the table is harmless, the one on the head may be an old one
    have hskip : m.commit b next c t = t := by simp [IcebergMode.commit, hdone]
    rw [hskip, or_eq_right_iff]
    refine ⟨fun hpos _ _ => hpos, fun hcarries => ?_⟩
    rcases cycleCommitted_iff.mp hdone with hmark | ⟨s, hs, hsum⟩
    · exact h.marker _ hmark
    cases hpositional : m.positional with
    | true =>
      refine hcarries hpositional ((any_eq_true _ _).mpr ⟨s, hs, ?_⟩)
      exact decide_eq_true hsum
    | false =>
      have hmem := mem_of_mem_currentSnapshot hs
      obtain ⟨f, hf, hlt⟩ := h.files hpositional s hmem _ hsum
      have hle := (IcebergMode.cycleKey_files m b next c f hf).1
      omega
  · have hland : (m.commit b next c t).props.position = b.position.or t.props.position := by
      have hfree : ¬(IcebergMode.nothing b || t.cycleCommitted (m.cycleKey b next c)) = true := by
        rw [Bool.or_eq_true]
        exact not_or.mpr ⟨hnothing, hdone⟩
      rw [IcebergMode.commit, if_neg hfree, IcebergTable.commit]
      split <;> rfl
    refine ⟨fun _ _ hhead => ?_, fun _ => hland⟩
    obtain ⟨s, hs, hsum⟩ := (any_eq_true _ _).mp hhead
    exact absurd (cycleCommitted_iff.mpr (.inr ⟨s, hs, of_decide_eq_true hsum⟩)) hdone

/-- The last position is held after a commit exactly when the batch was as it must be. -/
theorem kept_commit_iff (h : store.Sound) (hnext : store.Unwrapped) (b : SinkBatch K P)
    (c : Circumstance) :
    (store.commit b c).kept = b.position.or store.kept ↔ store.Carries store.kept b c := by
  cases store with
  | iceberg m t next => exact kept_commit_iceberg h b c
  | clickhouse upsert t w => exact kept_commit_clickhouse h hnext b c
  | couchbase doc =>
    refine ⟨fun _ => trivial, fun _ => ?_⟩
    cases doc with
    | none =>
      rfl
    | some d => rfl

end TableStore

namespace StoredTable

variable {K P : Type} [DecidableEq K] [DecidableEq P] {s t : StoredTable K P}

/-- The guard of a step. -/
def Carried (s : StoredTable K P) : StoreAct K P → Prop
  | .commit b c => s.store.Carries s.last b c
  | _ => True

instance decidableCarried (s : StoredTable K P) : ∀ a, Decidable (s.Carried a)
  | .commit b c => inferInstanceAs (Decidable (s.store.Carries s.last b c))
  | .reopen | .maintain _ => inferInstanceAs (Decidable True)

/-- A commit finds the writer's number short of the highest word. -/
def Unwrapped (s : StoredTable K P) : StoreAct K P → Prop
  | .commit _ _ => s.store.Unwrapped
  | _ => True

instance decidableUnwrapped (s : StoredTable K P) : ∀ a, Decidable (s.Unwrapped a)
  | .commit _ _ => inferInstanceAs (Decidable s.store.Unwrapped)
  | .reopen | .maintain _ => inferInstanceAs (Decidable True)

variable {a : StoreAct K P}

theorem sound_step (h : s.store.Sound) (hnext : s.Unwrapped a) (hs : step s a = some t) :
    t.store.Sound := by
  cases a with
  | commit b c =>
    cases hs
    exact h.commit hnext b c
  | reopen =>
    cases hs
    exact h.reopen
  | maintain keys =>
    cases hs
    exact h.maintain keys

/-- A step keeps the last position exactly if it carries it. -/
theorem kept_step_iff (h : s.store.Sound) (hkept : s.store.kept = s.last) (hnext : s.Unwrapped a)
    (hs : step s a = some t) : s.Carried a ↔ t.store.kept = t.last := by
  cases a with
  | commit b c =>
    cases hs
    have hiff := TableStore.kept_commit_iff h hnext b c
    rw [hkept] at hiff
    exact hiff.symm
  | reopen =>
    cases hs
    exact ⟨fun _ => TableStore.kept_reopen.trans hkept, fun _ => trivial⟩
  | maintain keys =>
    cases hs
    exact ⟨fun _ => (TableStore.kept_maintain h keys).trans hkept, fun _ => trivial⟩

/-- The last position is that of the last commit that had one. -/
theorem last_run {actions : List (StoreAct K P)} (hrun : run step s actions = some t) :
    t.last = (lastPosition actions).or s.last := by
  induction actions generalizing s with
  | nil =>
    cases hrun
    rfl
  | cons a rest ih =>
    cases a with
    | commit b c =>
      have htail := ih (s := ⟨s.store.commit b c, b.position.or s.last⟩) hrun
      rw [htail]
      cases hpos : b.position with
      | none => simp [lastPosition, StoreAct.committed, hpos]
      | some p =>
        simp only [lastPosition, filterMap_cons, StoreAct.committed, hpos, getLast?_cons]
        cases (List.filterMap StoreAct.committed rest).getLast? <;> rfl
    | reopen => exact ih (s := { s with store := s.store.reopen }) hrun
    | maintain keys => exact ih (s := { s with store := s.store.maintain keys }) hrun

/-- **What is reported is what was committed last.**  Whatever is committed to a fresh
table, as long as the numbers of its ClickHouse writer do not wrap around, the sink reports
the last position committed, after each commit, restart and compaction, exactly when every
batch was as its store needs it. -/
theorem position_eq_lastPosition_iff [Position P] [Meeter P] (sink : BuiltinSink) (upsert : Bool)
    (actions : List (StoreAct K P))
    (hnext : Runs.Guarded step Unwrapped ⟨.fresh upsert sink, none⟩ actions) :
    (∀ before s, before <+: actions → run step ⟨.fresh upsert sink, none⟩ before = some s →
        s.store.position = .ok (lastPosition before)) ↔
      Runs.Guarded step Carried ⟨.fresh upsert sink, none⟩ actions := by
  have hsound : (⟨.fresh upsert sink, none⟩ : StoredTable K P).store.Sound :=
    TableStore.sound_fresh upsert sink
  have hfresh : (TableStore.fresh upsert sink : TableStore K P).kept = none := by
    cases sink <;> rfl
  have htotal : ∀ (more : List (StoreAct K P)) (s : StoredTable K P),
      ∃ t, run step s more = some t := by
    intro more
    induction more with
    | nil => exact fun s => ⟨s, rfl⟩
    | cons a rest ih =>
      intro s
      cases a <;> exact ih _
  obtain ⟨t, hrun⟩ := htotal actions ⟨.fresh upsert sink, none⟩
  -- what is reported is what the store holds
  have hreport : ∀ s : StoredTable K P, s.store.Sound →
      (s.store.position = .ok s.last ↔ s.store.kept = s.last) := by
    intro s h
    rw [TableStore.position_of_sound h]
    exact ⟨fun h => Except.ok.inj h, fun h => congrArg _ h⟩
  refine Iff.trans ?_ (guarded_iff_always_of (fun s => s.store.Sound)
    (fun s => s.store.position = .ok s.last) (fun _ _ _ h hp hs => sound_step h hp hs)
    (fun s a s' h hgood hp hs => ?_) hsound ((hreport _ hsound).mpr hfresh) hrun hnext).symm
  · refine forall_congr' fun before => forall_congr' fun s => imp_congr_right fun _ =>
      forall_congr' fun hs => ?_
    rw [last_run hs, or_none]
  · rw [hreport s' (sound_step h hp hs)]
    exact kept_step_iff h ((hreport s h).mp hgood) hp hs

/-- A batch of a snapshot window before any position, a restart, and a batch of the stream. -/
def liveAfterWindow : List (StoreAct Nat LSN) :=
  [.commit ⟨[(2, false)], none, none, none⟩ ⟨200, 0, 0, 0⟩, .reopen,
    .commit ⟨[(1, false)], some ⟨10⟩, none, none⟩ ⟨100, 0, 0, 0⟩]

/-- Every sink reports the stream's position. -/
theorem position_eq_lastPosition_iff_liveAfterWindow :
    [.iceberg true, .iceberg false, .clickhouse, .couchbase].Forall fun sink : BuiltinSink =>
      ∃ s, run step ⟨.fresh true sink, none⟩ liveAfterWindow = some s ∧
        s.store.position = .ok (some ⟨10⟩) := by
  have hguards : ∀ sink : BuiltinSink,
      Runs.Guarded step Unwrapped ⟨.fresh true sink, none⟩ liveAfterWindow ∧
        Runs.Guarded step Carried ⟨.fresh true sink, none⟩ liveAfterWindow := by
    intro sink
    cases sink with
    | iceberg positional => cases positional <;> decide +kernel
    | clickhouse => decide +kernel
    | couchbase => decide +kernel
  refine forall_iff_forall_mem.mpr fun sink _ => ⟨_, rfl, ?_⟩
  exact (position_eq_lastPosition_iff sink true _ (hguards sink).1).mpr (hguards sink).2
    _ _ prefix_rfl rfl

/-- A batch of the stream, then one of a snapshot window. -/
def windowAfterLive : List (StoreAct Nat LSN) :=
  [.commit ⟨[(1, false)], some ⟨10⟩, none, none⟩ ⟨100, 0, 0, 0⟩,
    .commit ⟨[(2, false)], none, none, none⟩ ⟨200, 0, 0, 0⟩]

/-- ClickHouse reports no position, though one was committed. -/
theorem window_hides_position :
    ∃ s, run step ⟨.fresh true .clickhouse, none⟩ windowAfterLive = some s ∧
      lastPosition windowAfterLive = some ⟨10⟩ ∧ s.store.position.toOption = some none := by
  have hrun : (run step ⟨.fresh true .clickhouse, none⟩ windowAfterLive).map
      (fun s => s.store.position.toOption) = some (some none) := by
    decide +kernel
  obtain ⟨s, hs, hpos⟩ := map_eq_some_iff.mp hrun
  exact ⟨s, hs, by decide +kernel, hpos⟩

end StoredTable

end Urutau
