import Urutau.Offsets

/-!
# Where a pipeline resumes

At boot the committed position of every table is read; the stream starts at a
position that all of them contain.  A table without one, or whose snapshot is not
finished, is snapshotted or adopted, if the source can snapshot at all.  A fresh boot
starts at the bootstrap positions, where there are any.

One stream serves all tables.  A change at or before the start is not read again, so
the start passes it.
-/

namespace Urutau

open List Position Offsets Option

/-- `BootstrapMode`. -/
inductive BootstrapMode
  | snapshot
  | adopt
  | adoptVerify
  deriving DecidableEq, Repr

/-- `Bootstrap` of a table.  An explicit start carries its position. -/
structure Bootstrap where
  mode : BootstrapMode
  startAtExplicit : Bool
  position : String
  deriving DecidableEq, Repr

/-- `TableRef`, as far as the sink is asked with it. -/
structure ResumeRef where
  target : String
  owners : List String
  deriving DecidableEq, Repr

/-- `Sink` of the resolver. -/
structure ResumeSink where
  position : ResumeRef → Except String String
  properties : ResumeRef → Except String (String → String)

/-- `Options`; the bootstrap blocks are in the order of their targets. -/
structure ResumeOptions where
  capsSnapshot : Bool
  owners : Option (String → List String)
  bootstrap : List (String × Bootstrap)

/-- Why a boot fails: what was read, for which target, and the error. -/
inductive ResumeError (P : Type)
  | position (target err : String)
  | cdcPosition (target pos err : String)
  | snapshotState (target err : String)
  | bootstrapPosition (target pos err : String)
  | incomparable (a b : P)
  deriving DecidableEq, Repr

/-- `Result`. -/
structure ResumeResult (P : Type) where
  resume : Option P
  start : Option P
  snapshot : List ResumeRef
  adopt : List ResumeRef
  explicit : List P
  bootCommitted : String → Option P
  recovery : List String

/-- What the loop over the tables has gathered. -/
structure ResumeScan (P : Type) where
  positions : List P
  snapshot : List ResumeRef
  adopt : List ResumeRef
  committed : String → Option P

namespace Resume

/-- `Unfinished`. -/
def unfinished (props : String → String) : Bool :=
  props "cdc.snapshot.state" = "not_started" || props "cdc.snapshot.state" = "in_progress"

/-- `adoptTargets`. -/
def adopts (opts : ResumeOptions) (target : String) : Bool :=
  opts.bootstrap.any fun b => b.1 = target && b.2.mode != .snapshot

/-- The table as the sink is asked for it. -/
def owned (opts : ResumeOptions) (ref : ResumeRef) : ResumeRef :=
  match opts.owners with
  | some names => { ref with owners := names ref.target }
  | none => ref

section Resolve

variable {P : Type}

/-- `need`. -/
def need (opts : ResumeOptions) (acc : ResumeScan P) (ref : ResumeRef) : ResumeScan P :=
  if !opts.capsSnapshot then acc
  else if adopts opts ref.target then { acc with adopt := acc.adopt ++ [ref] }
  else { acc with snapshot := acc.snapshot ++ [ref] }

/-- One turn of the loop over the tables. -/
def visit (parsePosition : String → Except String P) (snk : ResumeSink) (opts : ResumeOptions)
    (acc : ResumeScan P) (r : ResumeRef) : Except (ResumeError P) (ResumeScan P) :=
  let ref := owned opts r
  match snk.position ref with
  | .error err => .error (.position ref.target err)
  | .ok pos =>
    if pos = "" then .ok (need opts acc ref)
    else
      match parsePosition pos with
      | .error err => .error (.cdcPosition ref.target pos err)
      | .ok p =>
        let acc := { acc with
          positions := acc.positions ++ [p]
          committed := fun t => if t = ref.target then some p else acc.committed t }
        if !opts.capsSnapshot then .ok acc
        else
          match snk.properties ref with
          | .error err => .error (.snapshotState ref.target err)
          | .ok props => .ok (if unfinished props then need opts acc ref else acc)

/-- `parseExplicit`. -/
def parseExplicit (parsePosition : String → Except String P) :
    List (String × Bootstrap) → Except (ResumeError P) (List P)
  | [] => .ok []
  | (target, b) :: rest =>
    if !b.startAtExplicit || b.position = "" then parseExplicit parsePosition rest
    else
      match parsePosition b.position with
      | .error err => .error (.bootstrapPosition target b.position err)
      | .ok p => (parseExplicit parsePosition rest).map (p :: ·)

variable [Position P] [Meeter P]

/-- `Ahead`. -/
def ahead (global : P) (refs : List ResumeRef) (committed : String → Option P) : List String :=
  ((refs.map ResumeRef.target).dedup.filter fun t =>
    (committed t).any fun p => advances p global).mergeSort

/-- `Resolve`. -/
def resolve (parsePosition : String → Except String P) (snk : ResumeSink) (refs : List ResumeRef)
    (opts : ResumeOptions) : Except (ResumeError P) (ResumeResult P) :=
  match refs.foldlM (visit parsePosition snk opts) ⟨[], [], [], fun _ => none⟩ with
  | .error err => .error err
  | .ok acc =>
    match minSafe acc.positions with
    | .error (a, b) => .error (.incomparable a b)
    | .ok best =>
      (parseExplicit parsePosition opts.bootstrap).map fun explicit =>
      { resume := best
        start := best.or (min explicit)
        snapshot := acc.snapshot
        adopt := acc.adopt
        explicit
        bootCommitted := acc.committed
        recovery := (best.map fun g => ahead g refs acc.committed).getD [] }

end Resolve

/-! ## What the loop gathers -/

section Scan

variable {P : Type} (parsePosition : String → Except String P) (snk : ResumeSink)
  (opts : ResumeOptions)

/-- The table's committed position, none if it has none. -/
def committedOf (r : ResumeRef) : Option P :=
  match snk.position (owned opts r) with
  | .error _ => none
  | .ok pos => if pos = "" then none else (parsePosition pos).toOption

/-- The targets to be snapshotted or adopted. -/
def ResumeScan.filed {P : Type} (acc : ResumeScan P) : List String :=
  (acc.snapshot ++ acc.adopt).map ResumeRef.target

variable {parsePosition snk opts}

omit parsePosition snk in
theorem owned_target (r : ResumeRef) : (owned opts r).target = r.target := by
  unfold owned
  split <;> rfl

theorem need_positions (acc : ResumeScan P) (ref : ResumeRef) :
    (need opts acc ref).positions = acc.positions := by
  unfold need
  split
  · rfl
  · split <;> rfl

/-- A table that needs it is filed if the source can snapshot, and none otherwise. -/
theorem filed_need (acc : ResumeScan P) (ref : ResumeRef) (t : String) :
    t ∈ ResumeScan.filed (need opts acc ref) ↔
      t ∈ ResumeScan.filed acc ∨ opts.capsSnapshot = true ∧ t = ref.target := by
  unfold need ResumeScan.filed
  cases opts.capsSnapshot with
  | false => simp
  | true =>
    split
    · simp at *
    split
    · simp only [map_append, mem_append, map_cons, map_nil, mem_singleton]
      tauto
    · simp only [map_append, mem_append, map_cons, map_nil, mem_singleton]
      tauto

variable {acc acc' : ResumeScan P}

/-- One turn. -/
theorem visit_spec {r : ResumeRef} (h : visit parsePosition snk opts acc r = .ok acc') :
    acc'.positions = acc.positions ++ (committedOf parsePosition snk opts r).toList ∧
      (∀ t ∈ ResumeScan.filed acc, t ∈ ResumeScan.filed acc') ∧
      (opts.capsSnapshot = false → ∀ t ∈ ResumeScan.filed acc', t ∈ ResumeScan.filed acc) ∧
      (opts.capsSnapshot = true → committedOf parsePosition snk opts r = none →
        r.target ∈ ResumeScan.filed acc') := by
  unfold visit at h
  unfold committedOf
  dsimp only at h
  split at h
  · cases h
  rename_i pos hpos
  by_cases hempty : pos = ""
  · rw [if_pos hempty] at h ⊢
    cases h
    refine ⟨?_, fun t ht => (filed_need acc _ t).mpr (.inl ht), fun hcaps t ht => ?_,
      fun hcaps _ => ?_⟩
    · rw [need_positions, toList_none, append_nil]
    · exact ((filed_need acc _ t).mp ht).resolve_right fun h => nomatch hcaps.symm.trans h.1
    · exact (filed_need acc _ _).mpr (.inr ⟨hcaps, (owned_target r).symm⟩)
  · rw [if_neg hempty] at h ⊢
    split at h
    · cases h
    rename_i p hp
    rw [hp]
    -- The position is noted; the snapshot's state is asked for only if there can be one.
    split at h
    · cases h
      exact ⟨rfl, fun t ht => ht, fun _ t ht => ht, nofun⟩
    rename_i hcaps
    split at h
    · cases h
    cases h
    split
    · refine ⟨need_positions _ _, fun t ht => (filed_need _ _ t).mpr (.inl ht),
        fun hfalse => ?_, nofun⟩
      simp [hfalse] at hcaps
    · exact ⟨rfl, fun t ht => ht, fun _ t ht => ht, nofun⟩

/-- The whole loop: the committed positions in the order of the tables, and the tables
without one filed if the source can snapshot. -/
theorem scan_spec {refs : List ResumeRef}
    (h : refs.foldlM (visit parsePosition snk opts) acc = .ok acc') :
    acc'.positions = acc.positions ++ refs.filterMap (committedOf parsePosition snk opts) ∧
      (∀ t ∈ ResumeScan.filed acc, t ∈ ResumeScan.filed acc') ∧
      (opts.capsSnapshot = false → ∀ t ∈ ResumeScan.filed acc', t ∈ ResumeScan.filed acc) ∧
      (opts.capsSnapshot = true → ∀ r ∈ refs, committedOf parsePosition snk opts r = none →
        r.target ∈ ResumeScan.filed acc') := by
  induction refs generalizing acc with
  | nil =>
    cases h
    simp
  | cons r rest ih =>
    rw [foldlM_cons] at h
    cases hv : visit parsePosition snk opts acc r with
    | error e =>
      rw [hv] at h
      cases h
    | ok mid =>
      rw [hv] at h
      obtain ⟨hpos, hkeep, hnone, hfile⟩ := visit_spec hv
      obtain ⟨hpos', hkeep', hnone', hfile'⟩ := ih h
      refine ⟨?_, fun t ht => hkeep' t (hkeep t ht),
        fun hcaps t ht => hnone hcaps t (hnone' hcaps t ht), fun hcaps r' hr' hc => ?_⟩
      · rw [hpos', hpos, append_assoc]
        cases hcom : committedOf parsePosition snk opts r with
        | none => rw [filterMap_cons_none hcom]; rfl
        | some p => rw [filterMap_cons_some hcom]; rfl
      · rcases mem_cons.mp hr' with rfl | hrest
        · exact hkeep' _ (hfile hcaps hc)
        · exact hfile' hcaps r' hrest hc

end Scan

/-! ## The start -/

section Start

variable {P : Type} [Position P] [Meeter P] {parsePosition : String → Except String P}
  {snk : ResumeSink} {opts : ResumeOptions}

section

variable (parsePosition : String → Except String P) (snk : ResumeSink)

/-- What bounds the start: the committed positions, or those of the bootstrap blocks
if no table has one. -/
def startBounds (opts : ResumeOptions) (refs : List ResumeRef) (explicit : List P) : List P :=
  if (refs.filterMap (committedOf parsePosition snk opts)).isEmpty then explicit
  else refs.filterMap (committedOf parsePosition snk opts)

/-- The explicit positions of the bootstrap blocks. -/
def explicitOf (opts : ResumeOptions) : List P :=
  (parseExplicit parsePosition opts.bootstrap).toOption.getD []

/-- A change of the table is not durable in its sink. -/
def Uncommitted (opts : ResumeOptions) (r : ResumeRef) (q : P) : Prop :=
  ∀ p, committedOf parsePosition snk opts r = some p → covered q p = false

/-- The start passes no change that is not durable, but of tables that are snapshotted
or adopted. -/
def NeverPasses (opts : ResumeOptions) (refs : List ResumeRef) (changes : String → List P)
    (res : ResumeResult P) : Prop :=
  ∀ r ∈ refs, ∀ q ∈ changes r.target, Uncommitted parsePosition snk opts r q →
    ∀ start, res.start = some start → covered q start = true →
      r.target ∈ (res.snapshot ++ res.adopt).map ResumeRef.target

end

variable [LawfulPosition P] [LawfulMeeter P]

/-- What the start covers is what all its bounds cover. -/
theorem covered_start {refs : List ResumeRef} {acc : ResumeScan P} {best : Option P}
    (hmeets : acc.positions ≠ [] ∨ explicitOf parsePosition opts = [] ∨
      ∀ a b : P, compare a b = .incomparable → (meet a b).isSome = true)
    (hpos : acc.positions = refs.filterMap (committedOf parsePosition snk opts))
    (hbest : minSafe acc.positions = .ok best) (q : P) :
    (∃ start, best.or (min (explicitOf parsePosition opts)) = some start ∧ covered q start = true) ↔
      startBounds parsePosition snk opts refs (explicitOf parsePosition opts) ≠ [] ∧
        ∀ p ∈ startBounds parsePosition snk opts refs (explicitOf parsePosition opts),
          covered q p = true := by
  unfold startBounds
  rw [← hpos]
  cases hps : acc.positions with
  | nil =>
    rw [hps] at hbest
    cases hbest
    rw [if_pos isEmpty_nil]
    cases hex : explicitOf parsePosition opts with
    | nil => simp [Position.min]
    | cons e rest =>
      have hall := (hmeets.resolve_left (absurd hps)).resolve_left (by rw [hex]; simp)
      rw [forall_mem_cons, ← Position.covered_minFrom hall rest e q]
      simp [Position.min]
  | cons p rest =>
    rw [if_neg (by simp)]
    cases best with
    | none =>
      rw [hps] at hbest
      change (minSafeFrom p rest).map some = .ok none at hbest
      cases hfrom : minSafeFrom p rest with
      | error e =>
        rw [hfrom] at hbest
        cases hbest
      | ok c =>
        rw [hfrom] at hbest
        cases hbest
    | some c =>
      rw [hps] at hbest
      rw [← covered_minSafe hbest q]
      simp

/-- **The start passes no uncommitted change** exactly if the source can snapshot, or
every change of a table without a committed position lies beyond some committed
position of another table (on a fresh boot: beyond some bootstrap position, or there is
none).  On a fresh boot of a source that cannot snapshot, bootstrap positions that diverge have a
meet. -/
theorem resolve_never_passes_iff {refs : List ResumeRef} {res : ResumeResult P}
    (changes : String → List P) (hmeets : opts.capsSnapshot = true ∨
      refs.filterMap (committedOf parsePosition snk opts) ≠ [] ∨
      explicitOf parsePosition opts = [] ∨
      ∀ a b : P, compare a b = .incomparable → (meet a b).isSome = true)
    (hres : resolve parsePosition snk refs opts = .ok res) :
    NeverPasses parsePosition snk opts refs changes res ↔ (opts.capsSnapshot = true ∨
        ∀ r ∈ refs, committedOf parsePosition snk opts r = none → ∀ q ∈ changes r.target,
          startBounds parsePosition snk opts refs (explicitOf parsePosition opts) = [] ∨
            ∃ p ∈ startBounds parsePosition snk opts refs (explicitOf parsePosition opts),
              covered q p = false) := by
  unfold resolve at hres
  split at hres
  · cases hres
  rename_i acc hscan
  obtain ⟨hpos, -, hnone, hfile⟩ := scan_spec hscan
  split at hres
  · cases hres
  rename_i best hbest
  cases hexp : parseExplicit parsePosition opts.bootstrap with
  | error e =>
    rw [hexp] at hres
    cases hres
  | ok explicit =>
    rw [hexp] at hres
    cases hres
    have hexplicit : explicitOf parsePosition opts = explicit := by
      unfold explicitOf
      rw [hexp]
      rfl
    subst hexplicit
    have hpos : acc.positions = refs.filterMap (committedOf parsePosition snk opts) := hpos
    rw [← hpos] at hmeets
    have hstart := fun hmeets q => covered_start hmeets hpos hbest q
    constructor
    · intro hsafe
      refine (Bool.eq_false_or_eq_true opts.capsSnapshot).imp_right fun hcaps => ?_
      have hstart := hstart (hmeets.resolve_left (by simp [hcaps]))
      intro r hr hcom q hq
      refine or_iff_not_imp_left.mpr fun hne => ?_
      by_contra hall
      obtain ⟨start, hst, hcov⟩ := (hstart q).mpr ⟨hne, fun p hp => by
        by_contra hfalse
        exact hall ⟨p, hp, Bool.not_eq_true _ ▸ hfalse⟩⟩
      have hfiled := hsafe r hr q hq (fun p hp => nomatch hcom.symm.trans hp) start hst hcov
      exact nomatch hnone hcaps _ hfiled
    · intro hcond r hr q hq hun start hst hcov
      cases hcom : committedOf parsePosition snk opts r with
      | some p =>
        have hmem : p ∈ refs.filterMap (committedOf parsePosition snk opts) :=
          mem_filterMap.mpr ⟨r, hr, hcom⟩
        obtain ⟨-, hall⟩ := (hstart (.inl (hpos ▸ ne_nil_of_mem hmem)) q).mp ⟨start, hst, hcov⟩
        have hbound := hall p (by
          unfold startBounds
          rw [if_neg fun hnil => ne_nil_of_mem hmem (isEmpty_iff.mp hnil)]
          exact hmem)
        exact nomatch hbound.symm.trans (hun p hcom)
      | none =>
        rcases hmeets with hcaps | hmeets
        · exact hfile hcaps r hr hcom
        rcases hcond with hcaps | hbeyond
        · exact hfile hcaps r hr hcom
        · obtain ⟨hne, hall⟩ := (hstart hmeets q).mp ⟨start, hst, hcov⟩
          rcases hbeyond r hr hcom q hq with hnil | ⟨p, hp, hnot⟩
          · exact absurd hnil hne
          · exact nomatch (hall p hp).symm.trans hnot

end Start

/-! ## Kafka -/

section Kafka

/-- `consumePartitionsFrom`: a partition the position names is read from the record
after it. -/
def consumePartitionsFrom (resume : Option Offsets) : List ((String × Nat) × Nat) :=
  (resume.map fun o => o.entries.map fun e => (e.1, e.2 + 1)).getD []

/-- Where a partition is read from.  `splitConsumeOpts` and `addMissingPartitions`: a
partition the position does not name is read from its start. -/
def readFrom (resume : Option Offsets) (key : String × Nat) : Nat :=
  ((consumePartitionsFrom resume).lookup key).getD 0

theorem lookup_next (entries : List ((String × Nat) × Nat)) (key : String × Nat) :
    (entries.map fun e => (e.1, e.2 + 1)).lookup key = (entries.lookup key).map (· + 1) := by
  induction entries with
  | nil => rfl
  | cons e rest ih =>
    rw [map_cons, lookup_cons, lookup_cons, ih]
    cases key == e.1 <;> rfl

/-- A record is passed exactly if the start covers its position. -/
theorem lt_readFrom_iff (start : Offsets) (topic : String) (part offset : Nat) :
    offset < readFrom (some start) (topic, part) ↔
      covered (record topic part offset) start = true := by
  have hlookup : readFrom (some start) (topic, part) =
      ((start.get (topic, part)).map (· + 1)).getD 0 :=
    congrArg (Option.getD · 0) (lookup_next start.entries (topic, part))
  rw [hlookup, covered_iff, contains_iff]
  cases hget : start.get (topic, part) with
  | none => simp [record, hget]
  | some mine => simp [record, hget]

theorem eq_ok_of_toOption {E A : Type} {x : Except E A} {a : A} (h : x.toOption = some a) :
    x = .ok a := by
  cases x with
  | error e => cases h
  | ok a' => rw [some.inj h]

/-- Two tables; the sink has a position for the first only. -/
def firstCommitted : ResumeSink where
  position r := .ok (if r.target = "orders" then "orders:p0=10" else "")
  properties _ := .ok fun _ => ""

/-- The one position the examples store. -/
def parseOrders (s : String) : Except String Offsets :=
  if s = "orders:p0=10" then .ok (record "orders" 0 10) else .error "kafka: bad position"

/-- Kafka cannot snapshot. -/
def kafkaOptions : ResumeOptions where
  capsSnapshot := false
  owners := none
  bootstrap := []

def bothTables : List ResumeRef := [⟨"orders", []⟩, ⟨"returns", []⟩]

/-- A table with a topic of its own: the position of the other one does not reach it. -/
theorem resolve_never_passes_ownTopic :
    ∃ res, resolve parseOrders firstCommitted bothTables kafkaOptions = .ok res ∧
      res.start = some (record "orders" 0 10) ∧
      NeverPasses parseOrders firstCommitted kafkaOptions bothTables
        (fun t => if t = "returns" then [record "returns" 0 5] else []) res := by
  have hstart : ((resolve parseOrders firstCommitted bothTables kafkaOptions).toOption.map
      fun res => res.start) = some (some (record "orders" 0 10)) := by
    decide +kernel
  obtain ⟨res, hres, hst⟩ := map_eq_some_iff.mp hstart
  have hok := eq_ok_of_toOption hres
  refine ⟨res, hok, hst, (resolve_never_passes_iff _ (.inr (.inr (.inl rfl))) hok).mpr (.inr ?_)⟩
  decide +kernel

/-- A table that shares the topic of one that has a position: its record 5 is neither
read nor snapshotted. -/
theorem resolve_passes_sharedTopic :
    ∃ res, resolve parseOrders firstCommitted bothTables kafkaOptions = .ok res ∧
      5 < readFrom res.start ("orders", 0) ∧ res.snapshot = [] ∧ res.adopt = [] ∧
      ¬ NeverPasses parseOrders firstCommitted kafkaOptions bothTables
        (fun t => if t = "returns" then [record "orders" 0 5] else []) res := by
  have hstart : ((resolve parseOrders firstCommitted bothTables kafkaOptions).toOption.map
      fun res => (res.start, res.snapshot, res.adopt)) =
        some (some (record "orders" 0 10), [], []) := by
    decide +kernel
  obtain ⟨res, hres, hseen⟩ := map_eq_some_iff.mp hstart
  obtain ⟨hst, hrest⟩ := Prod.mk.inj hseen
  obtain ⟨hsnap, hadopt⟩ := Prod.mk.inj hrest
  have hok := eq_ok_of_toOption hres
  refine ⟨res, hok, ?_, hsnap, hadopt, fun hsafe => ?_⟩
  · rw [hst]
    decide
  · have hfiled := hsafe ⟨"returns", []⟩ (by decide) (record "orders" 0 5) (by decide)
      nofun _ hst (by decide)
    rw [hsnap, hadopt] at hfiled
    cases hfiled

end Kafka

end Resume

end Urutau
