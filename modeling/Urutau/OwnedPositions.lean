import Urutau.SinkPositions
import Urutau.GuardedRun

/-!
# The position of a table with several owners

The workers of a table commit under their names, and the table's position at the next
start is the least over the owners of the new run.  The entries outlive the workers that
wrote them: an entry under a name the new run does not have is not looked at, so what its
worker was handed and had not committed can lie before the position reported.

One history is played on ClickHouse and on Couchbase side by side.  A commit to ClickHouse is
two inserts, and a crash between them leaves data rows with a position that no owner has
recorded; a run of one owner that finds no owner's position takes it from those rows.
-/

namespace Urutau

open List ClickHouse Position Option Runs

/-- A table on both sinks, the writers of the present run, and what each name was handed,
has settled and has committed last. -/
structure OwnedTable (R K P : Type) where
  clickhouse : ClickHouse K P
  writers : String → ChWriter
  couchbase : Option (ControlDoc P)
  owners : List String
  handed : String → List R
  settled : String → List R
  committed : String → Option P

/-- What happens to the table.  A commit says which of the rows handed it settles; one that
is cut off has inserted its data rows and not its owner's position, and settles nothing. -/
inductive OwnedAct (R K P : Type)
  | boot (names : List String)
  | hand (owner : String) (rows : List R)
  | commit (owner : String) (b : SinkBatch K P) (settles : List R) (now batchSeq : Nat)
  | cut (owner : String) (b : SinkBatch K P) (now batchSeq : Nat)
  | seed (names : List String)
  deriving DecidableEq, Repr

/-- The map of the control document. -/
def docPositions {P : Type} (doc : Option (ControlDoc P)) : List (String × P) :=
  (doc.map ControlDoc.positions).getD []

namespace OwnedTable

variable {R K P : Type} [DecidableEq R] [Position P] [Meeter P]

/-- A table nobody has written to. -/
def init : OwnedTable R K P where
  clickhouse := .empty
  writers owner := empty.openTableWriter (K := K) (P := P) (some owner)
  couchbase := none
  owners := []
  handed _ := []
  settled _ := []
  committed _ := none

/-- One step.  A new run opens its writers; what the old one had in hand is gone. -/
def step (s : OwnedTable R K P) : OwnedAct R K P → Option (OwnedTable R K P)
  | .boot names =>
    some { s with
      owners := names
      writers := fun owner => s.clickhouse.openTableWriter (some owner) }
  | .hand owner rows =>
    if owner ∈ s.owners then
      some { s with handed := Function.update s.handed owner (s.handed owner ++ rows) }
    else none
  | .commit owner b settles now batchSeq =>
    if owner ∈ s.owners ∧ settles ⊆ s.handed owner then
      let (table, writer) := s.clickhouse.commit (s.writers owner) b now batchSeq
      some { s with
        clickhouse := table
        writers := Function.update s.writers owner writer
        couchbase := some (controlWrite s.couchbase (some owner) b)
        settled := Function.update s.settled owner (s.settled owner ++ settles)
        committed := Function.update s.committed owner (b.position.or (s.committed owner)) }
    else none
  | .cut owner b now batchSeq =>
    if owner ∈ s.owners then
      let seq := versionSeq (s.writers owner) now batchSeq
      some { s with
        clickhouse := s.clickhouse.insertRows b seq
        writers := Function.update s.writers owner { s.writers owner with lastSeq := seq } }
    else none
  | .seed names =>
    match s.clickhouse.seedPositions names, Urutau.seedPositions s.couchbase names with
    | .ok table, .ok doc => some { s with clickhouse := table, couchbase := doc }
    | _, _ => none

/-- A name was handed rows it has not settled. -/
def Owes (s : OwnedTable R K P) (owner : String) : Prop := ∃ r ∈ s.handed owner, r ∉ s.settled owner

/-- **The clock.**  The numbers of the owner's entries are behind the clock, or the writer
knows of them, and the writer's next number does not wrap around. -/
def Clocked (s : OwnedTable R K P) : OwnedAct R K P → Prop
  | .commit owner _ _ now _ =>
    (s.writers owner).lastSeq + 1 < 2 ^ 64 ∧ ∀ r ∈ s.clickhouse.positions, r.owner = owner →
      r.seq ≤ (s.writers owner).lastSeq ∨ r.seq < now
  | _ => True

instance decidableClocked (s : OwnedTable R K P) : ∀ a, Decidable (s.Clocked a)
  | .commit owner _ _ now _ => inferInstanceAs (Decidable
      ((s.writers owner).lastSeq + 1 < 2 ^ 64 ∧ ∀ r ∈ s.clickhouse.positions, r.owner = owner →
        r.seq ≤ (s.writers owner).lastSeq ∨ r.seq < now))
  | .boot _ | .hand _ _ | .cut _ _ _ _ | .seed _ => inferInstanceAs (Decidable True)

/-- **The new run takes the debts over.**  Every name that owes rows is an owner of it, and
its entry, if any, is its own commit's.  A single owner finds an entry, or no position in the
data rows. -/
structure TakesOver (s : OwnedTable R K P) (names : List String) : Prop where
  debts : ∀ owner, s.Owes owner → owner ∈ names ∧
    (s.committed owner = none → (docPositions s.couchbase).lookup owner = none)
  fallback : s.clickhouse.positions = [] → names.length < 2 →
    ∀ r ∈ s.clickhouse.rows, r.position = none

end OwnedTable

/-! ## Entries -/

section Entries

variable {K P : Type}

theorem lookup_setOwner_self (xs : List (String × P)) (owner : String) (p : P) :
    (setOwner xs owner p).lookup owner = some p := by
  induction xs with
  | nil => simp [setOwner]
  | cons x rest ih =>
    simp only [setOwner]
    split
    · simp
    · rename_i hne
      rw [lookup_cons, ih]
      simp [beq_false_of_ne (Ne.symm hne)]

theorem lookup_setOwner_of_ne (xs : List (String × P)) {owner other : String} (hne : other ≠ owner)
    (p : P) : (setOwner xs owner p).lookup other = xs.lookup other := by
  induction xs with
  | nil => simp [setOwner, lookup_cons, beq_false_of_ne hne]
  | cons x rest ih =>
    simp only [setOwner]
    split
    · rename_i heq
      rw [lookup_cons, lookup_cons, heq]
      simp [beq_false_of_ne hne]
    · rw [lookup_cons, lookup_cons, ih]

theorem setOwner_ne_nil (xs : List (String × P)) (owner : String) (p : P) :
    setOwner xs owner p ≠ [] := by
  cases xs with
  | nil => simp [setOwner]
  | cons x rest =>
    simp only [setOwner]
    split <;> simp

/-- The groups of the position table as entries. -/
abbrev entriesOf (groups : List (String × P × Nat)) : List (String × P) :=
  groups.map fun g => (g.1, g.2.1)

/-- A row with a new highest number is written over the entry. -/
theorem groupMax_newer (groups : List (String × P × Nat)) (r : ChPosition P)
    (hlt : ∀ g ∈ groups, g.1 = r.owner → g.2.2 < r.seq) :
    entriesOf (groupMax groups r) = setOwner (entriesOf groups) r.owner r.position := by
  induction groups with
  | nil => rfl
  | cons g rest ih =>
    simp only [groupMax, map_cons, setOwner]
    split
    · rename_i heq
      rw [if_pos (hlt g mem_cons_self heq)]
      rfl
    · exact congrArg _ (ih fun g hg => hlt g (mem_cons_of_mem _ hg))

/-- A seed, numbered zero, counts only where there is no entry. -/
theorem groupMax_seed (groups : List (String × P × Nat)) (owner : String) (p : P) :
    entriesOf (groupMax groups ⟨owner, p, 0⟩) =
      if ((entriesOf groups).lookup owner).isSome then entriesOf groups
      else entriesOf groups ++ [(owner, p)] := by
  induction groups with
  | nil => rfl
  | cons g rest ih =>
    simp only [groupMax, map_cons, lookup_cons]
    by_cases heq : g.1 = owner
    · simp [heq]
    have hbeq : (owner == g.1) = false := beq_false_of_ne (Ne.symm heq)
    rw [if_neg heq, hbeq]
    change _ :: entriesOf (groupMax rest ⟨owner, p, 0⟩) = _
    rw [ih]
    split <;> rfl

/-- A group's number is that of a row of its owner. -/
theorem mem_groups {rows : List (ChPosition P)} {g : String × P × Nat}
    (hg : g ∈ rows.foldl groupMax []) : ∃ r ∈ rows, r.owner = g.1 ∧ r.seq = g.2.2 := by
  have hone : ∀ (groups : List (String × P × Nat)) (r : ChPosition P),
      ∀ g ∈ groupMax groups r, g ∈ groups ∨ r.owner = g.1 ∧ r.seq = g.2.2 := by
    intro groups r
    induction groups with
    | nil =>
      intro g hg
      cases mem_singleton.mp hg
      exact .inr ⟨rfl, rfl⟩
    | cons x rest ih =>
      intro g hg
      simp only [groupMax] at hg
      split at hg
      · rcases mem_cons.mp hg with rfl | hg
        · split
          · exact .inr ⟨rfl, rfl⟩
          · exact .inl mem_cons_self
        · exact .inl (mem_cons_of_mem _ hg)
      · rcases mem_cons.mp hg with rfl | hg
        · exact .inl mem_cons_self
        · rcases ih g hg with hold | hnew
          · exact .inl (mem_cons_of_mem _ hold)
          · exact .inr hnew
  induction rows using List.reverseRecOn with
  | nil => cases hg
  | append_singleton rows r ih =>
    rw [foldl_append] at hg
    rcases hone _ r g hg with hold | hnew
    · obtain ⟨r', hr', h⟩ := ih hold
      exact ⟨r', mem_append_left _ hr', h⟩
    · exact ⟨r, by simp, hnew⟩

end Entries

/-! ## The two sinks agree -/

namespace OwnedTable

variable {R K P : Type} {s t : OwnedTable R K P}

/-- **The invariant.**  Both sinks have the same entries, a name that has committed has its
last position as its entry, and a document without entries has no position at all. -/
structure Agreeing (s : OwnedTable R K P) : Prop where
  same : s.clickhouse.readOwnerPositions = docPositions s.couchbase
  entry : ∀ owner p, s.committed owner = some p → (docPositions s.couchbase).lookup owner = some p
  scalar : docPositions s.couchbase = [] → ∀ doc ∈ s.couchbase, doc.position = none
  named : ∀ owner, (s.writers owner).owner = some owner

theorem agreeing_init : (init : OwnedTable R K P).Agreeing where
  same := rfl
  entry := nofun
  scalar := nofun
  named _ := rfl

variable {b : SinkBatch K P}

/-- A batch without a position changes no entry. -/
theorem entries_of_none (doc : Option (ControlDoc P)) (owner : String) (hpos : b.position = none) :
    docPositions (some (controlWrite doc (some owner) b)) = docPositions doc := by
  cases doc <;> simp [docPositions, controlWrite, hpos]

variable {p : P} {batchSeq now : Nat} {owner : String} {table : ClickHouse K P}

/-- A batch with a position writes its owner's. -/
theorem entries_of_some (doc : Option (ControlDoc P)) (owner : String)
    (hpos : b.position = some p) :
    docPositions (some (controlWrite doc (some owner) b)) =
      setOwner (docPositions doc) owner p := by
  cases doc <;> simp [docPositions, controlWrite, hpos]

/-- The next number is above those of the owner's entries. -/
theorem lt_seq {w : ChWriter} (hlast : w.lastSeq + 1 < 2 ^ 64)
    (hclock : ∀ r ∈ table.positions, r.owner = owner → r.seq ≤ w.lastSeq ∨ r.seq < now) :
    ∀ g ∈ table.positions.foldl groupMax [], g.1 = owner → g.2.2 < versionSeq w now batchSeq := by
  intro g hg hown
  obtain ⟨r, hr, hrown, hseq⟩ := mem_groups hg
  have hbehind := hclock r hr (hrown.trans hown)
  have hnext := le_versionSeq hlast now batchSeq
  omega

/-- A commit writes the owner's row and position together. -/
theorem Agreeing.commit (h : s.Agreeing) (hlast : (s.writers owner).lastSeq + 1 < 2 ^ 64)
    (hclock : ∀ r ∈ s.clickhouse.positions, r.owner = owner →
      r.seq ≤ (s.writers owner).lastSeq ∨ r.seq < now) (settled : String → List R) :
    ({ s with
      clickhouse := (s.clickhouse.commit (s.writers owner) b now batchSeq).1
      writers := Function.update s.writers owner
        (s.clickhouse.commit (s.writers owner) b now batchSeq).2
      couchbase := some (controlWrite s.couchbase (some owner) b)
      settled := settled
      committed := Function.update s.committed owner (b.position.or (s.committed owner)) } :
        OwnedTable R K P).Agreeing := by
  have hnamed : ∀ other, (Function.update s.writers owner
      (s.clickhouse.commit (s.writers owner) b now batchSeq).2 other).owner = some other := by
    intro other
    by_cases hne : other = owner
    · subst hne
      rw [Function.update_self]
      exact h.named other
    · rw [Function.update_of_ne hne]
      exact h.named other
  cases hpos : b.position with
  | none =>
    have hentries := entries_of_none s.couchbase owner hpos
    refine ⟨?_, fun other p hcom => ?_, fun hnil doc hdoc => ?_, hnamed⟩
    · rw [hentries, ← h.same]
      simp [ClickHouse.readOwnerPositions, ClickHouse.commit, hpos]
    · rw [none_or, Function.update_eq_self] at hcom
      rw [hentries]
      exact h.entry other p hcom
    · rw [hentries] at hnil
      cases hdoc
      cases hold : s.couchbase with
      | none => simp [controlWrite, hpos]
      | some doc =>
        have hscalar := h.scalar hnil doc hold
        simp [controlWrite, hpos, hscalar]
  | some p =>
    have hentries := entries_of_some s.couchbase owner hpos
    have hne := setOwner_ne_nil (docPositions s.couchbase) owner p
    refine ⟨?_, fun other q hcom => ?_, fun hnil => ?_, hnamed⟩
    · rw [hentries, ← h.same]
      have hgroup := groupMax_newer (s.clickhouse.positions.foldl groupMax [])
        ⟨owner, p, ClickHouse.versionSeq (s.writers owner) now batchSeq⟩ (lt_seq hlast hclock)
      simpa [ClickHouse.readOwnerPositions, ClickHouse.commit, hpos, h.named owner] using hgroup
    · rw [hentries]
      by_cases hother : other = owner
      · subst hother
        change Function.update s.committed other _ other = some q at hcom
        rw [Function.update_self] at hcom
        cases hcom
        exact lookup_setOwner_self _ _ _
      · change Function.update s.committed owner _ other = some q at hcom
        rw [Function.update_of_ne hother] at hcom
        rw [lookup_setOwner_of_ne _ hother]
        exact h.entry other q hcom
    · exact absurd (hentries.symm.trans hnil) hne

/-- Seeding only adds entries. -/
theorem prefix_seedOwner (baseline : Option P) (names : List String) (entries : List (String × P)) :
    entries <+: names.foldl (seedOwner baseline) entries := by
  induction names generalizing entries with
  | nil => exact prefix_refl _
  | cons name rest ih =>
    refine List.IsPrefix.trans ?_ (ih _)
    unfold seedOwner
    split
    · exact prefix_refl _
    · exact prefix_append _ _

/-- An entry found stays found. -/
theorem lookup_of_entries {entries more : List (String × P)} (hpre : entries <+: more)
    (hlook : entries.lookup owner = some p) :
    more.lookup owner = some p := by
  obtain ⟨added, rfl⟩ := hpre
  rw [lookup_append, hlook]
  rfl

/-- The rows ClickHouse inserts read as the entries Couchbase adds. -/
theorem entries_seedRows (present : List (String × P)) (baseline : Option P) (names : List String)
    (groups : List (String × P × Nat)) (hpre : present <+: entriesOf groups) :
    entriesOf ((names.flatMap (seedRows present baseline)).foldl groupMax
      groups) = names.foldl (seedOwner baseline) (entriesOf groups) := by
  induction names generalizing groups with
  | nil => rfl
  | cons name rest ih =>
    rw [flatMap_cons, foldl_append, foldl_cons]
    have hone : entriesOf ((seedRows present baseline name).foldl groupMax
        groups) = seedOwner baseline (entriesOf groups) name := by
      unfold seedRows seedOwner
      cases hpresent : present.lookup name with
      | some p => simp [lookup_of_entries hpre hpresent]
      | none =>
        cases baseline with
        | none => simp
        | some p => exact groupMax_seed groups name p
    rw [ih _ (hone ▸ hpre.trans (prefix_seedOwner baseline [name] _)), hone]

variable [Position P] [Meeter P]

/-- Both sinks seed alike. -/
theorem Agreeing.seed (h : s.Agreeing) {names : List String}
    {doc : Option (ControlDoc P)} (htable : s.clickhouse.seedPositions names = .ok table)
    (hdoc : seedPositions s.couchbase names = .ok doc) :
    ({ s with clickhouse := table, couchbase := doc } : OwnedTable R K P).Agreeing := by
  simp only [ClickHouse.seedPositions, h.same] at htable
  simp only [seedPositions] at hdoc
  by_cases hshort : names.length < 2
  · simp only [hshort] at htable hdoc
    cases htable
    cases hdoc
    exact h
  simp only [hshort] at htable hdoc
  by_cases hempty : docPositions s.couchbase = []
  · -- nobody has committed: nothing is seeded
    rw [hempty] at htable
    cases htable
    cases hold : s.couchbase with
    | none =>
      rw [hold] at hdoc
      cases hdoc
      exact hold ▸ h
    | some d =>
      have hd : d.positions = [] := by simpa [docPositions, hold] using hempty
      rw [hold] at hdoc
      simp only [hd] at hdoc
      cases hdoc
      exact hold ▸ h
  · cases hold : s.couchbase with
    | none => exact absurd (by rw [hold]; rfl) hempty
    | some d =>
      have hd : docPositions s.couchbase = d.positions := by rw [hold]; rfl
      rw [hd] at hempty htable
      rw [hold] at hdoc
      have hisEmpty : d.positions.isEmpty = false := by simpa using hempty
      simp only [hisEmpty] at htable hdoc
      cases hmin : minSafe (d.positions.map Prod.snd) with
      | error e =>
        rw [hmin] at htable
        cases htable
      | ok baseline =>
        rw [hmin] at htable hdoc
        cases htable
        cases hdoc
        have hpre := prefix_seedOwner baseline names d.positions
        refine ⟨?_, fun owner p hcom => ?_, fun hnil => ?_, h.named⟩
        · have hentries : entriesOf (s.clickhouse.positions.foldl groupMax []) =
              d.positions := h.same.trans hd
          have hseed := entries_seedRows d.positions baseline names
            (s.clickhouse.positions.foldl groupMax [])
            (hentries ▸ prefix_refl _)
          rw [hentries] at hseed
          simp only [readOwnerPositions, foldl_append]
          exact hseed
        · exact lookup_of_entries hpre (hd ▸ h.entry owner p hcom)
        · exact absurd (prefix_nil.mp (hnil ▸ hpre)) hempty

variable [DecidableEq R]

/-- A step that keeps to the clock keeps the sinks in agreement. -/
theorem Agreeing.step (h : s.Agreeing) {a : OwnedAct R K P} (hclock : s.Clocked a)
    (hs : OwnedTable.step s a = some t) : t.Agreeing := by
  cases a with
  | boot names =>
    cases hs
    exact ⟨h.same, h.entry, h.scalar, fun _ => rfl⟩
  | hand owner rows =>
    obtain ⟨-, hs⟩ := ite_none_right_eq_some.mp hs
    cases hs
    exact ⟨h.same, h.entry, h.scalar, h.named⟩
  | commit owner b settles now batchSeq =>
    obtain ⟨-, hs⟩ := ite_none_right_eq_some.mp hs
    cases hs
    exact h.commit hclock.1 hclock.2 _
  | cut owner b now batchSeq =>
    obtain ⟨-, hs⟩ := ite_none_right_eq_some.mp hs
    cases hs
    refine ⟨h.same, h.entry, h.scalar, fun other => ?_⟩
    change (Function.update s.writers owner _ other).owner = some other
    by_cases hne : other = owner
    · subst hne
      rw [Function.update_self]
      exact h.named other
    · rw [Function.update_of_ne hne]
      exact h.named other
  | seed names =>
    simp only [OwnedTable.step] at hs
    split at hs
    · rename_i table doc htable hdoc
      cases hs
      exact h.seed htable hdoc
    · cases hs

end OwnedTable

/-! ## What is reported -/

section Reported

variable {K P : Type} [Position P] [Meeter P]

variable {present : List (String × P)}

omit [Position P] [Meeter P] in
/-- Every name asked for has its position among those found. -/
theorem mem_positionsOf {names : List String} {positions : List P}
    (h : positionsOf present names = some positions) {owner : String} (hmem : owner ∈ names) :
    ∃ p ∈ positions, present.lookup owner = some p := by
  unfold positionsOf at h
  induction names generalizing positions with
  | nil => cases hmem
  | cons name rest ih =>
    rw [mapM_cons] at h
    obtain ⟨p, hp, h⟩ := bind_eq_some_iff.mp h
    obtain ⟨more, hmore, h⟩ := bind_eq_some_iff.mp h
    cases h
    rcases mem_cons.mp hmem with rfl | hmem
    · exact ⟨p, mem_cons_self, hp⟩
    · obtain ⟨q, hq, hlook⟩ := ih hmore hmem
      exact ⟨q, mem_cons_of_mem _ hq, hlook⟩

/-- Some positions have a minimum. -/
theorem minSafe_isSome {positions : List P} {best : Option P} (hne : positions ≠ [])
    (h : minSafe positions = .ok best) : ∃ p, best = some p := by
  cases positions with
  | nil => exact absurd rfl hne
  | cons p rest =>
    simp only [minSafe] at h
    cases hfrom : minSafeFrom p rest with
    | error e =>
      rw [hfrom] at h
      cases h
    | ok c =>
      rw [hfrom] at h
      cases h
      exact ⟨c, rfl⟩

omit [Position P] [Meeter P] in
theorem ownerNames_ne_nil (hne : present ≠ []) (names : List String) :
    ownerNames present names ≠ [] := by
  unfold ownerNames
  split
  · simpa using hne
  · rename_i h
    simpa using h

omit [Position P] [Meeter P] in
/-- Rows without a position give none. -/
theorem legacyPosition_of_none {table : ClickHouse K P}
    (h : ∀ r ∈ table.rows, r.position = none) : table.legacyPosition = none := by
  unfold legacyPosition
  cases hmax : argMax (table.rows.map fun r => (r.position, r.seq)) with
  | none => rfl
  | some x =>
    obtain ⟨r, hr, rfl⟩ := mem_map.mp (argMax_mem hmax)
    exact h r hr

omit [Position P] [Meeter P] in
/-- A position table that reads as no entries is empty. -/
theorem eq_nil_of_readOwnerPositions {table : ClickHouse K P}
    (h : table.readOwnerPositions = []) : table.positions = [] := by
  have hgroup : ∀ (groups : List (String × P × Nat)) (r : ChPosition P),
      groupMax groups r ≠ [] := by
    intro groups r
    cases groups with
    | nil => simp [groupMax]
    | cons g rest =>
      simp only [groupMax]
      split <;> simp
  cases hrows : table.positions using List.reverseRecOn with
  | nil => rfl
  | append_singleton rows r =>
    simp only [readOwnerPositions, hrows, foldl_append, foldl_cons, foldl_nil, map_eq_nil_iff] at h
    exact absurd h (hgroup _ _)

namespace OwnedTable

variable {R : Type} {s t : OwnedTable R K P}

/-- Without entries there is no position. -/
theorem Agreeing.position_of_nil (h : s.Agreeing) (hnil : docPositions s.couchbase = [])
    {names : List String} (hover : s.TakesOver names) :
    s.clickhouse.position names.length names = .ok none ∧
      positionOf s.couchbase names.length names = .ok none := by
  constructor
  · rw [position, h.same, hnil]
    simp only [partitionPosition, isEmpty_nil, if_true]
    by_cases hseveral : severalOwners names.length names = true
    · rw [if_pos hseveral]
      rfl
    · rw [if_neg hseveral]
      have hshort : names.length < 2 := by
        simp only [severalOwners, Bool.or_eq_true, decide_eq_true_eq] at hseveral
        omega
      have hnone : s.clickhouse.positions = [] := eq_nil_of_readOwnerPositions (h.same.trans hnil)
      exact congrArg _ (legacyPosition_of_none (hover.fallback hnone hshort))
  · cases hdoc : s.couchbase with
    | none => rfl
    | some doc =>
      have hempty : doc.positions = [] := by simpa [docPositions, hdoc] using hnil
      simp only [positionOf, hempty, isEmpty_nil, if_true, h.scalar hnil doc hdoc, ite_self]

/-- Both sinks report the same. -/
theorem Agreeing.position_eq (h : s.Agreeing) {names : List String} (hover : s.TakesOver names) :
    s.clickhouse.position names.length names = positionOf s.couchbase names.length names := by
  by_cases hnil : docPositions s.couchbase = []
  · obtain ⟨hch, hcb⟩ := h.position_of_nil hnil hover
    rw [hch, hcb]
  cases hdoc : s.couchbase with
  | none => exact absurd (by rw [hdoc]; rfl) hnil
  | some doc =>
    have hentries : docPositions s.couchbase = doc.positions := by rw [hdoc]; rfl
    have hsome : doc.positions.isEmpty = false := by simpa [hentries] using hnil
    rw [position, h.same, hentries]
    simp only [partitionPosition, positionOf, hsome, Bool.false_eq_true, if_false]
    split
    · rfl
    cases hpositions : positionsOf doc.positions (ownerNames doc.positions names) with
    | none => rfl
    | some positions =>
      dsimp only
      cases hmin : minSafe positions with
      | error e => rfl
      | ok best =>
        -- some name is asked for, so the least is a position
        have hne : positions ≠ [] := by
          obtain ⟨name, hname⟩ := exists_mem_of_ne_nil _ (ownerNames_ne_nil (hentries ▸ hnil) names)
          obtain ⟨p, hp, -⟩ := mem_positionsOf hpositions hname
          exact ne_nil_of_mem hp
        obtain ⟨p, rfl⟩ := minSafe_isSome hne hmin
        rfl

/-- The position reported is the least of the entries of the names asked for. -/
theorem Agreeing.position_eq_some (h : s.Agreeing) {names : List String} {p : P}
    (hover : s.TakesOver names) (hnames : names ≠ [])
    (hpos : s.clickhouse.position names.length names = .ok (some p)) :
    ∃ positions, positionsOf (docPositions s.couchbase) names = some positions ∧
      minSafe positions = .ok (some p) := by
  have hne : docPositions s.couchbase ≠ [] := by
    intro hnil
    rw [(h.position_of_nil hnil hover).1] at hpos
    cases hpos
  have hsome : (docPositions s.couchbase).isEmpty = false := by simpa using hne
  have hasked : names.isEmpty = false := by simpa using hnames
  rw [position, h.same] at hpos
  simp only [partitionPosition, hsome, hasked, ownerNames, Bool.false_eq_true, if_false] at hpos
  cases hpositions : positionsOf (docPositions s.couchbase) names with
  | none =>
    rw [hpositions] at hpos
    cases hpos
  | some positions =>
    rw [hpositions] at hpos
    dsimp only at hpos
    cases hmin : minSafe positions with
    | error e =>
      rw [hmin] at hpos
      cases hpos
    | ok best =>
      rw [hmin] at hpos
      cases hpos
      exact ⟨positions, rfl, hmin⟩

variable [DecidableEq R]

/-- **Nothing owed is skipped.**  After any history whose commits keep to the clock, and for
any owners of the new run that take the debts over: both sinks report the same position, and
it is at or before the last position of every name that owes rows. -/
theorem position_covered_by_debtors [LawfulPosition P] [LawfulMeeter P]
    (hrefl : ∀ p : P, covered p p = true) {actions : List (OwnedAct R K P)}
    (hrun : run step init actions = some s) (hclock : Runs.Guarded step Clocked init actions)
    {names : List String} (hover : s.TakesOver names) :
    s.clickhouse.position names.length names = positionOf s.couchbase names.length names ∧
      ∀ p, s.clickhouse.position names.length names = .ok (some p) → ∀ owner, s.Owes owner →
        ∃ q, s.committed owner = some q ∧ covered p q = true := by
  have hagree : s.Agreeing := invariant_of_guarded Agreeing
    (fun _ _ _ h hok hs => h.step hok hs) agreeing_init hrun hclock
  refine ⟨hagree.position_eq hover, fun p hp owner howes => ?_⟩
  obtain ⟨hmem, hentry⟩ := hover.debts owner howes
  obtain ⟨positions, hpositions, hmin⟩ := hagree.position_eq_some hover (ne_nil_of_mem hmem) hp
  obtain ⟨q, hq, hlook⟩ := mem_positionsOf hpositions hmem
  have hcovered := (covered_minSafe hmin p).mp (hrefl p) q hq
  cases hcom : s.committed owner with
  | none =>
    rw [hentry hcom] at hlook
    cases hlook
  | some q' =>
    rw [hagree.entry owner q' hcom] at hlook
    cases hlook
    exact ⟨q, rfl, hcovered⟩

/-- Two owners; the second has committed up to 50 and is cut off in its commit at 70. -/
def oneBehind : List (OwnedAct Nat Nat LSN) :=
  [.boot ["w0", "w1"], .hand "w0" [1], .hand "w1" [2, 3],
    .commit "w0" ⟨[(1, false)], some ⟨100⟩, none, none⟩ [1] 10 0,
    .commit "w1" ⟨[(2, false)], some ⟨50⟩, none, none⟩ [2] 11 0,
    .cut "w1" ⟨[(3, false)], some ⟨70⟩, none, none⟩ 12 0]

theorem oneBehind_hands : (run step init oneBehind).map (fun s => (s.handed, s.settled)) =
    some (Function.update (Function.update (fun _ => []) "w0" [1]) "w1" [2, 3],
      Function.update (Function.update (fun _ => []) "w0" [1]) "w1" [2]) := rfl

/-- Only the worker behind owes a row. -/
theorem oneBehind_debtor {s : OwnedTable Nat Nat LSN}
    (hrun : run step init oneBehind = some s) (owner : String) :
    s.Owes owner ↔ owner = "w1" := by
  have hhands := oneBehind_hands
  rw [hrun] at hhands
  obtain ⟨hhanded, hsettled⟩ := Prod.mk.inj (some.inj hhands)
  unfold Owes
  rw [hhanded, hsettled]
  by_cases hone : owner = "w1"
  · subst hone
    simp
  · by_cases hzero : owner = "w0"
    · subst hzero
      simp
    · simp [hone]

/-- Started again with both owners, the table's position is the second one's. -/
theorem position_covered_by_debtors_oneBehind :
    ∃ s, run step init oneBehind = some s ∧ s.Owes "w1" ∧
      (s.clickhouse.position 2 ["w0", "w1"]).toOption = some (some ⟨50⟩) ∧
      s.clickhouse.position 2 ["w0", "w1"] = positionOf s.couchbase 2 ["w0", "w1"] := by
  refine exists_run_of (by decide +kernel) fun s hs
    (hseen : (s.clickhouse.position 2 ["w0", "w1"]).toOption = some (some ⟨50⟩) ∧
      s.committed "w1" = some ⟨50⟩) => ?_
  obtain ⟨hpos, hcom⟩ := hseen
  have hover : s.TakesOver ["w0", "w1"] := by
    refine ⟨fun owner howes => ?_, fun _ hshort => absurd hshort (by decide)⟩
    cases (oneBehind_debtor hs owner).mp howes
    refine ⟨by simp, fun hnone => ?_⟩
    rw [hcom] at hnone
    cases hnone
  have hrefl : ∀ p : LSN, covered p p = true :=
    fun p => (LSN.covered_iff p p).mpr (UInt64.le_refl _)
  exact ⟨(oneBehind_debtor hs "w1").mpr rfl, hpos,
    (position_covered_by_debtors hrefl hs (by decide +kernel) hover).1⟩

/-- Started again with one worker less, both sinks report the first one's position, beyond
what the second has committed. -/
theorem position_past_dropped_owner : ∃ s, run step init oneBehind = some s ∧ s.Owes "w1" ∧
      s.committed "w1" = some ⟨50⟩ ∧
      (s.clickhouse.position 1 ["w0"]).toOption = some (some ⟨100⟩) ∧
      (positionOf s.couchbase 1 ["w0"]).toOption = some (some ⟨100⟩) ∧
      covered (⟨100⟩ : LSN) ⟨50⟩ = false := by
  obtain ⟨s, hs, hseen⟩ := exists_run_and (p := fun s => s.committed "w1" = some (⟨50⟩ : LSN) ∧
    (s.clickhouse.position 1 ["w0"]).toOption = some (some ⟨100⟩) ∧
    (positionOf s.couchbase 1 ["w0"]).toOption = some (some ⟨100⟩) ∧
    covered (⟨100⟩ : LSN) ⟨50⟩ = false) (by decide +kernel)
    fun s hs _ => (oneBehind_debtor hs "w1").mpr rfl
  exact ⟨s, hs, hseen.2, hseen.1⟩

end OwnedTable

end Reported

end Urutau
