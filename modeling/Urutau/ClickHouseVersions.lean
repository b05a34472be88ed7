import Urutau.StoredPosition

/-!
# The versions of a ClickHouse table

Of the rows of a key the one with the highest version survives, so the last write wins only
if the versions of the owner that writes the key grow from commit to commit.  A version is
the clock, kept above the last version given out and lifted over the seed by the
coordinator's number, in a word of 64 bits.  A writer that is opened again takes the highest
version of the data table as its seed.

A batch without rows still gets a version, and it is written with the owner's position into
the second table, which the seed is not read from.  The first writer that is opened after
such a batch may give out lower versions, if the clock was set back.
-/

namespace Urutau

open List Runs

/-! ## Commits and restarts -/

/-- How far a commit came: its insert failed, the insert of the owner's position failed, or
both were made. -/
inductive CommitEnd
  | failed
  | rowsOnly
  | done
  deriving DecidableEq, Repr

/-- A table, the open writer of each owner, every version an owner has written, and the last
row committed of each key. -/
structure VersionedTable (K P : Type) where
  table : ClickHouse K P
  writers : Option String → ChWriter
  written : List (Option String × Nat)
  last : K → Option (ChRow K P)

/-- What happens to the table. -/
inductive VersionAct (K P : Type)
  | restart (owner : Option String)
  | commit (owner : Option String) (b : SinkBatch K P) (clock batchSeq : Nat) (ended : CommitEnd)
  | merge (keys : List K)
  deriving DecidableEq, Repr

namespace VersionedTable

variable {K P : Type}

/-- A table nobody has written to. -/
def init : VersionedTable K P where
  table := .empty
  writers owner := ClickHouse.empty.openTableWriter (K := K) (P := P) owner
  written := []
  last _ := none

/-- `insertRows`: every row with the version and the position of its batch. -/
def storedRows (b : SinkBatch K P) (seq : Nat) (ended : CommitEnd) : List (ChRow K P) :=
  if ended = .failed then [] else b.rows.map fun r => ⟨r.1, r.2, b.position, seq⟩

/-- The row of the owner's position. -/
def storedPositions (owner : Option String) (b : SinkBatch K P) (seq : Nat) (ended : CommitEnd) :
    List (ChPosition P) :=
  match ended, owner, b.position with
  | .done, some name, some p => [⟨name, p, seq⟩]
  | _, _, _ => []

/-- One step.  A batch is collapsed, its keys are the owner's, the clock is between 1970 and
2262 and the coordinator's number is a word. -/
def step [DecidableEq K] (ownerOf : K → Option String) (s : VersionedTable K P) :
    VersionAct K P → Option (VersionedTable K P)
  | .restart owner =>
    some { s with
      writers := Function.update s.writers owner (s.table.openTableWriter owner) }
  | .commit owner b clock batchSeq ended =>
    if (b.rows.map Prod.fst).Nodup ∧ (∀ r ∈ b.rows, ownerOf r.1 = owner) ∧ clock < 2 ^ 63 ∧
        batchSeq < 2 ^ 64 then
      let seq := ClickHouse.versionSeq (s.writers owner) clock batchSeq
      let rows := storedRows b seq ended
      let positions := storedPositions owner b seq ended
      some
        { table := ⟨s.table.rows ++ rows, s.table.positions ++ positions⟩
          writers := Function.update s.writers owner { s.writers owner with lastSeq := seq }
          written :=
            if rows.isEmpty && positions.isEmpty then s.written else s.written ++ [(owner, seq)]
          last := fun k => (rows.find? fun r => r.key = k).or (s.last k) }
    else none
  | .merge keys => some { s with table := s.table.merge keys }

/-- The versions an owner has written, in the order of its commits. -/
def versions (s : VersionedTable K P) (owner : Option String) : List Nat :=
  (s.written.filter fun e => e.1 = owner).map Prod.snd

/-- **The last write wins.**  An owner's versions grow, and of the rows of a key the last one
committed is in the table and has the highest version. -/
structure LastWins (s : VersionedTable K P) : Prop where
  growing : ∀ owner, (s.versions owner).Pairwise (· < ·)
  kept : ∀ k l, s.last k = some l → l ∈ s.table.rows ∧ l.key = k
  highest : ∀ r ∈ s.table.rows, ∃ l, s.last r.key = some l ∧ (r = l ∨ r.seq < l.seq)

/-- **No version is forgotten.**  A writer is opened when the data table has a version as
high as any the owner has written, and commits while the last version is not the highest of
all. -/
def Remembered (s : VersionedTable K P) : VersionAct K P → Prop
  | .restart owner => ∀ e ∈ s.written, e.1 = owner → e.2 ≤ s.table.maxSeq
  | .commit owner _ _ _ _ => (s.writers owner).lastSeq + 1 < 2 ^ 64
  | .merge _ => True

instance decidableRemembered (s : VersionedTable K P) : ∀ a, Decidable (s.Remembered a)
  | .restart owner =>
    inferInstanceAs (Decidable (∀ e ∈ s.written, e.1 = owner → e.2 ≤ s.table.maxSeq))
  | .commit owner _ _ _ _ => inferInstanceAs (Decidable ((s.writers owner).lastSeq + 1 < 2 ^ 64))
  | .merge _ => inferInstanceAs (Decidable True)

/-! ## The invariant -/

/-- **The invariant.**  Every version written is known to its owner's writer, later ones are
higher, and every row is its key's owner's. -/
structure Versioned (ownerOf : K → Option String) (s : VersionedTable K P) : Prop where
  known : ∀ e ∈ s.written, e.2 ≤ (s.writers e.1).lastSeq
  rising : s.written.Pairwise fun a b => a.1 = b.1 → a.2 < b.2
  owned : ∀ r ∈ s.table.rows, (ownerOf r.key, r.seq) ∈ s.written
  kept : ∀ k l, s.last k = some l → l ∈ s.table.rows ∧ l.key = k
  highest : ∀ r ∈ s.table.rows, ∃ l, s.last r.key = some l ∧ (r = l ∨ r.seq < l.seq)

variable {ownerOf : K → Option String} {s t : VersionedTable K P}

theorem versioned_init : (init : VersionedTable K P).Versioned ownerOf where
  known := nofun
  rising := .nil
  owned := nofun
  kept := nofun
  highest := nofun

theorem Versioned.lastWins (h : s.Versioned ownerOf) : s.LastWins where
  growing owner := by
    unfold versions
    rw [pairwise_map]
    refine (h.rising.filter _).imp_of_mem fun {a b} ha hb hlt => ?_
    have howna := of_decide_eq_true (mem_filter.mp ha).2
    have hownb := of_decide_eq_true (mem_filter.mp hb).2
    exact hlt (howna.trans hownb.symm)
  kept := h.kept
  highest := h.highest

variable {owner : Option String} {r : ChRow K P} {seq : Nat} {e new : Option String × Nat}
  {nothing : Bool} {written : List (Option String × Nat)}

/-- A new seed as high as the owner's versions. -/
theorem Versioned.restart (h : s.Versioned ownerOf)
    (hseed : ∀ e ∈ s.written, e.1 = owner → e.2 ≤ s.table.maxSeq) :
    ({ s with writers := Function.update s.writers owner (s.table.openTableWriter owner) } :
      VersionedTable K P).Versioned ownerOf := by
  refine { h with known := fun e he => ?_ }
  change e.2 ≤ (Function.update s.writers owner (s.table.openTableWriter owner) e.1).lastSeq
  by_cases hown : e.1 = owner
  · rw [hown, Function.update_self]
    exact hseed e he hown
  · rw [Function.update_of_ne hown]
    exact h.known e he

/-- A merge keeps the rows with the highest version. -/
theorem Versioned.merge [DecidableEq K] (h : s.Versioned ownerOf) (keys : List K) :
    ({ s with table := s.table.merge keys } : VersionedTable K P).Versioned ownerOf := by
  refine { h with
    owned := fun r hr => h.owned r (mem_filter.mp hr).1
    kept := fun k l hl => ?_
    highest := fun r hr => h.highest r (mem_filter.mp hr).1 }
  obtain ⟨hmem, rfl⟩ := h.kept k l hl
  refine ⟨mem_filter.mpr ⟨hmem, ?_⟩, rfl⟩
  have hall : (s.table.rows.all fun r' => r'.key ≠ l.key || r'.seq ≤ l.seq) = true := by
    refine all_eq_true.mpr fun r' hr' => ?_
    by_cases hkey : r'.key = l.key
    · obtain ⟨l', hl', htop⟩ := h.highest r' hr'
      rw [hkey, hl] at hl'
      cases hl'
      rcases htop with rfl | hlt
      · simp
      · simp [Nat.le_of_lt hlt]
    · simp [hkey]
  simp only [hall, Bool.or_true]

variable {b : SinkBatch K P} {ended : CommitEnd}

theorem mem_storedRows (h : r ∈ storedRows b seq ended) :
    r.seq = seq ∧ ∃ x ∈ b.rows, x.1 = r.key := by
  unfold storedRows at h
  split at h
  · cases h
  · obtain ⟨x, hx, rfl⟩ := mem_map.mp h
    exact ⟨rfl, x, hx, rfl⟩

/-- Of a collapsed batch one row at most has a key. -/
theorem find_storedRows [DecidableEq K] (hkeys : (b.rows.map Prod.fst).Nodup)
    (h : r ∈ storedRows b seq ended) :
    ((storedRows b seq ended).find? fun r' => r'.key = r.key) = some r := by
  have hnodup : ((storedRows b seq ended).map ChRow.key).Nodup := by
    unfold storedRows
    split
    · exact nodup_nil
    · rw [map_map]
      exact hkeys
  cases hfind : (storedRows b seq ended).find? fun r' => r'.key = r.key with
  | none => exact absurd rfl (of_decide_eq_false
      (Bool.eq_false_iff.mpr (find?_eq_none.mp hfind r h)))
  | some r' =>
    have hkey : r'.key = r.key := by simpa using find?_some hfind
    rw [inj_on_of_nodup_map hnodup (mem_of_find?_eq_some hfind) h hkey]

theorem mem_written (h : e ∈ if nothing then written else written ++ [new]) :
    e ∈ written ∨ e = new := by
  split at h
  · exact .inl h
  · simpa using h

theorem written_mono (h : e ∈ written) : e ∈ if nothing then written else written ++ [new] := by
  split
  · exact h
  · exact mem_append_left _ h

/-- A commit gives out a version above all the owner has written. -/
theorem Versioned.commit [DecidableEq K] (h : s.Versioned ownerOf)
    {clock batchSeq : Nat} (hlast : (s.writers owner).lastSeq + 1 < 2 ^ 64)
    (hstep : s.step ownerOf (.commit owner b clock batchSeq ended) = some t) :
    t.Versioned ownerOf := by
  obtain ⟨⟨hkeys, hown, _⟩, heq⟩ := Option.ite_none_right_eq_some.mp hstep
  have hseq := (ClickHouse.le_versionSeq hlast clock batchSeq).1
  generalize ClickHouse.versionSeq (s.writers owner) clock batchSeq = seq at heq hseq
  cases heq
  have hbelow : ∀ e ∈ s.written, e.1 = owner → e.2 < seq := fun e he howner =>
    Nat.lt_of_le_of_lt (howner ▸ h.known e he) hseq
  have hnew : ∀ r ∈ storedRows b seq ended, ownerOf r.key = owner ∧ r.seq = seq := by
    intro r hr
    obtain ⟨hs, x, hx, hkey⟩ := mem_storedRows hr
    exact ⟨hkey ▸ hown x hx, hs⟩
  refine ⟨fun e he => ?_, ?_, fun r hr => ?_, fun k l hl => ?_, fun r hr => ?_⟩
  · change e.2 ≤ (Function.update s.writers owner { s.writers owner with lastSeq := seq }
      e.1).lastSeq
    by_cases howner : e.1 = owner
    · rw [howner, Function.update_self]
      rcases mem_written he with hold | rfl
      · exact Nat.le_of_lt (hbelow e hold howner)
      · exact Nat.le_refl _
    · rw [Function.update_of_ne howner]
      rcases mem_written he with hold | rfl
      · exact h.known e hold
      · exact absurd rfl howner
  · split
    · exact h.rising
    · exact pairwise_concat.mpr ⟨h.rising, hbelow⟩
  · rcases mem_append.mp hr with hold | hfresh
    · exact written_mono (h.owned r hold)
    obtain ⟨hkey, hs⟩ := hnew r hfresh
    have hrows : (storedRows b seq ended).isEmpty = false := by
      cases hlist : storedRows b seq ended with
      | nil => rw [hlist] at hfresh; cases hfresh
      | cons _ _ => rfl
    simp [hrows, hkey, hs]
  · change ((storedRows b seq ended).find? fun r => r.key = k).or (s.last k) = some l at hl
    cases hfind : (storedRows b seq ended).find? fun r => r.key = k with
    | none =>
      rw [hfind] at hl
      obtain ⟨hmem, hkey⟩ := h.kept k l hl
      exact ⟨mem_append_left _ hmem, hkey⟩
    | some r =>
      rw [hfind] at hl
      cases hl
      exact ⟨mem_append_right _ (mem_of_find?_eq_some hfind), by simpa using find?_some hfind⟩
  · change ∃ l, ((storedRows b seq ended).find? fun r' => r'.key = r.key).or (s.last r.key) =
      some l ∧ (r = l ∨ r.seq < l.seq)
    rcases mem_append.mp hr with hold | hfresh
    · obtain ⟨l, hl, htop⟩ := h.highest r hold
      cases hfind : (storedRows b seq ended).find? fun r' => r'.key = r.key with
      | none => exact ⟨l, hl, htop⟩
      | some l' =>
        -- the key's new row is above every row the owner wrote before
        obtain ⟨howner, hs⟩ := hnew l' (mem_of_find?_eq_some hfind)
        have hkey : l'.key = r.key := by simpa using find?_some hfind
        rw [hkey] at howner
        have hlt : r.seq < seq := hbelow _ (h.owned r hold) howner
        exact ⟨l', rfl, .inr (hs.symm ▸ hlt)⟩
    · rw [find_storedRows hkeys hfresh]
      exact ⟨r, rfl, .inl rfl⟩

/-- **The last write wins in every run in which no version is forgotten.** -/
theorem last_write_wins [DecidableEq K] {actions : List (VersionAct K P)}
    (hrun : run (step ownerOf) init actions = some s)
    (hok : Runs.Guarded (step ownerOf) Remembered init actions) : s.LastWins := by
  have hinv : s.Versioned ownerOf := by
    refine invariant_of_guarded (Versioned ownerOf) ?_ versioned_init hrun hok
    intro s a t h hremembered hstep
    cases a with
    | restart owner =>
      cases hstep
      exact h.restart hremembered
    | commit owner b clock batchSeq ended => exact h.commit hremembered hstep
    | merge keys =>
      cases hstep
      exact h.merge keys
  exact hinv.lastWins

/-- The one worker of the examples. -/
def worker : Option String := some "w0"

def setKey (k : Nat) (p : Option Nat) : SinkBatch Nat Nat := ⟨[(k, false)], p, none, none⟩

def positionOnly (p : Nat) : SinkBatch Nat Nat := ⟨[], some p, none, none⟩

/-- The clock is set back over a restart; the batches have rows. -/
def clockBack : List (VersionAct Nat Nat) :=
  [.commit worker (setKey 7 (some 1)) 100 0 .done, .restart worker,
    .commit worker (setKey 7 (some 2)) 50 0 .done, .commit worker (setKey 7 (some 3)) 60 9 .done,
    .merge [7]]

/-- The seed keeps the versions growing. -/
theorem last_write_wins_clockBack :
    ∃ s : VersionedTable Nat Nat, run (step fun _ => worker) init clockBack = some s ∧
      s.versions worker = [100, 101, 109] ∧ s.LastWins := by
  have hseen : (run (step fun _ => worker) init clockBack).map (fun s => s.versions worker) =
      some [100, 101, 109] := by
    decide +kernel
  obtain ⟨s, hrun, hversions⟩ := Option.map_eq_some_iff.mp hseen
  exact ⟨s, hrun, hversions, last_write_wins hrun (by decide +kernel)⟩

/-- The batches before and after the restart have a position and no rows. -/
def positionsOnly : List (VersionAct Nat Nat) :=
  [.commit worker (positionOnly 1) 100 0 .done, .restart worker,
    .commit worker (positionOnly 2) 50 0 .done]

/-- A coordinator's number that is the highest word. -/
def highestWord : List (VersionAct Nat Nat) :=
  [.commit worker (setKey 7 none) 100 (2 ^ 64 - 1) .done,
    .commit worker (setKey 7 none) 200 0 .done]

/-- After a batch without rows the seed is too low: the versions go down, and the position read
back is the one before.  After the highest word they start again at zero, and the row that
survives is the one before. -/
theorem versions_go_down :
    (∃ s : VersionedTable Nat Nat, run (step fun _ => worker) init positionsOnly = some s ∧
      s.versions worker = [100, 50] ∧ s.table.readOwnerPositions = [("w0", 1)] ∧ ¬ s.LastWins) ∧
    ∃ s : VersionedTable Nat Nat, run (step fun _ => worker) init highestWord = some s ∧
      s.versions worker = [2 ^ 64 - 1, 0] ∧ (s.last 7).map ChRow.seq = some 0 ∧ ¬ s.LastWins := by
  constructor
  · refine exists_run_of (p := fun s => s.versions worker = [100, 50] ∧
      s.table.readOwnerPositions = [("w0", 1)]) (by decide +kernel) fun s _ ⟨hversions, hread⟩ => ?_
    refine ⟨hversions, hread, fun hwins => absurd (hwins.growing worker) ?_⟩
    rw [hversions]
    decide
  · refine exists_run_of (p := fun s => s.versions worker = [2 ^ 64 - 1, 0] ∧
      (s.last 7).map ChRow.seq = some 0) (by decide +kernel) fun s _ ⟨hversions, hlast⟩ => ?_
    refine ⟨hversions, hlast, fun hwins => absurd (hwins.growing worker) ?_⟩
    rw [hversions]
    decide

end VersionedTable

end Urutau
