import Urutau.AssocLists
import Urutau.Positions

/-!
# Kafka positions

A Kafka position is an offset for some partitions of some topics.  One position
is at or beyond another when it names every partition the other names, at least
as far on; two positions that each name a partition the other does not have
reached are incomparable, and their meet keeps the partitions both name.

The position of one record names its own partition only.
-/

namespace Urutau

open List

/-- `Offsets`: at most one offset for each partition of each topic. -/
structure Offsets where
  entries : List ((String × Nat) × Nat)
  distinct : (entries.map Prod.fst).Nodup
  deriving DecidableEq, Repr

namespace Offsets

/-- The offset of one partition. -/
def get (o : Offsets) (key : String × Nat) : Option Nat := o.entries.lookup key

/-- `recordPosition`: a record's own coordinate. -/
def record (topic : String) (part offset : Nat) : Offsets where
  entries := [((topic, part), offset)]
  distinct := nodup_singleton _

/-- `Contains`. -/
def contains (o other : Offsets) : Bool :=
  other.entries.all fun e => (o.get e.1).any fun mine => decide (e.2 ≤ mine)

/-- `Compare`. -/
def compare (o other : Offsets) : Comparison :=
  match o.contains other, other.contains o with
  | true, true => .equal
  | true, false => .greater
  | false, true => .less
  | false, false => .incomparable

/-- One entry of the meet. -/
def meetEntry (other : Offsets) (e : (String × Nat) × Nat) : Option ((String × Nat) × Nat) :=
  (other.get e.1).map fun theirs => (e.1, min e.2 theirs)

/-- `Meet`: the least offset of every partition both sides name. -/
def meet (o other : Offsets) : Offsets where
  entries := o.entries.filterMap (meetEntry other)
  distinct := o.distinct.sublist (AssocLists.keys_joinWith _ o.entries other.entries)

instance : Position Offsets where
  compare := compare
  contains := contains

instance : Meeter Offsets where
  meet a b := some (meet a b)

theorem mem_of_get {o : Offsets} {key : String × Nat} {offset : Nat}
    (h : o.get key = some offset) : (key, offset) ∈ o.entries :=
  AssocLists.mem_of_lookup h

/-- Every partition of the other has been read as far. -/
theorem contains_iff (o other : Offsets) : o.contains other = true ↔
    ∀ e ∈ other.entries, ∃ mine, o.get e.1 = some mine ∧ e.2 ≤ mine := by
  simp only [contains, all_eq_true, Option.any_eq_true, decide_eq_true_eq]

theorem contains_trans {a b c : Offsets} (hab : b.contains a = true)
    (hbc : c.contains b = true) : c.contains a = true := by
  rw [contains_iff] at hab hbc ⊢
  intro e he
  obtain ⟨mine, hmine, hle⟩ := hab e he
  obtain ⟨mine', hmine', hle'⟩ := hbc (e.1, mine) (mem_of_get hmine)
  exact ⟨mine', hmine', Nat.le_trans hle hle'⟩

/-- Coverage is containment. -/
theorem covered_iff (a b : Offsets) : Position.covered a b = true ↔ b.contains a = true := by
  simp only [Position.covered, Position.compare, compare]
  cases a.contains b <;> cases b.contains a <;> simp

instance : LawfulPosition Offsets where
  covered_trans hab hbc := by
    rw [covered_iff] at hab hbc ⊢
    exact contains_trans hab hbc
  compare_swap a b := by
    simp only [Position.compare, compare]
    cases a.contains b <;> cases b.contains a <;> rfl

/-- The meet has the lower offset of both. -/
theorem get_meet (a b : Offsets) (key : String × Nat) : (a.meet b).get key =
      (a.get key).bind fun mine => (b.get key).map fun theirs => Nat.min mine theirs :=
  AssocLists.lookup_joinWith _ a.entries b.entries key

instance : LawfulMeeter Offsets where
  covered_meet {a b m} h x := by
    cases h
    rw [covered_iff, covered_iff, covered_iff, contains_iff, contains_iff, contains_iff]
    constructor
    · intro hm
      refine ⟨fun e he => ?_, fun e he => ?_⟩
      · obtain ⟨low, hlow, hle⟩ := hm e he
        rw [get_meet] at hlow
        obtain ⟨mine, hmine, hmap⟩ := Option.bind_eq_some_iff.mp hlow
        obtain ⟨theirs, -, rfl⟩ := Option.map_eq_some_iff.mp hmap
        exact ⟨mine, hmine, Nat.le_trans hle (Nat.min_le_left mine theirs)⟩
      · obtain ⟨low, hlow, hle⟩ := hm e he
        rw [get_meet] at hlow
        obtain ⟨mine, -, hmap⟩ := Option.bind_eq_some_iff.mp hlow
        obtain ⟨theirs, htheirs, rfl⟩ := Option.map_eq_some_iff.mp hmap
        exact ⟨theirs, htheirs, Nat.le_trans hle (Nat.min_le_right mine theirs)⟩
    · intro ⟨ha, hb⟩ e he
      obtain ⟨mine, hmine, hle⟩ := ha e he
      obtain ⟨theirs, htheirs, hle'⟩ := hb e he
      refine ⟨Nat.min mine theirs, ?_, Nat.le_min.mpr ⟨hle, hle'⟩⟩
      rw [get_meet, hmine, htheirs]
      rfl

/-! ## Positions of single records -/

theorem record_contains_iff (t t' : String) (p p' o o' : Nat) :
    (record t' p' o').contains (record t p o) = true ↔ (t, p) = (t', p') ∧ o ≤ o' := by
  rw [contains_iff]
  simp only [record, get, lookup_cons]
  by_cases heq : (t, p) = (t', p')
  · simp [heq]
  · simp [beq_false_of_ne heq, heq]

/-- A record covers those before it in its partition. -/
theorem covered_record_iff (t t' : String) (p p' o o' : Nat) :
    Position.covered (record t p o) (record t' p' o') = true ↔ (t, p) = (t', p') ∧ o ≤ o' := by
  rw [covered_iff, record_contains_iff]

/-- Two records of one partition compare by their offsets. -/
theorem advances_record_iff (t : String) (p o o' : Nat) :
    Position.advances (record t p o) (record t p o') = true ↔ o' < o := by
  have hback : (record t p o').contains (record t p o) = decide (o ≤ o') :=
    Bool.eq_iff_iff.mpr (by simp [record_contains_iff])
  have hforth : (record t p o).contains (record t p o') = decide (o' ≤ o) :=
    Bool.eq_iff_iff.mpr (by simp [record_contains_iff])
  simp only [Position.advances, Position.compare, compare, hback, hforth]
  by_cases hle : o ≤ o'
  · by_cases hge : o' ≤ o
    · simp [hle, hge]
    · simp [hle, hge]
  · have hlt : o' ≤ o := by omega
    simp [hle, hlt]
    omega

end Offsets

end Urutau
