import Urutau.AssocLists
import Urutau.Positions

/-!
# The resume fold of Kafka positions

A Kafka position as the code holds it: a map of topics to maps of partitions.  A topic without
partitions is there or not there without a difference to what the position contains, and a
topic or a partition only one side names is not in the meet.  `MinSafe` folds any list of
positions into their greatest lower bound.
-/

namespace Urutau

open List Position AssocLists

/-- `Offsets`: `Topics`, a map of maps. -/
structure TopicOffsets where
  topics : List (String × List (Int × Int))
  distinct : (topics.map Prod.fst).Nodup
  parts : ∀ e ∈ topics, (e.2.map Prod.fst).Nodup

namespace TopicOffsets

/-- The offset of a partition of a topic; a topic that is not there has none. -/
def offset (o : TopicOffsets) (topic : String) (part : Int) : Option Int :=
  ((o.topics.lookup topic).getD []).lookup part

/-- `Contains`. -/
def contains (o other : TopicOffsets) : Bool :=
  other.topics.all fun e => ((o.topics.lookup e.1).isSome || e.2.isEmpty) &&
    e.2.all fun p => (o.offset e.1 p.1).any fun my => decide (p.2 ≤ my)

/-- `Compare`. -/
def compare (o other : TopicOffsets) : Comparison :=
  match o.contains other, other.contains o with
  | true, true => .equal
  | true, false => .greater
  | false, true => .less
  | false, false => .incomparable

/-- `Meet`: the least offset of every partition both sides name. -/
def meet (o other : TopicOffsets) : TopicOffsets where
  topics := joinWith (joinWith min) o.topics other.topics
  distinct := o.distinct.sublist (keys_joinWith ..)
  parts e he := by
    obtain ⟨mine, hmine, he⟩ := mem_filterMap.mp he
    obtain ⟨theirs, -, rfl⟩ := Option.map_eq_some_iff.mp he
    exact (o.parts mine hmine).sublist (keys_joinWith ..)

instance : Position TopicOffsets where
  compare := compare
  contains := contains

instance : Meeter TopicOffsets where
  meet a b := some (meet a b)

/-- One position contains another when every partition the other names is as far on in it. -/
theorem contains_iff (o other : TopicOffsets) : o.contains other = true ↔
    ∀ t p off, other.offset t p = some off → ∃ my, o.offset t p = some my ∧ off ≤ my := by
  simp only [contains, all_eq_true, Bool.and_eq_true, Option.any_eq_true, decide_eq_true_eq]
  constructor
  · intro h t p off hoff
    unfold offset at hoff
    cases htheirs : other.topics.lookup t with
    | none => simp [htheirs] at hoff
    | some theirs =>
      rw [htheirs] at hoff
      exact (h _ (mem_of_lookup htheirs)).2 _ (mem_of_lookup hoff)
  · intro h e he
    have hparts : ∀ p ∈ e.2, ∃ my, o.offset e.1 p.1 = some my ∧ p.2 ≤ my := by
      intro p hp
      refine h _ _ _ ?_
      rw [offset, lookup_of_mem other.distinct he]
      exact lookup_of_mem (other.parts e he) hp
    refine ⟨?_, hparts⟩
    cases hmine : o.topics.lookup e.1 with
    | some mine => simp
    | none =>
      -- then no partition of the topic has an offset here
      have hnil : e.2 = [] := eq_nil_iff_forall_not_mem.mpr fun p hp => by
        obtain ⟨my, hmy, -⟩ := hparts p hp
        simp [offset, hmine] at hmy
      simp [hnil]

theorem offset_meet (a b : TopicOffsets) (t : String) (p : Int) :
    (a.meet b).offset t p = (a.offset t p).bind fun x => (b.offset t p).map (min x) := by
  unfold offset meet
  rw [lookup_joinWith]
  cases a.topics.lookup t with
  | none => rfl
  | some mine =>
    cases b.topics.lookup t with
    | none => simp
    | some theirs => exact lookup_joinWith ..

theorem covered_iff (a b : TopicOffsets) : Position.covered a b = true ↔ b.contains a = true := by
  simp only [Position.covered, Position.compare, compare]
  cases a.contains b <;> cases b.contains a <;> simp

instance : LawfulPosition TopicOffsets where
  covered_trans hab hbc := by
    rw [covered_iff, contains_iff] at *
    intro t p off hoff
    obtain ⟨mid, hmid, hle⟩ := hab t p off hoff
    obtain ⟨my, hmy, hle'⟩ := hbc t p mid hmid
    exact ⟨my, hmy, Int.le_trans hle hle'⟩
  compare_swap a b := by
    simp only [Position.compare, compare]
    cases a.contains b <;> cases b.contains a <;> rfl

instance : LawfulMeeter TopicOffsets where
  covered_meet {a b m} h x := by
    cases h
    simp only [covered_iff, contains_iff, offset_meet]
    constructor
    · intro hm
      refine ⟨fun t p off hoff => ?_, fun t p off hoff => ?_⟩
      all_goals
        obtain ⟨low, hlow, hle⟩ := hm t p off hoff
        obtain ⟨mine, hmine, hmap⟩ := Option.bind_eq_some_iff.mp hlow
        obtain ⟨theirs, htheirs, rfl⟩ := Option.map_eq_some_iff.mp hmap
      · exact ⟨mine, hmine, by omega⟩
      · exact ⟨theirs, htheirs, by omega⟩
    · intro ⟨ha, hb⟩ t p off hoff
      obtain ⟨mine, hmine, hle⟩ := ha t p off hoff
      obtain ⟨theirs, htheirs, hle'⟩ := hb t p off hoff
      exact ⟨min mine theirs, by simp [hmine, htheirs], by omega⟩

/-- Any two positions have a meet, so the fold meets no error. -/
theorem minSafe_ok {ps : List TopicOffsets} (h : ps ≠ []) : ∃ m, minSafe ps = .ok (some m) := by
  cases ps with
  | nil => exact absurd rfl h
  | cons p rest =>
    have hfrom := minSafeFrom_eq_minFrom (fun a b _ => rfl : ∀ a b : TopicOffsets, _) rest p
    exact ⟨_, congrArg (Except.map some) hfrom⟩

theorem covered_refl (a : TopicOffsets) : covered a a = true :=
  (covered_iff a a).mpr ((contains_iff a a).mpr fun _ _ off h => ⟨off, h, Int.le_refl off⟩)

/-- **The resume fold is the greatest lower bound.**  Of any list of positions but the empty one
`MinSafe` returns one that every input contains and that contains whatever all inputs contain;
any order of the list gives an equal position. -/
theorem minSafe_greatest_lower_bound (ps : List TopicOffsets) (h : ps ≠ []) :
    ∃ m, minSafe ps = .ok (some m) ∧ (∀ p ∈ ps, p.contains m = true) ∧
      (∀ x : TopicOffsets, (∀ p ∈ ps, p.contains x = true) → m.contains x = true) ∧
      ∀ qs : List TopicOffsets, qs.Perm ps →
        ∃ m', minSafe qs = .ok (some m') ∧ m.compare m' = .equal := by
  obtain ⟨m, hm⟩ := minSafe_ok h
  have hbound : ∀ x, covered x m = true ↔ ∀ p ∈ ps, covered x p = true := covered_minSafe hm
  simp only [covered_iff] at hbound
  refine ⟨m, hm, (hbound m).mp ((covered_iff m m).mp (covered_refl m)), fun x => (hbound x).mpr,
    fun qs hperm => ?_⟩
  have hne : qs ≠ [] := fun hnil => h (hnil ▸ hperm).nil_eq.symm
  obtain ⟨m', hm'⟩ := minSafe_ok hne
  have hbound' : ∀ x, covered x m' = true ↔ ∀ p ∈ qs, covered x p = true := covered_minSafe hm'
  simp only [covered_iff, hperm.mem_iff, ← hbound] at hbound'
  -- the two have the same lower bounds, so each contains the other
  have hfwd : m.contains m' = true := (hbound' m').mp ((covered_iff m' m').mp (covered_refl m'))
  have hrev : m'.contains m = true := (hbound' m).mpr ((covered_iff m m).mp (covered_refl m))
  exact ⟨m', hm', by simp [compare, hfwd, hrev]⟩

/-- Two positions that each run ahead of the other on one partition, and a topic of no
partitions. -/
def ahead : TopicOffsets := ⟨[("orders", [(0, 100), (1, 5)]), ("users", [])], by decide, by decide⟩

def behind : TopicOffsets := ⟨[("orders", [(0, 5), (1, 100)])], by decide, by decide⟩

theorem minSafe_ahead_behind : ∃ m, minSafe [ahead, behind] = .ok (some m) ∧
    ahead.contains m = true ∧ behind.contains m = true := by
  obtain ⟨m, hm, hall, -⟩ := minSafe_greatest_lower_bound [ahead, behind] (by simp)
  exact ⟨m, hm, hall _ (by simp), hall _ (by simp)⟩

/-- No position is returned for none. -/
theorem minSafe_nothing : minSafe ([] : List TopicOffsets) = .ok none := rfl

end TopicOffsets

end Urutau
