import Urutau.AssocLists
import Urutau.Positions

/-!
# GTID sets

A MySQL position is a set of transactions: for each server, or server and tag, some intervals
of transaction numbers.  One set is at or beyond another when it contains it.  Two sets of
which neither contains the other, as after a failover, are incomparable, and they have no
meet.
-/

namespace Urutau

/-- `interval`: the transactions from `start` on, before `stop`. -/
structure GtidInterval where
  start : Nat
  stop : Nat
  deriving DecidableEq, Repr

/-- What `normalize` leaves: intervals that are not empty, in order, with a gap between two. -/
def GtidInterval.Normal (ivs : List GtidInterval) : Prop :=
  ivs.Pairwise (fun a b => a.stop < b.start) ∧ ∀ iv ∈ ivs, iv.start < iv.stop

instance (ivs : List GtidInterval) : Decidable (GtidInterval.Normal ivs) :=
  inferInstanceAs (Decidable (_ ∧ _))

/-- `GTID`: the intervals of each uuid, or uuid and tag. -/
structure GTID where
  sets : List (String × List GtidInterval)
  distinct : (sets.map Prod.fst).Nodup
  normal : ∀ e ∈ sets, GtidInterval.Normal e.2
  deriving DecidableEq, Repr

namespace GTID

/-- `containsIntervals`. -/
def containsIntervals (s sub : List GtidInterval) : Bool :=
  sub.all fun iv => s.any fun c => decide (c.start ≤ iv.start ∧ iv.stop ≤ c.stop)

/-- `Contains`. -/
def contains (g other : GTID) : Bool :=
  other.sets.all fun e => (g.sets.lookup e.1).any fun ivs => containsIntervals ivs e.2

/-- `Compare`. -/
def compare (g other : GTID) : Comparison :=
  match g.contains other, other.contains g with
  | true, true => .equal
  | true, false => .greater
  | false, true => .less
  | false, false => .incomparable

instance : Position GTID where
  compare := compare
  contains := contains

/-- GTID sets have no `Meet`. -/
instance : Meeter GTID where
  meet _ _ := none

theorem containsIntervals_iff (s sub : List GtidInterval) : containsIntervals s sub = true ↔
    ∀ iv ∈ sub, ∃ c ∈ s, c.start ≤ iv.start ∧ iv.stop ≤ c.stop := by
  simp only [containsIntervals, List.all_eq_true, List.any_eq_true, decide_eq_true_eq]

theorem contains_iff (g other : GTID) : g.contains other = true ↔
    ∀ e ∈ other.sets, ∃ ivs, g.sets.lookup e.1 = some ivs ∧ containsIntervals ivs e.2 = true := by
  simp only [contains, List.all_eq_true, Option.any_eq_true]

theorem containsIntervals_trans {a b c : List GtidInterval} (hab : containsIntervals b a = true)
    (hbc : containsIntervals c b = true) : containsIntervals c a = true := by
  rw [containsIntervals_iff] at hab hbc ⊢
  intro iv hiv
  obtain ⟨mid, hmid, hstart, hstop⟩ := hab iv hiv
  obtain ⟨outer, houter, hstart', hstop'⟩ := hbc mid hmid
  exact ⟨outer, houter, Nat.le_trans hstart' hstart, Nat.le_trans hstop hstop'⟩

theorem contains_trans {a b c : GTID} (hab : b.contains a = true) (hbc : c.contains b = true) :
    c.contains a = true := by
  rw [contains_iff] at hab hbc ⊢
  intro e he
  obtain ⟨mid, hmid, hin⟩ := hab e he
  obtain ⟨outer, houter, hin'⟩ := hbc (e.1, mid) (AssocLists.mem_of_lookup hmid)
  exact ⟨outer, houter, containsIntervals_trans hin hin'⟩

theorem contains_refl (g : GTID) : g.contains g = true := by
  rw [contains_iff]
  intro e he
  refine ⟨e.2, AssocLists.lookup_of_mem g.distinct he, ?_⟩
  refine (containsIntervals_iff _ _).mpr fun iv hiv => ?_
  exact ⟨iv, hiv, Nat.le_refl _, Nat.le_refl _⟩

theorem covered_iff (a b : GTID) : Position.covered a b = true ↔ b.contains a = true := by
  simp only [Position.covered, Position.compare, compare]
  cases a.contains b <;> cases b.contains a <;> simp

instance : LawfulPosition GTID where
  covered_trans hab hbc := by
    rw [covered_iff] at hab hbc ⊢
    exact contains_trans hab hbc
  compare_swap a b := by
    simp only [Position.compare, compare]
    cases a.contains b <;> cases b.contains a <;> rfl

instance : LawfulMeeter GTID where
  covered_meet := nofun

/-! ## The resume fold -/

open List Position

/-- An input all inputs contain. -/
def IsLeast (ps : List GTID) (c : GTID) : Prop := c ∈ ps ∧ ∀ p ∈ ps, p.contains c = true

/-- Two errors, or two sets of the same transactions. -/
def SameOutcome : Except (GTID × GTID) (Option GTID) → Except (GTID × GTID) (Option GTID) → Prop
  | .ok none, .ok none => True
  | .ok (some a), .ok (some b) => a.contains b = true ∧ b.contains a = true
  | .error _, .error _ => True
  | _, _ => False

/-- **The resume fold** finds the input all inputs contain, fails only without one, and does
not depend on the order. -/
structure FoldLaw (ps : List GTID) : Prop where
  complete : (∃ c, IsLeast ps c) → ∃ c, minSafe ps = .ok (some c) ∧ IsLeast ps c
  refused : ∀ e, minSafe ps = .error e → ¬∃ c, IsLeast ps c
  orderFree : ∀ qs, qs.Perm ps → SameOutcome (minSafe qs) (minSafe ps)

/-- Without meets the fold returns one of the inputs. -/
theorem mem_of_minSafeFrom {ps : List GTID} {best c : GTID} (h : minSafeFrom best ps = .ok c) :
    c ∈ best :: ps := by
  induction ps generalizing best with
  | nil =>
    cases h
    exact mem_singleton_self c
  | cons p rest ih =>
    unfold minSafeFrom at h
    split at h
    · cases h
    · exact mem_cons_of_mem best (ih h)
    · rcases mem_cons.mp (ih h) with rfl | hc
      · exact mem_cons_self
      · exact mem_cons_of_mem best (mem_cons_of_mem p hc)

/-- Of some inputs one is returned that all contain, or the fold fails. -/
theorem minSafe_cases {ps : List GTID} (hne : ps ≠ []) :
    (∃ c, minSafe ps = .ok (some c) ∧ IsLeast ps c) ∨ ∃ e, minSafe ps = .error e := by
  obtain ⟨best, rest, rfl⟩ := exists_cons_of_ne_nil hne
  cases hfrom : minSafeFrom best rest with
  | error e => exact .inr ⟨e, by simp [minSafe, hfrom, Except.map]⟩
  | ok c =>
    have hok : minSafe (best :: rest) = .ok (some c) := by simp [minSafe, hfrom, Except.map]
    refine .inl ⟨c, hok, mem_of_minSafeFrom hfrom, fun p hp => ?_⟩
    rw [← covered_iff]
    exact (covered_minSafe hok c).mp ((covered_iff c c).mpr (contains_refl c)) p hp

/-- Where all inputs compare the fold does not fail. -/
theorem minSafeFrom_chain (ps : List GTID) (best : GTID)
    (h : ∀ a ∈ best :: ps, ∀ b ∈ best :: ps, a.contains b = true ∨ b.contains a = true) :
    ∃ c, minSafeFrom best ps = .ok c := by
  induction ps generalizing best with
  | nil => exact ⟨best, rfl⟩
  | cons p rest ih =>
    unfold minSafeFrom
    split
    · rename_i hinc
      simp only [Position.compare, compare] at hinc
      cases hpb : p.contains best <;> cases hbp : best.contains p <;> simp_all
    · exact ih p fun a ha b hb => h a (mem_cons_of_mem best ha) b (mem_cons_of_mem best hb)
    · exact ih best fun a ha b hb => h a (by grind) b (by grind)

/-- **The fold meets its law exactly** when all inputs compare, if there is one that all
contain. -/
theorem foldLaw_iff (ps : List GTID) : FoldLaw ps ↔ ((∃ c, IsLeast ps c) →
    ∀ a ∈ ps, ∀ b ∈ ps, a.contains b = true ∨ b.contains a = true) := by
  constructor
  · intro h hleast a ha b hb
    by_contra hnot
    simp only [not_or] at hnot
    have hne : b ≠ a := fun heq => by simp [heq, contains_refl] at hnot
    have hperm : ps.Perm (a :: b :: (ps.erase a).erase b) :=
      (perm_cons_erase ha).trans (.cons a (perm_cons_erase ((mem_erase_of_ne hne).mpr hb)))
    -- with these two in front the fold fails at once
    have herror : minSafe (a :: b :: (ps.erase a).erase b) = .error (b, a) := by
      simp [minSafe, minSafeFrom, Position.compare, compare, hnot, meet, Meeter.meet, Except.map]
    obtain ⟨c, hok, -⟩ := h.complete hleast
    have hsame := h.orderFree _ hperm.symm
    rw [herror, hok] at hsame
    exact hsame
  · intro hchain
    have hok : (∃ c, IsLeast ps c) → ∀ qs, qs.Perm ps →
        ∃ c, minSafe qs = .ok (some c) ∧ IsLeast qs c := by
      intro hleast qs hperm
      cases qs with
      | nil =>
        obtain ⟨c, hc, -⟩ := hleast
        rw [← hperm.nil_eq] at hc
        cases hc
      | cons best rest =>
        refine (minSafe_cases (cons_ne_nil best rest)).resolve_right ?_
        rintro ⟨e, he⟩
        obtain ⟨c, hc⟩ := minSafeFrom_chain rest best fun a ha b hb =>
          hchain hleast a (hperm.mem_iff.mp ha) b (hperm.mem_iff.mp hb)
        simp [minSafe, hc, Except.map] at he
    refine ⟨fun hleast => hok hleast ps .rfl, fun e he hleast => ?_, fun qs hperm => ?_⟩
    · obtain ⟨c, hc, -⟩ := hok hleast ps .rfl
      cases he.symm.trans hc
    by_cases hleast : ∃ c, IsLeast ps c
    · obtain ⟨c, hc, hmem, hall⟩ := hok hleast ps .rfl
      obtain ⟨d, hd, hmem', hall'⟩ := hok hleast qs hperm
      rw [hc, hd]
      exact ⟨hall d (hperm.mem_iff.mp hmem'), hall' c (hperm.mem_iff.mpr hmem)⟩
    rcases eq_or_ne ps [] with rfl | hne
    · rw [hperm.eq_nil]
      trivial
    have hne' : qs ≠ [] := fun heq => hne (heq ▸ hperm).nil_eq.symm
    rcases minSafe_cases hne with ⟨c, -, hc⟩ | ⟨e, he⟩
    · exact absurd ⟨c, hc⟩ hleast
    rcases minSafe_cases hne' with ⟨c, -, hmem, hall⟩ | ⟨e', he'⟩
    · exact absurd ⟨c, hperm.mem_iff.mp hmem, fun p hp => hall p (hperm.mem_iff.mpr hp)⟩ hleast
    · rw [he, he']
      trivial

/-- The transactions up to `a + 1` of one server and up to `b + 1` of another. -/
def twoServers (a b : Nat) : GTID where
  sets := [("a", [⟨1, a + 2⟩]), ("b", [⟨1, b + 2⟩])]
  distinct := by simp
  normal := by simp [GtidInterval.Normal]

/-- Two sets that do not compare come before the one both contain. -/
theorem minSafe_stops_early : minSafe [twoServers 4 2, twoServers 2 4, twoServers 2 2] =
      .error (twoServers 2 4, twoServers 4 2) ∧
    minSafe [twoServers 2 2, twoServers 4 2, twoServers 2 4] = .ok (some (twoServers 2 2)) ∧
    ¬FoldLaw [twoServers 4 2, twoServers 2 4, twoServers 2 2] := by
  have herror : minSafe [twoServers 4 2, twoServers 2 4, twoServers 2 2] =
    .error (twoServers 2 4, twoServers 4 2) := rfl
  refine ⟨herror, rfl, fun h => h.refused _ herror ⟨twoServers 2 2, ?_⟩⟩
  refine ⟨by simp, fun p hp => ?_⟩
  rcases mem_cons.mp hp with rfl | hp
  · rfl
  · rcases mem_cons.mp hp with rfl | hp
    · rfl
    · rw [mem_singleton.mp hp]
      rfl

end GTID

end Urutau
