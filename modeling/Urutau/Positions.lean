import Mathlib

/-!
# Replication positions

A position is what a source calls a point of its log: a GTID set, a WAL
offset, a vector of Kafka offsets.  The pipeline only ever compares two of
them, and the comparison may be undecided: a position of an opaque source, or
two offset vectors that each run ahead of the other, are `incomparable`.
Everything that skips a batch or advances a checkpoint asks for a decided
comparison, so an undecided one never drops data.
-/

namespace Urutau

/-- The outcome of `Compare`.  The source returns a negative number, zero, a
positive number or the sentinel `Incomparable`. -/
inductive Comparison
  | less
  | equal
  | greater
  | incomparable
  deriving DecidableEq, Repr

/-- The position contract: an order that may be partial, and containment. -/
class Position (P : Type) where
  compare : P → P → Comparison
  contains : P → P → Bool

namespace Position

variable {P : Type} [Position P]

/-- `pos` is provably strictly greater than `cur`. -/
def advances (pos cur : P) : Bool :=
  match compare pos cur with
  | .greater => true
  | _ => false

/-- `pos` is provably at or before `cur`. -/
def covered (pos cur : P) : Bool :=
  match compare pos cur with
  | .less | .equal => true
  | _ => false

/-- A position strictly beyond another one is not covered by it. -/
theorem not_covered_of_advances {pos cur : P} (h : advances pos cur = true) :
    covered pos cur = false := by
  unfold advances at h
  unfold covered
  cases hc : compare pos cur <;> simp_all

end Position

/-- The comparison the other way round. -/
def Comparison.swap : Comparison → Comparison
  | .less => .greater
  | .greater => .less
  | c => c

/-- Positions whose comparison is that of a partial order. -/
class LawfulPosition (P : Type) [Position P] : Prop where
  covered_trans : ∀ {a b c : P}, Position.covered a b = true → Position.covered b c = true →
    Position.covered a c = true
  compare_swap : ∀ a b : P, Position.compare a b = (Position.compare b a).swap

namespace Position

variable {P : Type} [Position P] [LawfulPosition P]

variable {cur pos : P}

/-- A position strictly beyond another one covers it. -/
theorem covered_of_advances (h : advances pos cur = true) : covered cur pos = true := by
  unfold advances at h
  unfold covered
  rw [LawfulPosition.compare_swap]
  cases hc : compare pos cur <;> simp_all [Comparison.swap]

/-- What is at or beyond a position that is strictly beyond another one is
strictly beyond that one too. -/
theorem advances_of_covered {a b c : P} (h : advances b a = true) (hle : covered b c = true) :
    advances c a = true := by
  have hac : covered a c = true := LawfulPosition.covered_trans (covered_of_advances h) hle
  have hswap : compare c a = (compare a c).swap := LawfulPosition.compare_swap c a
  cases hc : compare a c with
  | less =>
    unfold advances
    rw [hswap, hc]
    rfl
  | equal =>
    have hca : covered c a = true := by
      unfold covered
      rw [hswap, hc]
      rfl
    have hba : covered b a = true := LawfulPosition.covered_trans hle hca
    exact absurd (hba.symm.trans (not_covered_of_advances h)) Bool.noConfusion
  | greater | incomparable =>
    unfold covered at hac
    rw [hc] at hac
    cases hac

/-- Of two positions that compare, one that is not at or before the other is
beyond it. -/
theorem covered_of_not_covered (hcomp : compare pos cur ≠ .incomparable)
    (h : covered pos cur = false) : covered cur pos = true := by
  unfold covered at h ⊢
  rw [LawfulPosition.compare_swap]
  cases hc : compare pos cur <;> simp_all [Comparison.swap]

/-- Of two positions that compare, one that is not strictly before the other is
at it or beyond. -/
theorem covered_of_not_less (hcomp : compare pos cur ≠ .incomparable)
    (h : compare pos cur ≠ .less) : covered cur pos = true := by
  unfold covered
  rw [LawfulPosition.compare_swap]
  cases hc : compare pos cur <;> simp_all [Comparison.swap]

end Position

/-- Positions with a greatest lower bound of two that diverge, where there is
one. -/
class Meeter (P : Type) where
  meet : P → P → Option P

namespace Position

variable {P : Type} [Position P] [Meeter P]

/-- `meet`: both sides are asked. -/
def meet (a b : P) : Option P := (Meeter.meet a b).or (Meeter.meet b a)

/-- The loop of `MinSafe`. -/
def minSafeFrom (best : P) : List P → Except (P × P) P
  | [] => .ok best
  | p :: rest =>
    match compare p best with
    | .incomparable =>
      match meet p best with
      | none => .error (p, best)
      | some m => minSafeFrom m rest
    | .less => minSafeFrom p rest
    | _ => minSafeFrom best rest

/-- `MinSafe`: a position every input contains, none for no input.  The error
names the pair that has no safe minimum. -/
def minSafe : List P → Except (P × P) (Option P)
  | [] => .ok none
  | p :: rest => (minSafeFrom p rest).map some

/-- The loop of `Min`: a pair without a meet keeps the best so far. -/
def minFrom (best : P) : List P → P
  | [] => best
  | p :: rest =>
    match compare p best with
    | .incomparable => minFrom ((meet p best).getD best) rest
    | .less => minFrom p rest
    | _ => minFrom best rest

/-- `Min`, none for no input. -/
def min : List P → Option P
  | [] => none
  | p :: rest => some (minFrom p rest)

end Position

/-- Meets that are greatest lower bounds. -/
class LawfulMeeter (P : Type) [Position P] [Meeter P] : Prop where
  covered_meet : ∀ {a b m : P}, Meeter.meet a b = some m → ∀ x : P,
    Position.covered x m = true ↔ Position.covered x a = true ∧ Position.covered x b = true

namespace Position

variable {P : Type} [Position P] [Meeter P] [LawfulPosition P] [LawfulMeeter P]

variable {a b c : P} {ps : List P}

omit [LawfulPosition P] in
theorem covered_meet {m : P} (h : meet a b = some m) (x : P) :
    covered x m = true ↔ covered x a = true ∧ covered x b = true := by
  rcases Option.or_eq_some_iff.mp h with hab | ⟨-, hba⟩
  · exact LawfulMeeter.covered_meet hab x
  · exact (LawfulMeeter.covered_meet hba x).trans And.comm

omit [Meeter P] [LawfulMeeter P] in
/-- What the lesser of two comparable positions covers is what both cover. -/
theorem covered_both (h : covered a b = true) (x : P) :
    covered x a = true ↔ covered x a = true ∧ covered x b = true :=
  ⟨fun hx => ⟨hx, LawfulPosition.covered_trans hx h⟩, And.left⟩

/-- What `MinSafe` covers is what every input covers. -/
theorem covered_minSafeFrom {best : P} (h : minSafeFrom best ps = .ok c)
    (x : P) : covered x c = true ↔ covered x best = true ∧ ∀ p ∈ ps, covered x p = true := by
  induction ps generalizing best with
  | nil =>
    cases h
    simp
  | cons p rest ih =>
    unfold minSafeFrom at h
    rw [List.forall_mem_cons]
    split at h
    · cases hm : meet p best with
      | none =>
        rw [hm] at h
        cases h
      | some m =>
        rw [hm] at h
        rw [ih h, covered_meet hm]
        tauto
    · rename_i hless
      have hle : covered p best = true := by
        unfold covered
        rw [hless]
      rw [ih h, covered_both hle]
      tauto
    · rename_i hinc hless
      have hle : covered best p = true := covered_of_not_less hinc hless
      rw [ih h, covered_both hle]
      tauto

theorem covered_minSafe (h : minSafe ps = .ok (some c)) (x : P) :
    covered x c = true ↔ ∀ p ∈ ps, covered x p = true := by
  cases ps with
  | nil => cases h
  | cons p rest =>
    rw [List.forall_mem_cons]
    change (minSafeFrom p rest).map some = .ok (some c) at h
    cases hfrom : minSafeFrom p rest with
    | error e =>
      rw [hfrom] at h
      cases h
    | ok c' =>
      rw [hfrom] at h
      cases h
      exact covered_minSafeFrom hfrom x

omit [LawfulPosition P] [LawfulMeeter P] in
/-- Where all pairs have a meet, `MinSafe` meets no error and finds what `Min` does. -/
theorem minSafeFrom_eq_minFrom (hmeets : ∀ a b : P, compare a b = .incomparable → (meet a b).isSome)
    (ps : List P) (best : P) : minSafeFrom best ps = .ok (minFrom best ps) := by
  induction ps generalizing best with
  | nil => rfl
  | cons p rest ih =>
    unfold minSafeFrom minFrom
    split
    · rename_i hinc
      obtain ⟨m, hm⟩ := Option.isSome_iff_exists.mp (hmeets p best hinc)
      rw [hm]
      exact ih m
    · exact ih p
    · exact ih best

theorem covered_minFrom (hmeets : ∀ a b : P, compare a b = .incomparable → (meet a b).isSome)
    (ps : List P) (best x : P) :
    covered x (minFrom best ps) = true ↔ covered x best = true ∧ ∀ p ∈ ps, covered x p = true :=
  covered_minSafeFrom (minSafeFrom_eq_minFrom hmeets ps best) x

end Position

/-- A PostgreSQL log sequence number: a byte offset into the write-ahead
log. -/
structure LSN where
  offset : UInt64
  deriving DecidableEq, Repr

/-- A linear log: offsets compare as numbers, and containment is "at or
before". -/
instance : Position LSN where
  compare l o := if l.offset < o.offset then .less
    else if l.offset > o.offset then .greater
    else .equal
  contains l o := l.offset ≥ o.offset

/-- A linear order needs no meet. -/
instance : Meeter LSN where
  meet _ _ := none

instance : LawfulMeeter LSN where
  covered_meet := nofun

/-- The three cases of two offsets. -/
theorem LSN.compare_cases (a b : LSN) : (a.offset < b.offset ∧ Position.compare a b = .less) ∨
      (a.offset = b.offset ∧ Position.compare a b = .equal) ∨
      (b.offset < a.offset ∧ Position.compare a b = .greater) := by
  simp only [Position.compare]
  by_cases hlt : a.offset < b.offset
  · exact .inl ⟨hlt, if_pos hlt⟩
  · by_cases hgt : a.offset > b.offset
    · exact .inr (.inr ⟨hgt, by rw [if_neg hlt, if_pos hgt]⟩)
    · refine .inr (.inl ⟨?_, by rw [if_neg hlt, if_neg hgt]⟩)
      exact UInt64.le_antisymm (UInt64.not_lt.mp hgt) (UInt64.not_lt.mp hlt)

theorem LSN.covered_iff (a b : LSN) : Position.covered a b = true ↔ a.offset ≤ b.offset := by
  unfold Position.covered
  rcases LSN.compare_cases a b with ⟨h, hc⟩ | ⟨h, hc⟩ | ⟨h, hc⟩
  · rw [hc]
    exact ⟨fun _ => UInt64.le_of_lt h, fun _ => rfl⟩
  · rw [hc, h]
    exact ⟨fun _ => UInt64.le_refl _, fun _ => rfl⟩
  · rw [hc]
    exact ⟨nofun, fun hle => absurd h (UInt64.not_lt.mpr hle)⟩

instance : LawfulPosition LSN where
  covered_trans {a b c} hab hbc := by
    rw [LSN.covered_iff] at hab hbc ⊢
    exact UInt64.le_trans hab hbc
  compare_swap a b := by
    rcases LSN.compare_cases a b with ⟨h, hc⟩ | ⟨h, hc⟩ | ⟨h, hc⟩ <;>
      rcases LSN.compare_cases b a with ⟨h', hc'⟩ | ⟨h', hc'⟩ | ⟨h', hc'⟩ <;>
      rw [hc, hc'] <;> first | rfl | grind

/-- The offset as a number. -/
def LSN.value (l : LSN) : Nat := l.offset.toNat

theorem LSN.covered_iff_value (a b : LSN) : Position.covered a b = true ↔ a.value ≤ b.value := by
  rw [LSN.covered_iff]
  rfl

theorem LSN.advances_iff_value (a b : LSN) : Position.advances a b = true ↔ b.value < a.value := by
  unfold Position.advances LSN.value
  rcases LSN.compare_cases a b with ⟨h, hc⟩ | ⟨h, hc⟩ | ⟨h, hc⟩
  · rw [hc]
    exact ⟨nofun, fun hlt => absurd h (UInt64.lt_asymm hlt)⟩
  · rw [hc, h]
    exact ⟨nofun, fun hlt => absurd hlt (UInt64.lt_irrefl _)⟩
  · rw [hc]
    exact ⟨fun _ => h, fun _ => rfl⟩

end Urutau
