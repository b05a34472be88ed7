import Urutau.GtidSets
import Urutau.ResumeStart

/-!
# The start of a fresh boot

When no table has a committed position, the stream starts at the minimum of the explicit
bootstrap positions, taken with `Min`.  Kafka offsets that diverge have a meet and the minimum
is their greatest lower bound.  GTID sets and the opaque positions of a plugin have none:
where two are incomparable `Min` keeps the one it met first.
-/

namespace Urutau

open List Position LawfulPosition

/-- `StringPosition`: the opaque position of a plugin. -/
structure StringPosition where
  offset : String
  deriving DecidableEq, Repr

namespace StringPosition

/-- Only identity is defined. -/
instance : Position StringPosition where
  compare p other := if p.offset = other.offset then .equal else .incomparable
  contains p other := p.offset = other.offset

instance : Meeter StringPosition where
  meet _ _ := none

theorem covered_iff (a b : StringPosition) : covered a b = true ↔ a = b := by
  cases a with
  | mk a =>
    cases b with
    | mk b =>
      simp only [Position.covered, Position.compare]
      by_cases h : a = b <;> simp [h]

instance : LawfulPosition StringPosition where
  covered_trans hab hbc := by
    rw [covered_iff] at hab hbc ⊢
    exact hab.trans hbc
  compare_swap a b := by
    simp only [Position.compare]
    by_cases h : a.offset = b.offset
    · simp [h, Comparison.swap]
    · simp [h, Ne.symm h, Comparison.swap]

instance : LawfulMeeter StringPosition where
  covered_meet := nofun

end StringPosition

/-- The positions of one source: containment is the order, and either any two that diverge have
a meet, or no two have. -/
class SourcePosition (P : Type) [Position P] [Meeter P] : Prop
    extends LawfulPosition P, LawfulMeeter P where
  contains_iff : ∀ a b : P, contains a b = true ↔ covered b a = true
  covered_refl : ∀ a : P, covered a a = true
  meets : (∀ a b : P, compare a b = .incomparable → (meet a b).isSome = true) ∨
    ∀ a b : P, meet a b = none

/-- Postgres. -/
instance : SourcePosition LSN where
  contains_iff a b := by
    rw [LSN.covered_iff]
    simp [Position.contains]
  covered_refl a := (LSN.covered_iff a a).mpr (UInt64.le_refl _)
  meets := .inr fun _ _ => rfl

/-- MySQL. -/
instance : SourcePosition GTID where
  contains_iff a b := (GTID.covered_iff b a).symm
  covered_refl a := (GTID.covered_iff a a).mpr (GTID.contains_refl a)
  meets := .inr fun _ _ => rfl

/-- Kafka. -/
instance : SourcePosition Offsets where
  contains_iff a b := (Offsets.covered_iff b a).symm
  covered_refl a := by
    simp only [Position.covered, Position.compare, Offsets.compare]
    have hself : a.contains a = true := by
      rw [Offsets.contains_iff]
      intro e he
      exact ⟨e.2, AssocLists.lookup_of_mem a.distinct he, Nat.le_refl _⟩
    simp [hself]
  meets := .inl fun _ _ _ => rfl

/-- A plugin. -/
instance : SourcePosition StringPosition where
  contains_iff a b := by
    rw [StringPosition.covered_iff]
    cases a with
    | mk a => cases b with
      | mk b => simp [Position.contains, eq_comm]
  covered_refl a := (StringPosition.covered_iff a a).mpr rfl
  meets := .inr fun _ _ => rfl

namespace Position

variable {P : Type} [Position P] [Meeter P] [SourcePosition P]

/-- The fold only goes down. -/
theorem minFrom_covered (ps : List P) (best : P) : covered (minFrom best ps) best = true := by
  induction ps generalizing best with
  | nil => exact SourcePosition.covered_refl best
  | cons p rest ih =>
    unfold minFrom
    split
    · cases hmeet : meet p best with
      | none => exact ih best
      | some m =>
        have hm : covered m best = true :=
          ((covered_meet hmeet m).mp (SourcePosition.covered_refl m)).2
        exact covered_trans (ih m) hm
    · rename_i hless
      have hp : covered p best = true := by
        unfold covered
        rw [hless]
      exact covered_trans (ih p) hp
    · exact ih best

omit [SourcePosition P] in
/-- Without meets the fold ends at one of its inputs. -/
theorem minFrom_mem (hnone : ∀ a b : P, meet a b = none) (ps : List P) (best : P) :
    minFrom best ps ∈ best :: ps := by
  induction ps generalizing best with
  | nil => exact mem_singleton_self best
  | cons p rest ih =>
    unfold minFrom
    split
    · rw [hnone, Option.getD_none]
      exact cons_subset_cons _ (subset_cons_self _ _) (ih best)
    · exact mem_cons_of_mem _ (ih p)
    · exact cons_subset_cons _ (subset_cons_self _ _) (ih best)

variable {ps : List P}

/-- An input that every other one contains is where the fold ends, up to equality. -/
theorem minFrom_least (hnone : ∀ a b : P, meet a b = none) {best m : P}
    (hm : m ∈ best :: ps) (hleast : ∀ p ∈ best :: ps, covered m p = true) :
    covered (minFrom best ps) m = true := by
  induction ps generalizing best with
  | nil =>
    cases mem_singleton.mp hm
    exact SourcePosition.covered_refl m
  | cons p rest ih =>
    have hbest : covered m best = true := hleast best mem_cons_self
    have hp : covered m p = true := hleast p (mem_cons_of_mem _ mem_cons_self)
    have hrest : ∀ q ∈ rest, covered m q = true := fun q hq =>
      hleast q (mem_cons_of_mem _ (mem_cons_of_mem _ hq))
    have hkeep : m ∈ best :: rest → covered (minFrom best rest) m = true := fun hin =>
      ih hin (forall_mem_cons.mpr ⟨hbest, hrest⟩)
    unfold minFrom
    split
    · rename_i hinc
      rw [hnone]
      refine hkeep ?_
      rcases mem_cons.mp hm with rfl | hin
      · exact mem_cons_self
      rcases mem_cons.mp hin with rfl | hlater
      · unfold covered at hbest
        rw [hinc] at hbest
        cases hbest
      · exact mem_cons_of_mem _ hlater
    · rename_i hless
      refine ih ?_ (forall_mem_cons.mpr ⟨hp, hrest⟩)
      rcases mem_cons.mp hm with rfl | hin
      · have hadvances : advances m p = true := by
          unfold advances
          rw [compare_swap, hless]
          rfl
        exact (nomatch hp.symm.trans (not_covered_of_advances hadvances))
      · exact hin
    · rename_i hinc hless
      rcases mem_cons.mp hm with rfl | hin
      · exact hkeep mem_cons_self
      rcases mem_cons.mp hin with rfl | hlater
      · -- The least one comes after an equal: the fold stays at or below that.
        have hequal : covered best m = true := covered_of_not_less hinc hless
        exact covered_trans (minFrom_covered rest best) hequal
      · exact hkeep (mem_cons_of_mem _ hlater)

/-- The positions have a lower bound `Min` finds: their kind has meets, or one of them is
contained in every other one. -/
def Bounded (ps : List P) : Prop :=
  (∀ a b : P, compare a b = .incomparable → (meet a b).isSome = true) ∨
    ps = [] ∨ ∃ m ∈ ps, ∀ p ∈ ps, contains p m = true

/-- What the minimum of bounded positions covers is what all of them cover. -/
theorem Bounded.covered_min (h : Bounded ps) {c : P} (hc : min ps = some c)
    (x : P) : covered x c = true ↔ ∀ p ∈ ps, covered x p = true := by
  cases ps with
  | nil => cases hc
  | cons best rest =>
    cases hc
    rcases SourcePosition.meets (P := P) with hmeets | hnone
    · rw [covered_minFrom hmeets, forall_mem_cons]
    have hin := minFrom_mem hnone rest best
    refine ⟨fun hx p hp => ?_, fun hall => hall _ hin⟩
    rcases h with hmeets | hnil | ⟨m, hm, hleast⟩
    · have hall := (covered_minFrom hmeets rest best x).mp hx
      exact (forall_mem_cons (p := fun q => covered x q = true)).mpr hall p hp
    · cases hnil
    · have hcovered : ∀ q ∈ best :: rest, covered m q = true := fun q hq =>
        (SourcePosition.contains_iff q m).mp (hleast q hq)
      have hxm : covered x m = true := covered_trans hx (minFrom_least hnone hm hcovered)
      exact covered_trans hxm (hcovered p hp)

/-- A minimum every position contains bounds them. -/
theorem bounded_of_contained
    (h : ∀ c, min ps = some c → ∀ p ∈ ps, contains p c = true) : Bounded ps := by
  rcases SourcePosition.meets (P := P) with hmeets | hnone
  · exact .inl hmeets
  · cases ps with
    | nil => exact .inr (.inl rfl)
    | cons best rest =>
      exact .inr (.inr ⟨minFrom best rest, minFrom_mem hnone rest best, h _ rfl⟩)

omit [SourcePosition P] in
theorem Bounded.perm {qs : List P} (h : Bounded ps) (hperm : ps.Perm qs) : Bounded qs := by
  rcases h with hmeets | rfl | ⟨m, hm, hleast⟩
  · exact .inl hmeets
  · exact .inr (.inl (nil_perm.mp hperm))
  · exact .inr (.inr ⟨m, hperm.mem_iff.mp hm, fun p hp => hleast p (hperm.mem_iff.mpr hp)⟩)

end Position

namespace Resume

variable {P : Type} [Position P] [Meeter P] {parsePosition : String → Except String P}
  {snk : ResumeSink} {opts : ResumeOptions}

/-- Two starts are the same point of the log. -/
def SameStart : Option P → Option P → Prop
  | none, none => True
  | some p, some q => contains p q = true ∧ contains q p = true
  | _, _ => False

/-- The start is contained in every explicit position, and it is the same in whatever order the
bootstrap blocks are listed. -/
def ExplicitSafe (parsePosition : String → Except String P) (snk : ResumeSink)
    (opts : ResumeOptions) (refs : List ResumeRef) (res : ResumeResult P) : Prop :=
  (∀ start, res.start = some start → ∀ p ∈ res.explicit, contains p start = true) ∧
    ∀ bootstrap, bootstrap.Perm opts.bootstrap →
      ∃ res', resolve parsePosition snk refs { opts with bootstrap := bootstrap } = .ok res' ∧
        SameStart res.start res'.start

omit [Position P] [Meeter P] in
theorem parseExplicit_cons (e : String × Bootstrap) {l : List (String × Bootstrap)} {ps : List P} :
    parseExplicit parsePosition (e :: l) = .ok ps ↔ ∃ rest,
      parseExplicit parsePosition l = .ok rest ∧
        (((!e.2.startAtExplicit || e.2.position = "") = true ∧ ps = rest) ∨
          ((!e.2.startAtExplicit || e.2.position = "") = false ∧
            ∃ p, parsePosition e.2.position = .ok p ∧ ps = p :: rest)) := by
  rw [parseExplicit]
  cases (!e.2.startAtExplicit || decide (e.2.position = "")) with
  | true =>
    refine ⟨fun h => ⟨ps, h, .inl ⟨rfl, rfl⟩⟩, fun ⟨rest, h, hps⟩ => ?_⟩
    rcases hps with ⟨_, rfl⟩ | ⟨htake, _⟩
    · exact h
    · cases htake
  | false =>
    cases parsePosition e.2.position with
    | error err => simp
    | ok p =>
      cases parseExplicit parsePosition l with
      | error err => simp [Except.map]
      | ok rest => simp [Except.map, eq_comm]

omit [Position P] [Meeter P] in
theorem parseExplicit_perm {l l' : List (String × Bootstrap)} (hperm : l.Perm l') {ps : List P}
    (h : parseExplicit parsePosition l = .ok ps) :
    ∃ ps', parseExplicit parsePosition l' = .ok ps' ∧ ps.Perm ps' := by
  induction hperm generalizing ps with
  | nil => exact ⟨ps, h, .rfl⟩
  | cons e _ ih =>
    obtain ⟨rest, hrest, hhead⟩ := (parseExplicit_cons e).mp h
    obtain ⟨rest', hrest', hperm'⟩ := ih hrest
    rcases hhead with ⟨hskip, rfl⟩ | ⟨htake, p, hp, rfl⟩
    · exact ⟨rest', (parseExplicit_cons e).mpr ⟨rest', hrest', .inl ⟨hskip, rfl⟩⟩, hperm'⟩
    · exact ⟨p :: rest', (parseExplicit_cons e).mpr ⟨rest', hrest', .inr ⟨htake, p, hp, rfl⟩⟩,
        hperm'.cons p⟩
  | swap e₁ e₂ l =>
    obtain ⟨mid, hmid, hhead⟩ := (parseExplicit_cons e₂).mp h
    obtain ⟨rest, hrest, hnext⟩ := (parseExplicit_cons e₁).mp hmid
    rcases hhead with ⟨hskip, rfl⟩ | ⟨htake, p, hp, rfl⟩
    · exact ⟨ps, (parseExplicit_cons e₁).mpr
        ⟨rest, (parseExplicit_cons e₂).mpr ⟨rest, hrest, .inl ⟨hskip, rfl⟩⟩,
        hnext⟩, .rfl⟩
    · have hlater : parseExplicit parsePosition (e₂ :: l) = .ok (p :: rest) :=
        (parseExplicit_cons e₂).mpr ⟨rest, hrest, .inr ⟨htake, p, hp, rfl⟩⟩
      rcases hnext with ⟨hskip', rfl⟩ | ⟨htake', q, hq, rfl⟩
      · exact ⟨p :: mid, (parseExplicit_cons e₁).mpr ⟨p :: mid, hlater, .inl ⟨hskip', rfl⟩⟩, .rfl⟩
      · exact ⟨q :: p :: rest,
          (parseExplicit_cons e₁).mpr ⟨p :: rest, hlater, .inr ⟨htake', q, hq, rfl⟩⟩,
          List.Perm.swap q p rest⟩
  | trans _ _ ih₁ ih₂ =>
    obtain ⟨mid, hmid, hperm₁⟩ := ih₁ h
    obtain ⟨ps', hps', hperm₂⟩ := ih₂ hmid
    exact ⟨ps', hps', hperm₁.trans hperm₂⟩

omit [Position P] [Meeter P] in
/-- The scan of the tables does not look at the order of the bootstrap blocks. -/
theorem visit_perm {bootstrap : List (String × Bootstrap)} (hperm : bootstrap.Perm opts.bootstrap) :
    visit parsePosition snk { opts with bootstrap := bootstrap } =
      visit parsePosition snk opts := by
  have hadopts : ∀ t, adopts { opts with bootstrap := bootstrap } t = adopts opts t :=
    fun t => hperm.any_eq
  have hneed : ∀ (acc : ResumeScan P) ref,
      need { opts with bootstrap := bootstrap } acc ref = need opts acc ref := by
    intro acc ref
    simp only [need, hadopts]
  funext acc r
  simp only [visit, hneed]
  rfl

section

variable {refs : List ResumeRef} {res : ResumeResult P}
  (hfresh : ∀ r ∈ refs, committedOf parsePosition snk opts r = none)
  (hres : resolve parsePosition snk refs opts = .ok res)
include hfresh hres

/-- On a fresh boot the start is the minimum of the explicit positions. -/
theorem resolve_fresh :
    (∃ acc, refs.foldlM (visit parsePosition snk opts) ⟨[], [], [], fun _ => none⟩ = .ok acc ∧
      acc.positions = []) ∧
      parseExplicit parsePosition opts.bootstrap = .ok res.explicit ∧
      res.start = min res.explicit := by
  unfold resolve at hres
  split at hres
  · cases hres
  rename_i acc hscan
  have hpos : acc.positions = [] := by
    rw [(scan_spec hscan).1, nil_append, filterMap_eq_nil_iff]
    exact hfresh
  rw [hpos] at hres
  cases hexp : parseExplicit parsePosition opts.bootstrap with
  | error e =>
    rw [hexp] at hres
    cases hres
  | ok explicit =>
    rw [hexp] at hres
    cases hres
    exact ⟨⟨acc, hscan, hpos⟩, rfl, rfl⟩

/-- A fresh boot stays one, with the explicit positions permuted. -/
theorem resolve_perm
    {bootstrap : List (String × Bootstrap)} (hperm : bootstrap.Perm opts.bootstrap) :
    ∃ res', resolve parsePosition snk refs { opts with bootstrap := bootstrap } = .ok res' ∧
      res.explicit.Perm res'.explicit ∧ res'.start = min res'.explicit := by
  obtain ⟨⟨acc, hscan, hpos⟩, hexp, _⟩ := resolve_fresh hfresh hres
  obtain ⟨explicit, hexp', hps⟩ := parseExplicit_perm hperm.symm hexp
  have hres' : ∃ res', resolve parsePosition snk refs { opts with bootstrap := bootstrap } =
      .ok res' ∧ res'.explicit = explicit ∧ res'.start = min explicit := by
    unfold resolve
    rw [visit_perm hperm, hscan]
    simp only [hpos, hexp']
    exact ⟨_, rfl, rfl, rfl⟩
  obtain ⟨res', hok, rfl, hstart⟩ := hres'
  exact ⟨res', hok, hps, hstart⟩

end

variable [SourcePosition P]

/-- Bounded positions have one minimum, whatever their order. -/
theorem sameStart_of_perm {ps qs : List P} (hbound : Position.Bounded ps) (hperm : ps.Perm qs) :
    SameStart (min ps) (min qs) := by
  cases hp : min ps with
  | none =>
    cases ps with
    | nil =>
      rw [nil_perm.mp hperm]
      trivial
    | cons best rest => cases hp
  | some p =>
    cases hq : min qs with
    | none =>
      cases qs with
      | nil =>
        rw [perm_nil.mp hperm] at hp
        cases hp
      | cons best rest => cases hq
    | some q =>
      have hiff : ∀ x, covered x p = true ↔ covered x q = true := by
        intro x
        rw [hbound.covered_min hp, (hbound.perm hperm).covered_min hq]
        exact ⟨fun h y hy => h y (hperm.mem_iff.mpr hy), fun h y hy => h y (hperm.mem_iff.mp hy)⟩
      exact ⟨(SourcePosition.contains_iff p q).mpr ((hiff q).mpr (SourcePosition.covered_refl q)),
        (SourcePosition.contains_iff q p).mpr ((hiff p).mp (SourcePosition.covered_refl p))⟩

/-- **A fresh boot starts at a point every explicit position contains, and at the same one in
any order, exactly when the positions have a bound `Min` finds.** -/
theorem explicit_start_safe_iff_bounded {refs : List ResumeRef} {res : ResumeResult P}
    (hfresh : ∀ r ∈ refs, committedOf parsePosition snk opts r = none)
    (hres : resolve parsePosition snk refs opts = .ok res) :
    ExplicitSafe parsePosition snk opts refs res ↔
      Position.Bounded (explicitOf parsePosition opts) := by
  obtain ⟨_, hexp, hstart⟩ := resolve_fresh hfresh hres
  have hexplicit : explicitOf parsePosition opts = res.explicit := by
    rw [explicitOf, hexp]
    rfl
  rw [hexplicit]
  constructor
  · intro hsafe
    exact bounded_of_contained fun c hc => hsafe.1 c (hstart.trans hc)
  intro hbound
  refine ⟨fun start hs p hp => ?_, fun bootstrap hperm => ?_⟩
  · rw [hstart] at hs
    exact (SourcePosition.contains_iff p start).mpr
      ((hbound.covered_min hs start).mp (SourcePosition.covered_refl start) p hp)
  · obtain ⟨res', hok, hps, hstart'⟩ := resolve_perm hfresh hres hperm
    refine ⟨res', hok, ?_⟩
    rw [hstart, hstart']
    exact sameStart_of_perm hbound hps

/-- Transactions 1 to 3 of the first server. -/
def firstThree : GTID :=
  ⟨[("3e11fa47-71ca-11e1-9e33-c80aa9429562", [⟨1, 4⟩])], by decide, by decide⟩

/-- Transactions 1 to 5 of the first server. -/
def firstFive : GTID := ⟨[("3e11fa47-71ca-11e1-9e33-c80aa9429562", [⟨1, 6⟩])], by decide, by decide⟩

/-- Transactions 1 to 5 of the server a failover promoted. -/
def promotedFive : GTID :=
  ⟨[("9c2b7d10-71ca-11e1-9e33-c80aa9429562", [⟨1, 6⟩])], by decide, by decide⟩

/-- The three positions the examples configure. -/
def parseConfigured (s : String) : Except String GTID :=
  if s = "3e11fa47-71ca-11e1-9e33-c80aa9429562:1-3" then .ok firstThree
  else if s = "3e11fa47-71ca-11e1-9e33-c80aa9429562:1-5" then .ok firstFive
  else if s = "9c2b7d10-71ca-11e1-9e33-c80aa9429562:1-5" then .ok promotedFive
  else .error "position: parse gtid"

/-- No table has a committed position. -/
def nothingCommitted : ResumeSink where
  position _ := .ok ""
  properties _ := .ok fun _ => ""

/-- Both tables start at an explicit position. -/
def startAt (orders returns : String) : ResumeOptions where
  capsSnapshot := true
  owners := none
  bootstrap := [("orders", ⟨.adopt, true, orders⟩), ("returns", ⟨.adopt, true, returns⟩)]

/-- One server: the start is the earlier of the two positions. -/
theorem explicit_start_safe_oneServer : ∃ res, resolve parseConfigured nothingCommitted bothTables
        (startAt "3e11fa47-71ca-11e1-9e33-c80aa9429562:1-5"
          "3e11fa47-71ca-11e1-9e33-c80aa9429562:1-3") = .ok res ∧
      res.start = some firstThree ∧
      ExplicitSafe parseConfigured nothingCommitted
        (startAt "3e11fa47-71ca-11e1-9e33-c80aa9429562:1-5"
          "3e11fa47-71ca-11e1-9e33-c80aa9429562:1-3") bothTables res := by
  have hstart : ((resolve parseConfigured nothingCommitted bothTables
      (startAt "3e11fa47-71ca-11e1-9e33-c80aa9429562:1-5"
        "3e11fa47-71ca-11e1-9e33-c80aa9429562:1-3")).toOption.map fun res => res.start) =
      some (some firstThree) := by
    decide +kernel
  obtain ⟨res, hres, hst⟩ := Option.map_eq_some_iff.mp hstart
  have hok := eq_ok_of_toOption hres
  refine ⟨res, hok, hst, (explicit_start_safe_iff_bounded (fun _ _ => rfl) hok).mpr ?_⟩
  exact .inr (.inr ⟨firstThree, by decide +kernel, by decide +kernel⟩)

/-- Two servers: the boot starts at the position of the first table, which the one of the
second does not contain, and with the two positions exchanged it starts at the other one. -/
theorem explicit_start_past_promoted : ∃ res, resolve parseConfigured nothingCommitted bothTables
        (startAt "3e11fa47-71ca-11e1-9e33-c80aa9429562:1-5"
          "9c2b7d10-71ca-11e1-9e33-c80aa9429562:1-5") = .ok res ∧
      res.start = some firstFive ∧ promotedFive ∈ res.explicit ∧
      contains promotedFive firstFive = false ∧
      (resolve parseConfigured nothingCommitted bothTables
        (startAt "9c2b7d10-71ca-11e1-9e33-c80aa9429562:1-5"
          "3e11fa47-71ca-11e1-9e33-c80aa9429562:1-5")).toOption.map (fun r => r.start) =
        some (some promotedFive) ∧
      ¬ ExplicitSafe parseConfigured nothingCommitted
        (startAt "3e11fa47-71ca-11e1-9e33-c80aa9429562:1-5"
          "9c2b7d10-71ca-11e1-9e33-c80aa9429562:1-5") bothTables res := by
  have hseen : ((resolve parseConfigured nothingCommitted bothTables
      (startAt "3e11fa47-71ca-11e1-9e33-c80aa9429562:1-5"
        "9c2b7d10-71ca-11e1-9e33-c80aa9429562:1-5")).toOption.map
      fun res => (res.start, res.explicit)) =
      some (some firstFive, [firstFive, promotedFive]) := by
    decide +kernel
  obtain ⟨res, hres, hpair⟩ := Option.map_eq_some_iff.mp hseen
  obtain ⟨hst, hexp⟩ := Prod.mk.inj hpair
  have hin : promotedFive ∈ res.explicit := by
    rw [hexp]
    decide
  have hout : contains promotedFive firstFive = false := by decide
  refine ⟨res, eq_ok_of_toOption hres, hst, hin, hout, by decide +kernel, fun hsafe => ?_⟩
  have hcontained := hsafe.1 firstFive hst promotedFive hin
  cases hcontained

end Resume

end Urutau
