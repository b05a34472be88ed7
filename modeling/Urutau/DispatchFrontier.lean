import Urutau.ExplicitStart

/-!
# The dispatch frontier

The frontier is the greatest of the positions last sent for the tables.  `Frontier` looks for
it in one pass over the map, in whatever order the map yields the tables, and gives up at the
first pair that does not compare.  Positions of which one is beyond all the others can still
hold such a pair, and whether the pass meets it depends on the order: it does not when the
greatest comes first.
-/

namespace Urutau

open Position

/-- `Sent`: the last position sent for each table, as text. -/
structure Sent where
  byTable : List (String × String)
  distinct : (byTable.map Prod.fst).Nodup

namespace Sent

variable {P : Type} [Position P] (parse : String → Option P)

/-- The loop of `Frontier`.  A text that does not parse is skipped; the error names the best so
far and the candidate it does not compare with. -/
def frontierFrom : Option P → List (String × String) → Except (P × P) (Option P)
  | best, [] => .ok best
  | best, e :: rest =>
    match parse e.2, best with
    | none, best => frontierFrom best rest
    | some p, none => frontierFrom (some p) rest
    | some p, some b =>
      match compare p b with
      | .incomparable => .error (b, p)
      | .greater => frontierFrom (some p) rest
      | _ => frontierFrom (some b) rest

/-- `Frontier`, when the map yields the tables in the given order. -/
def frontier (order : List (String × String)) : Except (P × P) (Option P) :=
  frontierFrom parse none order

/-- The positions that parse. -/
def positions (order : List (String × String)) : List P := order.filterMap fun e => parse e.2

/-- One of the positions, at or beyond all of them. -/
def Greatest (ps : List P) (g : P) : Prop := g ∈ ps ∧ ∀ p ∈ ps, covered p g = true

/-- What the frontier of the positions has to be: the greatest where there is one, no position
before any dispatch, and an error otherwise. -/
def Right (ps : List P) : Except (P × P) (Option P) → Prop
  | .ok none => ps = []
  | .ok (some g) => Greatest ps g
  | .error _ => ps ≠ [] ∧ ¬∃ g, Greatest ps g

variable {parse}

/-- What a pass over the positions has found when it ends: the greatest, no position, or a pair
that does not compare. -/
def Found (ps : List P) : Except (P × P) (Option P) → Prop
  | .ok none => ps = []
  | .ok (some g) => Greatest ps g
  | .error (b, p) => b ∈ ps ∧ p ∈ ps ∧ compare p b = .incomparable

variable {r : Except (P × P) (Option P)}

variable {ps : List P} {p q : P}

theorem Found.perm {qs : List P} (h : Found ps r) (hperm : ps.Perm qs) : Found qs r := by
  match r with
  | .ok none => exact (h ▸ hperm).nil_eq.symm
  | .ok (some g) => simpa only [Found, Greatest, hperm.mem_iff] using h
  | .error (b, p) => simpa only [Found, hperm.mem_iff] using h

/-- Two tables that come first decide, if their positions do not compare. -/
theorem frontier_first {e f : String × String} {rest : List (String × String)}
    (he : parse e.2 = some p) (hf : parse f.2 = some q) (h : compare q p = .incomparable) :
    frontier parse (e :: f :: rest) = .error (p, q) := by
  simp [frontier, frontierFrom, he, hf, h]

omit [Position P] in
/-- Any two tables with different positions can come first. -/
theorem exists_order {byTable : List (String × String)} (hne : p ≠ q)
    (hp : p ∈ positions parse byTable) (hq : q ∈ positions parse byTable) :
    ∃ e f rest, parse e.2 = some p ∧ parse f.2 = some q ∧ (e :: f :: rest).Perm byTable := by
  obtain ⟨e, hemem, he⟩ := List.mem_filterMap.mp hp
  obtain ⟨f, hfmem, hf⟩ := List.mem_filterMap.mp hq
  have hef : f ≠ e := by
    rintro rfl
    exact hne (Option.some.inj (he.symm.trans hf))
  refine ⟨e, f, (byTable.erase e).erase f, he, hf, ?_⟩
  have hf' : f ∈ byTable.erase e := (List.mem_erase_of_ne hef).mpr hfmem
  exact ((List.perm_cons_erase hf').symm.cons e).trans (List.perm_cons_erase hemem).symm

/-- Where all compare once there is a greatest, what is found is right. -/
theorem Found.right (h : Found ps r)
    (hcomp : (∃ g, Greatest ps g) → ∀ p ∈ ps, ∀ q ∈ ps, compare p q ≠ .incomparable) :
    Right ps r := by
  match r with
  | .ok none | .ok (some g) => exact h
  | .error (b, p) =>
    obtain ⟨hb, hp, hinc⟩ := h
    exact ⟨List.ne_nil_of_mem hb, fun hg => hcomp hg p hp b hb hinc⟩

variable [Meeter P] [SourcePosition P]

/-- The best so far stands for what it is beyond. -/
theorem Found.cons {b c : P}
    (h : Found (b :: ps) r) (hle : covered c b = true) : Found (b :: c :: ps) r := by
  match r with
  | .ok none => cases h
  | .ok (some g) =>
    obtain ⟨hmem, hall⟩ := h
    have hc : covered c g = true := LawfulPosition.covered_trans hle (hall b List.mem_cons_self)
    exact ⟨by grind, by grind⟩
  | .error (b', p) => exact ⟨by grind [Found], by grind [Found], h.2.2⟩

theorem found_frontierFrom (best : Option P) (order : List (String × String)) :
    Found (best.toList ++ positions parse order) (frontierFrom parse best order) := by
  induction order generalizing best with
  | nil =>
    cases best with
    | none => rfl
    | some b => simp [frontierFrom, positions, Found, Greatest, SourcePosition.covered_refl]
  | cons e rest ih =>
    unfold frontierFrom
    cases hp : parse e.2 with
    | none => simpa [positions, hp] using ih best
    | some p =>
      have hpos : positions parse (e :: rest) = p :: positions parse rest := by
        simp [positions, hp]
      rw [hpos]
      cases best with
      | none => exact ih (some p)
      | some b =>
        dsimp only
        cases hc : compare p b with
        | incomparable => exact ⟨by simp, by simp, hc⟩
        | greater =>
          -- the candidate is the new best, and the old one is before it
          have hle : covered b p = true := covered_of_not_less (by simp [hc]) (by simp [hc])
          exact ((ih (some p)).cons hle).perm (.swap ..)
        | less | equal =>
          have hle : covered p b = true := by simp [covered, hc]
          exact (ih (some b)).cons hle

/-- **The frontier is free of the order exactly when no two positions before a greatest one
fail to compare.** -/
theorem frontier_order_free (parse : String → Option P) (sent : Sent) :
    (∀ order, order.Perm sent.byTable →
      Right (positions parse sent.byTable) (frontier parse order)) ↔
    ((∃ g, Greatest (positions parse sent.byTable) g) →
      ∀ p ∈ positions parse sent.byTable, ∀ q ∈ positions parse sent.byTable,
        compare p q ≠ .incomparable) := by
  constructor
  · intro hright hg p hp q hq hinc
    have hne : p ≠ q := by
      rintro rfl
      have hrefl := SourcePosition.covered_refl p
      simp [covered, hinc] at hrefl
    obtain ⟨e, f, rest, he, hf, hperm⟩ := exists_order hne hp hq
    have hswap : compare q p = .incomparable := by
      rw [LawfulPosition.compare_swap, hinc]
      rfl
    have hfirst := hright _ hperm
    rw [frontier_first he hf hswap] at hfirst
    exact hfirst.2 hg
  · intro hcomp order hperm
    have hfound := (found_frontierFrom none order : Found (positions parse order) _)
    exact (hfound.perm (hperm.filterMap _)).right hcomp

/-! ### Three tables of one topic -/

/-- Offsets of partition 0, of partition 1, and of both. -/
def threeParse (text : String) : Option Offsets :=
  [("a", Offsets.record "orders" 0 5), ("b", Offsets.record "orders" 1 5),
    ("c", ⟨[(("orders", 0), 5), (("orders", 1), 5)], by decide⟩)].lookup text

def threeSent : Sent := ⟨[("x", "a"), ("y", "b"), ("z", "c")], by decide⟩

/-- The third table's position is beyond both others.  One order finds it, another ends in the
error. -/
theorem frontier_depends_on_order : Greatest (positions threeParse threeSent.byTable)
      ⟨[(("orders", 0), 5), (("orders", 1), 5)], by decide⟩ ∧
    frontier threeParse threeSent.byTable =
      .error (Offsets.record "orders" 0 5, Offsets.record "orders" 1 5) ∧
    threeSent.byTable.reverse.Perm threeSent.byTable ∧
    frontier threeParse threeSent.byTable.reverse =
      .ok (some ⟨[(("orders", 0), 5), (("orders", 1), 5)], by decide⟩) := by
  refine ⟨⟨by decide, by decide⟩, rfl, List.reverse_perm _, rfl⟩

/-- Without the first table every order finds the greatest. -/
theorem frontier_two_tables : Right (positions threeParse [("y", "b"), ("z", "c")])
    (frontier threeParse [("z", "c"), ("y", "b")]) :=
  (frontier_order_free threeParse ⟨[("y", "b"), ("z", "c")], by decide⟩).mpr
    (fun _ => by decide) _ (by decide)

end Sent

end Urutau
