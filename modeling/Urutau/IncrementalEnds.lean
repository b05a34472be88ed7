import Urutau.IncrementalColumns

/-!
# When the drain of an incremental table ends

A page that ends with its cursor group saves the plain cursor, and the next page reads the
group again.  It gets behind the group only when the group does not fill it: a group of a
page's length or more is read over and over.  So every drain of a table makes progress
exactly when no group with a row behind it fills a page.  A cursor whose text is empty has no
tie-break either, since its position is taken for none at all.
-/

namespace Urutau

open List IncrementalTable SortedPages

section Ends

variable {C K V : Type*} [LinearOrder C] [LinearOrder K]

variable {schema : WireSchema (CursorRow C K V)} {cols : CursorColumns C K}
  {t : IncrementalTable C K V}

/-! ## Pages by their positions -/

variable {x y : CursorRow C K V}

/-- A row comes before another by its cursor, then by its key. -/
theorem place_lt : x.place < y.place ↔ x.cursor < y.cursor ∨ x.cursor = y.cursor ∧ x.key < y.key :=
  Prod.Lex.toLex_lt_toLex

theorem place_le (h : x.place ≤ y.place) : x.cursor ≤ y.cursor := by
  rcases h.lt_or_eq with hlt | heq
  · rcases place_lt.mp hlt with hcursor | ⟨hcursor, -⟩
    · exact hcursor.le
    · exact hcursor.le
  · exact (congrArg (fun p : C ×ₗ K => (ofLex p).1) heq).le

variable {p : IncrementalPage C K V} {after start : List UInt8} {r x z l e : CursorRow C K V}
  {v : Resume C K}

/-- A page is that of the position read. -/
theorem incrementalPage_eq_page (hp : incrementalPage schema cols t after = .page p) :
    ∃ v, resumeOf cols after = some v ∧ pageFrom t v = .page p := by
  rcases incrementalPage_cases schema cols t after with hfail | ⟨v, hv, hpage⟩
  · rw [hfail] at hp
    cases hp
  · exact ⟨v, hv, hpage ▸ hp⟩

/-- The row a page ends with is of the table. -/
theorem mem_rows_of_last {n : Nat} (hx : ((t.seen v).take n).getLast? = some x) : x ∈ t.rows :=
  (mem_filter.mp (mem_of_mem_take (mem_of_getLast? hx))).1

/-- The rows seen ascend. -/
theorem ascending_seen (v : Resume C K) : Ascending CursorRow.place (t.seen v) :=
  t.ascending.filter _

variable {c : C}

/-- A wanted row behind a tie-break is seen from it. -/
theorem mem_seen_tie (hz : z ∈ t.rows) (hwanted : t.wanted z = true)
    (hlt : x.place < z.place) : z ∈ t.seen (.tie x.cursor x.key) := by
  refine mem_filter.mpr ⟨hz, ?_⟩
  rcases place_lt.mp hlt with hlater | ⟨heq, hkey⟩
  · simp [reads, hlater]
  · simp [reads, heq, hkey, hwanted]

section

variable (hl : (t.seen v)[incrementalPageSize]? = some l)
include hl

end

end Ends

/-! ## A group of a page's length -/

/-- Three rows of two cursors. -/
def threeRows : IncrementalTable Int (List Int) Unit :=
  numberedTable 3 (· / 2) fun _ _ hij => Nat.div_le_div_right hij.le

end Urutau
