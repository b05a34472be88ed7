import Urutau.GroupedLists
import Urutau.GuardedRun

/-!
# The puller's cuts

A decoder that bounds its transactions hands the puller the rows of a transaction, and then its
end.  At the end the rows are filed in the buffer, table by table.  `makeBatch` takes rows of one
table off the front of the buffer, as many as fit a batch.

Where the rows that are left go on with the transaction and the table of the last row taken, the
batch is a piece: it is marked partial, and all of its rows are stamped with the position of the
last transaction that is wholly out.  All of them: the rows of a transaction that ends inside such
a batch lose their position, and no later batch has it.
-/

namespace Urutau

open List Groups Runs

/-! ## The puller -/

/-- A decoded change: what the puller reads of it, and the rest of the row. -/
structure PulledChange (R : Type) where
  table : String
  position : String
  row : R
  deriving DecidableEq, Repr

def maxBatchRows : Nat := 2000

def batchTargetBytes : Nat := 4 * 2 ^ 20

/-- A batch.  History: the changes it was made of, as they were taken. -/
structure PulledBatch (R : Type) where
  table : String
  rows : List (PulledChange R)
  isPartial : Bool
  run : List (PulledChange R)
  deriving DecidableEq, Repr

/-- The puller.  History: the changes taken, the resume position and those of the transactions
that have ended, and the batches made. -/
structure PullerState (R : Type) where
  opened : List (PulledChange R)
  buf : List (PulledChange R)
  safePos : String
  taken : List (PulledChange R)
  ended : List String
  made : List (PulledBatch R)

inductive PullAction (R : Type)
  | take (c : PulledChange R)
  | txnEnd
  | makeBatch

variable {R : Type} (rowBytes : R → Nat)

/-- `changeBytes`. -/
def PulledChange.bytes (c : PulledChange R) : Nat := c.position.utf8ByteSize + 16 + rowBytes c.row

/-- The loop of `makeBatch`: a run goes on while the next row is of its table and fits. -/
def cutRun (table : String) (run : List (PulledChange R)) :
    List (PulledChange R) → List (PulledChange R) × List (PulledChange R)
  | [] => (run, [])
  | c :: rest =>
    if run.length < maxBatchRows ∧ c.table = table ∧
        (run.map (·.bytes rowBytes)).sum + c.bytes rowBytes ≤ batchTargetBytes then
      cutRun table (run ++ [c]) rest
    else (run, c :: rest)

/-- The loop of `take` at a transaction's end: each round files the rows of one table. -/
def groupTables : Nat → List (PulledChange R) → List (PulledChange R)
  | 0, _ => []
  | _, [] => []
  | n + 1, c :: rest =>
    (c :: rest).filter (·.table = c.table) ++ groupTables n ((c :: rest).filter (·.table ≠ c.table))

namespace PullerState

def init (resume : String) : PullerState R := ⟨[], [], resume, [], [resume], []⟩

/-- The batch of a run, with the rest left in the buffer. -/
def cutBatch (s : PullerState R) (table lastPos : String) (run rest : List (PulledChange R)) :
    PullerState R :=
  let continues := rest.head?.any fun c => c.position = lastPos
  let isPartial := rest.head?.any fun c => c.position = lastPos ∧ c.table = table
  { s with
    buf := rest
    safePos := if !isPartial && !continues && lastPos != "" then lastPos else s.safePos
    made := s.made ++ [⟨table,
      if isPartial then run.map fun c => { c with position := s.safePos } else run,
      isPartial, run⟩] }

def makeBatch (s : PullerState R) : Option (PullerState R) :=
  match s.buf with
  | [] => none
  | first :: more =>
    let (run, rest) := cutRun rowBytes first.table [first] more
    some (s.cutBatch first.table (run.getLast?.elim "" PulledChange.position) run rest)

/-- What a decoder sends: the rows of a transaction carry its position, which is not the one the
stream resumes from and which no earlier transaction has. -/
def step (s : PullerState R) : PullAction R → Option (PullerState R)
  | .take c =>
    if c.position ∉ s.ended ∧ ∀ o ∈ s.opened, o.position = c.position then
      some { s with opened := s.opened ++ [c], taken := s.taken ++ [c] }
    else none
  | .txnEnd => some { s with
      opened := []
      buf := s.buf ++ groupTables s.opened.length s.opened
      ended := s.ended ++ s.opened.map PulledChange.position }
  | .makeBatch => s.makeBatch rowBytes

end PullerState

/-! ## Where a batch is cut -/

/-- The rows make one batch: they are of one table and within the limits.  A row alone is one. -/
def OneBatch (l : List (PulledChange R)) : Prop :=
  l.length ≤ maxBatchRows ∧ (∀ c ∈ l, ∀ first ∈ l.head?, c.table = first.table) ∧
    (1 < l.length → (l.map (·.bytes rowBytes)).sum ≤ batchTargetBytes)

instance : DecidablePred (OneBatch rowBytes) :=
  fun _ => inferInstanceAs (Decidable (_ ∧ _ ∧ (_ → _)))

variable {rowBytes} {l : List (PulledChange R)} {c first : PulledChange R}

/-- A row joins a batch while it fits. -/
theorem oneBatch_snoc (hl : OneBatch rowBytes l) (hfirst : l.head? = some first) :
    OneBatch rowBytes (l ++ [c]) ↔ l.length < maxBatchRows ∧ c.table = first.table ∧
      (l.map (·.bytes rowBytes)).sum + c.bytes rowBytes ≤ batchTargetBytes := by
  cases l with
  | nil => cases hfirst
  | cons x l =>
    obtain ⟨-, htable, -⟩ := hl
    simp only [OneBatch, cons_append, head?_cons, Option.mem_def, Option.some.injEq,
      forall_eq', length_cons] at htable ⊢
    grind

/-- The loop stops where one row more is too many. -/
theorem cutRun_spec (more : List (PulledChange R)) (hl : OneBatch rowBytes l)
    (hfirst : l.head? = some first) :
    let out := cutRun rowBytes first.table l more
    l ++ more = out.1 ++ out.2 ∧ out.1.head? = some first ∧ OneBatch rowBytes out.1 ∧
      ∀ d ∈ out.2.head?, ¬ OneBatch rowBytes (out.1 ++ [d]) := by
  induction more generalizing l with
  | nil => exact ⟨rfl, hfirst, hl, nofun⟩
  | cons c more ih =>
    rw [cutRun]
    split
    · rename_i hfits
      have hmore : (l ++ [c]).head? = some first := by
        rw [head?_append, hfirst]
        rfl
      simpa using ih ((oneBatch_snoc hl hfirst).mpr hfits) hmore
    · rename_i hfull
      refine ⟨rfl, hfirst, hl, fun d hd hone => hfull ?_⟩
      cases hd
      exact (oneBatch_snoc hl hfirst).mp hone

namespace PullerState

variable {s s' : PullerState R} {resume : String}

/-- A batch is made of the rows up to the cut. -/
theorem makeBatch_spec (hs : s.makeBatch rowBytes = some s') :
    ∃ first last run rest, s' = s.cutBatch first.table last.position run rest ∧
      s.buf = run ++ rest ∧ run.getLast? = some last ∧ run.head? = some first ∧
      OneBatch rowBytes run ∧ ∀ d ∈ rest.head?, ¬ OneBatch rowBytes (run ++ [d]) := by
  unfold makeBatch at hs
  split at hs
  · cases hs
  rename_i first more hbuf
  have hone : OneBatch rowBytes [first] := by simp [OneBatch, maxBatchRows]
  have hspec := cutRun_spec more hone rfl
  generalize cutRun rowBytes first.table [first] more = out at hs hspec
  obtain ⟨run, rest⟩ := out
  obtain ⟨hsplit, hfirst, hspec⟩ := hspec
  obtain ⟨last, hlast⟩ : ∃ last, run.getLast? = some last := by
    cases run with
    | nil => cases hfirst
    | cons c run => exact ⟨_, getLast?_cons⟩
  dsimp only at hs
  rw [hlast] at hs
  exact ⟨first, last, run, rest, (Option.some.inj hs).symm, hbuf.trans hsplit, hlast, hfirst, hspec⟩

end PullerState

/-! ## What is filed -/

/-- The transaction and the table of a change. -/
def PulledChange.piece (c : PulledChange R) : String × String := (c.position, c.table)

theorem PulledChange.piece_eq {c d : PulledChange R} :
    d.piece = c.piece ↔ d.position = c.position ∧ d.table = c.table := Iff.of_eq (Prod.mk.injEq ..)

/-- As many rounds as rows file them all, each table's in order and together. -/
theorem groupTables_spec (n : Nat) (l : List (PulledChange R)) (h : l.length ≤ n)
    (hpos : ∀ x ∈ l, ∀ y ∈ l, y.position = x.position) :
    (∀ c, c ∈ groupTables n l ↔ c ∈ l) ∧ Grouped PulledChange.piece (groupTables n l) ∧
      ∀ t, (groupTables n l).filter (·.table = t) = l.filter (·.table = t) := by
  induction n generalizing l with
  | zero =>
    obtain rfl := length_eq_zero_iff.mp (Nat.le_zero.mp h)
    exact ⟨fun _ => Iff.rfl, trivial, fun _ => rfl⟩
  | succ n ih =>
    cases l with
    | nil => exact ⟨fun _ => Iff.rfl, trivial, fun _ => rfl⟩
    | cons c rest =>
      have hless : ((c :: rest).filter (·.table ≠ c.table)).length ≤ n := by
        rw [filter_cons_of_neg (by simp)]
        exact Nat.le_trans (length_filter_le _ _) (Nat.le_of_succ_le_succ h)
      obtain ⟨hmem, hgrouped, hfilter⟩ := ih _ hless (by grind)
      rw [groupTables]
      refine ⟨by grind, Grouped.append (grouped_of_const ?_) hgrouped ?_, fun t => ?_⟩
      · grind [PulledChange.piece]
      · grind [PulledChange.piece]
      rw [filter_append, hfilter, filter_filter, filter_filter]
      by_cases ht : t = c.table
      · simp [ht]
      have hnone : ∀ x : PulledChange R,
          (decide (x.table = t) && decide (x.table = c.table)) = false := by grind
      have hall : ∀ x : PulledChange R,
          (decide (x.table = t) && decide (x.table ≠ c.table)) = decide (x.table = t) := by
        grind
      simp only [hnone, hall, filter_false, nil_append]

namespace PullerState

variable {s s' : PullerState R} {resume : String}

/-- The changes filed, in order. -/
def filed (s : PullerState R) : List (PulledChange R) := s.made.flatMap PulledBatch.run ++ s.buf

/-- The batches made, and what is still to come, are the changes taken, table by table and in
order; and a batch is of one table. -/
def Concatenates (s : PullerState R) : Prop :=
  (∀ t, ((s.made.flatMap PulledBatch.rows ++ s.buf ++ s.opened).filter (·.table = t)).map
    PulledChange.row = (s.taken.filter (·.table = t)).map PulledChange.row) ∧
  ∀ b ∈ s.made, ∀ c ∈ b.rows, c.table = b.table

/-- What holds of the filed changes whatever is cut. -/
structure Filed (resume : String) (s : PullerState R) : Prop where
  concat : s.Concatenates
  pieces : Grouped PulledChange.piece s.filed
  txns : Grouped PulledChange.position s.filed
  ended : ∀ c ∈ s.filed, c.position ∈ s.ended
  opened : ∀ c ∈ s.opened, c.position ∉ s.ended ∧ ∀ o ∈ s.opened, o.position = c.position
  resumed : resume ∈ s.ended
  safe : s.safePos ∈ resume :: (s.made.flatMap PulledBatch.run).map PulledChange.position
  out : ∀ c ∈ s.buf, c.position ≠ s.safePos

/-- The safe position is that of an ended transaction. -/
theorem Filed.safe_ended (h : Filed resume s) : s.safePos ∈ s.ended := by
  rcases mem_cons.mp h.safe with hsafe | hsafe
  · exact hsafe ▸ h.resumed
  · obtain ⟨c, hc, hpos⟩ := mem_map.mp hsafe
    exact hpos ▸ h.ended c (mem_append_left _ hc)

/-- An ended transaction is filed. -/
theorem Filed.txnEnd (h : Filed resume s) : Filed resume { s with
      opened := []
      buf := s.buf ++ groupTables s.opened.length s.opened
      ended := s.ended ++ s.opened.map PulledChange.position } := by
  obtain ⟨hmem, hpieces, hfilter⟩ := groupTables_spec s.opened.length s.opened (Nat.le_refl _)
    fun c hc => (h.opened c hc).2
  have hnew : ∀ x ∈ s.filed, ∀ y ∈ groupTables s.opened.length s.opened,
      y.position ≠ x.position := by
    intro x hx y hy heq
    exact (h.opened y ((hmem y).mp hy)).1 (heq ▸ h.ended x hx)
  generalize groupTables s.opened.length s.opened = new at *
  have hfiled : ∀ ended, filed { s with opened := [], buf := s.buf ++ new, ended } =
      s.filed ++ new := fun _ => (append_assoc _ _ _).symm
  refine ⟨⟨fun t => ?_, h.concat.2⟩, ?_, ?_, fun c hc => ?_, nofun,
    mem_append_left _ h.resumed, h.safe, fun y hy => ?_⟩
  · rw [← h.concat.1 t]
    simp [hfilter]
  · rw [hfiled]
    exact h.pieces.append hpieces fun x hx y hy heq =>
      hnew x hx y hy (PulledChange.piece_eq.mp heq).1
  · rw [hfiled]
    refine h.txns.append (grouped_of_const fun x hx y hy => ?_) hnew
    exact (h.opened x ((hmem x).mp hx)).2 y ((hmem y).mp hy)
  · grind [h.ended]
  · rcases mem_append.mp hy with hy | hy
    · exact h.out y hy
    · exact fun heq => (h.opened y ((hmem y).mp hy)).1 (heq ▸ h.safe_ended)

variable {last : PulledChange R} {rest : List (PulledChange R)} {a : PullAction R}

/-- A batch cut carries its last row's position. -/
theorem Filed.cutBatch {run : List (PulledChange R)}
    (h : Filed resume s) (hbuf : s.buf = run ++ rest) (hlast : run.getLast? = some last)
    (htable : ∀ c ∈ run, c.table = first.table) :
    Filed resume (s.cutBatch first.table last.position run rest) := by
  have hfiled : (s.cutBatch first.table last.position run rest).filed = s.filed := by
    simp [filed, PullerState.cutBatch, hbuf]
  have hin := mem_of_getLast? hlast
  refine ⟨⟨fun t => ?_, fun b hb c hc => ?_⟩, hfiled ▸ h.pieces, hfiled ▸ h.txns,
    hfiled ▸ h.ended, h.opened, h.resumed, ?_, fun d hd => ?_⟩
  · change _ = (s.taken.filter _).map _
    rw [← h.concat.1 t, hbuf]
    unfold PullerState.cutBatch
    dsimp only
    split
    · simp only [flatMap_append, flatMap_singleton, filter_append, filter_map,
        map_append, map_map, append_assoc]
      rfl
    · simp
  · rcases mem_append.mp hb with hb | hb
    · exact h.concat.2 b hb c hc
    · grind
  · have hpos : (s.cutBatch first.table last.position run rest).safePos = last.position ∨
        (s.cutBatch first.table last.position run rest).safePos = s.safePos := ite_eq_or_eq ..
    have hmade : (s.cutBatch first.table last.position run rest).made.flatMap PulledBatch.run =
        s.made.flatMap PulledBatch.run ++ run := by simp [PullerState.cutBatch]
    rw [hmade, map_append]
    rcases hpos with hpos | hpos <;> rw [hpos]
    · exact mem_cons_of_mem _ (mem_append_right _ (mem_map_of_mem hin))
    · grind [h.safe]
  · have htxns : Grouped PulledChange.position (s.made.flatMap PulledBatch.run ++ (run ++ rest)) :=
      hbuf ▸ h.txns
    unfold PullerState.cutBatch
    dsimp only
    split
    · rename_i hdone
      intro heq
      have hhead := (htxns.of_append.at_cut hin hd heq hlast).2
      cases rest with
      | nil => cases hd
      | cons z rest => simp [hhead z rfl] at hdone
    · exact h.out d (hbuf ▸ mem_append_right _ hd)

theorem Filed.step (h : Filed resume s) (hs : step rowBytes s a = some s') : Filed resume s' := by
  cases a with
  | take c =>
    obtain ⟨⟨hnew, hsame⟩, hs⟩ := Option.ite_none_right_eq_some.mp hs
    cases hs
    refine { h with concat := ⟨fun t => ?_, h.concat.2⟩, opened := fun o ho => ?_ }
    · have hold := h.concat.1 t
      simp only [filter_append, map_append] at hold ⊢
      rw [← hold]
      simp only [append_assoc]
    · grind
  | txnEnd =>
    cases hs
    exact h.txnEnd
  | makeBatch =>
    obtain ⟨first, last, run, rest, rfl, hbuf, hlast, hfirst, hone, -⟩ := makeBatch_spec hs
    exact h.cutBatch hbuf hlast fun c hc => hone.2.1 c hc first hfirst

/-! ## Where the positions go -/

/-- What the stamps of a batch have to be, by the rows filed before it and those still to come.
Where more of a row's piece is to come the batch is partial, and is stamped with the resume
position or that of a transaction that is out.  Otherwise it has the row's own position. -/
def StampedBatch (resume : String) (earlier : List (PulledChange R)) (b : PulledBatch R)
    (later : List (PulledChange R)) : Prop :=
  ∀ c ∈ b.run, ((∃ d ∈ later, d.piece = c.piece) → b.isPartial = true ∧ ∀ r ∈ b.rows,
      r.position ∈ resume :: earlier.map PulledChange.position ∧
        ∀ e ∈ b.run ++ later, e.position ≠ r.position) ∧
    ((∀ d ∈ later, d.piece ≠ c.piece) → b.isPartial = false ∧ b.rows = b.run)

def Stamped (resume : String) (s : PullerState R) : Prop :=
  ∀ before b after, s.made = before ++ b :: after →
    StampedBatch resume (before.flatMap PulledBatch.run) b
      (after.flatMap PulledBatch.run ++ s.buf ++ s.opened)

/-- A cut inside a piece leaves a batch of one transaction. -/
def OneTransaction (rowBytes : R → Nat) (s : PullerState R) : PullAction R → Prop
  | .makeBatch => ∀ k < s.buf.length,
      OneBatch rowBytes (s.buf.take k) ∧ ¬ OneBatch rowBytes (s.buf.take (k + 1)) ∧
        (s.buf.take k).getLast?.map PulledChange.piece = s.buf[k]?.map PulledChange.piece →
      ∀ c ∈ s.buf.take k, ∀ d ∈ s.buf[k]?, c.position = d.position
  | _ => True

instance [DecidableEq R] (s : PullerState R) : DecidablePred (OneTransaction rowBytes s)
  | .makeBatch => inferInstanceAs (Decidable (∀ k < _, _ ∧ _ ∧ _ → ∀ c ∈ _, ∀ d ∈ _, _))
  | .take _ => inferInstanceAs (Decidable True)
  | .txnEnd => inferInstanceAs (Decidable True)

/-- The stamps stay right while what is still to come is the same, or of other transactions. -/
theorem StampedBatch.mono {earlier later later' : List (PulledChange R)} {b : PulledBatch R}
    (h : StampedBatch resume earlier b later) (hsub : ∀ d ∈ later, d ∈ later')
    (hnew : ∀ d ∈ later', d ∈ later ∨
      d.position ∉ resume :: earlier.map PulledChange.position ∧
        ∀ e ∈ b.run, e.position ≠ d.position) :
    StampedBatch resume earlier b later' := by
  intro c hc
  refine ⟨fun ⟨d, hd, hpiece⟩ => ?_, fun hnone => (h c hc).2 fun d hd => hnone d (hsub d hd)⟩
  have hd : d ∈ later := by
    refine (hnew d hd).resolve_right fun hother => ?_
    exact hother.2 c hc (PulledChange.piece_eq.mp hpiece).1.symm
  obtain ⟨hpiece_cut, hrows⟩ := (h c hc).1 ⟨d, hd, hpiece⟩
  refine ⟨hpiece_cut, fun r hr => ⟨(hrows r hr).1, fun e he => ?_⟩⟩
  rcases mem_append.mp he with he | he
  · exact (hrows r hr).2 e (mem_append_left _ he)
  · rcases hnew e he with hold | hother
    · exact (hrows r hr).2 e (mem_append_right _ hold)
    · exact fun heq => hother.1 (heq ▸ (hrows r hr).1)

/-- The batch of a cut that falls inside no piece, or leaves one transaction. -/
theorem Filed.stampedBatch {run : List (PulledChange R)}
    (h : Filed resume s) (hbuf : s.buf = run ++ rest) (hlast : run.getLast? = some last)
    (htable : ∀ c ∈ run, c.table = first.table)
    (hone : ∀ d ∈ rest.head?, d.piece = last.piece → ∀ c ∈ run, c.position = d.position) :
    ∀ b, (s.cutBatch first.table last.position run rest).made = s.made ++ [b] →
      StampedBatch resume (s.made.flatMap PulledBatch.run) b (rest ++ s.opened) := by
  intro b hb
  have hpieces : Grouped PulledChange.piece (s.made.flatMap PulledBatch.run ++ (run ++ rest)) :=
    hbuf ▸ h.pieces
  have hfiled : ∀ c ∈ s.made.flatMap PulledBatch.run ++ (run ++ rest), c.position ∈ s.ended :=
    hbuf ▸ h.ended
  have hin := mem_of_getLast? hlast
  obtain rfl := singleton_injective (append_cancel_left hb)
  intro c hc
  refine ⟨fun ⟨d, hd, hpiece⟩ => ?_, fun hnone => ?_⟩
  · have hd : d ∈ rest := by
      refine (mem_append.mp hd).resolve_right fun hd => (h.opened d hd).1 ?_
      exact (PulledChange.piece_eq.mp hpiece).1 ▸ hfiled c (by simp [hc])
    obtain ⟨hcut, hhead⟩ := hpieces.of_append.at_cut hc hd hpiece hlast
    have hpiece_cut : (rest.head?.any fun z => z.position = last.position ∧ z.table = first.table) =
        true := by
      cases rest with
      | nil => cases hd
      | cons z rest =>
        have hz := PulledChange.piece_eq.mp ((hhead z rfl).trans hcut.symm)
        simpa [htable last hin] using hz
    refine ⟨hpiece_cut, fun r hr => ?_⟩
    rw [if_pos hpiece_cut] at hr
    obtain ⟨x, -, rfl⟩ := mem_map.mp hr
    refine ⟨h.safe, fun d hd => ?_⟩
    rw [← append_assoc, ← hbuf] at hd
    rcases mem_append.mp hd with hd | hd
    · exact h.out d hd
    · exact fun heq => (h.opened d hd).1 (heq ▸ h.safe_ended)
  · have hpiece_cut : (rest.head?.any fun z => z.position = last.position ∧ z.table = first.table) =
        false := by
      cases rest with
      | nil => rfl
      | cons z rest =>
        refine Bool.eq_false_iff.mpr fun hcut => hnone z mem_cons_self ?_
        have hz : z.position = last.position ∧ z.table = first.table := by simpa using hcut
        have hall :=
          hone z rfl (PulledChange.piece_eq.mpr ⟨hz.1, hz.2.trans (htable last hin).symm⟩)
        exact PulledChange.piece_eq.mpr ⟨(hall c hc).symm, hz.2.trans (htable c hc).symm⟩
    exact ⟨hpiece_cut, if_neg (by rw [hpiece_cut]; exact Bool.false_ne_true)⟩

theorem Stamped.step (h : Stamped resume s) (hfiled : Filed resume s)
    (hone : OneTransaction rowBytes s a) (hs : step rowBytes s a = some s') :
    Stamped resume s' := by
  cases a with
  | take c =>
    obtain ⟨⟨hnew, -⟩, hs⟩ := Option.ite_none_right_eq_some.mp hs
    cases hs
    intro before b after hmade
    refine (h before b after hmade).mono (by grind) fun d hd => ?_
    rw [← append_assoc] at hd
    rcases mem_append.mp hd with hd | hd
    · exact .inl hd
    obtain rfl := mem_singleton.mp hd
    have hended : ∀ e ∈ s.filed, e.position ≠ d.position := fun e he heq =>
      hnew (heq ▸ hfiled.ended e he)
    refine .inr ⟨?_, fun e he => hended e (by grind [filed])⟩
    rintro (_ | ⟨_, hmem⟩)
    · exact hnew hfiled.resumed
    · obtain ⟨e, he, hpos⟩ := mem_map.mp hmem
      exact hended e (by grind [filed]) hpos
  | txnEnd =>
    cases hs
    intro before b after hmade
    have hmem := (groupTables_spec s.opened.length s.opened (Nat.le_refl _)
      fun c hc => (hfiled.opened c hc).2).1
    exact (h before b after hmade).mono (by grind) (by grind)
  | makeBatch =>
    obtain ⟨first, last, run, rest, rfl, hbuf, hlast, hfirst, hrun, hfull⟩ := makeBatch_spec hs
    intro before b after hmade
    rcases eq_nil_or_concat' after with rfl | ⟨after, new, rfl⟩
    · have hbefore : s.made = before := (append_inj' hmade rfl).1
      rw [← hbefore] at hmade ⊢
      refine hfiled.stampedBatch hbuf hlast (fun c hc => hrun.2.1 c hc first hfirst) ?_ b hmade
      intro d hd hpiece c hc
      cases rest with
      | nil => cases hd
      | cons z rest =>
        cases hd
        have htake : s.buf.take (run.length + 1) = run ++ [d] := by
          rw [hbuf, take_length_add_append]
          rfl
        refine hone run.length ?_ ⟨?_, htake ▸ hfull d rfl, ?_⟩ c ?_ d ?_
        all_goals simp_all
    · obtain ⟨hold, hnew⟩ := append_inj'
        (hmade.trans (append_assoc before (b :: after) [new]).symm) rfl
      obtain rfl := singleton_injective hnew
      simpa [hbuf, PullerState.cutBatch] using h before b after hold

theorem filed_init : Filed resume (init resume : PullerState R) :=
  ⟨⟨fun _ => rfl, nofun⟩, trivial, trivial, nofun, nofun, mem_cons_self, mem_cons_self, nofun⟩

/-- **What the puller makes of the changes.**  However the changes come and wherever the batches
are cut, the batches concatenate to the changes, table by table.  Where a cut inside a piece
leaves one transaction in the batch, a transaction's position goes out with the last of its rows
of a table, and what goes out before is partial. -/
theorem puller_cuts {actions : List (PullAction R)}
    (hrun : run (step rowBytes) (init resume) actions = some s) :
    s.Concatenates ∧ (Runs.Guarded (step rowBytes) (OneTransaction rowBytes) (init resume) actions →
        s.Stamped resume) := by
  refine ⟨?_, fun hok => ?_⟩
  · exact (invariant_of_run (Filed resume) (fun _ _ _ h hs => h.step hs) filed_init hrun).concat
  · refine (invariant_of_guarded (fun s => Filed resume s ∧ Stamped resume s) ?_
      ⟨filed_init, fun before b after hmade => by cases before <;> cases hmade⟩ hrun hok).2
    exact fun _ _ _ h hone hs => ⟨h.1.step hs, h.2.step h.1 hone hs⟩

/-- **Transactions stay together.**  However the batches are cut, the changes filed stand together
by transaction, and in it by table; they, and the position a piece is stamped with, are of
transactions that have ended. -/
theorem transactions_together (s : Reachable (step rowBytes) (init resume)) :
    Grouped PulledChange.position s.1.filed ∧ Grouped PulledChange.piece s.1.filed ∧
      (∀ c ∈ s.1.filed, c.position ∈ s.1.ended) ∧ s.1.safePos ∈ s.1.ended := by
  have h : Filed resume s.1 := s.keeps filed_init fun _ _ _ h hs => h.step hs
  exact ⟨h.txns, h.pieces, h.ended, h.safe_ended⟩

/-- A transaction of one row, and one whose rows do not fit one batch. -/
def twoTransactions (first : List (PullAction Nat)) : List (PullAction Nat) :=
  [.take ⟨"t", "p1", 1⟩, .txnEnd] ++ first ++
    [.take ⟨"t", "p2", 3 * 2 ^ 20⟩, .take ⟨"t", "p2", 3 * 2 ^ 20 + 1⟩, .txnEnd, .makeBatch]

/-- A batch made between the two keeps the first one's position out of the partial batch. -/
theorem puller_cuts_apart : ∃ s, run (step id) (init "p0") (twoTransactions [.makeBatch]) = some s ∧
      Runs.Guarded (step id) (OneTransaction id) (init "p0") (twoTransactions [.makeBatch]) ∧
      s.Concatenates ∧ s.Stamped "p0" := by
  exact exists_run_and (by decide +kernel) fun s hs hok =>
    ⟨(puller_cuts hs).1, (puller_cuts hs).2 hok⟩

/-- Batched together, the first transaction's row goes out in the partial batch, with the resume
position, and none of it is left for a later batch. -/
theorem completed_transaction_loses_position :
    ∃ s, run (step id) (init "p0") (twoTransactions []) = some s ∧ ¬ s.Stamped "p0" := by
  refine exists_run_of (by decide +kernel) fun s _
    (hseen : s.made = [⟨"t", [⟨"t", "p0", 1⟩, ⟨"t", "p0", 3 * 2 ^ 20⟩], true,
        [⟨"t", "p1", 1⟩, ⟨"t", "p2", 3 * 2 ^ 20⟩]⟩] ∧
      ∀ d ∈ [] ++ s.buf ++ s.opened, d.piece ≠ ("p1", "t")) h => ?_
  obtain ⟨hmade, hlater⟩ := hseen
  have hwhole := (h [] _ [] hmade ⟨"t", "p1", 1⟩ (by simp)).2 hlater
  exact absurd hwhole.1 (by simp)

end PullerState

end Urutau
