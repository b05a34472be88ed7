import Urutau.GuardedRun

/-!
# The bounds of a chunk that is redone

A chunk is read with one SELECT, between two bounds and in the order of the columns the
bounds are on; its rows are committed window by window.  When the worker is lost, the chunk
is read again, and its low bound is then the primary key of the last row committed, in the
form the key has on the wire.

MySQL cuts a table by its primary key, so the bound is on the columns the cursor was taken
from; but a naive time is carried as an instant, and the server is asked with its UTC clock.
Postgres cuts by a chunk column, or by the physical place of the rows, and the key is put
there in its stead.  What the server makes of a bound is a parameter.
-/

namespace Urutau

open List Runs

/-- A value as the server holds it: dates in days, times in microseconds. -/
inductive ColumnValue
  | integer (n : Int)
  | float (q : Rat)
  | decimal (q : Rat)
  | text (s : String)
  | bytes (bs : List UInt8)
  | date (days : Int)
  | time (micros : Int)
  | datetime (wall : Int)
  | timestamp (instant : Int)
  | tid (block offset : Nat)
  deriving DecidableEq, Repr

/-- A bound as Go hands it to the server. -/
inductive BoundValue
  | int (n : Int)
  | float (q : Rat)
  | string (s : String)
  | bytes (bs : List UInt8)
  | time (instant : Int)
  deriving DecidableEq, Repr

/-- A column a bound can be on. -/
inductive BoundColumn (n : Nat)
  | ctid
  | column (i : Fin n)
  deriving DecidableEq, Repr

/-- A row of a table with so many columns, with the place it is stored at. -/
structure TableRow (n : Nat) where
  ctid : Nat × Nat
  cells : Fin n → ColumnValue
  deriving DecidableEq

/-- How a table is cut: MySQL by its primary key, Postgres by the chunk column or, without
one, by the blocks of the table. -/
inductive Chunking (n : Nat)
  | mysql
  | chunkColumn (i : Fin n)
  | blocks
  deriving DecidableEq, Repr

/-- What the driver, the server and the codec do: the order of a column's values, which bounds a
query on the column is refused for, how a value compares with a bound, the text of a decimal, and
the day of an instant. -/
structure BoundServer (n : Nat) where
  order : BoundColumn n → ColumnValue → ColumnValue → Ordering
  accepts : BoundColumn n → BoundValue → Bool
  compare : BoundColumn n → ColumnValue → BoundValue → Ordering
  decimalText : Rat → String
  dayOf : Int → Int

/-- A table that is snapshotted: its primary key, the zone naive times are in (what is taken
off a wall clock there), its row filter and its rows. -/
structure ChunkedTable (n : Nat) where
  server : BoundServer n
  primaryKey : List (Fin n)
  keyed : primaryKey ≠ []
  chunking : Chunking n
  zone : Int → Int
  filter : TableRow n → Bool
  rows : List (TableRow n)

/-- `Chunk`. -/
structure ChunkBounds where
  low : Option (List BoundValue)
  high : Option (List BoundValue)
  deriving DecidableEq, Repr

namespace TableRow

variable {n : Nat}

/-- The value the row has in a column. -/
def value (r : TableRow n) : BoundColumn n → ColumnValue
  | .ctid => .tid r.ctid.1 r.ctid.2
  | .column i => r.cells i

end TableRow

/-- `keyBound`: a bound on several columns, with what the last comparison may be. -/
def keyBound (strict : Ordering) (last : Ordering → Bool) : List Ordering → Bool
  | [] => false
  | [o] => last o
  | o :: rest => o == strict || (o == .eq && keyBound strict last rest)

/-- Greater or equal on all columns. -/
def passesLow (os : List Ordering) : Bool := keyBound .gt (fun o => o != .lt) os

/-- Less on all columns. -/
def passesHigh (os : List Ordering) : Bool := keyBound .lt (fun o => o == .lt) os

namespace ChunkedTable

variable {n : Nat} (t : ChunkedTable n)

/-- The columns the bounds are on. -/
def boundColumns : List (BoundColumn n) :=
  match t.chunking with
  | .mysql => t.primaryKey.map .column
  | .chunkColumn i => [.column i]
  | .blocks => [.ctid]

/-- A key value as `EncodeBounds` carries it and `DecodeBounds` returns it.  MySQL's naive
dates and naive times were put into the zone by `NormalizeSnapshot`; a date and a time of day are
numbers. -/
def wire : ColumnValue → BoundValue
  | .integer k => .int k
  | .float q => .float q
  | .decimal q => .string (t.server.decimalText q)
  | .text s => .string s
  | .bytes bs => .bytes bs
  | .date days =>
    let midnight := days * 86400000000
    .int (t.server.dayOf (if t.chunking = .mysql then midnight - t.zone midnight else midnight))
  | .time micros => .int micros
  | .datetime wall => .time (if t.chunking = .mysql then wall - t.zone wall else wall)
  | .timestamp instant => .time instant
  | .tid block offset => .string s!"({block},{offset})"

/-- The high key of a window: the primary key of its last row. -/
def highKey (r : TableRow n) : List BoundValue := t.primaryKey.map fun i => t.wire (r.cells i)

/-- A bound has a value for every column it is on, MySQL's no more than that, and the server
takes them. -/
def takes (bound : List BoundValue) : Bool := decide (t.boundColumns.length ≤ bound.length) &&
    (t.chunking != .mysql || decide (bound.length = t.primaryKey.length)) &&
    (t.boundColumns.zip bound).all fun e => t.server.accepts e.1 e.2

/-- How the row compares with the bound, column by column. -/
def comparisons (r : TableRow n) (bound : List BoundValue) : List Ordering :=
  (t.boundColumns.zip bound).map fun e => t.server.compare e.1 (r.value e.1) e.2

/-- The WHERE clause of `chunkQuery`. -/
def inChunk (ch : ChunkBounds) (r : TableRow n) : Bool :=
  (ch.low.all fun bound => passesLow (t.comparisons r bound)) &&
    (ch.high.all fun bound => passesHigh (t.comparisons r bound)) && t.filter r

/-- The rows of the chunk. -/
def chunkRows (ch : ChunkBounds) : List (TableRow n) := t.rows.filter (t.inChunk ch)

/-- The one row is not after the other in the order of the columns. -/
def notAfter : List (BoundColumn n) → TableRow n → TableRow n → Bool
  | [], _, _ => true
  | c :: rest, r, r' =>
    match t.server.order c (r.value c) (r'.value c) with
    | .lt => true
    | .eq => notAfter rest r r'
    | .gt => false

/-- The ORDER BY clause; a read by blocks has none. -/
def inOrder (rows : List (TableRow n)) : Prop :=
  t.chunking = .blocks ∨ rows.Pairwise fun r r' => t.notAfter t.boundColumns r r' = true

instance decidableInOrder (rows : List (TableRow n)) : Decidable (t.inOrder rows) :=
  inferInstanceAs (Decidable (_ ∨ _))

end ChunkedTable

/-! ## Reading, committing and redoing a chunk -/

/-- A chunk being snapshotted: its present bounds, the rows of the read under way that are
not committed yet, the rows committed and the last of them, and whether a query failed. -/
structure RedoState (n : Nat) where
  chunk : ChunkBounds
  read : Option (List (TableRow n))
  committed : List (TableRow n)
  last : Option (TableRow n)
  failed : Bool

/-- What happens to the chunk. -/
inductive RedoAct (n : Nat)
  | select (rows : List (TableRow n))
  | refuse
  | commit (size : Nat)
  | lose

namespace RedoState

variable {n : Nat}

/-- The chunk before its first read. -/
def start (ch : ChunkBounds) : RedoState n := ⟨ch, none, [], none, false⟩

/-- One step: the SELECT returns its rows in some order the query allows, or it fails; a
window is committed; the worker is lost and the cursor becomes the low bound. -/
def step (t : ChunkedTable n) (s : RedoState n) : RedoAct n → Option (RedoState n)
  | .select rows =>
    if s.read.isNone ∧ s.failed = false ∧ s.chunk.low.all t.takes ∧ s.chunk.high.all t.takes ∧
        rows.Perm (t.chunkRows s.chunk) ∧ t.inOrder rows then
      some { s with read := some rows }
    else none
  | .refuse =>
    if s.read.isNone ∧ (s.chunk.low.all t.takes && s.chunk.high.all t.takes) = false then
      some { s with failed := true }
    else none
  | .commit size =>
    match s.read with
    | none => none
    | some rows =>
      match (rows.take size).getLast? with
      | none => none
      | some r =>
        some { s with
          read := some (rows.drop size)
          committed := s.committed ++ rows.take size
          last := some r }
  | .lose =>
    some { s with
      chunk := { s.chunk with low := (s.last.map t.highKey).or s.chunk.low }
      read := none }

/-- **No row is skipped.**  Of the rows of the chunk, those the read under way does not
return any more are committed. -/
def NoneSkipped (t : ChunkedTable n) (ch : ChunkBounds) (s : RedoState n) : Prop :=
  ∀ rows, s.read = some rows → ∀ r ∈ t.chunkRows ch, r ∈ s.committed ∨ r ∈ rows

/-- The server reads the cursor's value of the column back: it does not take it for more
than it is, and the values that come after it for more than it. -/
def ReadsBack (t : ChunkedTable n) (c : BoundColumn n) (v : ColumnValue) : Prop := ∀ r ∈ t.rows,
    (t.server.order c v (r.value c) = .eq → t.server.compare c (r.value c) (t.wire v) ≠ .lt) ∧
      (t.server.order c v (r.value c) = .lt → t.server.compare c (r.value c) (t.wire v) = .gt)

instance (t : ChunkedTable n) (c : BoundColumn n) (v : ColumnValue) : Decidable (ReadsBack t c v) :=
  inferInstanceAs (Decidable (∀ r ∈ t.rows, _ ∧ _))

/-- **The cursor is in its place.**  When the worker is lost the server refuses the cursor,
or the bounds are on the columns it was taken from and each is read back. -/
def InPlace (t : ChunkedTable n) (s : RedoState n) : RedoAct n → Prop
  | .lose => ∀ r ∈ s.last, t.takes (t.highKey r) = false ∨
      t.boundColumns <+: t.primaryKey.map BoundColumn.column ∧
        ∀ c ∈ t.boundColumns, ReadsBack t c (r.value c)
  | _ => True

instance decidableInPlace (t : ChunkedTable n) (s : RedoState n) : ∀ a, Decidable (InPlace t s a)
  | .lose => inferInstanceAs (Decidable (∀ r ∈ s.last, _ ∨ _ ∧ _))
  | .select _ | .refuse | .commit _ => inferInstanceAs (Decidable True)

/-! ## The cursor's place in the order -/

section Placement

variable {t : ChunkedTable n}

theorem boundColumns_ne_nil (t : ChunkedTable n) : t.boundColumns ≠ [] := by
  unfold ChunkedTable.boundColumns
  split
  · simpa using t.keyed
  · simp
  · simp

/-- The columns of the bound are compared with the values the cursor's row has there. -/
theorem comparisons_highKey (hcolumns : t.boundColumns <+: t.primaryKey.map BoundColumn.column)
    (r₀ r : TableRow n) :
    t.comparisons r (t.highKey r₀) =
      t.boundColumns.map fun c => t.server.compare c (r.value c) (t.wire (r₀.value c)) := by
  have hzip : ∀ (cs rest : List (BoundColumn n)) (f : BoundColumn n → BoundValue),
      cs.zip ((cs ++ rest).map f) = cs.map fun c => (c, f c) := by
    intro cs rest f
    induction cs with
    | nil => rfl
    | cons c cs ih => rw [cons_append, map_cons, zip_cons_cons, ih, map_cons]
  obtain ⟨rest, hrest⟩ := hcolumns
  have hkey : t.highKey r₀ = (t.boundColumns ++ rest).map fun c => t.wire (r₀.value c) := by
    rw [hrest, map_map]
    rfl
  unfold ChunkedTable.comparisons
  rw [hkey, hzip, map_map]
  rfl

/-- A row that is not before the cursor's passes the bound. -/
theorem passesLow_of_notAfter {r₀ r : TableRow n} {cs : List (BoundColumn n)} (hne : cs ≠ [])
    (hback : ∀ c ∈ cs, (t.server.order c (r₀.value c) (r.value c) = .eq →
        t.server.compare c (r.value c) (t.wire (r₀.value c)) ≠ .lt) ∧
      (t.server.order c (r₀.value c) (r.value c) = .lt →
        t.server.compare c (r.value c) (t.wire (r₀.value c)) = .gt))
    (hafter : t.notAfter cs r₀ r = true) :
    passesLow (cs.map fun c => t.server.compare c (r.value c) (t.wire (r₀.value c))) = true := by
  induction cs with
  | nil => exact absurd rfl hne
  | cons c rest ih =>
    obtain ⟨heq, hlt⟩ := hback c mem_cons_self
    simp only [ChunkedTable.notAfter] at hafter
    cases horder : t.server.order c (r₀.value c) (r.value c) with
    | gt => simp [horder] at hafter
    | lt =>
      have hgt := hlt horder
      cases rest with
      | nil => simp [passesLow, keyBound, hgt]
      | cons c' more => simp [passesLow, keyBound, hgt]
    | eq =>
      have hge := heq horder
      simp only [horder] at hafter
      cases rest with
      | nil => simpa [passesLow, keyBound] using hge
      | cons c' more =>
        have hrest := ih (cons_ne_nil _ _) (fun c hc => hback c (mem_cons_of_mem _ hc)) hafter
        -- the column decides alone, or it is equal and the rest decides
        cases hcmp : t.server.compare c (r.value c) (t.wire (r₀.value c)) with
        | lt => exact absurd hcmp hge
        | gt => simp [passesLow, keyBound, hcmp]
        | eq =>
          simp only [passesLow, map_cons] at hrest
          simp [passesLow, keyBound, hcmp, hrest]

end Placement

/-! ## The invariant -/

/-- **The invariant.**  What is not committed passes the present bounds, as long as the
server takes them; what is left of a read comes after the last row committed, unless that
row is already in the bounds. -/
structure Covering (t : ChunkedTable n) (ch : ChunkBounds) (s : RedoState n) : Prop where
  high : s.chunk.high = ch.high
  passing : s.chunk.low.all t.takes = true →
    ∀ r ∈ t.chunkRows ch, r ∈ s.committed ∨ t.inChunk s.chunk r = true
  noneSkipped : NoneSkipped t ch s
  ordered : ∀ rows, s.read = some rows → t.inOrder rows
  follows : ∀ rows, s.read = some rows → (s.last.map t.highKey).or s.chunk.low = s.chunk.low ∨
    ∃ r₀ ∈ s.last, t.chunking = .blocks ∨ ∀ r ∈ rows, t.notAfter t.boundColumns r₀ r = true
  settled : s.read = none → (s.last.map t.highKey).or s.chunk.low = s.chunk.low

variable {t : ChunkedTable n} {ch : ChunkBounds} {s s' : RedoState n}

theorem covering_start (t : ChunkedTable n) (ch : ChunkBounds) : Covering t ch (start ch) where
  high := rfl
  passing _ _ hr := .inr (mem_filter.mp hr).2
  noneSkipped := nofun
  ordered := nofun
  follows := nofun
  settled _ := rfl

theorem Covering.select (h : Covering t ch s) {rows : List (TableRow n)}
    (hstep : s.step t (.select rows) = some s') : Covering t ch s' := by
  obtain ⟨⟨hread, _, hlow, _, hperm, horder⟩, heq⟩ := Option.ite_none_right_eq_some.mp hstep
  cases heq
  have hsettled := h.settled (Option.isNone_iff_eq_none.mp hread)
  refine { h with
    noneSkipped := fun rows' hrows r hr => ?_
    ordered := fun rows' hrows => ?_
    follows := fun _ _ => .inl hsettled
    settled := nofun }
  · cases hrows
    refine (h.passing hlow r hr).imp_right fun hin => hperm.mem_iff.mpr ?_
    exact mem_filter.mpr ⟨(mem_filter.mp hr).1, hin⟩
  · cases hrows
    exact horder

theorem Covering.commit (h : Covering t ch s) {size : Nat}
    (hstep : s.step t (.commit size) = some s') : Covering t ch s' := by
  simp only [step] at hstep
  cases hread : s.read with
  | none => simp [hread] at hstep
  | some rows =>
    simp only [hread] at hstep
    cases hlast : (rows.take size).getLast? with
    | none => simp [hlast] at hstep
    | some r₀ =>
      simp only [hlast, Option.some.injEq] at hstep
      subst hstep
      have hsplit : rows.take size ++ rows.drop size = rows := take_append_drop size rows
      refine { h with
        passing := fun htakes r hr => ?_
        noneSkipped := fun rows' hrows r hr => ?_
        ordered := fun rows' hrows => ?_
        follows := fun rows' hrows => .inr ⟨r₀, rfl, ?_⟩
        settled := nofun }
      · exact (h.passing htakes r hr).imp_left (mem_append_left _)
      · cases hrows
        rcases h.noneSkipped rows hread r hr with hdone | hin
        · exact .inl (mem_append_left _ hdone)
        · rw [← hsplit] at hin
          exact (mem_append.mp hin).imp_left (mem_append_right _)
      · cases hrows
        exact (h.ordered rows hread).imp_right fun hpair => hpair.sublist (drop_sublist _ _)
      · cases hrows
        refine (h.ordered rows hread).imp_right fun hpair r hr => ?_
        rw [← hsplit] at hpair
        exact (pairwise_append.mp hpair).2.2 r₀ (mem_of_getLast? hlast) r hr

/-- The redo starts at a bound that what is left of the read passes. -/
theorem Covering.lose (h : Covering t ch s) (hplace : InPlace t s .lose) : Covering t ch { s with
      chunk := { s.chunk with low := (s.last.map t.highKey).or s.chunk.low }
      read := none } := by
  refine { h with
    passing := fun htakes r hr => ?_
    noneSkipped := nofun
    ordered := nofun
    follows := nofun
    settled := fun _ => by cases s.last <;> rfl }
  have hkept : (s.last.map t.highKey).or s.chunk.low = s.chunk.low → r ∈ s.committed ∨
        t.inChunk { s.chunk with low := (s.last.map t.highKey).or s.chunk.low } r = true := by
    intro hsame
    simp only [hsame] at htakes ⊢
    exact h.passing htakes r hr
  cases hread : s.read with
  | none => exact hkept (h.settled hread)
  | some rows =>
    rcases h.follows rows hread with hsame | ⟨r₀, hlast, hafter⟩
    · exact hkept hsame
    rcases hplace r₀ hlast with hrefused | ⟨hcolumns, hback⟩
    · -- a bound the server refuses is never read with
      simp only [Option.mem_def.mp hlast, Option.map_some, Option.some_or, Option.all_some,
        hrefused] at htakes
      cases htakes
    have hordered : ∀ r ∈ rows, t.notAfter t.boundColumns r₀ r = true := by
      refine hafter.resolve_left fun hblocks => ?_
      simp only [ChunkedTable.boundColumns, hblocks] at hcolumns
      obtain ⟨rest, hrest⟩ := hcolumns
      cases hkey : t.primaryKey with
      | nil => exact t.keyed hkey
      | cons i more =>
        rw [hkey] at hrest
        exact (nomatch (List.cons.inj hrest).1)
    obtain ⟨hrow, hin⟩ := mem_filter.mp hr
    refine (h.noneSkipped rows hread r hr).imp_right fun hmem => ?_
    have hpass := passesLow_of_notAfter (boundColumns_ne_nil t)
      (fun c hc => hback c hc r hrow) (hordered r hmem)
    rw [← comparisons_highKey hcolumns] at hpass
    simp only [ChunkedTable.inChunk, Bool.and_eq_true] at hin ⊢
    obtain ⟨⟨_, hhigh⟩, hfilter⟩ := hin
    rw [Option.mem_def.mp hlast, h.high]
    exact ⟨⟨hpass, hhigh⟩, hfilter⟩

/-- **A redo skips no row that is not committed, in every run in which the cursor is in its
place.** -/
theorem redo_skips_none {actions : List (RedoAct n)}
    (hrun : run (step t) (start ch) actions = some s)
    (hok : Runs.Guarded (step t) (InPlace t) (start ch) actions) : NoneSkipped t ch s := by
  have hinv : Covering t ch s := by
    refine invariant_of_guarded (Covering t ch) ?_ (covering_start t ch) hrun hok
    intro s a s' h hplace hstep
    cases a with
    | select rows => exact h.select hstep
    | refuse =>
      obtain ⟨_, heq⟩ := Option.ite_none_right_eq_some.mp hstep
      cases heq
      exact { h with }
    | commit size => exact h.commit hstep
    | lose =>
      cases hstep
      exact h.lose hplace
  exact hinv.noneSkipped

/-- A server that compares numbers with numbers, and naive times with the UTC clock of an
instant. -/
def plainServer : BoundServer n where
  order _ v v' := match v, v' with
    | .integer a, .integer b | .datetime a, .datetime b => compare a b
    | _, _ => .eq
  accepts _ _ := true
  compare _ v w := match v, w with
    | .integer a, .int b | .datetime a, .time b => compare a b
    | _, _ => .gt
  decimalText _ := ""
  dayOf instant := instant / 86400000000

local instance twoColumns : NeZero 2 := ⟨two_ne_zero⟩

/-- A table with these rows, whose key is its first column and those listed. -/
def keyedTable (more : List (Fin 2)) (chunking : Chunking 2) (zone : Int → Int)
    (rows : List (TableRow 2)) : ChunkedTable 2 :=
  ⟨plainServer, 0 :: more, by simp, chunking, zone, fun _ => true, rows⟩

/-- A row with an id and the bucket it is in. -/
def bucketRow (id bucket : Int) : TableRow 2 :=
  ⟨(0, id.toNat), fun i => if i = 0 then .integer id else .integer bucket⟩

/-- A row with a naive time as its key. -/
def timedRow (hour : Int) : TableRow 2 :=
  ⟨(0, hour.toNat), fun i => if i = 0 then .datetime (hour * 3600000000) else .integer 0⟩

/-- Three hours west of UTC. -/
def threeWest (_ : Int) : Int := -3 * 3600000000

def whole : ChunkBounds := ⟨none, none⟩

def byId : ChunkedTable 2 :=
  keyedTable [] .mysql threeWest [bucketRow 1 9, bucketRow 2 8, bucketRow 3 7]

/-- The first row is committed, the worker lost, and the chunk read again. -/
def redoById : List (RedoAct 2) :=
  [.select [bucketRow 1 9, bucketRow 2 8, bucketRow 3 7], .commit 1, .lose,
    .select [bucketRow 1 9, bucketRow 2 8, bucketRow 3 7], .commit 2, .lose,
    .select [bucketRow 2 8, bucketRow 3 7]]

/-- Cut by an integer key, the chunk is read again from the last row on. -/
theorem redo_skips_none_byId : ∃ s, run (step byId) (start whole) redoById = some s ∧
      s.read = some [bucketRow 2 8, bucketRow 3 7] ∧ NoneSkipped byId whole s := by
  have hseen : (run (step byId) (start whole) redoById).map RedoState.read =
      some (some [bucketRow 2 8, bucketRow 3 7]) := by
    decide +kernel
  obtain ⟨s, hrun, hread⟩ := Option.map_eq_some_iff.mp hseen
  exact ⟨s, hrun, hread, redo_skips_none hrun (by decide +kernel)⟩

/-- The key is the id and the bucket, the chunk column its second column. -/
def byBucket : ChunkedTable 2 :=
  keyedTable [1] (.chunkColumn 1) (fun _ => 0) [bucketRow 100 1, bucketRow 7 2]

def byTime : ChunkedTable 2 := keyedTable [] .mysql threeWest [timedRow 10, timedRow 11]

/-- A row that is in the chunk, not committed and not returned is skipped. -/
theorem not_noneSkipped {s : RedoState n} {rows committed : List (TableRow n)} {r : TableRow n}
    (hseen : (s.read, s.committed) = (some rows, committed)) (hr : r ∈ t.chunkRows ch)
    (hrows : r ∉ rows) (hcommitted : r ∉ committed) : ¬ NoneSkipped t ch s := by
  obtain ⟨hread, hdone⟩ := Prod.mk.inj hseen
  intro hnone
  rcases hnone rows hread r hr with hin | hin
  · exact hcommitted (hdone ▸ hin)
  · exact hrows hin

/-- Postgres, cut by the bucket: the id 100 is taken for a bucket, and the row of bucket 2 is
skipped.  MySQL, cut by a naive time in a zone west of UTC: the bound is three hours late,
and the row of the next hour is skipped. -/
theorem redo_skips_row : (∃ s, run (step byBucket) (start whole)
        [.select [bucketRow 100 1, bucketRow 7 2], .commit 1, .lose, .select []] = some s ∧
      ¬ NoneSkipped byBucket whole s) ∧
    ∃ s, run (step byTime) (start whole)
        [.select [timedRow 10, timedRow 11], .commit 1, .lose, .select []] = some s ∧
      ¬ NoneSkipped byTime whole s := by
  constructor
  · exact exists_run_of (by decide +kernel) fun s _
      (hpair : (s.read, s.committed) = (some [], [bucketRow 100 1])) =>
      not_noneSkipped (r := bucketRow 7 2) hpair (by decide +kernel) not_mem_nil (by decide +kernel)
  · exact exists_run_of (by decide +kernel) fun s _
      (hpair : (s.read, s.committed) = (some [], [timedRow 10])) =>
      not_noneSkipped (r := timedRow 11) hpair (by decide +kernel) not_mem_nil (by decide +kernel)

end RedoState

end Urutau
