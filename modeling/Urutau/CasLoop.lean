import Urutau.GuardedRun

/-!
# Optimistic writes of one document

Any number of writers read a document, work out the next one, and write it if the
document still has the token it was read with; a writer that comes too late reads
again, or gives up.

Whatever the schedule, the document is what the writes that got through make of it one
after the other, and those of one writer got through in the order they were begun.
-/

namespace CasLoop

open List Runs

/-- A change some writer was asked to make. -/
structure Call (O : Type*) where
  id : Nat
  writer : Nat
  op : O
  deriving DecidableEq

/-- A write on its way, with what was read of the clock and the token. -/
structure Request (O T D : Type*) where
  call : Call O
  now : T
  next : D
  token : Nat

inductive Phase (O T D : Type*) where
  | idle
  | reading (call : Call O) (attempt : Nat)
  | writing (r : Request O T D) (attempt : Nat)

/-- The document with its token, and what the writers are about. -/
structure State (O T D : Type*) where
  doc : Option (D × Nat)
  fresh : Nat
  begun : Nat
  phase : Nat → Phase O T D
  /-- What got through, in order. -/
  applied : List (Call O × T)
  /-- What was answered without an error. -/
  returned : List (Call O)

inductive Action (O T : Type*) where
  | start (w : Nat) (op : O)
  | get (w : Nat) (now : T)
  | replace (w : Nat)
  | giveUp (w : Nat)

namespace State

variable {O T D : Type*} (apply : O → T → Option D → Option D) (retries : Nat)

def init (d : Option D) : State O T D where
  doc := d.map (·, 1)
  fresh := 2
  begun := 0
  phase _ := .idle
  applied := []
  returned := []

/-- The token a reader is given, zero for no document. -/
def token (s : State O T D) : Nat := (s.doc.map Prod.snd).getD 0

def set (s : State O T D) (w : Nat) (p : Phase O T D) : State O T D :=
  { s with phase := Function.update s.phase w p }

/-- A write gets through. -/
def write (s : State O T D) (r : Request O T D) : State O T D :=
  { s with
    doc := some (r.next, s.fresh)
    fresh := s.fresh + 1
    applied := s.applied ++ [(r.call, r.now)] }

def step (s : State O T D) : Action O T → Option (State O T D)
  | .start w op =>
    match s.phase w with
    | .idle => some { s.set w (.reading ⟨s.begun, w, op⟩ 0) with begun := s.begun + 1 }
    | _ => none
  | .get w now =>
    match s.phase w with
    | .reading call attempt =>
      match apply call.op now (s.doc.map Prod.fst) with
      | none => some { s.set w .idle with returned := s.returned ++ [call] }
      | some next => some (s.set w (.writing ⟨call, now, next, s.token⟩ attempt))
    | _ => none
  | .replace w =>
    match s.phase w with
    | .writing r attempt =>
      if r.token = s.token then
        some { (s.write r).set w .idle with returned := s.returned ++ [r.call] }
      else if attempt + 1 < retries then some (s.set w (.reading r.call (attempt + 1)))
      else some (s.set w .idle)
    | _ => none
  | .giveUp w =>
    match s.phase w with
    | .idle => none
    | _ => some (s.set w .idle)

/-- What the writes make of a document. -/
def replay (d : Option D) (applied : List (Call O × T)) : Option D :=
  applied.foldl (fun d a => (apply a.1.op a.2 d).or d) d

/-- Where a writer's call stands. -/
def call? : Phase O T D → Option (Call O)
  | .idle => none
  | .reading call _ => some call
  | .writing r _ => some r.call

/-- A writer has a write on its way. -/
def Pending (s : State O T D) (r : Request O T D) : Prop :=
  ∃ w attempt, s.phase w = .writing r attempt

/-- The latest call of a writer, newer than all that got through of it. -/
structure Latest (begun : Nat) (applied : List (Call O × T)) (w : Nat) (call : Call O) : Prop where
  writer : call.writer = w
  lt_begun : call.id < begun
  applied : ∀ a ∈ applied, a.1.writer = w → a.1.id < call.id

/-- **The invariant.**  A write on its way either comes too late, or it is what its call
makes of the document. -/
structure Serial (d : Option D) (s : State O T D) : Prop where
  replayed : s.doc.map Prod.fst = replay apply d s.applied
  token_lt : s.token < s.fresh
  pending_lt : ∀ r, s.Pending r → r.token < s.fresh
  current : ∀ r, s.Pending r → r.token = s.token →
    apply r.call.op r.now (s.doc.map Prod.fst) = some r.next
  calling : ∀ w call, call? (s.phase w) = some call → Latest s.begun s.applied w call
  begun : ∀ a ∈ s.applied, a.1.id < s.begun
  ordered : s.applied.Pairwise fun a b => a.1.writer = b.1.writer → a.1.id < b.1.id
  answered : ∀ call ∈ s.returned, (∃ a ∈ s.applied, a.1 = call) ∨
    ∃ now d, apply call.op now d = none

variable {apply retries} {d : Option D} {s s' : State O T D} {r : Request O T D} {w : Nat}

theorem serial_init (d : Option D) : Serial (O := O) (T := T) apply d (init d) where
  replayed := by cases d <;> rfl
  token_lt := by cases d <;> simp [token, init]
  pending_lt := by simp [Pending, init]
  current := by simp [Pending, init]
  calling := by simp [call?, init]
  begun := by simp [init]
  ordered := .nil
  answered := by simp [init]

/-- A writer turns to another phase. -/
theorem Serial.set (h : Serial apply d s) {p : Phase O T D}
    (hcall : ∀ call, call? p = some call → Latest s.begun s.applied w call)
    (hpending : ∀ r attempt, p = .writing r attempt →
      r.token = s.token ∧ apply r.call.op r.now (s.doc.map Prod.fst) = some r.next) :
    Serial apply d (s.set w p) := by
  have hold : ∀ r, (s.set w p).Pending r → s.Pending r ∨ ∃ attempt, p = .writing r attempt := by
    rintro r ⟨w', attempt, hw⟩
    by_cases heq : w' = w
    · exact .inr ⟨attempt, by simpa [State.set, heq] using hw⟩
    · exact .inl ⟨w', attempt, by simpa [State.set, heq] using hw⟩
  refine { h with pending_lt := ?_, current := ?_, calling := ?_ }
  · intro r hr
    rcases hold r hr with hr | ⟨attempt, hp⟩
    · exact h.pending_lt r hr
    · exact (hpending r attempt hp).1 ▸ h.token_lt
  · intro r hr htoken
    rcases hold r hr with hr | ⟨attempt, hp⟩
    · exact h.current r hr htoken
    · exact (hpending r attempt hp).2
  · intro w' call hw'
    by_cases heq : w' = w
    · subst heq
      exact hcall call (by simpa [State.set] using hw')
    · exact h.calling w' call (by simpa [State.set, heq] using hw')

theorem Serial.idle (h : Serial apply d s) : Serial apply d (s.set w .idle) := h.set nofun nofun

/-- A write that is not too late gets through; all others on their way now are. -/
theorem Serial.write (h : Serial apply d s)
    (hnext : apply r.call.op r.now (s.doc.map Prod.fst) = some r.next)
    (hnewer : ∀ a ∈ s.applied, a.1.writer = r.call.writer → a.1.id < r.call.id)
    (hid : r.call.id < s.begun)
    (hcalling : ∀ w call, call? (s.phase w) = some call → r.call.writer = w →
      r.call.id < call.id) : Serial apply d (s.write r) := by
  refine
    { replayed := ?_, token_lt := Nat.lt_succ_self _, current := ?_
      pending_lt := fun r hr => Nat.lt_succ_of_lt (h.pending_lt r hr)
      calling := fun w call hw => ?_, begun := ?_, ordered := ?_
      answered := fun call hc => ?_ }
  · have hreplayed := h.replayed
    simp only [replay] at hreplayed
    simp [State.write, replay, ← hreplayed, hnext]
  · intro r' hr' hlate
    exact absurd hlate (Nat.ne_of_lt (h.pending_lt r' hr'))
  · have hlatest := h.calling w call hw
    refine { hlatest with applied := forall_mem_concat.mpr ⟨hlatest.applied, fun haw => ?_⟩ }
    exact hcalling w call hw haw
  · exact forall_mem_concat.mpr ⟨h.begun, hid⟩
  · exact pairwise_concat.mpr ⟨h.ordered, hnewer⟩
  · exact (h.answered call hc).imp_left fun ⟨a, ha, heq⟩ => ⟨a, mem_append_left _ ha, heq⟩

/-- **Every step keeps the order of the writes.** -/
theorem Serial.step {a : Action O T} (h : Serial apply d s)
    (hs : s.step apply retries a = some s') : Serial apply d s' := by
  cases a with
  | start w op =>
    simp only [State.step] at hs
    split at hs <;> cases hs
    have hmore : Serial apply d { s with begun := s.begun + 1 } := { h with
        calling := fun w call hw =>
          { h.calling w call hw with lt_begun := Nat.lt_succ_of_lt (h.calling w call hw).lt_begun }
        begun := fun a ha => Nat.lt_succ_of_lt (h.begun a ha) }
    refine hmore.set (fun call hcall => ?_) (fun _ _ hp => by cases hp)
    cases hcall
    exact ⟨rfl, Nat.lt_succ_self _, fun a ha _ => h.begun a ha⟩
  | get w now =>
    simp only [State.step] at hs
    split at hs
    · rename_i call attempt hphase
      split at hs <;> cases hs
      · rename_i hnone
        refine { h.idle (w := w) with answered := ?_ }
        exact forall_mem_concat.mpr ⟨h.answered, .inr ⟨now, _, hnone⟩⟩
      · rename_i next hnext
        refine h.set (fun c hc => ?_) (fun r n hp => ?_)
        · cases hc
          exact h.calling w call (by rw [hphase]; rfl)
        · cases hp
          exact ⟨rfl, hnext⟩
    · cases hs
  | replace w =>
    simp only [State.step] at hs
    split at hs
    · rename_i r attempt hphase
      have hlatest := h.calling w r.call (by rw [hphase]; rfl)
      split at hs
      · rename_i htoken
        cases hs
        have hnext := h.current r ⟨w, attempt, hphase⟩ htoken
        -- Of the writer's own calls none is left that is not newer.
        have hidle : Serial apply d (s.set w .idle) := h.idle
        have hwrite := hidle.write hnext
          (fun a ha haw => hlatest.applied a ha (haw.trans hlatest.writer)) hlatest.lt_begun
          fun w' call hw' hwriter => by
            simp [State.set, ← hwriter, hlatest.writer, call?] at hw'
        refine { hwrite with answered := forall_mem_concat.mpr ⟨hwrite.answered, .inl ?_⟩ }
        exact ⟨_, mem_concat_self, rfl⟩
      · split at hs <;> cases hs
        · refine h.set (fun c hc => ?_) (fun _ _ hp => by cases hp)
          cases hc
          exact hlatest
        · exact h.idle
    · cases hs
  | giveUp w =>
    simp only [State.step] at hs
    split at hs
    · cases hs
    · cases hs
      exact h.idle

end State

end CasLoop
