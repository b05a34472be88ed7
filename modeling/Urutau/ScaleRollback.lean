import Mathlib

/-!
# The steps of a scale

The scaler asks its host for ranges and for the owners of the partitions a table
gains, pauses the input, drains, publishes and resumes; deferred functions undo what a
failure leaves.  A host is what it answers, and a scale the calls it makes, in order.
-/

namespace Urutau

open List

/-- A layout's two maps. -/
structure RoutingLayout (O C : Type) where
  ownersOf : String → Option (List O)
  rangesOf : String → Option (List C)

/-- What each call of a host answers, an error by its text. -/
structure ScaleHost (O C : Type) where
  layout : RoutingLayout O C
  admits : String → Int → Option String
  ranges : String → Int → Except String (List C)
  owner : String → Nat → Except String (O × Bool)
  name : O → String
  stranded : O → Bool
  drain : String → List O → Option String

/-- The calls that change something. -/
inductive ScaleEvent (O C : Type)
  | created (o : O)
  | forget (o : O)
  | seed (created : List O)
  | pauseInput (target : String)
  | resumeInput (target : String)
  | publish (l : RoutingLayout O C)
  | retire (o : O)
  | fail (err : String)
  | scaled (target : String) (before after : Int)

variable {O C : Type}

/-- `WithTable`. -/
def RoutingLayout.withTable (l : RoutingLayout O C) (target : String) (owners : List O)
    (ranges : List C) : RoutingLayout O C where
  ownersOf := Function.update l.ownersOf target (some owners)
  rangesOf := Function.update l.rangesOf target (some ranges)

section Reslice

variable (add : Nat → Except String (O × Bool))

/-- The loop of `Reslice` over `k` partitions from `p` on: beside what it returns, the
owners its calls created. -/
def addOwners : (p k : Nat) → (next created : List O) → List O × Except String (List O × List O)
  | _, 0, next, created => (created, .ok (next, created))
  | p, k + 1, next, created =>
    match add p with
    | .error err => (created, .error err)
    | .ok (o, isNew) =>
      addOwners (p + 1) k (next ++ [o]) (if isNew then created ++ [o] else created)

/-- `Reslice`: the next owners, the removed and the created ones. -/
def reslice (cur : List O) (n : Nat) : List O × Except String (List O × List O × List O) :=
  if n ≤ cur.length then ([], .ok (cur.take n, cur.drop n, []))
  else
    let (made, result) := addOwners add cur.length (n - cur.length) cur []
    (made, result.map fun (next, created) => (next, [], created))

def Fails (p : Nat) : Prop := ∃ err, add p = .error err

def Creates (p : Nat) : Prop := ∃ o, add p = .ok (o, true)

theorem forall_from {p q : Nat} {A : Nat → Prop} (hp : A p)
    (hrest : ∀ r, p + 1 ≤ r → r < q → A r) (r : Nat) (h : p ≤ r) (h' : r < q) : A r := by
  rcases Nat.eq_or_lt_of_le h with rfl | h
  · exact hp
  · exact hrest r h h'

/-- The loop answers every partition, or stops at the first that fails. -/
theorem addOwners_cases (p k : Nat) (next created : List O) :
    (∃ added made, addOwners add p k next created = (made, .ok (next ++ added, made)) ∧
      added.length = k ∧ ∀ q, p ≤ q → q < p + k → ¬Fails add q) ∨
    ∃ q err made, addOwners add p k next created = (made, .error err) ∧ p ≤ q ∧ q < p + k ∧
      Fails add q ∧ (∀ r, p ≤ r → r < q → ¬Fails add r) ∧
      (made = [] ↔ created = [] ∧ ∀ r, p ≤ r → r < q → ¬Creates add r) := by
  induction k generalizing p next created with
  | zero => exact .inl ⟨[], created, by simp [addOwners], rfl, fun q h h' => by omega⟩
  | succ k ih =>
    rcases hadd : add p with err | ⟨o, isNew⟩
    · refine .inr ⟨p, err, created, by simp [addOwners, hadd], Nat.le_refl p, by omega,
        ⟨err, hadd⟩, fun r h h' => by omega, fun h => ⟨h, fun r h h' => by omega⟩, And.left⟩
    have hgo : ¬Fails add p := fun ⟨err, h⟩ => by simp [hadd] at h
    simp only [addOwners, hadd]
    rcases ih (p + 1) (next ++ [o]) (if isNew then created ++ [o] else created) with
      ⟨added, made, heq, hlen, hall⟩ | ⟨q, err, made, heq, hp, hq, hfail, hfirst, hmade⟩
    · refine .inl ⟨o :: added, made, by simp [heq], by simp [hlen], forall_from hgo ?_⟩
      exact fun q h h' => hall q h (by omega)
    refine .inr ⟨q, err, made, heq, by omega, by omega, hfail, forall_from hgo hfirst, ?_⟩
    -- the call at `p` counts when it created its owner
    have hnew : Creates add p ↔ isNew = true := by simp [Creates, hadd]
    rw [hmade]
    constructor
    · rintro ⟨hnone, hrest⟩
      cases isNew
      · exact ⟨hnone, forall_from (by simp [hnew]) hrest⟩
      · simp at hnone
    · rintro ⟨rfl, hrest⟩
      have hold : isNew = false := by simpa [hnew] using hrest p (Nat.le_refl p) (by omega)
      exact ⟨by simp [hold], fun r h h' => hrest r (by omega) h'⟩

end Reslice

/-- Each call `e` is followed by a call `undo`. -/
def Undone (e undo : ScaleEvent O C) (events : List (ScaleEvent O C)) : Prop :=
  ∀ before after, events = before ++ e :: after → undo ∈ after

/-- The calls of a failed scale change nothing that stays. -/
structure NoOp (events : List (ScaleEvent O C)) : Prop where
  unpublished : ∀ l, .publish l ∉ events
  resumed : ∀ t, Undone (.pauseInput t) (.resumeInput t) events
  rolledBack : ∀ o, Undone (.created o) (.forget o) events

theorem undone_append {e undo : ScaleEvent O C} {xs ys : List (ScaleEvent O C)}
    (hin : e ∈ xs → undo ∈ ys) (hout : e ∉ ys) : Undone e undo (xs ++ ys) := by
  intro before after heq
  rcases append_eq_append_iff.mp heq with ⟨mid, -, rfl⟩ | ⟨mid, rfl, hmid⟩
  · simp at hout
  rcases mid with _ | ⟨c, mid⟩
  · obtain rfl : e :: after = ys := hmid
    simp at hout
  · obtain ⟨rfl, rfl⟩ : e = c ∧ after = mid ++ ys := by simpa using hmid
    exact mem_append_right mid (hin (by simp))

/-- Owners created and nothing else: a no-op if there are none. -/
theorem noOp_created_iff {made : List O} :
    NoOp (C := C) (made.map ScaleEvent.created) ↔ made = [] := by
  constructor
  · intro h
    rcases made with _ | ⟨o, made⟩
    · rfl
    · simpa using h.rolledBack o [] _ rfl
  · rintro rfl
    exact ⟨by simp, by simp [Undone], by simp [Undone]⟩

namespace ScaleHost

variable (host : ScaleHost O C) (target : String) (n : Int)

/-- `Scale` from the re-slice on.  The deferred calls of a failed drain run last to
first. -/
def rescale (owners : List O) (ranges : List C) : List (ScaleEvent O C) × Except String Bool :=
  match reslice (host.owner target) owners n.toNat with
  | (made, .error err) => (made.map .created, .error s!"scale {target}: {err}")
  | (made, .ok (next, removed, created)) =>
    match removed.find? host.stranded with
    | some o =>
      let err := s!"scale {target}: removed owner {host.name o} is not attached and owes work; " ++
        "terminating for a clean replay"
      (made.map .created ++ [.fail err], .error err)
    | none =>
      let prepared := made.map .created ++ [.seed created, .pauseInput target]
      match host.drain target owners with
      | some err =>
        (prepared ++ .resumeInput target :: created.map .forget,
          .error s!"scale {target}: drain: {err}")
      | none =>
        (prepared ++ .publish (host.layout.withTable target next ranges) ::
          .resumeInput target :: .scaled target owners.length n :: removed.map .retire, .ok true)

/-- `Scale`. -/
def scale : List (ScaleEvent O C) × Except String Bool :=
  if n < 1 then ([], .error s!"scale {target}: worker count must be >= 1, got {n}")
  else match host.layout.ownersOf target with
  | none => ([], .error s!"scale {target}: no such routed table")
  | some owners =>
    if owners.length = n then ([], .ok false)
    else match host.admits target n with
    | some err => ([], .error s!"scale {target}: {err}")
    | none => match host.ranges target n with
      | .error err => ([], .error s!"scale {target}: {err}")
      | .ok [] => ([], .error s!"scale {target}: no partition range resolved")
      | .ok ranges => host.rescale target n owners ranges

/-- The scale comes to the re-slice. -/
structure Admitted (owners : List O) (ranges : List C) : Prop where
  positive : ¬n < 1
  routed : host.layout.ownersOf target = some owners
  differs : (owners.length : Int) ≠ n
  admitted : host.admits target n = none
  resolved : host.ranges target n = .ok ranges
  some_range : ranges ≠ []

/-- The calls of a scale that went through: one layout is published, the owners that
stay first and in their order, and only then is the input resumed and an owner retired. -/
def Flips (events : List (ScaleEvent O C)) : Prop :=
  ∃ before after owners next ranges, host.layout.ownersOf target = some owners ∧
    events = before ++ .publish (host.layout.withTable target next ranges) :: after ∧
    owners.take n.toNat <+: next ∧ next.length = n.toNat ∧ .resumeInput target ∈ after ∧
    (∀ l, .publish l ∉ before ∧ .publish l ∉ after) ∧
    (∀ t, .resumeInput t ∉ before) ∧ ∀ o, .retire o ∉ before

/-- A failed scale is a no-op, and one that returns true flipped the layout. -/
def ScaleLaw : Prop :=
  (∀ err, (host.scale target n).2 = .error err → NoOp (host.scale target n).1) ∧
  ((host.scale target n).2 = .ok true → host.Flips target n (host.scale target n).1)

variable {host target n}

variable {owners : List O} {ranges : List C}

theorem scale_of_admitted (h : host.Admitted target n owners ranges) :
    host.scale target n = host.rescale target n owners ranges := by
  obtain ⟨hpos, hown, hne, hadm, hran, hsome⟩ := h
  simp [scale, hpos, hown, hne, hadm, hran]

/-- Before the re-slice a scale makes no call. -/
theorem scale_of_not_admitted (h : ¬∃ owners ranges, host.Admitted target n owners ranges) :
    ∃ r, host.scale target n = ([], r) ∧ r ≠ .ok true := by
  unfold scale
  split_ifs with hpos
  · exact ⟨_, rfl, by simp⟩
  rcases hown : host.layout.ownersOf target with _ | owners
  · exact ⟨_, rfl, by simp⟩
  dsimp only
  split_ifs with hlen
  · exact ⟨_, rfl, by simp⟩
  rcases hadm : host.admits target n with _ | err
  · rcases hran : host.ranges target n with err | _ | ⟨r, rs⟩
    · exact ⟨_, rfl, by simp⟩
    · exact ⟨_, rfl, by simp⟩
    · exact absurd ⟨owners, r :: rs, hpos, hown, hlen, hadm, hran, by simp⟩ h
  · exact ⟨_, rfl, by simp⟩

theorem rescale_of_resliced {made next removed : List O}
    (hown : host.layout.ownersOf target = some owners)
    (heq : reslice (host.owner target) owners n.toNat = (made, .ok (next, removed, made)))
    (hone : removed = [] ∨ made = []) (hkept : owners.take n.toNat <+: next)
    (hlen : next.length = n.toNat) : (∀ err, (host.rescale target n owners ranges).2 = .error err →
      NoOp (host.rescale target n owners ranges).1) ∧
    ((host.rescale target n owners ranges).2 = .ok true →
      host.Flips target n (host.rescale target n owners ranges).1) := by
  simp only [rescale, heq]
  rcases hstr : removed.find? host.stranded with _ | o
  · rcases host.drain target owners with _ | err
    · exact ⟨by simp, fun _ => ⟨_, _, owners, next, ranges, hown, rfl, hkept, hlen, by simp,
        by simp, by simp, by simp⟩⟩
    · refine ⟨fun _ _ => ⟨by simp, fun t => undone_append (by simp) (by simp), fun o => ?_⟩,
        by simp⟩
      exact undone_append (by simp) (by simp)
  · -- owners were removed, so none were created
    obtain rfl : made = [] := hone.resolve_left fun h => by simp [h] at hstr
    exact ⟨fun _ _ => ⟨by simp, fun t => undone_append (by simp) (by simp),
      fun o => undone_append (by simp) (by simp)⟩, by simp⟩

/-- **The whole law holds exactly when no call for an owner fails after one that
created an owner**: the re-slice then returns before the rollback is armed. -/
theorem scaleLaw_iff (host : ScaleHost O C) (target : String) (n : Int) : host.ScaleLaw target n ↔
      ∀ owners ranges, host.Admitted target n owners ranges →
        ∀ p q, owners.length ≤ p → p < q → q < n → Creates (host.owner target) p →
          Fails (host.owner target) q →
          ∃ r, owners.length ≤ r ∧ r < p ∧ Fails (host.owner target) r := by
  unfold ScaleLaw
  by_cases hadm : ∃ owners ranges, host.Admitted target n owners ranges
  · obtain ⟨owners, ranges, h⟩ := hadm
    have honly : ∀ owners' ranges', host.Admitted target n owners' ranges' → owners' = owners :=
      fun _ _ h' => Option.some.inj (h'.routed.symm.trans h.routed)
    rw [scale_of_admitted h]
    by_cases hle : n.toNat ≤ owners.length
    · refine iff_of_true (rescale_of_resliced h.routed (if_pos hle) (.inr rfl) prefix_rfl
        (by simp [hle])) fun _ _ h' p q hp hpq hq => ?_
      rw [honly _ _ h'] at hp
      omega
    have hgrow := addOwners_cases (host.owner target) owners.length (n.toNat - owners.length)
      owners []
    rcases hgrow with ⟨added, made, heq, hlen, hall⟩ |
      ⟨q, err, made, heq, hp, hq, hfail, hfirst, hmade⟩
    · have heq : reslice (host.owner target) owners n.toNat =
          (made, .ok (owners ++ added, [], made)) := by simp [reslice, hle, heq, Except.map]
      refine iff_of_true (rescale_of_resliced h.routed heq (.inl rfl) ?_ (by simp; omega))
        fun _ _ h' p q hp hpq hq _ hfail => ?_
      · rw [take_of_length_le (by omega)]
        exact prefix_append owners added
      · rw [honly _ _ h'] at hp
        exact absurd hfail (hall q (by omega) (by omega))
    · have heq : reslice (host.owner target) owners n.toNat = (made, .error err) := by
        simp [reslice, hle, heq, Except.map]
      simp only [rescale, heq, noOp_created_iff, hmade, true_and]
      constructor
      · rintro ⟨hno, -⟩ _ _ h' p q' hp' hpq hq' hcreates -
        rw [honly _ _ h'] at hp' ⊢
        refine ⟨q, hp, ?_, hfail⟩
        by_contra hle
        rcases Nat.eq_or_lt_of_le (Nat.le_of_not_lt hle) with rfl | hlt
        · obtain ⟨⟨o, h₁⟩, err, h₂⟩ := And.intro hcreates hfail
          simp [h₁] at h₂
        · exact hno _ rfl p hp' hlt hcreates
      · intro hcond
        refine ⟨fun _ _ r hr hrq hcreates => ?_, by simp⟩
        obtain ⟨r', hr', hlt, hfail'⟩ := hcond owners ranges h r q hr hrq (by omega) hcreates hfail
        exact hfirst r' hr' (by omega) hfail'
  · obtain ⟨r, hr, hne⟩ := scale_of_not_admitted hadm
    refine iff_of_true ?_ fun owners ranges h => absurd ⟨owners, ranges, h⟩ hadm
    rw [hr]
    exact ⟨fun _ _ => ⟨by simp, by simp [Undone], by simp [Undone]⟩, fun h => absurd h hne⟩

/-- One owner, a second is created, and a third is refused. -/
def thirdRefused : ScaleHost String Nat where
  layout := ⟨fun _ => some ["t-0"], fun _ => some [0]⟩
  admits _ _ := none
  ranges _ n := .ok (range n.toNat)
  owner _ p := if p = 1 then .ok ("t-1", true) else .error "no table ref"
  name := id
  stranded _ := false
  drain _ _ := none

theorem scaleLaw_third_refused :
    thirdRefused.scale "t" 3 = ([.created "t-1"], .error "scale t: no table ref") ∧
      ¬thirdRefused.ScaleLaw "t" 3 := by
  have hscale : thirdRefused.scale "t" 3 = ([.created "t-1"], .error "scale t: no table ref") := rfl
  refine ⟨hscale, fun h => ?_⟩
  simpa using (h.1 _ rfl).rolledBack "t-1" [] [] rfl

end ScaleHost
end Urutau
