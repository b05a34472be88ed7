import Urutau.RoutingKeys

/-!
# One split for the stream and the snapshot

A live batch is split with one router, which remembers the owner of every slot it has met; a
snapshot chunk is split by deciding each key afresh.  Both hand a row to the same owner.
-/

namespace Urutau

open List RoutingValue

abbrev RoutingKey := List (Option RoutingValue)

/-- `Router`: the owner of each slot as an index plus one, zero while it is not worked out; the
buffer the last key was encoded into, and what stands in the digest behind the seed. -/
structure Router (W : Type) where
  workers : List W
  owner : Nat → Int32
  buf : List UInt8
  digest : List UInt8

/-- Why a batch is not split: a key of no encoding, or a row that nobody owns. -/
inductive RouteError
  | row (i : Nat) (cause : String)
  | noOwner (i : Nat) (key : RoutingKey)

namespace Router

variable {W R : Type} [LinearOrder W] (hash : List UInt8 → Nat) (weight : Nat → W → Nat)

def new (workers : List W) : Router W := ⟨workers, fun _ => 0, [], []⟩

/-- `OwnerOfKey` of a router: the answer, and the router after it. -/
def ownerOf (r : Router W) (key : RoutingKey) : Except String Int × Router W :=
  match appendKey (r.buf.take 0) key with
  | .error e => (.error e, r)
  | .ok enc =>
    -- the digest is reset before the seed and the key are written
    let r := { r with buf := enc, digest := enc }
    let slot := hash r.digest % slots
    if r.owner slot ≠ 0 then (.ok ((r.owner slot).toInt - 1), r)
    else
      let o := Rendezvous.owner weight slot r.workers
      (.ok o, if 0 ≤ o then { r with owner := Function.update r.owner slot (.ofInt o + 1) } else r)

/-- The owner of each row: the loop of `enqueuePartitioned` and `fanOut`, from row `i` on, over
what looks up one key. -/
def routeRows {S : Type} (lookup : S → RoutingKey → Except String Int × S) :
    Nat → S → List RoutingKey → Except RouteError (List Int)
  | _, _, [] => .ok []
  | i, s, key :: rest =>
    match lookup s key with
    | (.error e, _) => .error (.row i e)
    | (.ok p, s') =>
      if p < 0 then .error (.noOwner i key)
      else (routeRows lookup (i + 1) s' rest).map (p :: ·)

/-- The row indexes of each partition, in one pass. -/
def bucket (n : Nat) : (Nat → List Nat) → Nat → List Int → Nat → List Nat
  | b, _, [] => b
  | b, i, o :: rest =>
    let b := if o < 0 ∨ n ≤ o then b else Function.update b o.toNat (b o.toNat ++ [i])
    bucket n b (i + 1) rest

/-- `SplitByOwner`: a partition without rows gets none, one with all of them the batch itself. -/
def splitByOwner (rows : List R) (owner : List Int) (n : Nat) : List (Option (List R)) :=
  (range n).map fun p =>
    let taken := bucket n (fun _ => []) 0 owner p
    if taken = [] then none
    else if taken.length = rows.length then some rows
    else some (taken.filterMap (rows[·]?))

variable (key : R → RoutingKey) (workers : List W) (rows : List R)

/-- The sub-batches of `enqueuePartitioned`. -/
def enqueuePartitioned (r : Router W) : Except RouteError (List (Option (List R))) :=
  (routeRows (ownerOf hash weight) 0 r (rows.map key)).map
    (splitByOwner rows · r.workers.length)

/-- The owners `fanOut` works out. -/
def freshOwners (keys : List RoutingKey) : Except RouteError (List Int) :=
  routeRows (fun _ k => (ownerOfKey hash weight k workers, ())) 0 () keys

/-- The windows of `fanOut`: an owner without rows gets one of no row. -/
def fanOut : Except RouteError (List (List R)) :=
  (freshOwners hash weight workers (rows.map key)).map fun owner =>
    (splitByOwner rows owner workers.length).map (·.getD [])

/-- The owner of a key; -1 with an error, as the source returns it. -/
def place (k : RoutingKey) : Int := (ownerOfKey hash weight k workers).toOption.getD (-1)

theorem owner_lt (slot : Nat) : Rendezvous.owner weight slot workers < workers.length := by
  cases workers with
  | nil => simp [Rendezvous.owner]
  | cons w rest =>
    obtain ⟨hget, -⟩ := Rendezvous.ownerFrom_spec (weight slot) rest [w] (0, w) rfl (by simp)
    exact Int.ofNat_lt.mpr (List.getElem?_eq_some_iff.mp hget).1

/-- The loop places every row, or fails for one without an owner. -/
theorem routeRows_fresh (keys : List RoutingKey) (i : Nat) :
    let out := routeRows (fun _ k => (ownerOfKey hash weight k workers, ())) i () keys
    if ∀ k ∈ keys, 0 ≤ place hash weight workers k then
      out = .ok (keys.map (place hash weight workers)) else ∃ e, out = .error e := by
  induction keys generalizing i with
  | nil => simp [routeRows]
  | cons k keys ih =>
    have ih := ih (i + 1)
    rw [routeRows]
    cases hk : ownerOfKey hash weight k workers with
    | error e => simp [place, hk, Except.toOption]
    | ok p =>
      have hplace : place hash weight workers k = p := by simp [place, hk, Except.toOption]
      simp only [forall_mem_cons, hplace]
      by_cases hp : p < 0
      · simp [hp]
      simp only [hp]
      split at ih
      · simp_all [Except.map]
      · obtain ⟨e, he⟩ := ih
        simp_all [Except.map]

/-! ## What the router remembers -/

/-- Every slot worked out has its owner. -/
def Sound (r : Router W) : Prop :=
  ∀ slot, r.owner slot = 0 ∨ (r.owner slot).toInt = Rendezvous.owner weight slot r.workers + 1

variable {weight workers key rows}

/-- One lookup answers as if decided afresh, and leaves the router sound. -/
theorem Sound.ownerOf {r : Router W} (h : Sound weight r) (hfew : r.workers.length < 2 ^ 31)
    (k : RoutingKey) : (r.ownerOf hash weight k).1 = ownerOfKey hash weight k r.workers ∧
      Sound weight (r.ownerOf hash weight k).2 ∧
      (r.ownerOf hash weight k).2.workers = r.workers := by
  have henc : appendKey (r.buf.take 0) k = encodeKey k := rfl
  unfold Router.ownerOf ownerOfKey
  rw [henc]
  cases encodeKey k with
  | error e => exact ⟨rfl, h, rfl⟩
  | ok enc =>
    have hlt := owner_lt weight r.workers (hash enc % slots)
    dsimp only
    split
    · rename_i hknown
      have hmemo := (h (hash enc % slots)).resolve_left hknown
      refine ⟨?_, h, rfl⟩
      simp [hmemo, Except.map]
    split
    · refine ⟨rfl, fun slot => ?_, rfl⟩
      by_cases hslot : slot = hash enc % slots
      · have hadd := Int32.ofInt_add (Rendezvous.owner weight slot r.workers) 1
        have hint := Int32.toInt_ofInt_of_le (n := Rendezvous.owner weight slot r.workers + 1)
        grind
      · simpa [Function.update_of_ne hslot] using h slot
    · exact ⟨rfl, h, rfl⟩

/-- A sound router places the rows as fresh decisions do. -/
theorem Sound.routeRows (keys : List RoutingKey) (i : Nat) {r : Router W} (h : Sound weight r)
    (hfew : r.workers.length < 2 ^ 31) : routeRows (Router.ownerOf hash weight) i r keys =
      Router.routeRows (fun _ k => (ownerOfKey hash weight k r.workers, ())) i () keys := by
  induction keys generalizing i r with
  | nil => rfl
  | cons k keys ih =>
    obtain ⟨hanswer, hsound, hworkers⟩ := h.ownerOf hash hfew k
    rw [Router.routeRows, Router.routeRows]
    grind

/-! ## What becomes of the rows -/

theorem bucket_eq {n p : Nat} (hp : p < n) (os : List Int) (b : Nat → List Nat) (i : Nat) :
    bucket n b i os p = b p ++ ((os.zipIdx i).filter fun x => x.1 = (p : Int)).map Prod.snd := by
  induction os generalizing b i with
  | nil => simp [bucket]
  | cons o os ih =>
    rw [bucket, ih]
    by_cases ho : o = p
    · rw [if_neg (by omega)]
      simp [ho]
    split
    · simp [ho]
    · rw [Function.update_of_ne (by omega)]
      simp [ho]

/-- The rows placed at `p`, in the order of the batch. -/
def share (f : R → Int) (rows : List R) (p : Nat) : List R := rows.filter fun r => f r = p

theorem splitByOwner_eq (f : R → Int) (rows : List R) (n : Nat) :
    splitByOwner rows (rows.map f) n = (range n).map fun p =>
      if share f rows p = [] then none else some (share f rows p) := by
  refine map_congr_left fun p hp => ?_
  rw [bucket_eq (mem_range.mp hp)]
  -- The indexes taken and the rows are the two halves of one list.
  let both := rows.zipIdx.filter fun x => f x.1 = p
  have htaken : (((rows.map f).zipIdx 0).filter fun x => x.1 = (p : Int)).map Prod.snd =
      both.map Prod.snd := by
    simp [both, zipIdx_map, filter_map, Function.comp_def]
  have hmine : share f rows p = both.map Prod.fst := by
    conv_lhs => rw [share, ← zipIdx_map_fst 0 rows, filter_map]
    rfl
  have hrows : (both.map Prod.snd).filterMap (rows[·]?) = both.map Prod.fst := by
    rw [filterMap_map, ← filterMap_eq_map]
    refine filterMap_congr fun x hx => ?_
    exact mk_mem_zipIdx_iff_getElem?.mp (mem_of_mem_filter hx)
  simp only [nil_append, htaken, hrows, hmine, length_map, map_eq_nil_iff]
  split
  · rfl
  split
  · rename_i hall
    have hsub : (share f rows p).length = rows.length := by simp [hmine, hall]
    rw [← hmine, share, filter_sublist.eq_of_length hsub]
  · rfl

/-- **The live split and the snapshot split agree**, whatever the router looked up before: a
share of the snapshot is the owner's share of the stream, or has no row where the stream sends
none.  When every row has an owner, it is in its owner's share alone, a share keeps the order
of the batch, and nothing is sent for an owner without rows; otherwise the batch is refused. -/
theorem live_split (hfew : workers.length < 2 ^ 31) (lookups : List RoutingKey) :
    let r := lookups.foldl (fun r k => (r.ownerOf hash weight k).2) (new workers)
    let live := enqueuePartitioned hash weight key rows r
    let mine := share (place hash weight workers ∘ key) rows
    fanOut hash weight key workers rows = live.map (·.map (·.getD [])) ∧
    if ∀ row ∈ rows, 0 ≤ place hash weight workers (key row) then
      live = .ok ((range workers.length).map fun p => if mine p = [] then none else some (mine p)) ∧
      ∀ row ∈ rows, place hash weight workers (key row) < workers.length
    else ∃ e, live = .error e := by
  intro r live mine
  have hinv : Sound weight r ∧ r.workers = workers := by
    refine foldlRecOn (motive := fun r => Sound weight r ∧ r.workers = workers) lookups _
      ⟨fun _ => .inl rfl, rfl⟩ fun r hr k _ => ?_
    obtain ⟨-, hsound, hworkers⟩ := hr.1.ownerOf hash (hr.2 ▸ hfew) k
    exact ⟨hsound, hworkers.trans hr.2⟩
  have hlive : live = (freshOwners hash weight workers (rows.map key)).map
      (splitByOwner rows · workers.length) := by
    change (Router.routeRows _ 0 r _).map _ = _
    rw [hinv.1.routeRows hash _ 0 (hinv.2 ▸ hfew), hinv.2]
    rfl
  have hfresh := routeRows_fresh hash weight workers (rows.map key) 0
  simp only [forall_mem_map, map_map] at hfresh
  rw [hlive, fanOut]
  refine ⟨by cases freshOwners hash weight workers (rows.map key) <;> rfl, ?_⟩
  split
  · rename_i hall
    rw [if_pos hall] at hfresh
    rw [freshOwners, hfresh]
    refine ⟨congrArg _ (splitByOwner_eq _ rows _), fun row _ => ?_⟩
    unfold place ownerOfKey
    cases encodeKey (key row) with
    | error e => simp [Except.map, Except.toOption]; omega
    | ok enc => exact owner_lt weight workers _
  · rename_i hnot
    rw [if_neg hnot] at hfresh
    obtain ⟨e, he⟩ := hfresh
    exact ⟨e, by rw [freshOwners, he]; rfl⟩

/-- Two owners, one row: a window of no row goes to the other. -/
theorem fanOut_window_without_rows :
    fanOut length (fun _ _ => 0) (fun _ : Unit => [some (.bool true)]) [0, 1] [()] =
      .ok [[()], []] :=
  rfl

/-- A router that has met the slot of both rows. -/
theorem live_split_remembered :
    let r := ((new [0, 1]).ownerOf length (fun _ _ => 0) [some (.bool true)]).2
    r.owner 6 = 1 ∧
    fanOut length (fun _ _ => 0) (fun b : Bool => [some (.bool b)]) [0, 1] [false, true] =
      (enqueuePartitioned length (fun _ _ => 0) (fun b : Bool => [some (.bool b)]) [false, true]
        r).map (·.map (·.getD [])) :=
  ⟨by decide, (live_split length (by simp) [[some (.bool true)]]).1⟩

end Router

end Urutau
