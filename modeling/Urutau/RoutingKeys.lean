import Urutau.SlotOwners

/-!
# The routing key

A key tuple is encoded element by element: a tag, the payload's length in four bytes, the
payload.  Integers of every width share one payload, so that a row of the snapshot and a change
of the stream reach the same owner.
-/

namespace Urutau

open List

/-- A key value that is not null: signed and unsigned integers with the width of their Go type,
a time as nanoseconds since the epoch with its zone. -/
inductive RoutingValue
  | bool (b : Bool)
  | signed (width : Nat) (n : Int64)
  | unsigned (width : Nat) (n : UInt64)
  | text (bytes : List UInt8)
  | binary (bytes : List UInt8)
  | time (nanos : Int64) (zone : Int)

namespace RoutingValue

/-- What a key value stands for, whatever Go type holds it. -/
inductive Meaning
  | bool (b : Bool)
  | int (n : Int)
  | text (bytes : List UInt8)
  | binary (bytes : List UInt8)
  | instant (nanos : Int64)

def meaning : RoutingValue → Meaning
  | bool b => .bool b
  | signed _ n => .int n.toInt
  | unsigned _ n => .int n.toNat
  | text s => .text s
  | binary s => .binary s
  | time nanos _ => .instant nanos

/-- The low `w` bytes of a number, most significant first. -/
def bigEndian : Nat → Nat → List UInt8
  | 0, _ => []
  | w + 1, n => bigEndian w (n / 256) ++ [.ofNat n]

def magnitude (v : Int64) (neg : Bool) : UInt64 :=
  if neg then (-(v + 1)).toUInt64 + 1 else v.toUInt64

def encodeInteger (neg : Bool) (mag : UInt64) : List UInt8 :=
  (if neg then 1 else 0) :: bigEndian 8 mag.toNat

/-- Tag and payload. -/
def encodeValue : RoutingValue → UInt8 × List UInt8
  | bool b => (1, [if b then 1 else 0])
  | signed _ n => (2, encodeInteger (n < 0) (magnitude n (n < 0)))
  | unsigned _ n => (2, encodeInteger false n)
  | text s => (4, s)
  | binary s => (5, s)
  | time nanos _ => (6, bigEndian 8 nanos.toUInt64.toNat)

/-- One element of the key.  `uint32(len(payload))` keeps the low four bytes of the length. -/
def frame (v : RoutingValue) : List UInt8 :=
  v.encodeValue.1 :: (bigEndian 4 v.encodeValue.2.length ++ v.encodeValue.2)

/-- The loop of `appendKey` from column `i` on. -/
def appendFrom : Nat → List UInt8 → List (Option RoutingValue) → Except String (List UInt8)
  | _, buf, [] => .ok buf
  | i, _, none :: _ => .error s!"routing: key column {i} is null"
  | i, buf, some v :: rest => appendFrom (i + 1) (buf ++ v.frame) rest

def appendKey (buf : List UInt8) (key : List (Option RoutingValue)) : Except String (List UInt8) :=
  if key = [] then .error "routing: empty primary key" else appendFrom 0 buf key

def encodeKey (key : List (Option RoutingValue)) : Except String (List UInt8) := appendKey [] key

@[simp] theorem length_bigEndian (w n : Nat) : (bigEndian w n).length = w := by
  induction w generalizing n with
  | zero => rfl
  | succ w ih => simp [bigEndian, ih]

/-- A number is known by its bytes. -/
theorem bigEndian_inj {w n m : Nat} (hn : n < 256 ^ w) (hm : m < 256 ^ w)
    (h : bigEndian w n = bigEndian w m) : n = m := by
  induction w generalizing n m with
  | zero => omega
  | succ w ih =>
    obtain ⟨hhigh, hlow⟩ := append_inj' h rfl
    have hhigh := ih (by omega) (by omega) hhigh
    have hlow : n % 256 = m % 256 := by simpa [UInt8.ofNat_eq_iff_mod_eq_toNat] using hlow
    omega

/-- The magnitude is the absolute value. -/
theorem magnitude_eq (v : Int64) : (magnitude v (v < 0)).toNat = v.toInt.natAbs := by
  have hneg : (-(v + 1)).toUInt64 + 1 = -v.toUInt64 := by
    have hone : Int64.toUInt64 1 = 1 := rfl
    grind [Int64.toUInt64_neg, Int64.toUInt64_add]
  have hbits : v.toInt = if 2 * v.toUInt64.toNat < 2 ^ 64 then (v.toUInt64.toNat : Int)
      else v.toUInt64.toNat - 2 ^ 64 := BitVec.toInt_eq_toNat_cond _
  have hlt : v < 0 ↔ v.toInt < 0 := Int64.lt_iff_toInt_lt
  have hbound := v.toUInt64.toNat_lt
  simp only [magnitude, hneg, decide_eq_true_eq, hlt]
  split
  · rw [UInt64.toNat_neg, UInt64.size]
    omega
  · omega

/-- Sign and magnitude determine an integer. -/
theorem encodeInteger_eq_iff {a b : Bool} {m n : UInt64} {x y : Int} (ha : a = decide (x < 0))
    (hm : m.toNat = x.natAbs) (hb : b = decide (y < 0)) (hn : n.toNat = y.natAbs) :
    encodeInteger a m = encodeInteger b n ↔ x = y := by
  constructor
  · intro h
    injection h with hsign hmag
    have hmag := bigEndian_inj m.toNat_lt n.toNat_lt hmag
    grind
  · rintro rfl
    rw [ha, hb, UInt64.toNat_inj.mp (hm.trans hn.symm)]

/-- Two values have one encoding exactly if they mean the same. -/
theorem encodeValue_eq_iff (v w : RoutingValue) :
    v.encodeValue = w.encodeValue ↔ v.meaning = w.meaning := by
  have hsigned (n : Int64) : decide (n < 0) = decide (n.toInt < 0) :=
    decide_eq_decide.mpr Int64.lt_iff_toInt_lt
  have hunsigned (n : UInt64) : false = decide ((n.toNat : Int) < 0) := by simp
  cases v <;> cases w <;> simp only [encodeValue, meaning, Prod.mk.injEq, reduceCtorEq, iff_false,
    true_and, Meaning.bool.injEq, Meaning.int.injEq,
    Meaning.instant.injEq]
  case bool.bool => grind
  case signed.signed =>
    exact encodeInteger_eq_iff (hsigned _) (magnitude_eq _) (hsigned _) (magnitude_eq _)
  case signed.unsigned => exact encodeInteger_eq_iff (hsigned _) (magnitude_eq _) (hunsigned _) rfl
  case unsigned.signed => exact encodeInteger_eq_iff (hunsigned _) rfl (hsigned _) (magnitude_eq _)
  case unsigned.unsigned => exact encodeInteger_eq_iff (hunsigned _) rfl (hunsigned _) rfl
  case time.time nanos _ nanos' _ =>
    constructor
    · intro h
      have h := bigEndian_inj nanos.toUInt64.toNat_lt nanos'.toUInt64.toNat_lt h
      simpa using congrArg UInt64.toInt64 (UInt64.toNat_inj.mp h)
    · rintro rfl
      rfl
  all_goals simp

/-- The number of hash slots. -/
def slots : Nat := 4096

/-- The texts and binaries whose length four bytes hold. -/
def Short : RoutingValue → Prop
  | text s | binary s => s.length < 2 ^ 32
  | _ => True

theorem Short.payload {v : RoutingValue} (h : v.Short) : v.encodeValue.2.length < 256 ^ 4 := by
  cases v <;> simp_all [encodeValue, encodeInteger, Short]

/-- What follows a frame does not run into it. -/
theorem frame_append_inj {v w : RoutingValue} {rest rest' : List UInt8} (hv : v.Short)
    (hw : w.Short) (h : v.frame ++ rest = w.frame ++ rest') :
    v.encodeValue = w.encodeValue ∧ rest = rest' := by
  simp only [frame, cons_append, append_assoc, cons.injEq] at h
  obtain ⟨htag, h⟩ := h
  obtain ⟨hlen, h⟩ := append_inj h (by simp)
  obtain ⟨hpayload, hrest⟩ := append_inj h (bigEndian_inj hv.payload hw.payload hlen)
  exact ⟨Prod.ext htag hpayload, hrest⟩

/-- Two keys have one encoding exactly if their values mean the same. -/
theorem frames_eq_iff (k k' : List RoutingValue) (hk : ∀ v ∈ k, v.Short) (hk' : ∀ v ∈ k', v.Short) :
    k.flatMap frame = k'.flatMap frame ↔ k.map meaning = k'.map meaning := by
  induction k generalizing k' with
  | nil => cases k' <;> simp [frame]
  | cons v k ih =>
    cases k' with
    | nil => simp [frame]
    | cons w k' =>
      obtain ⟨hv, hk⟩ := forall_mem_cons.mp hk
      obtain ⟨hw, hk'⟩ := forall_mem_cons.mp hk'
      simp only [flatMap_cons, map_cons, cons.injEq, ← ih k' hk hk', ← encodeValue_eq_iff]
      constructor
      · exact frame_append_inj hv hw
      · intro ⟨hvalue, hrest⟩
        rw [frame, hvalue, hrest, frame]

theorem appendFrom_some (i : Nat) (buf : List UInt8) (k : List RoutingValue) :
    appendFrom i buf (k.map some) = .ok (buf ++ k.flatMap frame) := by
  induction k generalizing i buf with
  | nil => simp [appendFrom]
  | cons v k ih => simp [appendFrom, ih]

/-- A key without NULL is the frames of its values. -/
theorem encodeKey_some (k : List RoutingValue) : encodeKey (k.map some) =
    if k = [] then .error "routing: empty primary key" else .ok (k.flatMap frame) := by
  simp [encodeKey, appendKey, appendFrom_some]

variable {W : Type} [LinearOrder W]

/-- `OwnerOfKey`, with `hash` the seeded digest. -/
def ownerOfKey (hash : List UInt8 → Nat) (weight : Nat → W → Nat)
    (key : List (Option RoutingValue)) (workers : List W) : Except String Int :=
  (encodeKey key).map fun enc => Rendezvous.owner weight (hash enc % slots) workers

/-- **The routing key is canonical**: two tuples have the same encoding exactly when they have the
same arity and equal values, and then the same owner. -/
theorem encodeKey_eq_iff (k k' : List RoutingValue) (hk : ∀ v ∈ k, v.Short)
    (hk' : ∀ v ∈ k', v.Short) (hash : List UInt8 → Nat) (weight : Nat → W → Nat)
    (workers : List W) :
    (encodeKey (k.map some) = encodeKey (k'.map some) ↔ k.map meaning = k'.map meaning) ∧
    (k.map meaning = k'.map meaning → ownerOfKey hash weight (k.map some) workers =
      ownerOfKey hash weight (k'.map some) workers) := by
  have hiff : encodeKey (k.map some) = encodeKey (k'.map some) ↔
      k.map meaning = k'.map meaning := by
    rw [encodeKey_some, encodeKey_some, ← frames_eq_iff k k' hk hk']
    cases k <;> cases k' <;> simp [frame]
  refine ⟨hiff, fun h => ?_⟩
  rw [ownerOfKey, hiff.mpr h, ownerOfKey]

/-- The width of an integer is not part of the key. -/
theorem int_widths_one_key : encodeKey [some (.signed 32 7), some (.text [])] =
      encodeKey [some (.unsigned 64 7), some (.text [])] :=
  (encodeKey_eq_iff [.signed 32 7, .text []] [.unsigned 64 7, .text []] (by simp [Short])
    (by simp [Short]) length (fun _ _ => 0) [0]).1.mpr rfl

/-- A text of 2^32 bytes is framed with length zero, and what it holds is read as the next
element. -/
theorem long_text_collides : ∃ k k' : List RoutingValue,
    encodeKey (k.map some) = encodeKey (k'.map some) ∧ k.length ≠ k'.length := by
  obtain ⟨y, hy⟩ : ∃ y : List UInt8, y.length = 2 ^ 32 - 5 := ⟨replicate _ 0, length_replicate⟩
  have hlength : (frame (.text y)).length = 2 ^ 32 := by simp [frame, encodeValue, hy]
  have hzero : bigEndian 4 (2 ^ 32) = bigEndian 4 0 := by decide
  have houter : frame (.text (frame (.text y))) = frame (.text []) ++ frame (.text y) := by
    change 4 :: (bigEndian 4 (frame (.text y)).length ++ frame (.text y)) = _
    rw [hlength]
    rfl
  refine ⟨[.text (frame (.text y))], [.text [], .text y], ?_, by simp⟩
  rw [encodeKey_some, encodeKey_some]
  simp [houter]

end RoutingValue

end Urutau
