import Urutau.TimeTexts

/-!
# Texts of Go values

What `fmt` prints for a value with `%T` and `%v`: the name of its type, and a text that tells the
value from every other one of the type.  A finite float is printed by the shortest decimal that
reads back as it, and is represented by that decimal here.  All the texts are printable ASCII.
-/

namespace ValueTexts

open CivilDates DigitTexts List TimeTexts

/-! ## Values and their texts -/

/-- The integer types of Go. -/
inductive IntKind
  | int
  | int8
  | int16
  | int32
  | int64
  | uint
  | uint8
  | uint16
  | uint32
  | uint64
  deriving DecidableEq, Repr

/-- The type's width in bits, and whether it is signed. -/
def IntKind.shape : IntKind → Nat × Bool
  | .int8 => (8, true)
  | .int16 => (16, true)
  | .int32 => (32, true)
  | .int | .int64 => (64, true)
  | .uint8 => (8, false)
  | .uint16 => (16, false)
  | .uint32 => (32, false)
  | .uint | .uint64 => (64, false)

/-- The numbers of the type. -/
def IntKind.Holds (k : IntKind) (n : Int) : Prop :=
  if k.shape.2 then -2 ^ (k.shape.1 - 1) ≤ n ∧ n < 2 ^ (k.shape.1 - 1)
  else 0 ≤ n ∧ n < 2 ^ k.shape.1

/-- The shortest decimal of a finite float: `0.digits` times ten to the power of `point`. -/
structure Shortest where
  negative : Bool
  digits : List Char
  point : Int
  all_digits : Digits digits
  first : digits.head? ≠ some '0'
  last : digits.getLast? ≠ some '0'
  zero : digits = [] → point = 0
  deriving DecidableEq, Repr

inductive GoFloat
  | nan
  | inf (negative : Bool)
  | finite (d : Shortest)
  deriving DecidableEq, Repr

/-- A number as JSON writes it, kept as its text. -/
structure JsonNumber where
  text : List Char
  plain : ∀ c ∈ text, c.isDigit = true ∨ c ∈ ['-', '+', '.', 'e', 'E']
  deriving DecidableEq, Repr

/-- The values that are neither texts, bytes nor times. -/
inductive Scalar
  | bool (b : Bool)
  | int (kind : IntKind) (n : Int)
  | float32 (f : GoFloat)
  | float64 (f : GoFloat)
  | number (n : JsonNumber)
  deriving DecidableEq, Repr

instance : Coe Int Scalar := ⟨.int .int64⟩

instance (n : Nat) : OfNat Scalar n := ⟨.int .int64 n⟩

/-- `%T`, of everything that is printed with it. -/
inductive GoType
  | bool
  | int (kind : IntKind)
  | float32
  | float64
  | number
  | bytes
  | time
  deriving DecidableEq, Repr

def GoType.name : GoType → String
  | .bool => "bool"
  | .int .int => "int"
  | .int .int8 => "int8"
  | .int .int16 => "int16"
  | .int .int32 => "int32"
  | .int .int64 => "int64"
  | .int .uint => "uint"
  | .int .uint8 => "uint8"
  | .int .uint16 => "uint16"
  | .int .uint32 => "uint32"
  | .int .uint64 => "uint64"
  | .float32 => "float32"
  | .float64 => "float64"
  | .number => "json.Number"
  | .bytes => "[]uint8"
  | .time => "time.Time"

def intText (n : Int) : List Char := (if n < 0 then ['-'] else []) ++ render n.natAbs

/-- The digits before the point, those behind it, and the exponent where there is one.  The
exponent is written for numbers below a ten-thousandth and from a million on. -/
def Shortest.parts (d : Shortest) : List Char × List Char × Option Int :=
  if d.digits ≠ [] ∧ (d.point - 1 < -4 ∨ 6 ≤ d.point - 1) then
    (d.digits.take 1, d.digits.drop 1, some (d.point - 1))
  else if 0 < d.point then
    let whole := d.digits.take d.point.toNat
    (whole ++ replicate (d.point.toNat - whole.length) '0', d.digits.drop d.point.toNat, none)
  else (['0'], replicate (-d.point).toNat '0' ++ d.digits, none)

def exponentText : Option Int → List Char
  | none => []
  | some e => 'e' :: (if e < 0 then '-' else '+') :: (padded 2 e.natAbs).toList

/-- `%v` of a float. -/
def floatText : GoFloat → List Char
  | .nan => "NaN".toList
  | .inf negative => (if negative then "-Inf" else "+Inf").toList
  | .finite d =>
    let (whole, fraction, exponent) := d.parts
    (if d.negative then ['-'] else []) ++ whole ++
      ((if fraction = [] then [] else '.' :: fraction) ++ exponentText exponent)

/-- `%v` of a byte slice. -/
def bytesText (bs : List UInt8) : List Char :=
  '[' :: intercalate [' '] (bs.map fun b => render b.toNat) ++ [']']

/-- `%v` of a time in UTC, in nanoseconds since the epoch. -/
def timeText (nanos : Int) : List Char :=
  let sec := nanos / 1000000000
  (dateText (sec / 86400)).toList ++ ' ' :: ((secondsText (sec % 86400)).toList ++
    ((fractionText (nanos % 1000000000).toNat).toList ++ " +0000 UTC".toList))

/-- The bytes of a text in ASCII. -/
def ascii (cs : List Char) : List UInt8 := cs.map fun c => UInt8.ofNat c.toNat

def Scalar.type : Scalar → GoType
  | .bool _ => .bool
  | .int kind _ => .int kind
  | .float32 _ => .float32
  | .float64 _ => .float64
  | .number _ => .number

def Scalar.text : Scalar → List Char
  | .bool b => (if b then "true" else "false").toList
  | .int _ n => intText n
  | .float32 f | .float64 f => floatText f
  | .number n => n.text

/-! ## Texts that are told apart -/

variable {x y u v : List Char}

/-- What stands before the first character of another kind. -/
theorem split_inj {α : Type*} {P : α → Bool} {x y u v : List α} (hx : ∀ a ∈ x, P a = true)
    (hy : ∀ a ∈ y, P a = true) (hu : ∀ a ∈ u.head?, P a = false)
    (hv : ∀ a ∈ v.head?, P a = false) (h : x ++ u = y ++ v) : x = y ∧ u = v := by
  have hnone : ∀ w : List α, (∀ a ∈ w.head?, P a = false) → w.takeWhile P = [] := by
    intro w hw
    cases w with
    | nil => rfl
    | cons a w => simp [hw a rfl]
  have htaken := congrArg (takeWhile P) h
  rw [takeWhile_append_of_pos hx, takeWhile_append_of_pos hy, hnone u hu, hnone v hv,
    append_nil, append_nil] at htaken
  subst htaken
  exact ⟨rfl, append_cancel_left h⟩

/-- Digits up to something that is no digit. -/
theorem digits_inj (hx : Digits x) (hy : Digits y) (hu : ∀ a ∈ u.head?, a.isDigit = false)
    (hv : ∀ a ∈ v.head?, a.isDigit = false) (h : x ++ u = y ++ v) : x = y ∧ u = v :=
  split_inj hx hy hu hv h

/-- A natural number is known by its text. -/
theorem render_injective {m n : Nat} (h : render m = render n) : m = n := by
  rw [← value_render m, h, value_render]

/-- Digits do not begin with a sign. -/
theorem Digits.ne_minus (hx : Digits x) : x ≠ '-' :: u := by
  rintro rfl
  exact absurd (hx '-' mem_cons_self) (by decide)

/-- A sign before something that has none. -/
theorem sign_inj {p q : Prop} [Decidable p] [Decidable q] (hx : ∀ w, x ≠ '-' :: w)
    (hy : ∀ w, y ≠ '-' :: w)
    (h : (if p then ['-'] else []) ++ x = (if q then ['-'] else []) ++ y) : (p ↔ q) ∧ x = y := by
  by_cases hp : p <;> by_cases hq : q
  · simpa [hp, hq] using h
  · simp only [if_pos hp, if_neg hq] at h
    exact absurd h.symm (hy x)
  · simp only [if_neg hp, if_pos hq] at h
    exact absurd h (hx y)
  · simpa [hp, hq] using h

/-- An integer is known by its text. -/
theorem intText_injective {m n : Int} (h : intText m = intText n) : m = n := by
  obtain ⟨hsign, hdigits⟩ := sign_inj (fun _ => Digits.ne_minus (digits_render _))
    (fun _ => Digits.ne_minus (digits_render _)) h
  have habs := render_injective hdigits
  omega

/-- A byte string is known by its text. -/
theorem bytesText_injective {bs bs' : List UInt8} (h : bytesText bs = bytesText bs') :
    bs = bs' := by
  have hbody := append_cancel_right (List.cons.inj h).2
  have hblank : ∀ bs : List UInt8, ∀ l ∈ bs.map fun b => render b.toNat, ' ' ∉ l := by
    intro bs l hl hin
    obtain ⟨b, -, rfl⟩ := mem_map.mp hl
    exact absurd (digits_render _ ' ' hin) (by decide)
  have hnil : ∀ bs : List UInt8, intercalate [' '] (bs.map fun b => render b.toNat) = [] →
      bs = [] := by
    intro bs hnone
    cases bs with
    | nil => rfl
    | cons b bs =>
      cases bs with
      | nil => exact absurd (intercalate_singleton.symm.trans hnone) (render_ne_nil b.toNat)
      | cons b' bs => simp [intercalate_cons_cons] at hnone
  by_cases hempty : bs = [] ∨ bs' = []
  · rcases hempty with rfl | rfl
    · exact (hnil bs' hbody.symm).symm
    · exact hnil bs hbody
  · obtain ⟨hbs, hbs'⟩ := not_or.mp hempty
    have hsplit := splitOn_intercalate ' ' (hblank bs) (by simpa using hbs)
    rw [hbody, splitOn_intercalate ' ' (hblank bs') (by simpa using hbs')] at hsplit
    refine map_injective_iff.mpr (fun a b hab => ?_) hsplit.symm
    exact UInt8.toNat_inj.mp (render_injective hab)

/-! ## Floats -/

namespace Shortest

variable (d : Shortest)

/-- The digits without the zeros around them, and the place of the point. -/
def recover (parts : List Char × List Char × Option Int) : List Char × Int :=
  let written := parts.1 ++ parts.2.1
  ((written.dropWhile (· == '0')).rdropWhile (· == '0'),
    parts.1.length + parts.2.2.getD 0 - (written.takeWhile (· == '0')).length)

/-- Zeros around the digits are taken off again. -/
theorem trim_zeros (before after : Nat) :
    ((replicate before '0' ++ (d.digits ++ replicate after '0')).dropWhile (· == '0')).rdropWhile
      (· == '0') = d.digits := by
  have hzeros : ∀ n, ∀ c ∈ replicate n '0', (c == '0') = true :=
    fun n c hc => beq_iff_eq.mpr (eq_of_mem_replicate hc)
  have hend : (d.digits ++ replicate after '0').rdropWhile (· == '0') = d.digits := by
    rw [rdropWhile, reverse_append, dropWhile_append_of_pos (by simp)]
    refine reverse_eq_iff.mpr (dropWhile_eq_self_iff.mpr fun hpos => ?_)
    have hlast := d.last
    rw [← head?_reverse, head?_eq_getElem?, getElem?_eq_getElem hpos] at hlast
    simpa using hlast
  rw [dropWhile_append_of_pos (hzeros before)]
  cases hdigits : d.digits with
  | nil =>
    have hnone : (replicate after '0').dropWhile (· == '0') = [] :=
      dropWhile_eq_nil_iff.mpr (hzeros after)
    rw [nil_append, hnone]
    rfl
  | cons c cs =>
    have hc : (c == '0') = false := by
      simpa [hdigits] using d.first
    rw [hdigits, cons_append] at hend
    rw [cons_append, dropWhile_cons_of_neg (by simp [hc]), hend]

/-- The zeros before the digits. -/
theorem leading_zeros (hne : d.digits ≠ []) (before : Nat) (rest : List Char) :
    ((replicate before '0' ++ (d.digits ++ rest)).takeWhile (· == '0')).length = before := by
  rw [takeWhile_append_of_pos (fun c hc => beq_iff_eq.mpr (eq_of_mem_replicate hc))]
  cases hdigits : d.digits with
  | nil => exact absurd hdigits hne
  | cons c cs =>
    have hc : (c == '0') = false := by
      simpa [hdigits] using d.first
    rw [cons_append, takeWhile_cons_of_neg (by simp [hc]), append_nil, length_replicate]

/-- **A float's decimal is recovered from what is written.** -/
theorem recover_parts : recover d.parts = (d.digits, d.point) := by
  unfold parts
  split
  · rename_i hexp
    have hlen : (d.digits.take 1).length = 1 := by
      have := length_pos_of_ne_nil hexp.1
      simp only [length_take]
      omega
    have htrim := d.trim_zeros 0 0
    have hlead := d.leading_zeros hexp.1 0 []
    simp only [replicate_zero, nil_append, append_nil] at htrim hlead
    simp only [recover, take_append_drop, htrim, hlead, hlen, Option.getD_some, Prod.mk.injEq,
      true_and]
    omega
  · split
    · rename_i hpos
      have hne : d.digits ≠ [] := fun hnil => by
        have := d.zero hnil
        omega
      have hall : d.digits.take d.point.toNat ++
          replicate (d.point.toNat - (d.digits.take d.point.toNat).length) '0' ++
            d.digits.drop d.point.toNat =
          d.digits ++ replicate (d.point.toNat - d.digits.length) '0' := by
        by_cases hlong : d.digits.length ≤ d.point.toNat
        · rw [take_of_length_le hlong, drop_of_length_le hlong, append_nil]
        · have hnone : d.point.toNat - (d.digits.take d.point.toNat).length = 0 := by
            rw [length_take]
            omega
          rw [hnone, replicate_zero, append_nil, take_append_drop, Nat.sub_eq_zero_of_le (by omega),
            replicate_zero, append_nil]
      have htrim := d.trim_zeros 0 (d.point.toNat - d.digits.length)
      have hlead := d.leading_zeros hne 0 (replicate (d.point.toNat - d.digits.length) '0')
      simp only [replicate_zero, nil_append] at htrim hlead
      simp only [recover, hall, htrim, hlead, Option.getD_none, Prod.mk.injEq, true_and]
      simp only [length_append, length_replicate, length_take]
      omega
    · rename_i hpos
      have hall : ['0'] ++ (replicate (-d.point).toNat '0' ++ d.digits) =
          replicate ((-d.point).toNat + 1) '0' ++ (d.digits ++ replicate 0 '0') := by
        simp [replicate_succ]
      have htrim := d.trim_zeros ((-d.point).toNat + 1) 0
      simp only [recover, hall, htrim, Option.getD_none, Prod.mk.injEq, true_and,
        length_singleton]
      by_cases hnil : d.digits = []
      · have hzero := d.zero hnil
        simp [hnil, hzero]
      · rw [d.leading_zeros hnil]
        omega

/-- The parts of a decimal are digits, with one before the point. -/
theorem digits_parts : Digits d.parts.1 ∧ Digits d.parts.2.1 ∧ d.parts.1 ≠ [] := by
  have hzeros : ∀ n, Digits (replicate n '0') := fun n c hc => eq_of_mem_replicate hc ▸ rfl
  unfold parts
  split
  · rename_i hexp
    exact ⟨d.all_digits.take 1, d.all_digits.drop 1, by simpa using hexp.1⟩
  · split
    · rename_i hpos
      refine ⟨(d.all_digits.take _).append (hzeros _), d.all_digits.drop _, fun hnil => ?_⟩
      have hlen := congrArg length hnil
      simp only [length_append, length_replicate, length_take, length_nil] at hlen
      omega
    · exact ⟨hzeros 1, (hzeros _).append d.all_digits, cons_ne_nil _ _⟩

end Shortest

/-- An exponent is known by its text. -/
theorem exponentText_injective {e e' : Option Int} (h : exponentText e = exponentText e') :
    e = e' := by
  cases e with
  | none =>
    cases e' with
    | none => rfl
    | some _ => cases h
  | some e =>
    cases e' with
    | none => cases h
    | some e' =>
      obtain ⟨hsign, hdigits⟩ := List.cons.inj (List.cons.inj h).2
      have habs : e.natAbs = e'.natAbs := by
        rw [← value_padded 2 e.natAbs, hdigits, value_padded]
      have hsame : e = e' := by
        split_ifs at hsign <;> first | omega | cases hsign
      rw [hsame]

/-- An exponent begins with its letter. -/
theorem head_exponentText (e : Option Int) : ∀ c ∈ (exponentText e).head?, c = 'e' := by
  intro c hc
  cases e with
  | none => cases hc
  | some e => exact (Option.some.inj hc).symm

/-- What is written behind the whole number. -/
theorem fraction_inj {e e' : Option Int} (hx : Digits x) (hy : Digits y)
    (h : (if x = [] then [] else '.' :: x) ++ exponentText e =
      (if y = [] then [] else '.' :: y) ++ exponentText e') : x = y ∧ e = e' := by
  have hpoint : ∀ (e : Option Int) w, exponentText e ≠ '.' :: w := by
    intro e w heq
    have hhead := head_exponentText e '.' (by rw [heq]; rfl)
    exact absurd hhead (by decide)
  have hend : ∀ e, ∀ c ∈ (exponentText e).head?, c.isDigit = false :=
    fun e c hc => head_exponentText e c hc ▸ rfl
  by_cases hxn : x = [] <;> by_cases hyn : y = []
  · simp only [hxn, hyn, if_true, nil_append] at h
    exact ⟨hxn.trans hyn.symm, exponentText_injective h⟩
  · simp only [hxn, hyn, if_true, if_false, nil_append, cons_append] at h
    exact absurd h (hpoint e _)
  · simp only [hxn, hyn, if_true, if_false, nil_append, cons_append] at h
    exact absurd h.symm (hpoint e' _)
  · simp only [hxn, hyn, if_false, cons_append] at h
    obtain ⟨hsame, hexp⟩ := digits_inj hx hy (hend e) (hend e') (List.cons.inj h).2
    exact ⟨hsame, exponentText_injective hexp⟩

/-- A finite float is known by its text. -/
theorem finiteText_injective {d d' : Shortest}
    (h : floatText (.finite d) = floatText (.finite d')) : d = d' := by
  obtain ⟨hw, hf, hne⟩ := d.digits_parts
  obtain ⟨hw', hf', hne'⟩ := d'.digits_parts
  have hback := d.recover_parts
  have hback' := d'.recover_parts
  simp only [floatText, append_assoc] at h
  have hstart : ∀ {whole rest : List Char}, Digits whole → whole ≠ [] →
      ∀ w, whole ++ rest ≠ '-' :: w := by
    intro whole rest hdigits hnil w heq
    cases whole with
    | nil => exact hnil rfl
    | cons c whole =>
      cases heq
      exact absurd (hdigits '-' mem_cons_self) (by decide)
  have hrest : ∀ (x : List Char) (e : Option Int),
      ∀ c ∈ ((if x = [] then [] else '.' :: x) ++ exponentText e).head?, c.isDigit = false := by
    intro x e c hc
    by_cases hx : x = []
    · simp only [hx, if_true, nil_append] at hc
      exact head_exponentText e c hc ▸ rfl
    · simp only [hx, if_false, cons_append, head?_cons, Option.mem_some_iff] at hc
      exact hc ▸ rfl
  obtain ⟨hsign, hbody⟩ := sign_inj (hstart hw hne) (hstart hw' hne') h
  obtain ⟨hwhole, hmore⟩ := digits_inj hw hw' (hrest _ _) (hrest _ _) hbody
  obtain ⟨hfraction, hexp⟩ := fraction_inj hf hf' hmore
  have hparts : d.parts = d'.parts := Prod.ext hwhole (Prod.ext hfraction hexp)
  rw [hparts, hback'] at hback
  obtain ⟨hdigits, hpoint⟩ := Prod.mk.inj hback
  cases d
  cases d'
  simp only [Shortest.mk.injEq]
  exact ⟨Bool.eq_iff_iff.mpr hsign, hdigits.symm, hpoint.symm⟩

/-- No letter stands in the text of a finite float but that of the exponent. -/
theorem mem_finiteText {d : Shortest} {c : Char} (hc : c ∈ floatText (.finite d)) :
    c.isDigit = true ∨ c ∈ ['-', '+', '.', 'e'] := by
  obtain ⟨hw, hf, -⟩ := d.digits_parts
  have hexp : ∀ e, c ∈ exponentText e → c.isDigit = true ∨ c ∈ ['-', '+', '.', 'e'] := by
    intro e he
    cases e with
    | none => cases he
    | some e =>
      rcases mem_cons.mp he with rfl | he
      · exact .inr (by decide)
      rcases mem_cons.mp he with rfl | he
      · exact .inr (by split <;> decide)
      · exact .inl (digits_padded _ _ c he)
  simp only [floatText, mem_append] at hc
  rcases hc with (hc | hc) | hc | hc
  · split at hc
    · obtain rfl := mem_singleton.mp hc
      exact .inr (by decide)
    · cases hc
  · exact .inl (hw c hc)
  · split at hc
    · cases hc
    · rcases mem_cons.mp hc with rfl | hc
      · exact .inr (by decide)
      · exact .inl (hf c hc)
  · exact hexp _ hc

/-- A float is known by its text. -/
theorem floatText_injective {f f' : GoFloat} (h : floatText f = floatText f') : f = f' := by
  have hnot : ∀ {d : Shortest} {cs : List Char}, 'N' ∈ cs ∨ 'I' ∈ cs →
      floatText (.finite d) ≠ cs := by
    rintro d cs hin rfl
    rcases hin with hin | hin <;> exact absurd (mem_finiteText hin) (by decide)
  have hinf : ∀ b, 'I' ∈ floatText (.inf b) := by decide
  cases f with
  | nan =>
    cases f' with
    | nan => rfl
    | inf b => cases b <;> exact absurd h (by decide)
    | finite d => exact absurd h.symm (hnot (.inl (by decide)))
  | inf b =>
    cases f' with
    | nan => cases b <;> exact absurd h (by decide)
    | inf b' => cases b <;> cases b' <;> first | rfl | exact absurd h (by decide)
    | finite d => exact absurd h.symm (hnot (.inr (hinf b)))
  | finite d =>
    cases f' with
    | nan => exact absurd h (hnot (.inl (by decide)))
    | inf b => exact absurd h (hnot (.inr (hinf b)))
    | finite d' => rw [finiteText_injective h]

/-! ## Times -/

/-- Zeros in front do not change the number. -/
theorem padded_injective {k m n : Nat} (h : (padded k m).toList = (padded k n).toList) : m = n := by
  rw [← value_padded k m, h, value_padded]

theorem paddedInt_of_nonneg {n : Int} (k : Nat) (hn : 0 ≤ n) :
    paddedInt k n = padded k n.toNat := by
  have habs : n.natAbs = n.toNat := by omega
  rw [paddedInt, if_neg (not_lt.mpr hn), habs]

/-- Numbers up to something that is no digit. -/
theorem padded_append_inj {k m n : Nat} (hu : ∀ a ∈ u.head?, a.isDigit = false)
    (hv : ∀ a ∈ v.head?, a.isDigit = false)
    (h : (padded k m).toList ++ u = (padded k n).toList ++ v) : m = n ∧ u = v :=
  (digits_inj (digits_padded k m) (digits_padded k n) hu hv h).imp_left padded_injective

/-- A date is read off the front of a text. -/
theorem dateText_append_inj {a b : Int} (hu : ∀ c ∈ u.head?, c.isDigit = false)
    (hv : ∀ c ∈ v.head?, c.isDigit = false)
    (h : (dateText a).toList ++ u = (dateText b).toList ++ v) : a = b ∧ u = v := by
  have htext : ∀ (days : Int) (w : List Char), (dateText days).toList ++ w =
      (if (civil days).year < 0 then ['-'] else []) ++
        ((padded 4 (civil days).year.natAbs).toList ++
          '-' :: ((padded 2 (civil days).month).toList ++
            '-' :: ((padded 2 (civil days).day).toList ++ w))) := by
    intro days w
    simp only [dateText, paddedInt_of_nonneg 2 (Int.natCast_nonneg _), Int.toNat_natCast]
    split <;> simp
  have hdash : ∀ (w : List Char), ∀ c ∈ ('-' :: w).head?, c.isDigit = false := by
    rintro w c ⟨⟩
    rfl
  have hstart : ∀ (k n : Nat) (w w' : List Char), (padded k n).toList ++ '-' :: w ≠ '-' :: w' := by
    intro k n w w' heq
    have hsplit := digits_inj (x := (padded k n).toList) (y := []) (digits_padded k n)
      (forall_mem_nil _) (hdash w) (hdash w') heq
    have hlen := congrArg length hsplit.1
    rw [toList_padded, length_append] at hlen
    have hpos := length_pos_of_ne_nil (render_ne_nil n)
    simp only [length_nil] at hlen
    omega
  rw [htext a, htext b] at h
  obtain ⟨hsign, hdigits⟩ := sign_inj (hstart _ _ _) (hstart _ _ _) h
  obtain ⟨hyear, hrest⟩ := padded_append_inj (hdash _) (hdash _) hdigits
  obtain ⟨hmonth, hrest⟩ := padded_append_inj (hdash _) (hdash _) (List.cons.inj hrest).2
  obtain ⟨hday, hend⟩ := padded_append_inj hu hv (List.cons.inj hrest).2
  have hcivil : civil a = civil b := by
    generalize civil a = x at *
    generalize civil b = y at *
    cases x
    cases y
    simp only [Civil.mk.injEq]
    exact ⟨by simp only at hsign hyear; omega, hmonth, hday⟩
  exact ⟨by rw [← days_civil a, hcivil, days_civil], hend⟩

/-- A time of day is read off the front of a text. -/
theorem secondsText_append_inj {a b : Int} (ha : 0 ≤ a) (hb : 0 ≤ b)
    (hu : ∀ c ∈ u.head?, c.isDigit = false) (hv : ∀ c ∈ v.head?, c.isDigit = false)
    (h : (secondsText a).toList ++ u = (secondsText b).toList ++ v) : a = b ∧ u = v := by
  have htext : ∀ (sec : Int) (w : List Char), 0 ≤ sec → (secondsText sec).toList ++ w =
      (padded 2 (sec / 3600).toNat).toList ++ ':' :: ((padded 2 (sec / 60 % 60).toNat).toList ++
        ':' :: ((padded 2 (sec % 60).toNat).toList ++ w)) := by
    intro sec w hsec
    rw [secondsText, clockText, paddedInt_of_nonneg 2 (by omega), paddedInt_of_nonneg 2 (by omega),
      paddedInt_of_nonneg 2 (by omega)]
    simp
  have hcolon : ∀ (w : List Char), ∀ c ∈ (':' :: w).head?, c.isDigit = false := by
    rintro w c ⟨⟩
    rfl
  rw [htext a u ha, htext b v hb] at h
  obtain ⟨hhour, hrest⟩ := padded_append_inj (hcolon _) (hcolon _) h
  obtain ⟨hminute, hrest⟩ := padded_append_inj (hcolon _) (hcolon _) (List.cons.inj hrest).2
  obtain ⟨hsecond, hend⟩ := padded_append_inj hu hv (List.cons.inj hrest).2
  exact ⟨by omega, hend⟩

/-- A fraction is nine digits without the zeros behind. -/
theorem toList_fractionText {n : Nat} (hn : n ≠ 0) (w : List Char) : (fractionText n).toList ++ w =
    '.' :: ((padded 9 n).toList.rdropWhile (· == '0') ++ w) := by
  simp [fractionText, hn]

/-- A fraction up to a blank. -/
theorem fractionText_inj {m n : Nat} (hm : m < 10 ^ 9) (hn : n < 10 ^ 9)
    (h : (fractionText m).toList ++ ' ' :: u = (fractionText n).toList ++ ' ' :: v) : m = n := by
  have htrim : ∀ {k : Nat}, k < 10 ^ 9 →
      value ((padded 9 k).toList.rdropWhile (· == '0')) *
        10 ^ (9 - ((padded 9 k).toList.rdropWhile (· == '0')).length) = k := by
    intro k hk
    have hvalue := value_rdropWhile (padded 9 k).toList
    rwa [value_padded, length_padded (by decide) hk] at hvalue
  have hdigits : ∀ k, Digits ((padded 9 k).toList.rdropWhile (· == '0')) :=
    fun k c hc => digits_padded 9 k c (( rdropWhile_prefix _ _).subset hc)
  have hblank : ∀ (w : List Char), ∀ c ∈ (' ' :: w).head?, c.isDigit = false := by
    rintro w c ⟨⟩
    rfl
  by_cases hm0 : m = 0 <;> by_cases hn0 : n = 0
  · rw [hm0, hn0]
  · simp [fractionText, hm0, hn0] at h
  · simp [fractionText, hm0, hn0] at h
  · rw [toList_fractionText hm0, toList_fractionText hn0] at h
    have hsame := (digits_inj (hdigits m) (hdigits n) (hblank u) (hblank v)
      (List.cons.inj h).2).1
    rw [← htrim hm, hsame, htrim hn]

/-- An instant is known by its text. -/
theorem timeText_injective {a b : Int} (h : timeText a = timeText b) : a = b := by
  have hblank : ∀ (w : List Char), ∀ c ∈ (' ' :: w).head?, c.isDigit = false := by
    rintro w c ⟨⟩
    rfl
  have hfraction : ∀ (n : Nat) (w : List Char),
      ∀ c ∈ ((fractionText n).toList ++ ' ' :: w).head?, c.isDigit = false := by
    intro n w c hc
    by_cases hn : n = 0
    · simp only [fractionText, hn, if_true] at hc
      exact hblank w c hc
    · rw [toList_fractionText hn, head?_cons, Option.mem_some_iff] at hc
      exact hc ▸ rfl
  have hzone : " +0000 UTC".toList = ' ' :: "+0000 UTC".toList := rfl
  simp only [timeText, hzone] at h
  obtain ⟨hdays, hclock⟩ := dateText_append_inj (hblank _) (hblank _) h
  obtain ⟨hsec, hrest⟩ := secondsText_append_inj (by omega) (by omega) (hfraction _ _)
    (hfraction _ _) (List.cons.inj hclock).2
  have hnsec := fractionText_inj (by omega) (by omega) hrest
  omega

/-! ## Printable texts -/

/-- A text of printable ASCII. -/
def Printable (cs : List Char) : Prop := ∀ c ∈ cs, 32 ≤ c.toNat ∧ c.toNat < 127

instance (cs : List Char) : Decidable (Printable cs) :=
  List.decidableBAll (fun c : Char => 32 ≤ c.toNat ∧ c.toNat < 127) cs

theorem Printable.append (hx : Printable x) (hy : Printable y) : Printable (x ++ y) :=
  fun c hc => (mem_append.mp hc).elim (hx c) (hy c)

theorem Printable.cons {c : Char} (hc : Printable [c]) (hx : Printable x) : Printable (c :: x) :=
  Printable.append hc hx

theorem Digits.printable (hx : Digits x) : Printable x := by
  intro c hc
  have hdigit := hx c hc
  simp only [Char.isDigit, Bool.and_eq_true, decide_eq_true_eq, UInt32.le_iff_toNat_le] at hdigit
  exact ⟨Nat.le_trans (by decide) hdigit.1, Nat.lt_of_le_of_lt hdigit.2 (by decide)⟩

/-- No control character stands in a printable text. -/
theorem Printable.notMem_ascii (hx : Printable x) {b : UInt8} (hb : b.toNat < 32) :
    b ∉ ascii x := by
  intro hin
  obtain ⟨c, hc, rfl⟩ := mem_map.mp hin
  have hc := hx c hc
  rw [UInt8.toNat_ofNat'] at hb
  omega

/-- Printable characters are known by their bytes. -/
theorem ascii_inj (hx : Printable x) (hy : Printable y) (h : ascii x = ascii y) : x = y := by
  induction x generalizing y with
  | nil => exact (map_eq_nil_iff.mp h.symm).symm
  | cons a x ih =>
    cases y with
    | nil => cases h
    | cons b y =>
      obtain ⟨hab, hxy⟩ := List.cons.inj h
      have ha := hx a mem_cons_self
      have hb := hy b mem_cons_self
      have hnat := congrArg UInt8.toNat hab
      rw [UInt8.toNat_ofNat', UInt8.toNat_ofNat'] at hnat
      have hsame : a = b := Char.toNat_inj.mp (by omega)
      rw [hsame, ih (fun c hc => hx c (mem_cons_of_mem _ hc))
        (fun c hc => hy c (mem_cons_of_mem _ hc)) hxy]

theorem printable_padded (k n : Nat) : Printable (padded k n).toList :=
  Digits.printable (digits_padded k n)

theorem printable_paddedInt (k : Nat) (n : Int) : Printable (paddedInt k n).toList := by
  unfold paddedInt
  split
  · rw [String.toList_append]
    exact Printable.append (by decide) (printable_padded _ _)
  · exact printable_padded _ _

theorem printable_dateText (days : Int) : Printable (dateText days).toList := by
  simp only [dateText, String.toList_append]
  refine .append (.append (.append (.append (.append ?_ (printable_padded _ _)) (by decide))
    (printable_paddedInt _ _)) (by decide)) (printable_paddedInt _ _)
  split <;> decide

theorem printable_secondsText (sec : Int) : Printable (secondsText sec).toList := by
  simp only [secondsText, clockText, String.toList_append]
  exact .append (.append (.append (.append (printable_paddedInt _ _) (by decide))
    (printable_paddedInt _ _)) (by decide)) (printable_paddedInt _ _)

theorem printable_fractionText (n : Nat) : Printable (fractionText n).toList := by
  by_cases hn : n = 0
  · rw [fractionText, if_pos hn]
    decide
  · have htext := toList_fractionText hn []
    rw [append_nil, append_nil] at htext
    rw [htext]
    exact .cons (by decide) fun c hc => printable_padded 9 n c (( rdropWhile_prefix _ _).subset hc)

theorem printable_timeText (nanos : Int) : Printable (timeText nanos) :=
  .append (printable_dateText _) (.cons (by decide) (.append (printable_secondsText _)
    (.append (printable_fractionText _) (by decide))))

/-- The layout of an instant in UTC. -/
theorem printable_rfc3339Text (unix : Int) (nsec : Nat) :
    Printable (rfc3339Text unix nsec 0).toList := by
  simp only [rfc3339Text, zoneText, if_true, String.toList_append]
  exact .append (.append (.append (.append (printable_dateText _) (by decide))
    (printable_secondsText _)) (printable_fractionText _)) (by decide)

theorem printable_bytesText (bs : List UInt8) : Printable (bytesText bs) := by
  refine .append (.cons (by decide) ?_) (by decide)
  induction bs with
  | nil => exact nofun
  | cons b bs ih =>
    have hb := Digits.printable (digits_render b.toNat)
    cases bs with
    | nil => simpa using hb
    | cons b' bs =>
      rw [map_cons, map_cons, intercalate_cons_cons]
      exact .append (.append hb (by decide)) ih

theorem printable_scalar (v : Scalar) : Printable v.text := by
  have hfloat : ∀ f, Printable (floatText f) := by
    intro f c hc
    cases f with
    | nan => exact (by decide : Printable (floatText .nan)) c hc
    | inf b => exact (by cases b <;> decide : Printable (floatText (.inf b))) c hc
    | finite d =>
      rcases mem_finiteText hc with hdigit | hsign
      · exact Digits.printable (fun _ h => mem_singleton.mp h ▸ hdigit) c (mem_singleton_self c)
      · exact (by decide : Printable ['-', '+', '.', 'e']) c hsign
  cases v with
  | bool b => cases b <;> decide
  | int k n =>
    refine .append ?_ (Digits.printable (digits_render _))
    split <;> decide
  | float32 f | float64 f => exact hfloat f
  | number n =>
    intro c hc
    rcases n.plain c hc with hdigit | hsign
    · exact Digits.printable (fun _ h => mem_singleton.mp h ▸ hdigit) c (mem_singleton_self c)
    · exact (by decide : Printable ['-', '+', '.', 'e', 'E']) c hsign

/-- A scalar is known by its type and its text. -/
theorem scalarText_inj {v w : Scalar} (htype : v.type = w.type) (h : v.text = w.text) : v = w := by
  cases v <;> cases w <;> simp only [Scalar.type, reduceCtorEq, GoType.int.injEq] at htype
  case bool.bool a b => cases a <;> cases b <;> first | rfl | exact absurd h (by decide)
  case int.int k m l n => rw [htype, intText_injective h]
  case float32.float32 f g => rw [floatText_injective h]
  case float64.float64 f g => rw [floatText_injective h]
  case number.number m n => cases m; cases n; cases h; rfl

/-- Types have names of their own. -/
theorem GoType.name_injective {a b : GoType} (h : a.name.toList = b.name.toList) : a = b := by
  have hname := String.toList_inj.mp h
  cases a with
  | int k =>
    cases b with
    | int l => cases k <;> cases l <;> first | rfl | exact absurd hname (by decide)
    | _ => cases k <;> exact absurd hname (by decide)
  | _ =>
    cases b with
    | int l => cases l <;> exact absurd hname (by decide)
    | _ => first | rfl | exact absurd hname (by decide)

/-- A type's name is printable and without a colon. -/
theorem GoType.name_plain (t : GoType) : Printable t.name.toList ∧ ':' ∉ t.name.toList := by
  cases t with
  | int k => cases k <;> decide
  | _ => decide

end ValueTexts
