import Urutau.DigitTexts
import Urutau.EqualityDeletes
import Urutau.ValueTexts

/-!
# What a cast to decimal keeps

A text that is cast to `decimal(p,s)` is checked by its digits: at most `s` after the point
and at most `p - s` before it.  An integer is rendered by putting the point before the last
`s` of its digits, and the text is checked in the same way; on the wire the text is parsed
again, by the Arrow library.
-/

namespace Urutau

open List DigitTexts TimeTexts ValueTexts Option

/-- An integer value of Go. -/
structure GoInteger where
  kind : IntKind
  value : Int
  holds : kind.Holds value

/-- A declared `decimal(p,s)`. -/
structure DecimalType where
  precision : Nat
  scale : Nat
  positive : 0 < precision
  scale_le : scale ≤ precision
  deriving DecidableEq

inductive DecimalArgsError
  | wantsPrecisionScale (args : List Char)
  | invalidPrecision (p : List Char)
  | invalidScale (s : List Char)
  | scaleExceedsPrecision (scale precision : Nat)
  deriving DecidableEq

/-- `strconv.Atoi` of a text without the white space around it, for 64 bits. -/
def atoiTrimmed (s : List Char) : Option Int :=
  let space := fun c => c ∈ ['\t', '\n', '\x0b', '\x0c', '\r', ' ', '\x85', '\xa0']
  let s := ((s.dropWhile space).reverse.dropWhile space).reverse
  let body := if s.head? = some '+' ∨ s.head? = some '-' then s.tail else s
  let n : Int := if s.head? = some '-' then -value body else value body
  if body ≠ [] ∧ Digits body ∧ -2 ^ 63 ≤ n ∧ n < 2 ^ 63 then some n else none

/-- `parseDecimalArgs`. -/
def parseDecimalArgs (args : List Char) : Except DecimalArgsError DecimalType :=
  if ',' ∈ args then
    let p := args.takeWhile (· ≠ ',')
    let s := (args.dropWhile (· ≠ ',')).drop 1
    match atoiTrimmed p, atoiTrimmed s with
    | none, _ => .error (.invalidPrecision p)
    | some precision, scale =>
      if hpos : 0 < precision.toNat then
        match scale with
        | none => .error (.invalidScale s)
        | some scale =>
          if scale < 0 then .error (.invalidScale s)
          else if hle : scale.toNat ≤ precision.toNat then
            .ok ⟨precision.toNat, scale.toNat, hpos, hle⟩
          else .error (.scaleExceedsPrecision scale.toNat precision.toNat)
      else .error (.invalidPrecision p)
  else .error (.wantsPrecisionScale args)

section Casts

variable {F32 F64 : Type} (lib : ValueLib F32 F64)

/-- The case of `castToDecimal` an integer comes to; `asUnsigned` widens, and two types have
no case. -/
def GoInteger.widened (v : GoInteger) : Option (GoValue F32 F64) :=
  match v.kind with
  | .int8 | .int16 => none
  | .int32 => some (.int32 v.value)
  | .int | .int64 => some (.int64 v.value)
  | _ => some (.uint64 v.value.toNat)

/-- `castToDecimal` of an integer. -/
def castInteger (d : DecimalType) (v : GoInteger) : Except KeyError (GoValue F32 F64) :=
  match v.widened with
  | none => .error .cannotCast
  | some value => castToDecimal lib d.precision d.scale value

end Casts

/-- The number a decimal text stands for. -/
def textValue (s : String) : Option Rat :=
  (decimalParts s).map fun x =>
    (if s.toList.head? = some '-' then -1 else 1) * (value x.1 + value x.2 / 10 ^ x.2.length)

/-- What is asked of Arrow's decimal columns, which have 38 digits at most: the number of a text
is read as it is, where it has a place. -/
def ValueLib.ReadsDecimals {F32 F64 : Type} (lib : ValueLib F32 F64) : Prop :=
  ∀ p s text (n : Int), p ≤ 38 → textValue text = some (n / 10 ^ s : Rat) → n.natAbs < 10 ^ p →
    lib.parseDecimal p s text = some n

/-- `appendTypedValue` of an integer to a decimal column: the types it lists are the ones the
cast has a case for. -/
def appendDecimal {F32 F64 : Type} (lib : ValueLib F32 F64) (d : DecimalType) (v : GoInteger) :
    Except KeyError Int :=
  match castInteger lib d v with
  | .error e => .error e
  | .ok (.string s) =>
    match lib.parseDecimal d.precision d.scale s with
    | some n => .ok n
    | none => .error .badText
  | .ok _ => .error .cannotAppend

/-! ## Texts -/

/-- The number has `p` digits, of which `s` are fractional. -/
def Representable (d : DecimalType) (q : Rat) : Prop :=
  ∃ n : Int, q = n / 10 ^ d.scale ∧ n.natAbs < 10 ^ d.precision

/-- The digits the type has no place for. -/
def DecimalType.beyond (d : DecimalType) (whole fraction : List Char) : List Char :=
  whole.take (whole.length - (d.precision - d.scale)) ++ fraction.drop d.scale

/-- A text has digits the type has no place for, and they are zeros. -/
def ZeroPadded (d : DecimalType) (s : String) : Prop :=
  match decimalParts s with
  | none => False
  | some (whole, fraction) =>
    d.beyond whole fraction ≠ [] ∧ ∀ c ∈ d.beyond whole fraction, c = '0'

variable {whole fraction : List Char}

variable {s : String}

/-- The parts of a decimal text are digits. -/
theorem decimalParts_digits (h : decimalParts s = some (whole, fraction)) :
    whole ≠ [] ∧ Digits whole ∧ Digits fraction := by
  obtain ⟨⟨hne, hwhole, hfraction, -⟩, h⟩ := ite_none_right_eq_some.mp h
  obtain ⟨rfl, rfl⟩ := Prod.mk.inj (some.inj h)
  exact ⟨hne, all_eq_true.mp hwhole, all_eq_true.mp hfraction⟩

/-- What the check asks of a text's digits. -/
theorem checkDecimalText_ok_iff {p k : Nat}
    (h : decimalParts s = some (whole, fraction)) {out : String} :
    checkDecimalText s p k = .ok out ↔ (fraction.length ≤ k ∧ whole.length + k ≤ p) ∧ out = s := by
  unfold checkDecimalText
  simp only [h]
  split
  · exact ⟨nofun, fun hfit => by omega⟩
  · rw [Except.ok.injEq, eq_comm]
    exact ⟨fun heq => ⟨by omega, heq⟩, fun heq => heq.2⟩

section Representable

variable {d : DecimalType} {whole fraction : List Char}

/-- The fraction at the type's scale: what it has no place for is left over. -/
theorem value_at_scale (whole fraction : List Char) (s : Nat) :
    (value whole * 10 ^ fraction.length + value fraction) * 10 ^ s =
      (value whole * 10 ^ s + value (fraction.take s) * 10 ^ (s - fraction.length)) *
          10 ^ fraction.length + value (fraction.drop s) * 10 ^ s := by
  have hsplit := value_append (fraction.take s) (fraction.drop s)
  rw [take_append_drop, length_drop] at hsplit
  have hpow : (10 : Nat) ^ (fraction.length - s) * 10 ^ s =
      10 ^ (s - fraction.length) * 10 ^ fraction.length := by
    rw [← pow_add, ← pow_add]
    congr 1
    omega
  calc (value whole * 10 ^ fraction.length + value fraction) * 10 ^ s
    _ = value whole * 10 ^ s * 10 ^ fraction.length +
        value (fraction.take s) * (10 ^ (fraction.length - s) * 10 ^ s) +
        value (fraction.drop s) * 10 ^ s := by rw [hsplit]; ring
    _ = _ := by rw [hpow]; ring

/-- The same for the absolute value, in whole numbers. -/
theorem representable_iff_nat (neg : Bool) : Representable d ((if neg then -1 else 1) *
        (value whole + value fraction / 10 ^ fraction.length)) ↔
      ∃ m, (value whole * 10 ^ fraction.length + value fraction) * 10 ^ d.scale =
          m * 10 ^ fraction.length ∧ m < 10 ^ d.precision := by
  have hten : ∀ k, (10 : Rat) ^ k ≠ 0 := fun k => pow_ne_zero k (by norm_num)
  -- both sides over the common denominator
  have hclear : ∀ n : Int, ((if neg then (-1 : Rat) else 1) *
        (value whole + value fraction / 10 ^ fraction.length) = n / 10 ^ d.scale ↔
      (if neg then -1 else 1) *
        (((value whole * 10 ^ fraction.length + value fraction) * 10 ^ d.scale : Nat) : Int) =
          n * 10 ^ fraction.length) := by
    intro n
    rw [← @Int.cast_inj Rat, eq_div_iff (hten _)]
    have hpull : ((if neg then (-1 : Rat) else 1) *
        (value whole + value fraction / 10 ^ fraction.length) * 10 ^ d.scale) *
          10 ^ fraction.length = (if neg then -1 else 1) *
        ((value whole * 10 ^ fraction.length + value fraction) * 10 ^ d.scale) := by
      field_simp
    rw [← mul_left_inj' (hten fraction.length), hpull]
    cases neg <;> push_cast <;> rfl
  refine ⟨fun ⟨n, hq, hn⟩ => ⟨n.natAbs, ?_, hn⟩, fun ⟨m, hm, hlt⟩ => ?_⟩
  · have habs := congrArg Int.natAbs ((hclear n).mp hq)
    rw [Int.natAbs_mul, Int.natAbs_mul, Int.natAbs_natCast] at habs
    cases neg <;> simpa using habs
  · refine ⟨(if neg then -1 else 1) * (m : Int), (hclear _).mpr ?_, ?_⟩
    · rw [hm, mul_assoc]
      rfl
    · cases neg <;> simpa using hlt

/-- **A number is representable when the digits without a place are zeros.** -/
theorem representable_iff (neg : Bool) (hw : Digits whole) (hf : Digits fraction) :
    Representable d ((if neg then -1 else 1) *
        (value whole + value fraction / 10 ^ fraction.length)) ↔
      ∀ c ∈ d.beyond whole fraction, c = '0' := by
  have hprec : (10 : Nat) ^ d.precision = 10 ^ (d.precision - d.scale) * 10 ^ d.scale := by
    rw [← pow_add, Nat.sub_add_cancel d.scale_le]
  have hten : ∀ k, 0 < (10 : Nat) ^ k := fun k => Nat.pow_pos (by decide)
  -- the digits that stay fill less than one unit before the point
  have hkept : value (fraction.take d.scale) * 10 ^ (d.scale - fraction.length) < 10 ^ d.scale := by
    have hlt := value_lt (hf.take d.scale)
    rw [length_take] at hlt
    calc _ < 10 ^ min d.scale fraction.length * 10 ^ (d.scale - fraction.length) :=
          Nat.mul_lt_mul_of_pos_right hlt (hten _)
      _ = _ := by rw [← pow_add]; congr 1; omega
  -- and those that are dropped less than one unit of what stays
  have hdropped : value (fraction.drop d.scale) * 10 ^ d.scale < 10 ^ fraction.length := by
    have hlt := value_lt (hf.drop d.scale)
    rw [length_drop] at hlt
    by_cases hle : fraction.length ≤ d.scale
    · rw [drop_eq_nil_of_le hle]
      simp [value]
    · calc _ < 10 ^ (fraction.length - d.scale) * 10 ^ d.scale :=
            Nat.mul_lt_mul_of_pos_right hlt (hten _)
        _ = _ := by rw [← pow_add, Nat.sub_add_cancel (by omega)]
  rw [representable_iff_nat, DecimalType.beyond, forall_mem_append, ← value_lt_pow_iff hw,
    ← value_eq_zero_iff (hf.drop _), value_at_scale]
  constructor
  · rintro ⟨m, hm, hlt⟩
    have hmod := congrArg (· % 10 ^ fraction.length) hm
    simp only [Nat.mul_add_mod_self_right, Nat.mul_mod_left, Nat.mod_eq_of_lt hdropped] at hmod
    have hzero := (Nat.mul_eq_zero.mp hmod).resolve_right (hten _).ne'
    rw [hzero, Nat.zero_mul] at hm
    rw [← Nat.eq_of_mul_eq_mul_right (hten _) hm] at hlt
    exact ⟨Nat.lt_of_mul_lt_mul_right (a := 10 ^ d.scale) (by omega), hzero⟩
  · rintro ⟨hwhole, hzero⟩
    refine ⟨_, by rw [hzero, Nat.zero_mul, Nat.add_zero], ?_⟩
    have hle := Nat.mul_le_mul_right (10 ^ d.scale) (Nat.succ_le_of_lt hwhole)
    rw [Nat.succ_mul] at hle
    omega

end Representable

/-- **A decimal text is accepted when its number is representable, unless zeros stand where
the type has no place**, and is kept as it is. -/
theorem text_accepted_iff_representable {d : DecimalType} {s : String} {q : Rat}
    (htext : textValue s = some q) :
    (((∃ out, checkDecimalText s d.precision d.scale = .ok out) ↔ Representable d q) ↔
        ¬ ZeroPadded d s) ∧
      ∀ out, checkDecimalText s d.precision d.scale = .ok out → textValue out = some q := by
  obtain ⟨⟨whole, fraction⟩, hparts, hq⟩ := map_eq_some_iff.mp htext
  obtain ⟨hne, hw, hf⟩ := decimalParts_digits hparts
  have hrep := representable_iff (d := d) (decide (s.toList.head? = some '-')) hw hf
  simp only [decide_eq_true_eq] at hrep
  have haccept : (∃ out, checkDecimalText s d.precision d.scale = .ok out) ↔
      d.beyond whole fraction = [] := by
    simp only [checkDecimalText_ok_iff hparts, exists_and_left, exists_eq, and_true,
      DecimalType.beyond, append_eq_nil_iff, take_eq_nil_iff, drop_eq_nil_iff, hne,
      or_false]
    have hlen := length_pos_iff.mpr hne
    omega
  have hpadded : ZeroPadded d s ↔
      d.beyond whole fraction ≠ [] ∧ ∀ c ∈ d.beyond whole fraction, c = '0' := by
    unfold ZeroPadded
    rw [hparts]
  refine ⟨?_, fun out hout => ?_⟩
  · rw [← hq, hrep, haccept, hpadded]
    cases d.beyond whole fraction with
    | nil => simp
    | cons c rest => simp
  · rw [((checkDecimalText_ok_iff hparts).mp hout).2, htext]

/-- The text 1.25 as a `decimal(4,2)`. -/
theorem text_accepted_iff_representable_twoPlaces : textValue "1.25" = some (5 / 4) ∧
    (((∃ out, checkDecimalText "1.25" 4 2 = .ok out) ↔
        Representable ⟨4, 2, by decide, by decide⟩ (5 / 4)) ↔
      ¬ ZeroPadded ⟨4, 2, by decide, by decide⟩ "1.25") ∧
    ∀ out, checkDecimalText "1.25" 4 2 = .ok out → textValue out = some (5 / 4) :=
  have htext : textValue "1.25" = some (5 / 4) := by decide +kernel
  ⟨htext, text_accepted_iff_representable (d := ⟨4, 2, by decide, by decide⟩) htext⟩

/-- A half has one digit, and it is fractional; with the zero before the point it is refused.
So are a zero in front and a zero behind. -/
theorem half_refused : (textValue "0.5" = some (1 / 2) ∧
      Representable ⟨1, 1, by decide, by decide⟩ (1 / 2) ∧
      checkDecimalText "0.5" 1 1 = .error .overflow) ∧
    (textValue "07" = some 7 ∧ Representable ⟨1, 0, by decide, by decide⟩ 7 ∧
      checkDecimalText "07" 1 0 = .error .overflow) ∧
    (textValue "1.50" = some (3 / 2) ∧ Representable ⟨2, 1, by decide, by decide⟩ (3 / 2) ∧
      checkDecimalText "1.50" 2 1 = .error .overflow) :=
  ⟨⟨by decide +kernel, ⟨5, by norm_num, by decide⟩, by decide +kernel⟩,
    ⟨by decide +kernel, ⟨7, by norm_num, by decide⟩, by decide +kernel⟩,
    ⟨by decide +kernel, ⟨15, by norm_num, by decide⟩, by decide +kernel⟩⟩

/-! ## Integers -/

/-- A sign, digits, and possibly a point with more of them are a decimal text. -/
theorem decimalParts_of_toList (neg : Bool) (hne : whole ≠ []) (hw : Digits whole)
    (hf : Digits fraction) (hs : s.toList = (if neg then ['-'] else []) ++
      (whole ++ if fraction = [] then [] else '.' :: fraction)) :
    decimalParts s = some (whole, fraction) ∧ (s.toList.head? = some '-' ↔ neg = true) := by
  have hplain : ∀ c ∈ whole, c ≠ '+' ∧ c ≠ '-' ∧ c ≠ '.' := by
    intro c hc
    refine ⟨?_, ?_, ?_⟩ <;> rintro rfl <;> exact absurd (hw _ hc) (by decide)
  generalize hbody : (whole ++ if fraction = [] then [] else '.' :: fraction) = body at hs
  have hwhole : body.takeWhile (fun c => decide (c ≠ '.')) = whole := by
    rw [← hbody, takeWhile_append_of_pos fun c hc => decide_eq_true (hplain c hc).2.2]
    split <;> simp
  have hdrop : body.drop (whole.length + 1) = fraction := by
    rw [← hbody, drop_append, drop_eq_nil_of_le (Nat.le_succ _), Nat.add_sub_cancel_left]
    split <;> simp [*]
  have hpoint : body.length ≠ whole.length → fraction ≠ [] :=
    fun hlen hnil => hlen (by simp [← hbody, hnil])
  have hall := all_eq_true.mpr hw
  have hall' := all_eq_true.mpr hf
  obtain ⟨c, rest, rfl⟩ := exists_cons_of_ne_nil hne
  have hhead : body.head? = some c := hbody ▸ rfl
  clear hbody
  unfold decimalParts
  -- the first digit is no sign
  cases neg with
  | true => simp_all
  | false =>
    cases body with
    | nil => cases hhead
    | cons d tail =>
      cases hhead
      simp_all

section Rendered

variable (n : Int) (scale : Nat)

/-- The digits of an integer, with zeros in front up to one before the point. -/
def longDigits : List Char :=
  List.replicate (scale + 1 - (render n.natAbs).length) '0' ++ render n.natAbs

def longWhole : List Char := (longDigits n scale).take ((longDigits n scale).length - scale)

def longFraction : List Char := (longDigits n scale).drop ((longDigits n scale).length - scale)

theorem length_longDigits :
    (longDigits n scale).length = max (scale + 1) (render n.natAbs).length := by
  simp only [longDigits, length_append, length_replicate]
  omega

theorem length_longFraction : (longFraction n scale).length = scale := by
  have hlen := length_longDigits n scale
  rw [longFraction, length_drop]
  omega

/-- The digits before and behind the point are the integer's. -/
theorem value_long :
    value (longWhole n scale) * 10 ^ scale + value (longFraction n scale) = n.natAbs := by
  have hvalue := value_append (longWhole n scale) (longFraction n scale)
  rw [length_longFraction, longWhole, longFraction, take_append_drop] at hvalue
  rw [longWhole, longFraction, ← hvalue, longDigits, value_zeros_append, value_render]

/-- The text: a sign, the digits before the point, the fraction. -/
theorem decimalText_toList :
    (decimalText n scale).toList = (if decide (n < 0) then ['-'] else []) ++ (longWhole n scale ++
        if longFraction n scale = [] then [] else '.' :: longFraction n scale) := by
  have hpos := length_pos_iff.mpr (render_ne_nil n.natAbs)
  have hrepr : (toString n.natAbs).toList = render n.natAbs := by simp [render]
  have hlong : (padded (scale + 1) n.natAbs).toList = longDigits n scale := by
    unfold padded longDigits
    rw [String.toList_append, String.toList_ofList, ← String.length_toList, hrepr]
  have hsign : (if n < 0 then "-" else "").toList = if decide (n < 0) then ['-'] else [] := by
    by_cases hn : n < 0 <;> simp [hn]
  have hfraction := length_longFraction n scale
  unfold decimalText
  by_cases hscale : scale = 0
  · subst hscale
    have hnone : longDigits n 0 = render n.natAbs := by
      rw [longDigits, Nat.sub_eq_zero_of_le (by omega)]
      rfl
    simp [hsign, render, longWhole, longFraction, hnone]
  · have hne : longFraction n scale ≠ [] := fun hnil => hscale (by rw [← hfraction, hnil]; rfl)
    rw [if_neg hscale, if_neg hne]
    simp [hsign, hlong, longWhole, longFraction]

/-- The text is read back into its parts. -/
theorem decimalParts_decimalText :
    decimalParts (decimalText n scale) = some (longWhole n scale, longFraction n scale) ∧
      ((decimalText n scale).toList.head? = some '-' ↔ decide (n < 0) = true) := by
  have hdigits : Digits (longDigits n scale) :=
    Digits.append (fun c hc => by rw [eq_of_mem_replicate hc]; rfl) (digits_render _)
  have hne : longWhole n scale ≠ [] := by
    have hlen := length_longDigits n scale
    rw [← length_pos_iff, longWhole, length_take]
    omega
  exact decimalParts_of_toList _ hne (hdigits.take _) (hdigits.drop _) (decimalText_toList n scale)

/-- The text stands for the integer over a power of ten. -/
theorem textValue_decimalText :
    textValue (decimalText n scale) = some ((n : Rat) / 10 ^ scale) := by
  obtain ⟨hparts, hsign⟩ := decimalParts_decimalText n scale
  have hten : (10 : Rat) ^ scale ≠ 0 := pow_ne_zero _ (by norm_num)
  have hvalue := congrArg (Nat.cast (R := Rat)) (value_long n scale)
  push_cast at hvalue
  rw [textValue, hparts, map_some, length_longFraction]
  simp only [hsign, decide_eq_true_eq, some.injEq]
  rw [eq_div_iff hten, mul_assoc, add_mul, div_mul_cancel₀ _ hten, hvalue, Nat.cast_natAbs]
  split
  · rename_i hneg
    rw [abs_of_neg hneg]
    simp
  · rename_i hneg
    rw [abs_of_nonneg (not_lt.mp hneg), one_mul]

end Rendered

/-- When the text of an integer fits. -/
theorem checkDecimalText_decimalText (n : Int) (d : DecimalType) (out : String) :
    checkDecimalText (decimalText n d.scale) d.precision d.scale = .ok out ↔
      (d.scale < d.precision ∧ n.natAbs < 10 ^ d.precision) ∧ out = decimalText n d.scale := by
  have hlen := length_longDigits n d.scale
  rw [checkDecimalText_ok_iff (decimalParts_decimalText n d.scale).1, length_longFraction,
    longWhole, length_take, ← length_render_le_iff d.positive]
  refine and_congr_left' ?_
  omega

/-- What is kept of an integer as a text. -/
def KeepsText {F32 F64 : Type} (d : DecimalType) (n : Int) :
    Except KeyError (GoValue F32 F64) → Prop
  | .ok (.string s) => textValue s = some (n : Rat)
  | .ok _ => False
  | .error _ => 10 ^ (d.precision - d.scale) ≤ n.natAbs

/-- And as the number of a decimal column. -/
def KeepsNumber (d : DecimalType) (n : Int) : Except KeyError Int → Prop
  | .ok m => (m : Rat) / 10 ^ d.scale = n
  | .error _ => 10 ^ (d.precision - d.scale) ≤ n.natAbs

/-- Where nothing is lost: the type has no fraction, or the integer is zero, or it is rightly
refused. -/
def ExactAt (d : DecimalType) (v : GoInteger) : Prop :=
  if v.kind = .int8 ∨ v.kind = .int16 then 10 ^ (d.precision - d.scale) ≤ v.value.natAbs
  else d.scale = 0 ∨ (v.value = 0 ∧ d.scale < d.precision) ∨
    (v.value ≠ 0 ∧ (d.scale = d.precision ∨ 10 ^ d.precision ≤ v.value.natAbs))

section Integers

variable {F32 F64 : Type} {lib : ValueLib F32 F64} {d : DecimalType} {v : GoInteger}

/-- All but two types come to the same check. -/
theorem castInteger_eq (hwide : ¬ (v.kind = .int8 ∨ v.kind = .int16)) :
    castInteger lib d v = (checkDecimalText (decimalText v.value d.scale) d.precision d.scale).map
      .string := by
  have hnat : v.kind.shape.2 = false → ((v.value.toNat : Nat) : Int) = v.value := by
    intro hunsigned
    have hholds := v.holds
    rw [IntKind.Holds, hunsigned] at hholds
    exact Int.toNat_of_nonneg hholds.1
  unfold castInteger GoInteger.widened
  cases hk : v.kind with
  | int8 | int16 => exact absurd hk (by simp_all)
  | int | int32 | int64 => rfl
  | uint | uint8 | uint16 | uint32 | uint64 =>
    rw [hk] at hnat
    simp only [castToDecimal, hnat rfl]

/-- The narrow integers have no case. -/
theorem castInteger_narrow (hnarrow : v.kind = .int8 ∨ v.kind = .int16) :
    castInteger lib d v = .error .cannotCast := by
  unfold castInteger GoInteger.widened
  rcases hnarrow with hk | hk <;> rw [hk]

/-- The point moves nothing only if there is none, or nothing to move. -/
theorem div_scale_eq_iff (n : Int) (s : Nat) : (n : Rat) / 10 ^ s = n ↔ s = 0 ∨ n = 0 := by
  have hten : (10 : Rat) ^ s ≠ 0 := pow_ne_zero _ (by norm_num)
  rw [div_eq_iff hten]
  refine ⟨fun heq => or_iff_not_imp_right.mpr fun hn => ?_, fun h => ?_⟩
  · have hone : n * 10 ^ s = n := by exact_mod_cast heq.symm
    have hone : (10 : Nat) ^ s = 1 := by exact_mod_cast (mul_eq_left₀ hn).mp hone
    exact (Nat.pow_eq_one.mp hone).resolve_left (by decide)
  · rcases h with rfl | rfl <;> simp

/-- **An integer keeps its value where the type has no fraction, and hardly anywhere
else**; as a text, and on the wire, whose columns have 38 digits at most. -/
theorem integer_kept_iff_exact (hlib : lib.ReadsDecimals) (d : DecimalType) (v : GoInteger) :
    (KeepsText d v.value (castInteger lib d v) ↔ ExactAt d v) ∧
      (d.precision ≤ 38 → (KeepsNumber d v.value (appendDecimal lib d v) ↔ ExactAt d v)) := by
  unfold ExactAt appendDecimal
  by_cases hnarrow : v.kind = .int8 ∨ v.kind = .int16
  · rw [castInteger_narrow hnarrow, if_pos hnarrow]
    exact ⟨.rfl, fun _ => .rfl⟩
  have htext := textValue_decimalText v.value d.scale
  have hcheck := checkDecimalText_decimalText v.value d
  rw [castInteger_eq hnarrow, if_neg hnarrow]
  have hpow : 10 ^ (d.precision - d.scale) ≤ 10 ^ d.precision :=
    Nat.pow_le_pow_right (by decide) (Nat.sub_le _ _)
  have hle := d.scale_le
  have hpos := d.positive
  cases hout : checkDecimalText (decimalText v.value d.scale) d.precision d.scale with
  | ok out =>
    obtain ⟨⟨hscale, hfits⟩, rfl⟩ := (hcheck out).mp hout
    have hkept : (v.value : Rat) / 10 ^ d.scale = v.value ↔ d.scale = 0 ∨
        (v.value = 0 ∧ d.scale < d.precision) ∨
        (v.value ≠ 0 ∧ (d.scale = d.precision ∨ 10 ^ d.precision ≤ v.value.natAbs)) := by
      rw [div_scale_eq_iff]
      omega
    refine ⟨?_, fun hdigits => ?_⟩
    · simp only [Except.map, KeepsText, htext, some.injEq]
      exact hkept
    · simp only [Except.map, hlib _ _ _ _ hdigits htext hfits, KeepsNumber]
      exact hkept
  | error e =>
    have hno : ¬ (d.scale < d.precision ∧ v.value.natAbs < 10 ^ d.precision) := by
      intro hfits
      rw [(hcheck _).mpr ⟨hfits, rfl⟩] at hout
      cases hout
    have hrefused : 10 ^ (d.precision - d.scale) ≤ v.value.natAbs ↔ d.scale = 0 ∨
        (v.value = 0 ∧ d.scale < d.precision) ∨
        (v.value ≠ 0 ∧ (d.scale = d.precision ∨ 10 ^ d.precision ≤ v.value.natAbs)) := by
      have hsame : d.scale = d.precision → 10 ^ (d.precision - d.scale) = 1 := fun heq => by
        rw [heq, Nat.sub_self, pow_zero]
      omega
    exact ⟨hrefused, fun _ => hrefused⟩

end Integers

/-- A decimal column that reads every text exactly, and writes what it reads. -/
def arrowLib : ValueLib Unit Unit where
  __ := mutedLib
  valueStr _ s n := decimalText n s
  decimalString s n := decimalText n s
  parseDecimal p s text :=
    (textValue text).bind fun q =>
      let unscaled := q * 10 ^ s
      if unscaled.den = 1 ∧ unscaled.num.natAbs < 10 ^ p then some unscaled.num else none

/-- The sample parser reads decimals. -/
theorem arrowLib_reads : arrowLib.ReadsDecimals := by
  intro p s text n _ htext hfits
  have hten : (10 : Rat) ^ s ≠ 0 := pow_ne_zero _ (by norm_num)
  show (textValue text).bind _ = some n
  rw [htext, Option.bind_some]
  simp only [div_mul_cancel₀ _ hten, Rat.den_intCast, Rat.num_intCast, hfits, and_self, if_true]

/-- Five as a `decimal(10,0)` is five. -/
theorem integer_kept_iff_exact_five : let d : DecimalType := ⟨10, 0, by decide, by decide⟩
    let five : GoInteger := ⟨.int64, 5, by unfold IntKind.Holds; decide⟩
    parseDecimalArgs "10,0".toList = .ok d ∧ arrowLib.ReadsDecimals ∧
      castInteger arrowLib d five = .ok (.string "5") ∧
      appendDecimal arrowLib d five = .ok 5 ∧ KeepsText d 5 (castInteger arrowLib d five) ∧
      KeepsNumber d 5 (appendDecimal arrowLib d five) := by
  intro d five
  have hkept := integer_kept_iff_exact arrowLib_reads d five
  have hexact : ExactAt d five := by
    rw [ExactAt, if_neg (by decide)]
    exact .inl rfl
  exact ⟨by decide, arrowLib_reads, by decide +kernel, by decide +kernel, hkept.1.mpr hexact,
    (hkept.2 (by decide)).mpr hexact⟩

/-- Five as a `decimal(10,2)` is five hundredths, as a text and on the wire. -/
theorem five_cast_to_hundredths : let d : DecimalType := ⟨10, 2, by decide, by decide⟩
    let five : GoInteger := ⟨.int64, 5, by unfold IntKind.Holds; decide⟩
    parseDecimalArgs "10, 2".toList = .ok d ∧ castInteger arrowLib d five = .ok (.string "0.05") ∧
      textValue "0.05" = some (1 / 20) ∧ appendDecimal arrowLib d five = .ok 5 := by
  refine ⟨by decide, rfl, by decide +kernel, ?_⟩
  decide +kernel

end Urutau
