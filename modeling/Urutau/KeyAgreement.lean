import Urutau.DecimalCast

/-!
# When the delete key is the data key

The data file holds the cast value of a key column and the equality delete the extracted
one.  For most casts the extracted value does not fit the column and the commit fails, or
it goes through the same text.  Two casts to text differ: a time of day without a fraction
is written without one in the data and with six zeros in the delete, and a decimal is
rendered by two functions of the library.
-/

namespace Urutau

open Results TimeTexts DigitTexts

variable {F32 F64 : Type} {lib : ValueLib F32 F64}

/-- What is asked of Arrow: a decimal column reads back what was written of a number, or refuses
it, and the cast kernel keeps a number. -/
structure ValueLib.Lawful (lib : ValueLib F32 F64) : Prop where
  decimalString_back : ∀ p s n m, lib.parseDecimal p s (lib.decimalString s n) = some m → m = n
  valueStr_back : ∀ p p' s n m, lib.parseDecimal p' s (lib.valueStr p s n) = some m → m = n
  unsigned_back : ∀ n m, lib.parseDecimal 20 0 (toString (n : Nat)) = some m → m = n
  unsigned_kernel : ∀ n m, lib.castUint64 n = some m → m = n

/-- **The keys agree.**  Where both are written, the delete holds what the data file
holds. -/
def KeysAgree (lib : ValueLib F32 F64) (ty : WireType) (cast : Option CastTarget)
    (v : Option (WireCell F32 F64 ty)) : Prop :=
  ∀ data key, projectValue lib ty cast v = .ok data → deleteValue lib ty cast v = .ok key →
    data = key

/-- A time has a fraction, or is none of a day; a decimal is rendered alike by both
functions of the library. -/
def TextsAgree (lib : ValueLib F32 F64) : (ty : WireType) → Option (WireCell F32 F64 ty) → Prop
  | .time, some micros =>
    0 ≤ (show Int from micros) → (show Int from micros) < dayMicros →
      (show Int from micros) % 1000000 ≠ 0
  | .decimal p s, some n => lib.valueStr p s n = lib.decimalString s n
  | _, _ => True

/-- The condition on a value that is cast to text. -/
def SameText (lib : ValueLib F32 F64) (ty : WireType) (cast : Option CastTarget)
    (v : Option (WireCell F32 F64 ty)) : Prop :=
  ∀ target ∈ cast, target.type = .string → TextsAgree lib ty v

/-! ## Times of day -/

/-- The clock reading of a time, and its fraction. -/
def clockOf (micros : Int) : String :=
  clockText (micros / 3600000000) (micros / 60000000 % 60) (micros / 1000000 % 60)

variable {micros : Int}

/-- The delete's text always has six decimals. -/
theorem formatTimeOfDay_eq (h0 : 0 ≤ micros) :
    formatTimeOfDay micros = clockOf micros ++ "." ++ paddedInt 6 (micros % 1000000) := by
  have hm : micros % 3600000000 / 60000000 = micros / 60000000 % 60 := by omega
  have hs : micros % 3600000000 % 60000000 / 1000000 = micros / 1000000 % 60 := by omega
  have hf : micros % 3600000000 % 60000000 % 1000000 = micros % 1000000 := by omega
  simp only [formatTimeOfDay, clockOf, Int.tdiv_eq_ediv_of_nonneg h0, Int.tmod_eq_emod_of_nonneg h0]
  rw [Int.tdiv_eq_ediv_of_nonneg (by omega), Int.tmod_eq_emod_of_nonneg (by omega),
    Int.tdiv_eq_ediv_of_nonneg (by omega), Int.tmod_eq_emod_of_nonneg (by omega), hm, hs, hf]

/-- The data's text has six decimals or none. -/
theorem formatMicrosOfDay_eq (h0 : 0 ≤ micros) (hday : micros < dayMicros) :
    formatMicrosOfDay micros = .ok (if micros % 1000000 = 0 then clockOf micros
        else clockOf micros ++ "." ++ paddedInt 6 (micros % 1000000)) := by
  have hin : ¬(micros < 0 ∨ dayMicros ≤ micros) := by omega
  have hh : (micros * 1000).tdiv 3600000000000 = micros / 3600000000 := by
    rw [Int.tdiv_eq_ediv_of_nonneg (by omega)]
    omega
  have hrest : micros * 1000 - micros / 3600000000 * 3600000000000 =
      micros % 3600000000 * 1000 := by omega
  have hm : (micros % 3600000000 * 1000).tdiv 60000000000 = micros / 60000000 % 60 := by
    rw [Int.tdiv_eq_ediv_of_nonneg (by omega)]
    omega
  have hrest' : micros % 3600000000 * 1000 - micros / 60000000 % 60 * 60000000000 =
      micros % 60000000 * 1000 := by omega
  have hs : (micros % 60000000 * 1000).tdiv 1000000000 = micros / 1000000 % 60 := by
    rw [Int.tdiv_eq_ediv_of_nonneg (by omega)]
    omega
  have hrest'' : micros % 60000000 * 1000 - micros / 1000000 % 60 * 1000000000 =
      micros % 1000000 * 1000 := by omega
  have hf : (micros % 1000000 * 1000).tdiv 1000 = micros % 1000000 := by
    rw [Int.tdiv_eq_ediv_of_nonneg (by omega)]
    omega
  have hzero : micros % 1000000 * 1000 = 0 ↔ micros % 1000000 = 0 := by omega
  rw [formatMicrosOfDay, if_neg hin]
  simp only [hh, hrest, hm, hrest', hs, hrest'', hf, hzero]
  split <;> rfl

/-- The texts of a time of day are the same exactly when it has a fraction. -/
theorem time_text_iff :
    (∀ text, formatMicrosOfDay micros = .ok text → text = formatTimeOfDay micros) ↔
      (0 ≤ micros → micros < dayMicros → micros % 1000000 ≠ 0) := by
  by_cases hin : 0 ≤ micros ∧ micros < dayMicros
  · rw [formatMicrosOfDay_eq hin.1 hin.2, formatTimeOfDay_eq hin.1]
    constructor
    · intro hsame _ _ hzero
      have heq := hsame _ rfl
      rw [if_pos hzero] at heq
      have hlen := congrArg String.length heq
      simp only [String.length_append] at hlen
      have hdot : ".".length = 1 := by decide
      omega
    · intro hfrac text htext
      rw [if_neg (hfrac hin.1 hin.2)] at htext
      exact (Except.ok.inj htext).symm
  · have hout : micros < 0 ∨ dayMicros ≤ micros := by omega
    rw [formatMicrosOfDay, if_pos hout]
    exact ⟨fun _ h0 hday => absurd ⟨h0, hday⟩ hin, nofun⟩

/-! ## Texts read back -/

/-- The text of a date is read back. -/
theorem date_back {days days' : Int} (h : dateToDays (dateText days) = some days') :
    days' = days := by
  rw [dateToDays, parseDate, whole_eq_some, ← List.append_nil (dateText days).toList] at h
  exact (readDate_back h).1

/-- The delete's text of a time of day is read back, or refused. -/
theorem time_back {t t' : Int} (h : timeToMicros (formatTimeOfDay t) = some t') : t' = t := by
  simp only [formatTimeOfDay] at h
  have hh := Int.mul_tdiv_add_tmod t 3600000000
  have hm := Int.mul_tdiv_add_tmod (t.tmod 3600000000) 60000000
  have hs := Int.mul_tdiv_add_tmod ((t.tmod 3600000000).tmod 60000000) 1000000
  have hbound := Int.tmod_lt_of_pos (t.tmod 3600000000) (show (0 : Int) < 60000000 by decide)
  have hfraction := Int.tmod_lt_of_pos ((t.tmod 3600000000).tmod 60000000)
    (show (0 : Int) < 1000000 by decide)
  have hneg := Int.lt_tmod_of_pos ((t.tmod 3600000000).tmod 60000000)
    (show (0 : Int) < 1000000 by decide)
  generalize (t.tmod 3600000000).tmod 60000000 = rest at *
  generalize t.tmod 3600000000 = inHour at *
  generalize rest.tdiv 1000000 = s at *
  generalize rest.tmod 1000000 = f at *
  generalize inHour.tdiv 60000000 = m at *
  generalize t.tdiv 3600000000 = hour at *
  obtain ⟨clock, hclock, rfl⟩ := Option.map_eq_some_iff.mp h
  have hread := whole_eq_some.mp hclock
  have htext : (clockText hour m s ++ "." ++ paddedInt 6 f).toList =
      (clockText hour m s).toList ++ '.' :: (paddedInt 6 f).toList := by simp
  rw [htext] at hread
  obtain ⟨-, -, -, hsec, hfrac⟩ := readClock_back (by omega) hread
  have hnsec : (clock.nsec : Int) = f * 1000 := by
    by_cases hf : f < 0
    · rw [toList_paddedInt_neg hf] at hfrac
      simp [clockFraction] at hfrac
    · obtain ⟨hlen, hds, hvalue⟩ :=
        padded_paddedInt (k := 6) (n := f) (by decide) (by omega) (by omega)
      have hne : (paddedInt 6 f).toList ≠ [] := by
        intro hnil
        rw [hnil] at hlen
        cases hlen
      have hdigits := clockFraction_digits [] hds hne (by omega) (by simp)
      rw [List.append_nil, hvalue, hlen] at hdigits
      have hone := (Prod.mk.inj (hdigits.symm.trans hfrac)).1
      omega
  push_cast
  omega

/-- A date with something behind it is refused. -/
theorem parseDate_none_of_text {days : Int} {c : Char} {rest : List Char} :
    parseDate ((dateText days).toList ++ c :: rest) = none := by
  cases h : parseDate ((dateText days).toList ++ c :: rest) with
  | none => rfl
  | some _ => cases (readDate_back (whole_eq_some.mp h)).2

/-- An instant's microseconds, put together again. -/
theorem micros_back (micros : Int) : (⟨micros / 1000000, (micros % 1000000).toNat * 1000, 0⟩ :
    Instant).micros = micros := by
  simp only [Instant.micros]
  omega

theorem nanos_lt (micros : Int) : (micros % 1000000).toNat * 1000 < 10 ^ 9 := by
  omega

/-- A written wall clock is no RFC 3339 instant and no date, and has no zone. -/
theorem naive_back {sec : Int} {nsec : Nat} {t : Instant} (hnsec : nsec < 10 ^ 9)
    (h : parseTimestampText (naiveText sec nsec) = some t) : t = ⟨sec, nsec, 0⟩ := by
  have htext : ∃ rest, (naiveText sec nsec).toList =
      (dateText (sec / 86400)).toList ++ ' ' :: rest :=
    ⟨((secondsText (sec % 86400)) ++ "." ++ padded 9 nsec).toList, by simp [naiveText]⟩
  obtain ⟨rest, htext⟩ := htext
  have hrfc : parseRfc3339 (naiveText sec nsec).toList = none := by
    cases hread : parseRfc3339 (naiveText sec nsec).toList with
    | none => rfl
    | some t =>
      have hread := whole_eq_some.mp hread
      rw [htext] at hread
      obtain ⟨_, _, _, _, hsep, -⟩ := readInstant_date hread
      cases hsep
  have hdate : parseDate (naiveText sec nsec).toList = none := htext ▸ parseDate_none_of_text
  have hzoned : ∀ parts, parseSpaced (readOffset parts) (naiveText sec nsec).toList = none := by
    intro parts
    cases hread : parseSpaced (readOffset parts) (naiveText sec nsec).toList with
    | none => rfl
    | some t => obtain ⟨_, hzone, -⟩ := parseSpaced_back hnsec hread; cases hzone
  simp only [parseTimestampText, hrfc, hdate, hzoned, Option.map_none, Option.none_or,
    Option.or_none] at h
  obtain ⟨offset, hzone, ht⟩ := parseSpaced_back hnsec h
  cases hzone
  rw [ht, Int.sub_zero]

/-- A written instant is read as such, or refused. -/
theorem rfc3339_back {unix : Int} {nsec : Nat} {t : Instant} (hnsec : nsec < 10 ^ 9)
    (h : parseTimestampText (rfc3339Text unix nsec 0) = some t) : t = ⟨unix, nsec, 0⟩ := by
  obtain ⟨rest, htext⟩ : ∃ rest, (rfc3339Text unix nsec 0).toList =
      (dateText (unix / 86400)).toList ++ 'T' :: rest :=
    ⟨((secondsText (unix % 86400)) ++ fractionText nsec ++ "Z").toList,
      by simp [rfc3339Text, zoneText]⟩
  have hdate : parseDate (rfc3339Text unix nsec 0).toList = none := htext ▸ parseDate_none_of_text
  have hspaced : ∀ zone, parseSpaced zone (rfc3339Text unix nsec 0).toList = none := by
    intro zone
    cases hread : parseSpaced zone (rfc3339Text unix nsec 0).toList with
    | none => rfl
    | some t =>
      have hread := whole_eq_some.mp hread
      rw [htext] at hread
      obtain ⟨_, _, _, _, hsep, -⟩ := readInstant_date hread
      cases hsep
  simp only [parseTimestampText, hdate, hspaced, Option.map_none, Option.or_none] at h
  exact parseRfc3339_back hnsec h

/-- A written date is read as its midnight, or refused. -/
theorem date_midnight {days : Int} {t : Instant}
    (h : parseTimestampText (dateText days) = some t) : t = ⟨days * 86400, 0, 0⟩ := by
  have hnone : ∀ separator zone, (separator [] = none ∨ separator [] = some []) →
      whole (readInstant separator zone) (dateText days).toList = none := by
    intro separator zone hempty
    cases hread : whole (readInstant separator zone) (dateText days).toList with
    | none => rfl
    | some t =>
      have hread := whole_eq_some.mp hread
      rw [← List.append_nil (dateText days).toList] at hread
      obtain ⟨text, _, _, _, hsep, hclock, -⟩ := readInstant_date hread
      rcases hempty with hempty | hempty <;> rw [hempty] at hsep <;> cases hsep
      cases hclock
  have hrfc : parseRfc3339 (dateText days).toList = none := hnone _ _ (.inl rfl)
  have hspaced : ∀ zone, parseSpaced zone (dateText days).toList = none :=
    fun zone => hnone _ _ (.inr rfl)
  simp only [parseTimestampText, hrfc, hspaced, Option.none_or, Option.or_none] at h
  obtain ⟨d, hd, ht⟩ := Option.map_eq_some_iff.mp h
  rw [← ht, date_back hd]

/-! ## One lemma for each target -/

section Targets

variable {ty : WireType} {cell : WireCell F32 F64 ty} {utc : Bool} {enc : Option Encoding}

/-- A text is read, or refused. -/
theorem parsed_eq_ok {store : Int → Stored F32 F64} {read : Option Int} {x : Stored F32 F64}
    (h : parsed store read = .ok x) : ∃ n, read = some n ∧ x = store n := by
  cases read with
  | none => cases h
  | some n => exact ⟨n, rfl, (Except.ok.inj h).symm⟩

/-- A value passes its check, or is refused. -/
theorem guarded_eq_ok {α : Type} {c : Prop} [Decidable c] {x y : α} {e : KeyError}
    (h : (if c then Except.ok x else .error e) = .ok y) : x = y := by
  split at h
  · exact Except.ok.inj h
  · cases h

/-- A NULL key fails the commit. -/
theorem keysAgree_null (ty : WireType) (cast : Option CastTarget) : KeysAgree lib ty cast none := by
  intro data key _ hkey
  cases ty <;> cases hkey

/-- A delete appends what it extracts. -/
theorem deleteValue_of_scalar {target : Option CastTarget} {v : Option (WireCell F32 F64 ty)}
    {g : GoValue F32 F64} (h : scalarValue lib ty v = .ok g) : deleteValue lib ty target v =
      appendValue lib (mapCanonicalType (columnType ty target)) g := by
  rw [deleteValue, h]
  rfl

theorem appendValue_date (text : String) :
    appendValue lib (mapCanonicalType (columnType .date none)) (.string text) =
      parsed .date (dateToDays text) := rfl

theorem appendValue_time (text : String) :
    appendValue lib (mapCanonicalType (columnType .time none)) (.string text) =
      parsed .time (timeToMicros text) := rfl

/-- Without a cast the delete goes through a text at most. -/
theorem keysAgree_plain (hlib : lib.Lawful) (cell : WireCell F32 F64 ty) :
    KeysAgree lib ty none (some cell) := by
  intro data key hdata hkey
  cases ty with
  | uint64 =>
    obtain ⟨n, hn, rfl⟩ := parsed_eq_ok hdata
    obtain ⟨m, hm, rfl⟩ := parsed_eq_ok hkey
    rw [hlib.unsigned_kernel _ _ hn, hlib.unsigned_back _ _ hm]
  | decimal p s =>
    cases hdata
    obtain ⟨m, hm, rfl⟩ := parsed_eq_ok hkey
    rw [hlib.decimalString_back _ _ _ _ hm]
  | date =>
    cases hdata
    have hscalar : scalarValue lib .date (some cell) = .ok (.string (dateText cell)) := rfl
    rw [deleteValue_of_scalar hscalar, appendValue_date] at hkey
    obtain ⟨m, hm, rfl⟩ := parsed_eq_ok hkey
    rw [date_back hm]
  | time =>
    cases hdata
    have hscalar : scalarValue lib .time (some cell) = .ok (.string (formatTimeOfDay cell)) := rfl
    rw [deleteValue_of_scalar hscalar, appendValue_time] at hkey
    obtain ⟨m, hm, rfl⟩ := parsed_eq_ok hkey
    rw [time_back hm]
  | fixed size | uuid =>
    cases hdata
    exact guarded_eq_ok hkey
  | composite => cases hkey
  | _ =>
    cases hdata
    cases hkey
    rfl

/-- To text: an extracted number, boolean, instant or byte string does not fit the column. -/
theorem keysAgree_string_iff (cell : WireCell F32 F64 ty) :
    KeysAgree lib ty (some ⟨.string, utc, enc⟩) (some cell) ↔ TextsAgree lib ty (some cell) := by
  cases ty with
  | time =>
    refine Iff.trans ⟨fun hagree text htext => ?_, fun hsame data key hdata hkey => ?_⟩
      (show _ ↔ TextsAgree lib .time (some cell) from time_text_iff)
    · have hdata : projectValue lib .time (some ⟨.string, utc, enc⟩) (some cell) =
          .ok (.string text) := by
        change ((formatMicrosOfDay cell).map GoValue.string).bind _ = _
        rw [htext]
        rfl
      exact Stored.string.inj (hagree _ _ hdata rfl)
    · cases hkey
      change ((formatMicrosOfDay cell).map GoValue.string).bind _ = _ at hdata
      cases htext : formatMicrosOfDay cell with
      | error e =>
        rw [htext] at hdata
        cases hdata
      | ok text =>
        rw [htext] at hdata
        cases hdata
        rw [hsame text htext]
  | decimal p s =>
    refine ⟨fun hagree => Stored.string.inj (hagree _ _ rfl rfl),
      fun hsame data key hdata hkey => ?_⟩
    cases hdata
    cases hkey
    exact congrArg Stored.string hsame
  | uint64 | string | json | date =>
    refine ⟨fun _ => trivial, fun _ data key hdata hkey => ?_⟩
    cases hdata
    cases hkey
    rfl
  | _ => exact ⟨fun _ => trivial, fun _ _ _ _ hkey => nomatch hkey⟩

/-- Every cast to the type that the matrix admits. -/
def CastAgrees (lib : ValueLib F32 F64) (type : WireType) : Prop :=
  ∀ ty (cell : WireCell F32 F64 ty) utc enc, admitsCast ty ⟨type, utc, enc⟩ = true →
    KeysAgree lib ty (some ⟨type, utc, enc⟩) (some cell)

theorem keysAgree_int64 : CastAgrees lib .int64 := by
  intro ty cell utc enc hadm data key hdata hkey
  cases ty with
  | int32 | int64 =>
    cases hdata
    cases hkey
    rfl
  | _ => cases hadm

/-- The wire of an unsigned column carries the target's type; both sides go through the
decimal text. -/
theorem keysAgree_uint64 : CastAgrees lib .uint64 := by
  intro ty cell utc enc hadm data key hdata hkey
  cases ty with
  | uint64 => exact Except.ok.inj (hdata.symm.trans hkey)
  | _ => cases hadm

theorem keysAgree_float64 : CastAgrees lib .float64 := by
  intro ty cell utc enc hadm data key hdata hkey
  cases ty with
  | float32 | float64 =>
    cases hdata
    cases hkey
    rfl
  | _ => cases hadm

/-- To a decimal: an extracted integer or float does not fit the column. -/
theorem keysAgree_decimal (hlib : lib.Lawful) (p s : Nat) : CastAgrees lib (.decimal p s) := by
  intro ty cell utc enc hadm data key hdata hkey
  cases ty with
  | decimal p' s' =>
    have hscale : s = s' := by
      simp only [admitsCast, checkCast, Bool.or_eq_true, Bool.and_eq_true, decide_eq_true_eq,
        WireType.decimal.injEq] at hadm
      rcases hadm with ⟨h, -⟩ | ⟨⟨-, h⟩, -⟩
      · exact h
      · exact h.symm
    subst hscale
    obtain ⟨m, hm, rfl⟩ := parsed_eq_ok hkey
    obtain ⟨cv, hcv, hdata⟩ := bind_eq_ok.mp hdata
    change (checkDecimalText (lib.valueStr p' s cell) p s).map GoValue.string = .ok cv at hcv
    have htext : cv = .string (lib.valueStr p' s cell) := by
      unfold checkDecimalText at hcv
      split at hcv
      · cases hcv
      · split at hcv
        · cases hcv
        · exact (Except.ok.inj hcv).symm
    subst htext
    obtain ⟨n, hn, rfl⟩ := parsed_eq_ok hdata
    rw [hlib.valueStr_back _ _ _ _ _ hn, hlib.decimalString_back _ _ _ _ hm]
  | int32 | int64 | float32 | float64 => cases hkey
  | _ => cases hadm

theorem lower_lower (s : String) : lower (lower s) = lower s := by
  have hchar : ∀ c : Char, c.toLower.toLower = c.toLower := by
    intro c
    simp only [Char.toLower]
    split
    · rename_i hupper
      obtain ⟨hlow, hhigh⟩ := hupper
      have hval : c.val.toNat ≤ 90 := hhigh
      rw [dif_neg]
      rintro ⟨-, habove⟩
      have hsum : (c.val + ('a'.val - 'A'.val)).toNat ≤ 90 := habove
      have hlow : 65 ≤ c.val.toNat := hlow
      rw [UInt32.toNat_add] at hsum
      have hdiff : ('a'.val - 'A'.val).toNat = 32 := by decide
      omega
    · rfl
  simp [lower, Function.comp_def, hchar]

/-- A UUID is read in either case. -/
theorem parseUUIDBytes_lower (text : String) :
    (parseUUIDBytes (lower text) : Except KeyError (Stored F32 F64)) = parseUUIDBytes text := by
  rw [parseUUIDBytes, lower_lower]
  rfl

theorem keysAgree_uuid_text (text : String) :
    KeysAgree lib .string (some ⟨.uuid, utc, enc⟩) (some text) := by
  intro data key hdata hkey
  have hparsed : parseUUIDBytes text = .ok key := hkey
  obtain ⟨cv, hcv, hdata⟩ := bind_eq_ok.mp hdata
  obtain rfl := guarded_eq_ok hcv
  have hlower : parseUUIDBytes (lower text) = .ok data := hdata
  rw [parseUUIDBytes_lower, hparsed] at hlower
  exact (Except.ok.inj hlower).symm

theorem keysAgree_uuid : CastAgrees lib .uuid := by
  intro ty cell utc enc hadm data key hdata hkey
  cases ty with
  | string => exact keysAgree_uuid_text cell data key hdata hkey
  | uuid =>
    obtain ⟨cv, hcv, hdata⟩ := bind_eq_ok.mp hdata
    obtain rfl := guarded_eq_ok hcv
    exact Except.ok.inj (hdata.symm.trans hkey)
  | _ => cases hadm

theorem keysAgree_json : CastAgrees lib .json := by
  intro ty cell utc enc hadm data key hdata hkey
  cases ty with
  | string | json =>
    obtain ⟨cv, hcv, hdata⟩ := bind_eq_ok.mp hdata
    obtain rfl := guarded_eq_ok hcv
    exact Except.ok.inj (hdata.symm.trans hkey)
  | _ => cases hadm

theorem keysAgree_binary : CastAgrees lib .binary := by
  intro ty cell utc enc hadm data key hdata hkey
  cases ty with
  | binary | fixed size =>
    cases hdata
    cases hkey
    rfl
  | _ => cases hadm

/-- What a text column of timestamps stores. -/
theorem parsed_timestamp {text : String} {x : Stored F32 F64}
    (h : parsed .timestamp ((parseTimestampText text).map Instant.micros) = .ok x) :
    ∃ t, parseTimestampText text = some t ∧ x = .timestamp t.micros := by
  obtain ⟨n, hn, rfl⟩ := parsed_eq_ok h
  obtain ⟨t, ht, rfl⟩ := Option.map_eq_some_iff.mp hn
  exact ⟨t, ht, rfl⟩

/-- To a naive timestamp: the data goes through a text, a date's delete through its own. -/
theorem keysAgree_timestamp : CastAgrees lib .timestamp := by
  intro ty cell utc enc hadm data key hdata hkey
  cases ty with
  | date =>
    simp only [projectValue, CastTarget.convert, readTypedValue, castToTimestamp, if_true,
      Except.bind, unsignedText, mapCanonicalType, appendValue] at hdata
    simp only [deleteValue, scalarValue, Except.bind, mapCanonicalType, appendValue] at hkey
    obtain ⟨t, ht, rfl⟩ := parsed_timestamp hdata
    obtain ⟨t', ht', rfl⟩ := parsed_timestamp hkey
    rw [naive_back (by decide) ht, date_midnight ht']
  | timestamp | timestamptz =>
    simp only [projectValue, CastTarget.convert, readTypedValue, castToTimestamp,
      Except.bind, unsignedText, mapCanonicalType, appendValue, naiveMicros] at hdata
    cases hkey
    obtain ⟨t, ht, rfl⟩ := parsed_timestamp hdata
    rw [naive_back (nanos_lt _) ht]
    exact congrArg Stored.timestamp (micros_back cell)
  | _ => cases hadm

theorem keysAgree_timestamptz : CastAgrees lib .timestamptz := by
  intro ty cell utc enc hadm data key hdata hkey
  cases ty with
  | timestamp | timestamptz =>
    simp only [projectValue, CastTarget.convert, readTypedValue, castToTimestampTZ,
      Except.bind, unsignedText, mapCanonicalType, appendValue, rfc3339Micros] at hdata
    cases hkey
    obtain ⟨t, ht, rfl⟩ := parsed_timestamp hdata
    rw [rfc3339_back (nanos_lt _) ht]
    exact congrArg Stored.timestamp (micros_back cell)
  | _ => cases hadm

end Targets

/-- **The delete key is the data key.**  For every type of a key column, every cast the
matrix admits on it and every value: where the commit does not fail, the equality delete
holds what the data file holds, if and only if the value's texts are the same. -/
theorem keysAgree_iff (hlib : lib.Lawful) (ty : WireType) (cast : Option CastTarget)
    (hadm : ∀ target ∈ cast, admitsCast ty target = true) (v : Option (WireCell F32 F64 ty)) :
    KeysAgree lib ty cast v ↔ SameText lib ty cast v := by
  cases v with
  | none =>
    refine ⟨fun _ _ _ _ => ?_, fun _ => keysAgree_null ty cast⟩
    cases ty <;> trivial
  | some cell =>
    cases cast with
    | none => exact ⟨nofun, fun _ => keysAgree_plain hlib cell⟩
    | some target =>
      obtain ⟨type, utc, enc⟩ := target
      have hadm := hadm _ rfl
      have hother : type ≠ .string → CastAgrees lib type →
          (KeysAgree lib ty (some ⟨type, utc, enc⟩) (some cell) ↔
            SameText lib ty (some ⟨type, utc, enc⟩) (some cell)) := by
        intro hne hagree
        refine ⟨fun _ target htarget hstring => ?_, fun _ => hagree ty cell utc enc hadm⟩
        cases htarget
        exact absurd hstring hne
      cases type with
      | string =>
        refine (keysAgree_string_iff cell).trans ⟨fun h _ _ _ => h, fun h => ?_⟩
        exact h _ rfl rfl
      | int64 => exact hother nofun keysAgree_int64
      | uint64 => exact hother nofun keysAgree_uint64
      | float64 => exact hother nofun keysAgree_float64
      | decimal p s => exact hother nofun (keysAgree_decimal hlib p s)
      | uuid => exact hother nofun keysAgree_uuid
      | json => exact hother nofun keysAgree_json
      | binary => exact hother nofun keysAgree_binary
      | timestamp => exact hother nofun keysAgree_timestamp
      | timestamptz => exact hother nofun keysAgree_timestamptz
      | _ => cases ty <;> simp [admitsCast, checkCast, checkBypass] at hadm

/-- A decimal column reads its own texts back. -/
theorem arrowLib_back {p s : Nat} {n m : Int}
    (h : arrowLib.parseDecimal p s (decimalText n s) = some m) : m = n := by
  have hten : (10 : Rat) ^ s ≠ 0 := pow_ne_zero _ (by norm_num)
  change (textValue (decimalText n s)).bind _ = some m at h
  rw [textValue_decimalText, Option.bind_some] at h
  simp only [div_mul_cancel₀ _ hten, Rat.num_intCast] at h
  split at h
  · exact (Option.some.inj h).symm
  · cases h

/-- The sample library meets the laws. -/
theorem arrowLib_lawful : arrowLib.Lawful where
  decimalString_back _ _ _ _ := arrowLib_back
  valueStr_back _ _ _ _ _ := arrowLib_back
  unsigned_back n m h := by
    have hn : ¬ (n : Int) < 0 := by omega
    have htext : toString n = decimalText n 0 := by simp [decimalText, hn]
    rw [htext] at h
    exact arrowLib_back h
  unsigned_kernel _ _ h := (Option.some.inj h).symm

/-- A quarter past twelve and a half second: kept as a time, and cast to text, the delete holds
what the data file holds. -/
theorem keysAgree_iff_halfSecond :
    deleteValue arrowLib .time none (some (44100500000 : Int)) = .ok (.time 44100500000) ∧
      KeysAgree arrowLib .time none (some (44100500000 : Int)) ∧
      deleteValue arrowLib .time (some ⟨.string, false, none⟩) (some (44100500000 : Int)) =
        .ok (.string "12:15:00.500000") ∧
      KeysAgree arrowLib .time (some ⟨.string, false, none⟩) (some (44100500000 : Int)) := by
  refine ⟨by decide +kernel, ?_, by decide +kernel, ?_⟩
  · exact (keysAgree_iff arrowLib_lawful .time none nofun _).mpr nofun
  · refine (keysAgree_iff arrowLib_lawful .time _ (fun _ h => ?_) _).mpr fun _ _ _ _ _ => by decide
    cases h
    rfl

/-- Noon cast to text: "12:00:00" in the data, "12:00:00.000000" in the delete. -/
theorem noon_key_differs :
    projectValue arrowLib .time (some ⟨.string, false, none⟩) (some (43200000000 : Int)) =
        .ok (.string "12:00:00") ∧
      deleteValue arrowLib .time (some ⟨.string, false, none⟩) (some (43200000000 : Int)) =
        .ok (.string "12:00:00.000000") ∧
      admitsCast .time ⟨.string, false, none⟩ = true ∧
      ¬KeysAgree arrowLib .time (some ⟨.string, false, none⟩) (some (43200000000 : Int)) := by
  have hdata : projectValue arrowLib .time (some ⟨.string, false, none⟩)
      (some (43200000000 : Int)) = .ok (.string "12:00:00") := by rfl
  have hkey : deleteValue arrowLib .time (some ⟨.string, false, none⟩) (some (43200000000 : Int)) =
      .ok (.string "12:00:00.000000") := by rfl
  refine ⟨hdata, hkey, rfl, fun hagree => ?_⟩
  exact absurd (Stored.string.inj (hagree _ _ hdata hkey)) (by decide)

end Urutau
