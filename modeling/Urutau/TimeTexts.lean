import Urutau.CivilDates
import Urutau.DigitTexts

/-!
# Texts of dates and times

What Go's time package writes for a date, a clock reading and an instant, and what it reads for
the layouts made of them.  A reader takes its part off the front of a text.  What was written is
read back as it was, or refused: a year of more than four digits cannot be read.
-/

namespace TimeTexts

open CivilDates DigitTexts List

/-! ## Writing -/

/-- A number with at least so many digits. -/
def padded (width : Nat) (n : Nat) : String :=
  let digits := toString n
  String.ofList (List.replicate (width - digits.length) '0') ++ digits

/-- The same of an integer; the sign takes a place. -/
def paddedInt (width : Nat) (n : Int) : String :=
  if n < 0 then "-" ++ padded (width - 1) n.natAbs else padded width n.natAbs

/-- Hours, minutes and seconds. -/
def clockText (h m s : Int) : String :=
  paddedInt 2 h ++ ":" ++ paddedInt 2 m ++ ":" ++ paddedInt 2 s

/-- The layout `2006-01-02`.  A year's sign takes no place. -/
def dateText (days : Int) : String :=
  let c := civil days
  (if c.year < 0 then "-" else "") ++ padded 4 c.year.natAbs ++ "-" ++ paddedInt 2 c.month ++ "-" ++
    paddedInt 2 c.day

/-- The clock reading of a time of day in seconds. -/
def secondsText (sec : Int) : String := clockText (sec / 3600) (sec / 60 % 60) (sec % 60)

/-- The layout `2006-01-02 15:04:05.000000000` of a wall clock, in seconds as if it were UTC. -/
def naiveText (sec : Int) (nsec : Nat) : String :=
  dateText (sec / 86400) ++ " " ++ secondsText (sec % 86400) ++ "." ++ padded 9 nsec

/-- The fraction without its last zeros, or nothing. -/
def fractionText (nsec : Nat) : String :=
  if nsec = 0 then ""
  else "." ++ String.ofList ((padded 9 nsec).toList.rdropWhile (· == '0'))

/-- The layout's zone `Z07:00`; seconds of an offset are dropped. -/
def zoneText (offset : Int) : String :=
  if offset = 0 then "Z"
  else
    let minutes := (offset.tdiv 60).natAbs
    (if offset.tdiv 60 < 0 then "-" else "+") ++ padded 2 (minutes / 60) ++ ":" ++
      padded 2 (minutes % 60)

/-- `RFC3339Nano`, of an instant shown at an offset. -/
def rfc3339Text (unix : Int) (nsec : Nat) (offset : Int) : String :=
  let sec := unix + offset
  dateText (sec / 86400) ++ "T" ++ secondsText (sec % 86400) ++ fractionText nsec ++ zoneText offset

/-! ## Reading -/

/-- `getnum`: two digits, or one where a second is not asked for. -/
def getnum (fixed : Bool) (cs : List Char) : Option (Nat × List Char) :=
  let digits := (cs.take 2).takeWhile Char.isDigit
  if digits.length = 2 ∨ (digits.length = 1 ∧ fixed = false) then
    some (value digits, cs.drop digits.length)
  else none

/-- A number in its range. -/
def clockField (fixed : Bool) (limit : Nat) (cs : List Char) : Option (Nat × List Char) :=
  (getnum fixed cs).filter fun x => x.1 < limit

/-- `skip` of a character of the layout. -/
def skip (c : Char) : List Char → Option (List Char)
  | d :: rest => if d = c then some rest else none
  | [] => none

/-- `skip` of a blank: all blanks, or none at the end. -/
def skipBlank : List Char → Option (List Char)
  | [] => some []
  | d :: rest => if d = ' ' then some (rest.dropWhile (· == ' ')) else none

/-- The layout's optional fraction, in nanoseconds: digits past the ninth are dropped. -/
def clockFraction (cs : List Char) : Nat × List Char :=
  let digits := (cs.drop 1).takeWhile Char.isDigit
  if (cs.head? = some '.' ∨ cs.head? = some ',') ∧ digits ≠ [] then
    (value (digits.take 9) * 10 ^ (9 - (digits.take 9).length), cs.drop (1 + digits.length))
  else (0, cs)

/-- A clock reading in seconds, and its nanoseconds. -/
structure Clock where
  sec : Nat
  nsec : Nat
  deriving DecidableEq, Repr

/-- The layout `15:04:05.999999999`. -/
def readClock (cs : List Char) : Option (Clock × List Char) := do
  let (h, cs) ← clockField false 24 cs
  let (m, cs) ← clockField true 60 (← skip ':' cs)
  let (s, cs) ← clockField true 60 (← skip ':' cs)
  let (ns, cs) := clockFraction cs
  some (⟨h * 3600 + m * 60 + s, ns⟩, cs)

/-- A reader that has to take all of the text. -/
def whole {α : Type} (read : List Char → Option (α × List Char)) (cs : List Char) : Option α :=
  (read cs).bind fun x => if x.2 = [] then some x.1 else none

/-- `time.Parse` with the layout `15:04:05.999999999`. -/
def parseClock : List Char → Option Clock := whole readClock

/-- The year of a layout: four digits. -/
def readYear (cs : List Char) : Option (Nat × List Char) :=
  let digits := (cs.take 4).takeWhile Char.isDigit
  if digits.length = 4 then some (value digits, cs.drop 4) else none

/-- The layout `2006-01-02`. -/
def readDate (cs : List Char) : Option (Int × List Char) := do
  let (year, cs) ← readYear cs
  let (month, cs) ← clockField true 13 (← skip '-' cs)
  let (day, cs) ← getnum true (← skip '-' cs)
  if 1 ≤ month ∧ 1 ≤ day ∧ day ≤ daysIn month year then
    some ((⟨year, month, day⟩ : Civil).days, cs)
  else none

/-- `time.Parse` with the layout `2006-01-02`, in days. -/
def parseDate : List Char → Option Int := whole readDate

/-- A part of an offset, behind its colon. -/
def offsetPart (cs : List Char) : Option (Nat × List Char) :=
  (skip ':' cs).bind (clockField true 61)

/-- A numeric zone with hours only, with minutes, or with minutes and seconds.  The offset of one
second west stands for none. -/
def readOffset (parts : Nat) : List Char → Option (Int × List Char)
  | [] => none
  | sign :: cs => do
    let negative ← if sign = '-' then some true else if sign = '+' then some false else none
    let (h, cs) ← clockField true 25 cs
    let (m, cs) ← if 1 < parts then offsetPart cs else some (0, cs)
    let (s, cs) ← if 2 < parts then offsetPart cs else some (0, cs)
    let offset : Int := (h * 3600 + m * 60 + s : Nat)
    some (if negative then (if offset = 1 then 0 else -offset) else offset, cs)

/-- The zone `Z07:00`. -/
def readZulu : List Char → Option (Int × List Char)
  | 'Z' :: cs => some (0, cs)
  | cs => readOffset 2 cs

/-- No zone: UTC. -/
def noZone (cs : List Char) : Option (Int × List Char) := some (0, cs)

/-- An instant with the offset it was read at. -/
structure Instant where
  unix : Int
  nsec : Nat
  offset : Int
  deriving DecidableEq, Repr

/-- `UnixMicro`. -/
def Instant.micros (t : Instant) : Int := t.unix * 1000000 + (t.nsec / 1000 : Nat)

/-- A date, a separator, a clock reading and a zone. -/
def readInstant (separator : List Char → Option (List Char))
    (zone : List Char → Option (Int × List Char)) (cs : List Char) :
    Option (Instant × List Char) := do
  let (days, cs) ← readDate cs
  let (clock, cs) ← readClock (← separator cs)
  let (offset, cs) ← zone cs
  some (⟨days * 86400 + clock.sec - offset, clock.nsec, offset⟩, cs)

/-- `time.Parse` with `RFC3339Nano`. -/
def parseRfc3339 : List Char → Option Instant := whole (readInstant (skip 'T') readZulu)

/-- `time.Parse` with the layout `2006-01-02 15:04:05.999999999` and a zone behind it. -/
def parseSpaced (zone : List Char → Option (Int × List Char)) : List Char → Option Instant :=
  whole (readInstant skipBlank zone)

/-! ## Numbers -/

variable {cs ds rest : List Char} {n : Int} {k : Nat}

/-- The digits of a number, padded to a width. -/
def Padded (k : Nat) (n : Int) (ds : List Char) : Prop :=
  ds.length = k ∧ Digits ds ∧ value ds = n.toNat

/-- A padded number has zeros in front. -/
theorem toList_padded (k n : Nat) :
    (padded k n).toList = replicate (k - (render n).length) '0' ++ render n := by
  simp [padded, render, ← String.length_toList]

theorem digits_padded (k n : Nat) : Digits (padded k n).toList := by
  rw [toList_padded]
  refine Digits.append (fun c hc => ?_) (digits_render n)
  rw [eq_of_mem_replicate hc]
  rfl

theorem value_padded (k n : Nat) : value (padded k n).toList = n := by
  rw [toList_padded, value_zeros_append, value_render]

/-- A number that fits has the width exactly. -/
theorem length_padded {n : Nat} (hk : 0 < k) (hn : n < 10 ^ k) :
    (padded k n).toList.length = k := by
  have hlen := (length_render_le_iff hk).mpr hn
  rw [toList_padded, length_append, length_replicate]
  omega

/-- A number that does not fit has more digits. -/
theorem lt_length_padded {n : Nat} (hk : 0 < k) (hn : 10 ^ k ≤ n) :
    k < (padded k n).toList.length := by
  have hlen := mt (length_render_le_iff hk).mp (not_lt.mpr hn)
  rw [toList_padded, length_append, length_replicate]
  omega

/-- An integer that is not negative is padded as a natural number. -/
theorem padded_paddedInt (hk : 0 < k) (h0 : 0 ≤ n) (hn : n.toNat < 10 ^ k) :
    Padded k n (paddedInt k n).toList := by
  have habs : n.natAbs = n.toNat := by omega
  rw [paddedInt, if_neg (not_lt.mpr h0), habs]
  exact ⟨length_padded hk hn, digits_padded _ _, value_padded _ _⟩

/-- A clock field lies below its limit. -/
theorem clockField_lt {fixed : Bool} {limit n : Nat}
    (h : clockField fixed limit cs = some (n, rest)) : n < limit := by
  simpa using (Option.filter_eq_some_iff.mp h).2

/-- A fraction is less than a second. -/
theorem clockFraction_lt (cs : List Char) : (clockFraction cs).1 < 10 ^ 9 := by
  have hdigits : Digits (((cs.drop 1).takeWhile Char.isDigit).take 9) :=
    fun c hc => mem_takeWhile_imp (mem_of_mem_take hc)
  have hlen := length_take_le 9 ((cs.drop 1).takeWhile Char.isDigit)
  simp only [clockFraction]
  split
  · rw [← Nat.add_sub_cancel' hlen, pow_add]
    simp only [Nat.add_sub_cancel' hlen]
    exact Nat.mul_lt_mul_of_pos_right (value_lt hdigits) (Nat.pow_pos (by decide))
  · norm_num

/-- A text is read whole, with nothing behind. -/
theorem whole_eq_some {α : Type} {read : List Char → Option (α × List Char)} {a : α} :
    whole read cs = some a ↔ read cs = some (a, []) := by
  simp only [whole, Option.bind_eq_some_iff]
  refine ⟨?_, fun h => ⟨_, h, if_pos rfl⟩⟩
  rintro ⟨⟨b, left⟩, hread, hend⟩
  split at hend
  · rename_i hnil
    cases hend
    rw [hread, show left = [] from hnil]
  · cases hend

/-! ## Reading a number back -/

variable {fixed : Bool} {limit x : Nat} {c : Char}

/-- Two digits are read off the front. -/
theorem getnum_digits (hlen : 2 ≤ ds.length) (hds : Digits ds) :
    getnum fixed (ds ++ rest) = some (value (ds.take 2), ds.drop 2 ++ rest) := by
  have htake : ((ds ++ rest).take 2).takeWhile Char.isDigit = ds.take 2 := by
    rw [take_append_of_le_length hlen, takeWhile_eq_self_iff.mpr (hds.take 2)]
  have htwo : (ds.take 2).length = 2 := length_take_of_le hlen
  simp only [getnum, htake, htwo, true_or, if_true, drop_append_of_le_length hlen]

theorem getnum_minus : getnum fixed ('-' :: rest) = none := by
  simp [getnum]

theorem toList_paddedInt_neg (hn : n < 0) :
    (paddedInt k n).toList = '-' :: (padded (k - 1) n.natAbs).toList := by
  simp [paddedInt, hn]

/-- A number of one or two digits is read back; one below zero is refused. -/
theorem getnum_back (hn : n < 100)
    (hget : getnum fixed ((paddedInt 2 n).toList ++ rest) = some (x, cs)) :
    0 ≤ n ∧ (x : Int) = n ∧ cs = rest := by
  by_cases hneg : n < 0
  · rw [toList_paddedInt_neg hneg, cons_append, getnum_minus] at hget
    cases hget
  · obtain ⟨hlen, hds, hvalue⟩ :=
      padded_paddedInt (k := 2) (n := n) (by decide) (by omega) (by omega)
    rw [getnum_digits hlen.ge hds, take_of_length_le hlen.le, drop_of_length_le hlen.le] at hget
    cases hget
    refine ⟨by omega, by omega, rfl⟩

/-- A clock field written is read back. -/
theorem clockField_back (hn : n < 100)
    (h : clockField fixed limit ((paddedInt 2 n).toList ++ rest) = some (x, cs)) :
    0 ≤ n ∧ (x : Int) = n ∧ cs = rest :=
  getnum_back hn (Option.filter_eq_some_iff.mp h).1

/-- A number read up to a character behind it is read back, whatever its size. -/
theorem clockField_skip_back (hc : c.isDigit = false)
    (h : clockField fixed limit ((paddedInt 2 n).toList ++ c :: rest) = some (x, cs))
    (hskip : skip c cs = some ds) : 0 ≤ n ∧ (x : Int) = n ∧ ds = rest := by
  by_cases hn : n < 100
  · obtain ⟨h0, hx, rfl⟩ := clockField_back hn h
    rw [skip, if_pos rfl] at hskip
    exact ⟨h0, hx, (Option.some.inj hskip).symm⟩
  · -- the third digit stands where the character should
    have hget := (Option.filter_eq_some_iff.mp h).1
    have hlong := lt_length_padded (k := 2) (n := n.natAbs) (by decide) (by omega)
    have hds := digits_padded 2 n.natAbs
    rw [paddedInt, if_neg (by omega)] at hget
    generalize (padded 2 n.natAbs).toList = t at hget hlong hds
    rw [getnum_digits hlong.le hds] at hget
    cases hget
    obtain ⟨a, b, d, t, rfl⟩ : ∃ a b d t', t = a :: b :: d :: t' := by
      match t, hlong with
      | a :: b :: d :: t, _ => exact ⟨a, b, d, t, rfl⟩
    have hd : d.isDigit = true := hds d (by simp)
    have hne : d ≠ c := by
      rintro rfl
      rw [hc] at hd
      cases hd
    simp [skip, hne] at hskip

/-! ## Reading a clock back -/

/-- The fraction that is written is read; what follows it is no digit. -/
theorem clockFraction_digits (rest : List Char) (hds : Digits ds) (hne : ds ≠ [])
    (hlen : ds.length ≤ 9) (hrest : ∀ c ∈ rest.head?, c.isDigit = false) :
    clockFraction ('.' :: (ds ++ rest)) = (value ds * 10 ^ (9 - ds.length), rest) := by
  have hend : rest.takeWhile Char.isDigit = [] := by
    cases rest with
    | nil => rfl
    | cons c rest => simp [hrest c rfl]
  have hdigits : (ds ++ rest).takeWhile Char.isDigit = ds := by
    rw [takeWhile_append_of_pos hds, hend, append_nil]
  simp [clockFraction, hdigits, hne, take_of_length_le hlen, Nat.add_comm 1]

variable {h m s : Int} {clock : Clock}

/-- A clock reading that is read is the one written. -/
theorem readClock_back (hs : s < 100)
    (hread : readClock ((clockText h m s).toList ++ rest) = some (clock, cs)) :
    0 ≤ h ∧ 0 ≤ m ∧ 0 ≤ s ∧ (clock.sec : Int) = h * 3600 + m * 60 + s ∧
      clockFraction rest = (clock.nsec, cs) := by
  have htext : (clockText h m s).toList ++ rest = (paddedInt 2 h).toList ++ ':' ::
      ((paddedInt 2 m).toList ++ ':' :: ((paddedInt 2 s).toList ++ rest)) := by
    simp [clockText]
  rw [htext] at hread
  simp only [readClock, Option.bind_eq_bind, Option.bind_eq_some_iff, Option.some.injEq,
    Prod.mk.injEq] at hread
  obtain ⟨⟨a, _⟩, ha, _, hcolon, ⟨b, _⟩, hb, _, hcolon', ⟨d, _⟩, hd, hclock, hleft⟩ := hread
  obtain ⟨h0, ha, rfl⟩ := clockField_skip_back rfl ha hcolon
  obtain ⟨m0, hb, rfl⟩ := clockField_skip_back rfl hb hcolon'
  obtain ⟨s0, hd, rfl⟩ := clockField_back hs hd
  refine ⟨h0, m0, s0, ?_, ?_⟩
  · rw [← hclock]
    push_cast
    omega
  · rw [← hclock, ← hleft]

/-! ## Reading a date back -/

/-- Four digits are the year. -/
theorem readYear_digits (hlen : 4 ≤ ds.length) (hds : Digits ds) :
    readYear (ds ++ rest) = some (value (ds.take 4), ds.drop 4 ++ rest) := by
  have htake : ((ds ++ rest).take 4).takeWhile Char.isDigit = ds.take 4 := by
    rw [take_append_of_le_length hlen, takeWhile_eq_self_iff.mpr (hds.take 4)]
  simp only [readYear, htake, length_take_of_le hlen, if_true, drop_append_of_le_length hlen]

/-- A year that is read is the one written: it has four digits and no sign. -/
theorem readYear_back {year : Int}
    (hread : readYear ((if year < 0 then "-" else "" : String).toList ++
      (padded 4 year.natAbs).toList ++ '-' :: rest) = some (x, cs))
    (hskip : skip '-' cs = some ds) : (x : Int) = year ∧ ds = rest := by
  by_cases hneg : year < 0
  · rw [if_pos hneg] at hread
    simp [readYear] at hread
  · rw [if_neg hneg] at hread
    have hds := digits_padded 4 year.natAbs
    by_cases hfour : year.natAbs < 10 ^ 4
    · have hlen := length_padded (k := 4) (by decide) hfour
      have hvalue := value_padded 4 year.natAbs
      rw [String.toList_empty, nil_append, readYear_digits hlen.ge hds, take_of_length_le hlen.le,
        drop_of_length_le hlen.le, hvalue] at hread
      cases hread
      rw [nil_append, skip, if_pos rfl] at hskip
      exact ⟨by omega, (Option.some.inj hskip).symm⟩
    · have hlong := lt_length_padded (k := 4) (by decide) (not_lt.mp hfour)
      rw [String.toList_empty, nil_append, readYear_digits hlong.le hds] at hread
      generalize (padded 4 year.natAbs).toList = t at hread hlong hds
      cases hread
      obtain ⟨d, t', hdrop⟩ : ∃ d t', t.drop 4 = d :: t' := by
        cases hdrop : t.drop 4 with
        | nil => exact absurd (drop_eq_nil_iff.mp hdrop) (not_le.mpr hlong)
        | cons d t' => exact ⟨d, t', rfl⟩
      have hd : d.isDigit = true := hds d (mem_of_mem_drop (hdrop ▸ mem_cons_self))
      have hne : d ≠ '-' := by
        rintro rfl
        cases hd
      rw [hdrop, cons_append, skip, if_neg hne] at hskip
      cases hskip

/-- A date that is read is the one written. -/
theorem readDate_back {days days' : Int}
    (hread : readDate ((dateText days).toList ++ rest) = some (days', cs)) :
    days' = days ∧ cs = rest := by
  have hdayBound := civil_day_le days
  have hdays := days_civil days
  simp only [dateText] at hread
  generalize civil days = c at *
  have htext : ((if c.year < 0 then "-" else "" : String) ++ padded 4 c.year.natAbs ++ "-" ++
      paddedInt 2 c.month ++ "-" ++ paddedInt 2 c.day).toList ++ rest =
      (if c.year < 0 then "-" else "" : String).toList ++ (padded 4 c.year.natAbs).toList ++ '-' ::
        ((paddedInt 2 c.month).toList ++ '-' :: ((paddedInt 2 c.day).toList ++ rest)) := by
    simp
  rw [htext] at hread
  simp only [readDate, Option.bind_eq_bind, Option.bind_eq_some_iff] at hread
  obtain ⟨⟨y, _⟩, hyear, _, hdash, ⟨m, _⟩, hmonth, _, hdash', ⟨d, _⟩, hday, hvalid⟩ := hread
  obtain ⟨hy, hrest⟩ := readYear_back hyear hdash
  rw [hrest] at hmonth
  obtain ⟨-, hm, hrest⟩ := clockField_skip_back rfl hmonth hdash'
  rw [hrest] at hday
  obtain ⟨-, hd, rfl⟩ := getnum_back (by omega) hday
  split at hvalid
  · simp only [Option.some.injEq, Prod.mk.injEq] at hvalid
    obtain ⟨rfl, rfl⟩ := hvalid
    rw [hy, Int.ofNat_inj.mp hm, Int.ofNat_inj.mp hd]
    exact ⟨hdays, rfl⟩
  · cases hvalid

/-! ## Reading an instant back -/

theorem value_append_zero (cs : List Char) : value (cs ++ ['0']) = value cs * 10 := by
  rw [value_append]
  rfl

/-- Zeros at the end of a fraction do not count. -/
theorem value_rdropWhile (ds : List Char) :
    value (ds.rdropWhile (· == '0')) * 10 ^ (ds.length - (ds.rdropWhile (· == '0')).length) =
      value ds := by
  induction ds using List.reverseRecOn with
  | nil => rfl
  | append_singleton ds c ih =>
    by_cases hc : (c == '0') = true
    · have hle : (ds.rdropWhile (· == '0')).length ≤ ds.length :=
        ( rdropWhile_prefix _ _).length_le
      obtain rfl := eq_of_beq hc
      rw [rdropWhile_concat, if_pos hc, value_append_zero, ← ih, length_append, length_singleton,
        Nat.sub_add_comm hle, pow_succ, Nat.mul_assoc]
    · rw [rdropWhile_concat, if_neg hc, Nat.sub_self, pow_zero, Nat.mul_one]

variable {nsec : Nat} {sec offset : Int}

/-- The fraction of a text with all nine digits. -/
theorem clockFraction_nine (hnsec : nsec < 10 ^ 9) :
    clockFraction ('.' :: (padded 9 nsec).toList) = (nsec, []) := by
  have hlen := length_padded (k := 9) (by decide) hnsec
  have hne : (padded 9 nsec).toList ≠ [] := by
    intro hnil
    rw [hnil] at hlen
    cases hlen
  have hfrac := clockFraction_digits [] (digits_padded 9 nsec) hne hlen.le nofun
  rwa [append_nil, hlen, Nat.sub_self, pow_zero, Nat.mul_one, value_padded] at hfrac

/-- The fraction of a text without its last zeros, before the letter of UTC. -/
theorem clockFraction_trimmed (hnsec : nsec < 10 ^ 9) :
    clockFraction ((fractionText nsec).toList ++ ['Z']) = (nsec, ['Z']) := by
  by_cases hzero : nsec = 0
  · rw [fractionText, if_pos hzero, hzero]
    rfl
  · have hlen := length_padded (k := 9) (by decide) hnsec
    have hvalue := value_rdropWhile (padded 9 nsec).toList
    rw [value_padded, hlen] at hvalue
    have hpre := rdropWhile_prefix (· == '0') (padded 9 nsec).toList
    have hds : Digits ((padded 9 nsec).toList.rdropWhile (· == '0')) :=
      fun c hc => digits_padded 9 nsec c (hpre.subset hc)
    have hle := hpre.length_le.trans_eq hlen
    have hne : (padded 9 nsec).toList.rdropWhile (· == '0') ≠ [] := by
      intro hnil
      rw [hnil] at hvalue
      exact hzero (hvalue.symm.trans (Nat.zero_mul _))
    have hfrac := clockFraction_digits ['Z'] hds hne hle (by simp)
    rw [hvalue] at hfrac
    simpa [fractionText, hzero] using hfrac

/-- The clock reading of a time of day is read back. -/
theorem readClock_seconds_back (h0 : 0 ≤ sec) (hday : sec < 86400)
    (hread : readClock ((secondsText sec).toList ++ rest) = some (clock, cs)) :
    (clock.sec : Int) = sec ∧ clockFraction rest = (clock.nsec, cs) := by
  obtain ⟨-, -, -, hsec, hfrac⟩ := readClock_back (by omega) hread
  exact ⟨by omega, hfrac⟩

/-- No blank stands in front of the hour. -/
theorem skipBlank_secondsText (h0 : 0 ≤ sec) (hday : sec < 86400) :
    skipBlank (' ' :: ((secondsText sec).toList ++ rest)) =
      some ((secondsText sec).toList ++ rest) := by
  obtain ⟨hlen, hds, -⟩ :=
    padded_paddedInt (k := 2) (n := sec / 3600) (by decide) (by omega) (by omega)
  have htext : (secondsText sec).toList ++ rest = (paddedInt 2 (sec / 3600)).toList ++
      ((":" ++ paddedInt 2 (sec / 60 % 60) ++ ":" ++ paddedInt 2 (sec % 60)).toList ++ rest) := by
    simp [secondsText, clockText]
  rw [htext]
  generalize (paddedInt 2 (sec / 3600)).toList = ds at hlen hds
  cases ds with
  | nil => cases hlen
  | cons d ds =>
    have hd : d ≠ ' ' := by
      rintro rfl
      cases hds ' ' mem_cons_self
    simp [skipBlank, hd]

variable {separator : List Char → Option (List Char)}
  {zone : List Char → Option (Int × List Char)} {t : Instant}

/-- An instant behind a written date is of that date. -/
theorem readInstant_date {days : Int}
    (hread : readInstant separator zone ((dateText days).toList ++ rest) = some (t, cs)) :
    ∃ text clock left offset, separator rest = some text ∧ readClock text = some (clock, left) ∧
      zone left = some (offset, cs) ∧
      t = ⟨days * 86400 + clock.sec - offset, clock.nsec, offset⟩ := by
  simp only [readInstant, Option.bind_eq_bind, Option.bind_eq_some_iff, Option.some.injEq,
    Prod.mk.injEq] at hread
  obtain ⟨⟨days', _⟩, hdate, text, hsep, ⟨clock, left⟩, hclock, ⟨offset, _⟩, hzone, ht, rfl⟩ :=
    hread
  obtain ⟨rfl, hrest⟩ := readDate_back hdate
  rw [hrest] at hsep
  exact ⟨text, clock, left, offset, hsep, hclock, hzone, ht.symm⟩

/-- A wall clock that is read is the one written, at the offset of an empty zone. -/
theorem parseSpaced_back (hnsec : nsec < 10 ^ 9)
    (hread : parseSpaced zone (naiveText sec nsec).toList = some t) :
    ∃ offset, zone [] = some (offset, []) ∧ t = ⟨sec - offset, nsec, offset⟩ := by
  have htext : (naiveText sec nsec).toList = (dateText (sec / 86400)).toList ++ ' ' ::
      ((secondsText (sec % 86400)).toList ++ '.' :: (padded 9 nsec).toList) := by
    simp [naiveText]
  have hread := whole_eq_some.mp hread
  rw [htext] at hread
  obtain ⟨text, clock, left, offset, hsep, hclock, hzone, ht⟩ := readInstant_date hread
  rw [skipBlank_secondsText (by omega) (by omega)] at hsep
  rw [← Option.some.inj hsep] at hclock
  obtain ⟨hsec, hfrac⟩ := readClock_seconds_back (by omega) (by omega) hclock
  obtain ⟨hnsec, hleft⟩ := Prod.mk.inj ((clockFraction_nine hnsec).symm.trans hfrac)
  rw [← hleft] at hzone
  have hunix : sec / 86400 * 86400 + clock.sec - offset = sec - offset := by omega
  exact ⟨offset, hzone, by rw [ht, hunix, hnsec]⟩

/-- An instant in UTC that is read is the one written. -/
theorem parseRfc3339_back (hnsec : nsec < 10 ^ 9)
    (hread : parseRfc3339 (rfc3339Text sec nsec 0).toList = some t) : t = ⟨sec, nsec, 0⟩ := by
  have htext : (rfc3339Text sec nsec 0).toList = (dateText (sec / 86400)).toList ++ 'T' ::
      ((secondsText (sec % 86400)).toList ++ ((fractionText nsec).toList ++ ['Z'])) := by
    simp [rfc3339Text, zoneText]
  have hread := whole_eq_some.mp hread
  rw [htext] at hread
  obtain ⟨text, clock, left, offset, hsep, hclock, hzone, ht⟩ := readInstant_date hread
  rw [skip, if_pos rfl] at hsep
  rw [← Option.some.inj hsep] at hclock
  obtain ⟨hsec, hfrac⟩ := readClock_seconds_back (by omega) (by omega) hclock
  obtain ⟨hnsec, hleft⟩ := Prod.mk.inj ((clockFraction_trimmed hnsec).symm.trans hfrac)
  rw [← hleft] at hzone
  obtain ⟨hoffset, -⟩ := Prod.mk.inj (Option.some.inj hzone)
  have hunix : sec / 86400 * 86400 + clock.sec - 0 = sec := by omega
  rw [ht, ← hoffset, hunix, hnsec]

end TimeTexts
