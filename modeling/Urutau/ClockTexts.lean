import Urutau.KeyAgreement

/-!
# Reading a time of day back

The text of a time of day is read by the time package's layout with an optional fraction, once
a zone behind it is cut off.  What is read lies in a day, and is rendered to a text that reads
as the same time.
-/

namespace Urutau

open DigitTexts TimeTexts List

/-- `ParseTimeOfDayText`: a final `Z` is trimmed, and what starts with a sign is cut off. -/
def parseTimeOfDayText (text : String) : Except KeyError Int :=
  let cs := text.toList
  let cs := if cs.getLast? = some 'Z' then cs.dropLast else cs
  match parseClock (cs.takeWhile fun c => c != '+' && c != '-') with
  | some c => .ok (c.sec * 1000000 + c.nsec / 1000 : Nat)
  | none => .error .badText

/-- The rendered text of a time is read as the time. -/
def ReadBack (micros : Int) : Prop :=
  ∃ text, formatMicrosOfDay micros = .ok text ∧ parseTimeOfDayText text = .ok micros

/-! ## What is read -/

theorem parsed_in_day {text : String} {micros : Int} (h : parseTimeOfDayText text = .ok micros) :
    0 ≤ micros ∧ micros < dayMicros := by
  simp only [parseTimeOfDayText] at h
  split at h
  · rename_i hclock
    have hread := whole_eq_some.mp hclock
    simp only [readClock, Option.bind_eq_bind, Option.bind_eq_some_iff, Option.some.injEq,
      Prod.mk.injEq] at hread
    obtain ⟨_, hh, _, _, _, hm, _, _, s, hs, rfl, -⟩ := hread
    have hns := clockFraction_lt s.2
    have hh := clockField_lt hh
    have hm := clockField_lt hm
    have hs := clockField_lt hs
    cases h
    simp only [dayMicros]
    omega
  · cases h

/-! ## What is rendered -/

variable {ds rest : List Char} {micros n : Int}

theorem clockField_of_padded {fixed : Bool} {limit : Nat} (h : Padded 2 n ds)
    (hlt : n.toNat < limit) :
    clockField fixed limit (ds ++ rest) = some (n.toNat, rest) := by
  obtain ⟨hlen, hds, hn⟩ := h
  rw [clockField, getnum_digits hlen.ge hds, take_of_length_le hlen.le, drop_of_length_le hlen.le,
    hn]
  simp [hlt]

theorem clockFraction_of_padded (h : Padded 6 n ds) :
    clockFraction ('.' :: ds) = (n.toNat * 1000, []) := by
  obtain ⟨hlen, hds, hn⟩ := h
  have hne : ds ≠ [] := by rintro rfl; cases hlen
  have hfraction := clockFraction_digits [] hds hne (by omega) nofun
  rwa [append_nil, hn, hlen] at hfraction

/-- A rendered text has no zone to cut. -/
theorem parse_fields {text : String} {h m s : Int} {hs ms ss : List Char} {ns : Nat}
    (htext : text.toList = hs ++ ':' :: (ms ++ ':' :: (ss ++ rest)))
    (hh : Padded 2 h hs) (hm : Padded 2 m ms) (hs : Padded 2 s ss)
    (hrest : ∀ c ∈ rest, c = '.' ∨ c.isDigit = true) (hns : clockFraction rest = (ns, []))
    (hlt : h.toNat < 24 ∧ m.toNat < 60 ∧ s.toNat < 60) : parseTimeOfDayText text =
      .ok ((h.toNat * 3600 + m.toNat * 60 + s.toNat) * 1000000 + ns / 1000 : Nat) := by
  have hplain : ∀ c ∈ text.toList, c ≠ 'Z' ∧ c ≠ '+' ∧ c ≠ '-' := by
    intro c hc
    have hchar : c.isDigit = true ∨ c = ':' ∨ c = '.' := by grind [Padded, Digits]
    refine ⟨?_, ?_, ?_⟩ <;> rintro rfl <;> simp at hchar
  have hz : text.toList.getLast? ≠ some 'Z' :=
    fun hlast => (hplain _ (mem_of_getLast? hlast)).1 rfl
  have hcut : text.toList.takeWhile (fun c => c != '+' && c != '-') = text.toList :=
    takeWhile_eq_self_iff.mpr fun c hc => by simp [hplain c hc]
  simp only [parseTimeOfDayText, if_neg hz, hcut]
  simp only [htext, parseClock, whole, readClock, Option.bind_eq_bind, Option.bind_some, skip, hns,
    if_true, clockField_of_padded hh hlt.1, clockField_of_padded hm hlt.2.1,
    clockField_of_padded hs hlt.2.2]

theorem readBack_of_day (h0 : 0 ≤ micros) (hday : micros < dayMicros) : ReadBack micros := by
  refine ⟨_, formatMicrosOfDay_eq h0 hday, ?_⟩
  simp only [dayMicros] at hday
  have hh := padded_paddedInt (k := 2) (n := micros / 3600000000) (by decide) (by omega) (by omega)
  have hm := padded_paddedInt (k := 2) (n := micros / 60000000 % 60) (by decide) (by omega)
    (by omega)
  have hs := padded_paddedInt (k := 2) (n := micros / 1000000 % 60) (by decide) (by omega)
    (by omega)
  have hf := padded_paddedInt (k := 6) (n := micros % 1000000) (by decide) (by omega) (by omega)
  split
  · have hnone : clockFraction [] = (0, []) := rfl
    rw [parse_fields (by simp [clockOf, clockText]) hh hm hs (by simp) hnone (by omega)]
    congr 1
    omega
  · rw [parse_fields (by simp [clockOf, clockText]) hh hm hs ?_ (clockFraction_of_padded hf)
      (by omega)]
    · congr 1
      omega
    · intro c hc
      exact (mem_cons.mp hc).imp_right (hf.2.1 c)

/-- **Times of day read back.**  Every time of a day is read back from its text, and what is read
from any text is a time whose own text reads as the same. -/
theorem time_texts_stable : (∀ micros, 0 ≤ micros → micros < dayMicros → ReadBack micros) ∧
    ∀ text micros, parseTimeOfDayText text = .ok micros → ReadBack micros := by
  refine ⟨fun micros => readBack_of_day, fun text micros h => ?_⟩
  obtain ⟨h0, hday⟩ := parsed_in_day h
  exact readBack_of_day h0 hday

/-- The last microsecond of the day, and a text with a short hour, a long fraction and a zone. -/
theorem time_texts_stable_late : ReadBack 86399999999 ∧ ReadBack 32523123456 :=
  ⟨time_texts_stable.1 _ (by decide) (by decide),
    time_texts_stable.2 "9:02:03,123456789012-03:00" _ (by decide +kernel)⟩

end Urutau
