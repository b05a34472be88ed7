import Mathlib

/-!
# Numbers as texts of decimal digits

A text of digits has a value; digits before it count for more, and zeros in front for
nothing.  The text a number is rendered to is the one without zeros in front.
-/

namespace DigitTexts

open List

/-- The number a text of digits stands for. -/
def value (cs : List Char) : Nat := Nat.ofDigitChars 10 cs 0

/-- Every character is a decimal digit. -/
def Digits (cs : List Char) : Prop := ∀ c ∈ cs, c.isDigit = true

instance (cs : List Char) : Decidable (Digits cs) := List.decidableBAll (Char.isDigit · = true) cs

theorem Digits.append {xs ys : List Char} (hx : Digits xs) (hy : Digits ys) : Digits (xs ++ ys) :=
  fun c hc => (mem_append.mp hc).elim (hx c) (hy c)

variable {cs : List Char}

theorem Digits.take (h : Digits cs) (n : Nat) : Digits (cs.take n) :=
  fun c hc => h c (mem_of_mem_take hc)

theorem Digits.drop (h : Digits cs) (n : Nat) : Digits (cs.drop n) :=
  fun c hc => h c (mem_of_mem_drop hc)

theorem digit_lt {c : Char} (h : c.isDigit = true) : c.toNat - '0'.toNat < 10 := by
  have hc := Char.isDigit_iff_toNat.mp h
  have hzero : '0'.toNat = 48 := rfl
  have hnine : '9'.toNat = 57 := rfl
  omega

theorem digit_eq_zero {c : Char} (h : c.isDigit = true) (h0 : c.toNat - '0'.toNat = 0) :
    c = '0' := by
  have hc := Char.isDigit_iff_toNat.mp h
  exact Char.toNat_inj.mp (by omega)

/-- The last digit counts once. -/
theorem value_concat (cs : List Char) (c : Char) :
    value (cs ++ [c]) = 10 * value cs + (c.toNat - '0'.toNat) :=
  Nat.ofDigitChars_append 0

/-- The digits in front count by the length of those behind. -/
theorem value_append (xs ys : List Char) :
    value (xs ++ ys) = value xs * 10 ^ ys.length + value ys := by
  induction ys using List.reverseRecOn with
  | nil => simp [value]
  | append_singleton ys c ih =>
    rw [← append_assoc, value_concat, ih, value_concat, length_append, length_singleton]
    ring

/-- A text's length bounds its value. -/
theorem value_lt (h : Digits cs) : value cs < 10 ^ cs.length := by
  induction cs using List.reverseRecOn with
  | nil => exact Nat.one_pos
  | append_singleton cs c ih =>
    have hcs := ih fun d hd => h d (mem_append_left _ hd)
    have hc := digit_lt (h c mem_concat_self)
    rw [value_concat, length_append, length_singleton]
    omega

/-- Zero is written with zeros. -/
theorem value_eq_zero_iff (h : Digits cs) : value cs = 0 ↔ ∀ c ∈ cs, c = '0' := by
  induction cs using List.reverseRecOn with
  | nil => simp [value]
  | append_singleton cs c ih =>
    have hcs := ih fun d hd => h d (mem_append_left _ hd)
    have hc := h c mem_concat_self
    rw [value_concat]
    refine ⟨fun hzero d hd => ?_, fun hall => ?_⟩
    · rcases mem_append.mp hd with hd | hd
      · exact hcs.mp (by omega) d hd
      · rw [mem_singleton.mp hd]
        exact digit_eq_zero hc (by omega)
    · have hrest := hcs.mpr fun d hd => hall d (mem_append_left _ hd)
      rw [hrest, hall c mem_concat_self]
      rfl

/-- Zeros in front do not count. -/
theorem value_zeros_append (n : Nat) (cs : List Char) :
    value (List.replicate n '0' ++ cs) = value cs := by
  have hdigits : Digits (List.replicate n '0') := fun c hc => by
    rw [eq_of_mem_replicate hc]
    rfl
  have hzero := (value_eq_zero_iff hdigits).mpr fun c hc => eq_of_mem_replicate hc
  rw [value_append, hzero, Nat.zero_mul, Nat.zero_add]

/-- A number is short of `10 ^ k` when all but its last `k` digits are zeros. -/
theorem value_lt_pow_iff (h : Digits cs) (k : Nat) :
    value cs < 10 ^ k ↔ ∀ c ∈ cs.take (cs.length - k), c = '0' := by
  rw [← value_eq_zero_iff (h.take _)]
  have hsplit := value_append (cs.take (cs.length - k)) (cs.drop (cs.length - k))
  rw [take_append_drop, length_drop] at hsplit
  have hlow := value_lt (h.drop (cs.length - k))
  rw [length_drop] at hlow
  by_cases hk : k ≤ cs.length
  · rw [Nat.sub_sub_self hk] at hsplit hlow
    refine ⟨fun hlt => ?_, fun hzero => by rwa [hsplit, hzero, Nat.zero_mul, Nat.zero_add]⟩
    by_contra hne
    have hge := Nat.le_mul_of_pos_left (10 ^ k) (Nat.pos_of_ne_zero hne)
    omega
  · have hle : cs.length ≤ k := by omega
    rw [Nat.sub_eq_zero_of_le hle]
    exact iff_of_true ((value_lt h).trans_le (Nat.pow_le_pow_right (by decide) hle)) rfl

/-! ## The text of a number -/

/-- The digits of a number, without zeros in front. -/
def render (n : Nat) : List Char := Nat.toDigits 10 n

/-- A rendered number is digits. -/
theorem digits_render (n : Nat) : Digits (render n) :=
  fun _ hc => Nat.isDigit_of_mem_toDigits (by decide) (by decide) hc

/-- A rendered number is read back. -/
theorem value_render (n : Nat) : value (render n) = n :=
  Nat.ofDigitChars_toDigits (by decide) (by decide)

/-- The length of a rendered number. -/
theorem length_render_le_iff {n k : Nat} (hk : 0 < k) : (render n).length ≤ k ↔ n < 10 ^ k :=
  Nat.length_toDigits_le_iff (by decide) hk

theorem render_ne_nil (n : Nat) : render n ≠ [] := by
  intro hnil
  have hvalue := value_render n
  rw [hnil] at hvalue
  have hzero : n = 0 := hvalue.symm
  subst hzero
  exact absurd hnil (by decide)

end DigitTexts
