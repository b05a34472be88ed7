import Mathlib.Data.List.Basic

/-!
# Lists of strings in JSON

What `encoding/json` writes for a list of strings, and what it reads as one.  Strings are bytes:
a byte that begins no rune is written as the replacement character, so only valid UTF-8 comes
back as it was.
-/

namespace JsonTexts

open List

/-! ## Runes -/

/-- The bytes of a text. -/
def utf8 (cs : List Char) : List UInt8 := cs.flatMap String.utf8EncodeChar

/-- The runes of a byte string behind the first `skip` bytes; `none` is a byte that begins no
rune. -/
def runes : Nat → List UInt8 → List (Option Char)
  | _, [] => []
  | skip + 1, _ :: rest => runes skip rest
  | 0, b :: rest =>
    match (b :: rest).toByteArray.utf8DecodeChar? 0 with
    | none => none :: runes 0 rest
    | some c => some c :: runes (c.utf8Size - 1) rest

/-! ## Writing -/

/-- The escapes of one letter. -/
def shortEscapes : List (Char × Char) :=
  [('"', '"'), ('\\', '\\'), ('\x08', 'b'), ('\x0c', 'f'), ('\n', 'n'), ('\r', 'r'), ('\t', 't')]

/-- Four hexadecimal digits. -/
def hex4 (n : Nat) : List Char :=
  [n / 4096 % 16, n / 256 % 16, n / 16 % 16, n % 16].map Nat.digitChar

/-- The characters written by their number: control characters, those of HTML, and the two
line ends of Unicode. -/
def numbered (c : Char) : Bool :=
  decide (c < ' ') || decide (c ∈ ['<', '>', '&', '\u2028', '\u2029'])

/-- One rune inside quotes. -/
def quoteRune : Option Char → List Char
  | none => '\\' :: 'u' :: hex4 0xfffd
  | some c =>
    match shortEscapes.lookup c with
    | some letter => ['\\', letter]
    | none =>
      if numbered c then '\\' :: 'u' :: hex4 c.toNat
      else [c]

def quote (bs : List UInt8) : List Char := '"' :: (runes 0 bs).flatMap quoteRune ++ ['"']

/-- The JSON of a list of strings. -/
def marshal (texts : List (List UInt8)) : List UInt8 :=
  utf8 ('[' :: intercalate [','] (texts.map quote) ++ [']'])

/-! ## Reading -/

def hexValue (c : Char) : Option Nat :=
  if '0' ≤ c ∧ c ≤ '9' then some (c.toNat - '0'.toNat)
  else if 'a' ≤ c ∧ c ≤ 'f' then some (c.toNat - 'a'.toNat + 10)
  else if 'A' ≤ c ∧ c ≤ 'F' then some (c.toNat - 'A'.toNat + 10)
  else none

/-- The number of four hexadecimal digits. -/
def getu4 (a b c d : Char) : Option Nat := do
  return (((← hexValue a) * 16 + (← hexValue b)) * 16 + (← hexValue c)) * 16 + (← hexValue d)

/-- A piece of a string: a character, or the UTF-16 unit of an escape. -/
inductive Piece
  | char (c : Char)
  | unit (n : Nat)

/-- The character behind a backslash. -/
def unescape (letter : Char) : Option Char :=
  if letter = '/' then some '/' else (shortEscapes.map Prod.swap).lookup letter

/-- The pieces up to the closing quote, and what stands behind it. -/
def readString : List Char → Option (List Piece × List Char)
  | [] => none
  | c :: rest =>
    if c = '"' then some ([], rest)
    else if c = '\\' then
      match rest with
      | [] => none
      | letter :: rest =>
        if letter = 'u' then
          match rest with
          | a :: b :: c :: d :: rest => do
            let n ← getu4 a b c d
            let (pieces, left) ← readString rest
            return (.unit n :: pieces, left)
          | _ => none
        else do
          let c ← unescape letter
          let (pieces, left) ← readString rest
          return (.char c :: pieces, left)
    else if c < ' ' then none
    else do
      let (pieces, left) ← readString rest
      return (.char c :: pieces, left)

def isHigh (n : Nat) : Bool := 0xd800 ≤ n && n < 0xdc00

def isLow (n : Nat) : Bool := 0xdc00 ≤ n && n < 0xe000

/-- The character of a single unit; a surrogate is replaced. -/
def unitChar (n : Nat) : Char := if isHigh n || isLow n then '\ufffd' else Char.ofNat n

/-- The text of the pieces: two surrogates are one character. -/
def unquote : List Piece → List Char
  | [] => []
  | .char c :: rest => c :: unquote rest
  | .unit n :: .unit m :: rest =>
    if isHigh n && isLow m then
      Char.ofNat ((n - 0xd800) * 0x400 + (m - 0xdc00) + 0x10000) :: unquote rest
    else unitChar n :: unquote (.unit m :: rest)
  | .unit n :: rest => unitChar n :: unquote rest

def skipSpace (cs : List Char) : List Char := cs.dropWhile fun c => c ∈ [' ', '\t', '\n', '\r']

/-- A string, or `null` for an empty one, and what stands behind it. -/
def readItem : List Char → Option (List Char × List Char)
  | '"' :: rest => (readString rest).map fun (pieces, left) => (unquote pieces, left)
  | 'n' :: 'u' :: 'l' :: 'l' :: rest => some ([], rest)
  | _ => none

/-- The items up to the closing bracket, and what stands behind it. -/
def readItems : Nat → List Char → Option (List (List Char) × List Char)
  | 0, _ => none
  | fuel + 1, cs => do
    let (item, left) ← readItem (skipSpace cs)
    match skipSpace left with
    | ',' :: rest =>
      let (items, left) ← readItems fuel rest
      return (item :: items, left)
    | ']' :: rest => return ([item], rest)
    | _ => none

/-- The list the text is read as: a list of strings, or `null` for an empty one. -/
def readList (cs : List Char) : Option (List (List Char)) := do
  let (items, left) ← match skipSpace cs with
    | 'n' :: 'u' :: 'l' :: 'l' :: rest => some ([], rest)
    | '[' :: rest =>
      match skipSpace rest with
      | ']' :: rest => some ([], rest)
      | _ => readItems rest.length rest
    | _ => none
  if skipSpace left = [] then some items else none

/-- The list of strings of a JSON text, `none` where it is none. -/
def unmarshal (bs : List UInt8) : Option (List (List UInt8)) :=
  (readList ((runes 0 bs).map fun r => r.getD '\ufffd')).map fun texts => texts.map utf8

/-! ## Valid texts come back -/

/-- The bytes of a rune after the first are passed over. -/
theorem runes_skip (bs rest : List UInt8) : runes bs.length (bs ++ rest) = runes 0 rest := by
  induction bs with
  | nil => rfl
  | cons b bs ih => rw [length_cons, cons_append, runes, ih]

/-- An encoded character is one rune. -/
theorem runes_encode (c : Char) (rest : List UInt8) :
    runes 0 (String.utf8EncodeChar c ++ rest) = some c :: runes 0 rest := by
  have hdecode : (String.utf8EncodeChar c ++ rest).toByteArray.utf8DecodeChar? 0 = some c := by
    rw [toByteArray_append]
    exact ByteArray.utf8DecodeChar?_utf8EncodeChar_append
  have hlen := String.length_utf8EncodeChar c
  cases hbytes : String.utf8EncodeChar c with
  | nil =>
    rw [hbytes] at hlen
    exact absurd hlen.symm (Nat.ne_of_gt (Char.utf8Size_pos c))
  | cons b bs =>
    rw [hbytes, cons_append] at hdecode
    rw [hbytes, length_cons] at hlen
    rw [cons_append, runes, hdecode]
    simp only [← hlen, Nat.add_sub_cancel, runes_skip]

@[simp] theorem runes_utf8 (cs : List Char) : runes 0 (utf8 cs) = cs.map some := by
  induction cs with
  | nil => rfl
  | cons c cs ih =>
    rw [utf8, flatMap_cons, runes_encode, map_cons]
    exact congrArg _ ih

/-- The piece a character is read as. -/
def pieceOf (c : Char) : Piece :=
  if (shortEscapes.lookup c).isNone && numbered c then .unit c.toNat else .char c

/-- A hexadecimal digit is read back. -/
theorem hexValue_digitChar {n : Nat} (hn : n < 16) : hexValue n.digitChar = some n := by
  revert n
  decide

/-- Four hexadecimal digits are read back. -/
theorem getu4_hex4 {n : Nat} (hn : n < 65536) : ∃ a b c d, hex4 n = [a, b, c, d] ∧
    getu4 a b c d = some n := by
  refine ⟨_, _, _, _, rfl, ?_⟩
  simp only [getu4, hexValue_digitChar (Nat.mod_lt _ (by decide : 0 < 16)), Option.pure_def,
    Option.bind_eq_bind, Option.bind_some, Option.some.injEq]
  omega

/-- A numbered escape is no surrogate. -/
theorem numbered_lt {c : Char} (hc : numbered c = true) : c.toNat < 0xd800 := by
  rcases Bool.or_eq_true_iff.mp hc with hcontrol | hlisted
  · exact Nat.lt_trans (Char.lt_def.mp (of_decide_eq_true hcontrol)) (by decide)
  · have hall : ∀ c ∈ ['<', '>', '&', '\u2028', '\u2029'], c.toNat < 0xd800 := by simp
    exact hall c (of_decide_eq_true hlisted)

/-- A short escape is read back. -/
theorem lookup_shortEscapes {c letter : Char} (h : shortEscapes.lookup c = some letter) :
    unescape letter = some c ∧ letter ≠ 'u' := by
  have hall : ∀ p ∈ shortEscapes, unescape p.2 = some p.1 ∧ p.2 ≠ 'u' := by decide
  obtain ⟨before, behind, hsplit, -⟩ := lookup_eq_some_iff.mp h
  exact hall (c, letter) (hsplit ▸ mem_append_right _ mem_cons_self)

/-- What is written for a character is read as its piece. -/
theorem readString_quoteRune (c : Char) (rest : List Char) :
    readString (quoteRune (some c) ++ rest) =
      (readString rest).map fun (pieces, left) => (pieceOf c :: pieces, left) := by
  cases hshort : shortEscapes.lookup c with
  | some letter =>
    obtain ⟨hletter, hu⟩ := lookup_shortEscapes hshort
    have hpiece : pieceOf c = .char c := by simp [pieceOf, hshort]
    have hquote : quoteRune (some c) ++ rest = '\\' :: letter :: rest := by
      simp [quoteRune, hshort]
    rw [hquote, hpiece, readString.eq_def]
    simp only [Char.reduceEq, if_false, if_true, if_neg hu, hletter]
    cases readString rest <;> rfl
  | none =>
    by_cases hnum : numbered c = true
    · obtain ⟨a, b, d, e, hhex, hvalue⟩ := getu4_hex4 (Nat.lt_trans (numbered_lt hnum) (by decide))
      have hpiece : pieceOf c = .unit c.toNat := by simp [pieceOf, hshort, hnum]
      have hquote : quoteRune (some c) ++ rest = '\\' :: 'u' :: a :: b :: d :: e :: rest := by
        simp [quoteRune, hshort, hnum, hhex]
      rw [hquote, hpiece, readString.eq_def]
      simp only [Char.reduceEq, if_false, if_true, hvalue]
      cases readString rest <;> rfl
    · have hpiece : pieceOf c = .char c := by simp [pieceOf, hnum]
      have hquote : quoteRune (some c) ++ rest = c :: rest := by
        simp [quoteRune, hshort, hnum]
      obtain ⟨hc, -⟩ : ¬ c < ' ' ∧ _ := by simpa [numbered] using hnum
      have hends : c ≠ '"' ∧ c ≠ '\\' := by
        constructor <;> rintro rfl <;> cases hshort
      rw [hquote, hpiece, readString.eq_def]
      simp only [if_neg hends.1, if_neg hends.2, if_neg hc]
      cases readString rest <;> rfl

/-- The pieces of a text are read as the text. -/
theorem unquote_pieces (cs : List Char) : unquote (cs.map pieceOf) = cs := by
  induction cs with
  | nil => rfl
  | cons c cs ih =>
    by_cases hunit : ((shortEscapes.lookup c).isNone && numbered c) = true
    · have hlt := numbered_lt (Bool.and_eq_true_iff.mp hunit).2
      have hhigh : isHigh c.toNat = false := by simp [isHigh, Nat.not_le.mpr hlt]
      have hlow : isLow c.toNat = false := by
        simp only [isLow, Bool.and_eq_false_iff, decide_eq_false_iff_not]
        omega
      have hchar : unitChar c.toNat = c := by simp [unitChar, hhigh, hlow]
      have hpiece : pieceOf c = .unit c.toNat := if_pos hunit
      -- a unit that is no surrogate stands for itself, whatever follows
      have hsingle : ∀ rest, unquote (.unit c.toNat :: rest) = c :: unquote rest := by
        intro rest
        cases rest with
        | nil => simp [unquote, hchar]
        | cons p rest => cases p <;> simp [unquote, hchar, hhigh]
      rw [map_cons, hpiece, hsingle, ih]
    · have hpiece : pieceOf c = .char c := if_neg hunit
      rw [map_cons, hpiece, unquote, ih]

/-- A quoted text is read up to its closing quote. -/
theorem readString_quoted (cs rest : List Char) :
    readString (cs.flatMap (fun c => quoteRune (some c)) ++ '"' :: rest) =
      some (cs.map pieceOf, rest) := by
  induction cs with
  | nil =>
    rw [flatMap_nil, nil_append, readString.eq_def]
    simp
  | cons c cs ih =>
    rw [flatMap_cons, append_assoc, readString_quoteRune, ih]
    rfl

/-- A quoted text is read back. -/
theorem readItem_quote (cs rest : List Char) :
    readItem (skipSpace (quote (utf8 cs) ++ rest)) = some (cs, rest) := by
  have hquote : quote (utf8 cs) ++ rest =
      '"' :: (cs.flatMap (fun c => quoteRune (some c)) ++ '"' :: rest) := by
    simp [quote, flatMap_map]
  have hstart : ∀ tail : List Char, skipSpace ('"' :: tail) = '"' :: tail := fun _ => rfl
  rw [hquote, hstart, readItem, readString_quoted]
  simp [unquote_pieces]

/-- Quoted texts are read back in order. -/
theorem readItems_quotes (texts : List (List Char)) (hsome : texts ≠ []) (fuel : Nat)
    (hfuel : texts.length ≤ fuel) (rest : List Char) :
    readItems fuel (intercalate [','] (texts.map fun cs => quote (utf8 cs)) ++ ']' :: rest) =
      some (texts, rest) := by
  induction texts generalizing fuel with
  | nil => exact absurd rfl hsome
  | cons cs texts ih =>
    obtain ⟨fuel, rfl⟩ : ∃ n, fuel = n + 1 :=
      Nat.exists_eq_add_one.mpr (Nat.lt_of_lt_of_le (Nat.succ_pos _) hfuel)
    cases texts with
    | nil =>
      have hlist : intercalate [','] ([cs].map fun cs => quote (utf8 cs)) = quote (utf8 cs) := by
        simp
      rw [hlist, readItems, readItem_quote]
      rfl
    | cons next texts =>
      have hlist : intercalate [','] ((cs :: next :: texts).map fun cs => quote (utf8 cs)) ++
          ']' :: rest = quote (utf8 cs) ++ ',' :: (intercalate [',']
            ((next :: texts).map fun cs => quote (utf8 cs)) ++ ']' :: rest) := by
        simp [intercalate_cons_cons]
      have hcomma : ∀ tail : List Char, skipSpace (',' :: tail) = ',' :: tail := fun _ => rfl
      rw [hlist, readItems, readItem_quote]
      simp only [Option.bind_eq_bind, Option.bind_some, hcomma,
        ih (cons_ne_nil _ _) fuel (Nat.le_of_succ_le_succ hfuel)]
      rfl

/-- The quoted texts of a list are no longer than the list's text. -/
theorem length_le_intercalate (texts : List (List Char)) (rest : List Char) :
    texts.length ≤
      (intercalate [','] (texts.map fun cs => quote (utf8 cs)) ++ ']' :: rest).length := by
  induction texts with
  | nil => exact Nat.zero_le _
  | cons cs texts ih =>
    cases texts with
    | nil =>
      simp only [length_append, length_cons, length_nil]
      omega
    | cons next texts =>
      simp only [map_cons, intercalate_cons_cons, length_append, length_cons] at ih ⊢
      omega

/-- **Valid texts come back as they were written.** -/
theorem unmarshal_marshal (texts : List (List Char)) :
    unmarshal (marshal (texts.map utf8)) = some (texts.map utf8) := by
  have hread : readList ('[' :: intercalate [','] (texts.map fun cs => quote (utf8 cs)) ++ [']']) =
      some texts := by
    cases texts with
    | nil => decide
    | cons cs texts =>
      have hitems := readItems_quotes (cs :: texts) (cons_ne_nil _ _) _
        (length_le_intercalate (cs :: texts) []) []
      obtain ⟨tail, htail⟩ : ∃ tail, intercalate [',']
          ((cs :: texts).map fun cs => quote (utf8 cs)) ++ [']'] = '"' :: tail := by
        cases texts <;> exact ⟨_, rfl⟩
      rw [cons_append, readList]
      rw [htail] at hitems ⊢
      have hopen : skipSpace ('[' :: '"' :: tail) = '[' :: '"' :: tail := rfl
      have hstart : skipSpace ('"' :: tail) = '"' :: tail := rfl
      simp only [hopen, hstart, hitems]
      rfl
  rw [unmarshal, marshal, runes_utf8, map_map, map_map]
  have hchars : ∀ cs : List Char, cs.map ((fun r => r.getD '\ufffd') ∘ some) = cs := by
    intro cs
    exact map_id cs
  rw [hchars]
  exact congrArg (Option.map _) hread

end JsonTexts
