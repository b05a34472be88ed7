import Urutau.RowImages

/-!
# Row keys as texts

Windows and readers tell rows apart by `KeyString`: the parts of the key, each behind the name
of its type, joined by the unit separator.  A part that is no text never holds the separator.
A text may, and what follows the separator in it may look like a part of its own.  So keys
with one text among their values have texts of their own, and keys with two do not.
-/

namespace Urutau

open List ValueTexts

/-- The unit separator. -/
abbrev unitSep : UInt8 := 0x1f

/-- A value that is neither NULL nor a text is printed behind its type. -/
theorem keyPart_typed {c : Cell} {t : GoType} (ht : goType c = some t) :
    keyPart c = ascii (t.name.toList ++ ':' :: printed c) := by
  cases c <;> simp_all [keyPart, goType]

theorem printable_typed (t : GoType) (c : Cell) :
    Printable (t.name.toList ++ ':' :: printed c) := by
  refine t.name_plain.1.append (.cons (by decide) ?_)
  cases c with
  | null | text => exact nofun
  | blob bytes => exact printable_bytesText bytes
  | time nanos => exact printable_timeText nanos
  | scalar v => exact printable_scalar v

/-- A value is known by its type and its text. -/
theorem printed_injective {a b : Cell} {t : GoType} (ha : goType a = some t)
    (hb : goType b = some t) (h : printed a = printed b) : a = b := by
  have htype := ha.trans hb.symm
  cases a <;> cases b <;> simp only [goType, reduceCtorEq, Option.some.injEq] at ha hb htype
  case blob.blob => rw [bytesText_injective h]
  case time.time => rw [timeText_injective h]
  case scalar.scalar => rw [scalarText_inj htype h]
  -- no scalar has the type of bytes or of a time
  case blob.scalar v | time.scalar v | scalar.blob v _ | scalar.time v _ =>
    cases v <;> simp [Scalar.type] at htype

/-- A typed value is neither rendered like NULL nor like a text. -/
theorem keyPart_separate {c : Cell} {t : GoType} (ht : goType c = some t) :
    unitSep ∉ keyPart c ∧ keyPart c ≠ [0x6e, 0x69, 0x6c] ∧
      ∀ bytes, keyPart c ≠ [0x73, 0x3a] ++ bytes := by
  have hprint := printable_typed t c
  rw [keyPart_typed ht]
  refine ⟨hprint.notMem_ascii (by decide), fun hnil => ?_, fun bytes hs => ?_⟩
  · have htext := ascii_inj (y := ['n', 'i', 'l']) hprint (by decide) hnil
    have hcolon : ':' ∈ ['n', 'i', 'l'] := htext ▸ mem_append_right _ mem_cons_self
    exact absurd hcolon (by decide)
  · have hhead : (ascii t.name.toList).head? ≠ some 0x73 ∧ ascii t.name.toList ≠ [] := by
      cases t with
      | int k => cases k <;> decide
      | _ => decide
    have hsplit : ascii (t.name.toList ++ ':' :: printed c) =
        ascii t.name.toList ++ ascii (':' :: printed c) := map_append
    have hfirst := congrArg head? (hsplit.symm.trans hs)
    rw [head?_append_of_ne_nil _ hhead.2] at hfirst
    exact hhead.1 hfirst

/-- A value without a type is NULL or a text. -/
theorem goType_eq_none {c : Cell} (hc : goType c = none) :
    c = .null ∨ ∃ bytes, c = .text bytes := by
  cases c with
  | null => exact .inl rfl
  | text bytes => exact .inr ⟨bytes, rfl⟩
  | blob | time | scalar => cases hc

/-- The part of a key says which value it was made of. -/
theorem keyPart_injective {a b : Cell} (h : keyPart a = keyPart b) : a = b := by
  have hplain : ∀ {c d : Cell} {t : GoType}, goType c = none → goType d = some t →
      keyPart c ≠ keyPart d := by
    intro c d t hc hd heq
    obtain ⟨-, hnil, htext⟩ := keyPart_separate hd
    rcases goType_eq_none hc with rfl | ⟨bytes, rfl⟩
    · exact hnil heq.symm
    · exact htext bytes heq.symm
  cases ha : goType a with
  | none =>
    cases hb : goType b with
    | none =>
      rcases goType_eq_none ha with rfl | ⟨u, rfl⟩ <;>
        rcases goType_eq_none hb with rfl | ⟨v, rfl⟩
      · rfl
      · cases h
      · cases h
      · exact congrArg Cell.text (List.cons.inj (List.cons.inj h).2).2
    | some t => exact absurd h (hplain ha hb)
  | some t =>
    cases hb : goType b with
    | none => exact absurd h.symm (hplain hb ha)
    | some t' =>
      rw [keyPart_typed ha, keyPart_typed hb] at h
      have hcolon : ∀ t : GoType, ∀ c ∈ t.name.toList, (c != ':') = true :=
        fun t c hc => bne_iff_ne.mpr fun heq => t.name_plain.2 (heq ▸ hc)
      obtain ⟨hname, hrest⟩ := split_inj (hcolon t) (hcolon t') (by simp) (by simp)
        (ascii_inj (printable_typed t a) (printable_typed t' b) h)
      obtain rfl := GoType.name_injective hname
      exact printed_injective ha hb (List.cons.inj hrest).2

/-- A key whose texts stand only where the list allows one. -/
abbrev TextsAt (texts : List Bool) (key : List Cell) : Prop :=
  Forall₂ (fun allowed cell => (∃ bytes, cell = .text bytes) → allowed = true) texts key

/-- Only a text can hold the separator. -/
theorem unitSep_notMem_keyPart {c : Cell} (h : ¬∃ bytes, c = .text bytes) :
    unitSep ∉ keyPart c := by
  cases c with
  | text bytes => exact absurd ⟨bytes, rfl⟩ h
  | null => exact (by decide : unitSep ∉ [0x6e, 0x69, 0x6c])
  | blob | time | scalar => exact (keyPart_separate rfl).1

/-! ## Parts behind and before separators -/

/-- The parts, each with a separator behind it. -/
def closed (key : List Cell) : List UInt8 := key.flatMap fun c => keyPart c ++ [unitSep]

/-- A key with a separator behind every part. -/
theorem keyString_closed (c : Cell) (key : List Cell) :
    keyString (c :: key) ++ [unitSep] = closed (c :: key) := by
  induction key generalizing c with
  | nil => simp [keyString, closed]
  | cons d key ih =>
    have hrest := ih d
    simp only [keyString, closed, map_cons, flatMap_cons, intercalate_cons_cons] at hrest ⊢
    simp only [append_assoc] at hrest ⊢
    rw [hrest]

variable {p q x y : List UInt8} {k k' : List Cell} {texts : List Bool}

/-- What stands before the first separator. -/
theorem first_inj (hp : unitSep ∉ p) (hq : unitSep ∉ q)
    (h : p ++ unitSep :: x = q ++ unitSep :: y) : p = q ∧ x = y := by
  have hplain : ∀ {l : List UInt8}, unitSep ∉ l → ∀ b ∈ l, (b != unitSep) = true :=
    fun hl b hb => bne_iff_ne.mpr fun heq => hl (heq ▸ hb)
  obtain ⟨hpq, hrest⟩ := split_inj (hplain hp) (hplain hq) (by simp) (by simp) h
  exact ⟨hpq, (List.cons.inj hrest).2⟩

/-- What stands behind the last separator. -/
theorem last_inj (hp : unitSep ∉ p) (hq : unitSep ∉ q)
    (h : x ++ unitSep :: p = y ++ unitSep :: q) : x = y ∧ p = q := by
  have hrev : p.reverse ++ unitSep :: x.reverse = q.reverse ++ unitSep :: y.reverse := by
    simpa using congrArg reverse h
  obtain ⟨hpq, hxy⟩ := first_inj (by simpa using hp) (by simpa using hq) hrev
  exact ⟨reverse_injective hxy, reverse_injective hpq⟩

/-- Without texts at the end, the parts there are read from the back. -/
theorem closed_back (hk : TextsAt texts k) (hk' : TextsAt texts k') (hnone : true ∉ texts)
    (h : x ++ unitSep :: closed k = y ++ unitSep :: closed k') : x = y ∧ k = k' := by
  induction hk generalizing k' x y with
  | nil =>
    cases hk'
    exact ⟨append_cancel_right h, rfl⟩
  | @cons t c texts k hc _ ih =>
    cases hk' with
    | @cons _ c' _ k' hc' hk' =>
      have hplain : t ≠ true := fun ht => hnone (ht ▸ mem_cons_self)
      -- the first of the parts goes over to what stands before
      have hmoved : (x ++ unitSep :: keyPart c) ++ unitSep :: closed k =
          (y ++ unitSep :: keyPart c') ++ unitSep :: closed k' := by
        simpa [closed] using h
      obtain ⟨hfront, rfl⟩ := ih hk' (fun ht => hnone (mem_cons_of_mem _ ht)) hmoved
      obtain ⟨rfl, hpart⟩ := last_inj (unitSep_notMem_keyPart (mt hc hplain))
        (unitSep_notMem_keyPart (mt hc' hplain)) hfront
      exact ⟨rfl, congrArg (· :: k) (keyPart_injective hpart)⟩

/-- Keys with at most one text are told apart by their texts. -/
theorem closed_injective (hk : TextsAt texts k)
    (hk' : TextsAt texts k') (hone : texts.count true ≤ 1) (h : closed k = closed k') :
    k = k' := by
  induction hk generalizing k' with
  | nil =>
    cases hk'
    rfl
  | @cons t c texts k hc hk ih =>
    cases hk' with
    | @cons _ c' _ k' hc' hk' =>
      have hparts : keyPart c ++ unitSep :: closed k =
          keyPart c' ++ unitSep :: closed k' := by
        simpa [closed] using h
      cases t with
      | false =>
        obtain ⟨hpart, hrest⟩ := first_inj (unitSep_notMem_keyPart (mt hc nofun))
          (unitSep_notMem_keyPart (mt hc' nofun)) hparts
        rw [keyPart_injective hpart, ih hk' (by simpa using hone) hrest]
      | true =>
        have hnone : true ∉ texts := count_eq_zero.mp (by simpa using hone)
        obtain ⟨hpart, rfl⟩ := closed_back hk hk' hnone hparts
        rw [keyPart_injective hpart]

/-- Of two texts in a key, the first can take over what stands between them. -/
theorem closed_shift (before between after : List Cell) :
    let whole := unitSep :: (closed between ++ [0x73, 0x3a])
    closed (before ++ .text whole :: (between ++ .text [] :: after)) =
      closed (before ++ .text [] :: (between ++ .text whole :: after)) := by
  simp [closed, keyPart]

/-- The separators may stand behind or between. -/
theorem keyString_eq_iff (hlen : k.length = k'.length) :
    keyString k = keyString k' ↔ closed k = closed k' := by
  cases k with
  | nil =>
    cases k' with
    | nil => simp
    | cons => cases hlen
  | cons c k =>
    cases k' with
    | nil => cases hlen
    | cons c' k' => rw [← keyString_closed, ← keyString_closed, append_left_inj]

/-- Two places that allow a text. -/
theorem two_texts (h : 1 < texts.count true) : ∃ a b c, texts = a ++ true :: (b ++ true :: c) := by
  obtain ⟨a, rest, rfl, ha⟩ := eq_append_cons_of_mem (count_pos_iff.mp (Nat.zero_lt_of_lt h))
  rw [count_append, count_eq_zero.mpr ha, count_cons_self] at h
  obtain ⟨b, c, rfl⟩ := append_of_mem (count_pos_iff.mp (by omega : 0 < rest.count true))
  exact ⟨a, b, c, rfl⟩

/-- NULLs are no texts. -/
theorem textsAt_nulls (texts : List Bool) : TextsAt texts (replicate texts.length .null) := by
  induction texts with
  | nil => exact .nil
  | cons t texts ih => exact .cons nofun ih

/-- **Texts of keys.**  Keys whose texts stand at the given places have texts of their own
exactly when at most one place allows a text. -/
theorem keyString_injective_iff (texts : List Bool) :
    (∀ k k', TextsAt texts k → TextsAt texts k' →
      keyString k = keyString k' → k = k') ↔ texts.count true ≤ 1 := by
  constructor
  · intro hinj
    by_contra hmany
    obtain ⟨a, b, c, rfl⟩ := two_texts (Nat.lt_of_not_le hmany)
    have hfits : ∀ u v, TextsAt (a ++ true :: (b ++ true :: c)) (replicate a.length .null ++
        .text u :: (replicate b.length .null ++ .text v :: replicate c.length .null)) := by
      intro u v
      refine rel_append (textsAt_nulls a) (.cons (fun _ => rfl) ?_)
      exact rel_append (textsAt_nulls b) (.cons (fun _ => rfl) (textsAt_nulls c))
    have heq := hinj _ _ (hfits _ []) (hfits [] _)
      ((keyString_eq_iff (by simp)).mpr (closed_shift ..))
    simp at heq
  · intro hone k k' hk hk' heq
    have hlen : k.length = k'.length := hk.length_eq.symm.trans hk'.length_eq
    exact closed_injective hk hk' hone ((keyString_eq_iff hlen).mp heq)

/-- Two keys of two texts with one text. -/
theorem keyString_two_texts :
    keyString [.text [0x61, 0x1f, 0x73, 0x3a, 0x62], .text [0x63]] =
      keyString [.text [0x61], .text [0x62, 0x1f, 0x73, 0x3a, 0x63]] ∧
    [Cell.text [0x61, 0x1f, 0x73, 0x3a, 0x62], .text [0x63]] ≠
      [.text [0x61], .text [0x62, 0x1f, 0x73, 0x3a, 0x63]] := by
  decide

end Urutau
