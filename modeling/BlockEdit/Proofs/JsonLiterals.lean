import BlockEdit.Json.Reader
import BlockEdit.Json.Writer
import BlockEdit.Proofs.ReadBack

/-!
# Strings and numbers of JSON texts

A string reads back whatever characters it has, and so does a whole number that fits into 64 bits. A
number that is not whole is rounded more than once when it is read, so that it can come back as a
neighbour. Those that come back from a text of their own do so inside of a longer text as well: what
can follow a value does not go on in a number.

Main statements:

* **`readString?_quoted`**: a string reads back.
* **`readMagnitude?_spec`**: a number is read the same in front of what can follow a value.
* **`readMagnitude?_ofNat`**, **`readMagnitude?_of_readsBack`**: what the two kinds of numbers are
  read as.
-/

namespace BlockEdit.Json

variable {steps : Nat} {t rest : Text}

/-! ### Strings -/

/-- A digit is read back as it is written. -/
theorem hexValue?_hexDigit : ∀ n < 16, hexValue? (hexDigit n) = some n := by decide

/-- The four digits of a control character name it. -/
theorem partOfUnit_hexUnit {c : Char} (h : c.toNat < 0x20) :
    (hexUnit? '0' '0' (hexDigit (c.toNat / 16)) (hexDigit (c.toNat % 16))).map partOfUnit =
      some (.char c) := by
  have hhigh := hexValue?_hexDigit (c.toNat / 16) (by omega)
  have hlow := hexValue?_hexDigit (c.toNat % 16) (by omega)
  have hzero : hexValue? '0' = some 0 := rfl
  simp only [hexUnit?, hzero, hhigh, hlow, Option.bind_eq_bind, Option.bind_some, Option.pure_def,
    Option.map_some]
  rw [show ((0 * 16 + 0) * 16 + c.toNat / 16) * 16 + c.toNat % 16 = c.toNat by omega, partOfUnit,
    if_neg (by omega), Char.ofNat_toNat]

/-- A short escape is read as the character that it stands for. -/
theorem readParts?_escape {e c : Char} (he : escape? e = some c) {parts : List StringPart}
    (h : readParts? t = some (parts, rest)) :
    readParts? ('\\' :: e :: t) = some (.char c :: parts, rest) := by
  rw [readParts?, he, h]
  · rfl
  · rintro - - - - - rfl
    cases he

/-- A character is read as it is written, in front of what can be read. -/
theorem readParts?_escaped (c : Char) {parts : List StringPart}
    (h : readParts? t = some (parts, rest)) :
    readParts? (escaped c ++ t) = some (.char c :: parts, rest) := by
  rw [escaped]
  split
  · next hc => subst hc; exact readParts?_escape rfl h
  split
  · next hc => subst hc; exact readParts?_escape rfl h
  split
  · next hc => subst hc; exact readParts?_escape rfl h
  split
  · next hc => subst hc; exact readParts?_escape rfl h
  split
  · next hc => subst hc; exact readParts?_escape rfl h
  split
  · next hc => subst hc; exact readParts?_escape rfl h
  split
  · next hc => subst hc; exact readParts?_escape rfl h
  split
  · next hcontrol =>
    obtain ⟨unit, hread, hpart⟩ := Option.map_eq_some_iff.mp (partOfUnit_hexUnit hcontrol)
    show readParts? ('\\' :: 'u' :: '0' :: '0' :: hexDigit (c.toNat / 16) ::
      hexDigit (c.toNat % 16) :: t) = _
    rw [readParts?, hread, h, ← hpart]
    rfl
  · next hquote hslash _ _ _ _ _ hplain =>
    show readParts? (c :: t) = _
    rw [readParts?, if_neg hplain, h]
    · rfl
    · exact hquote
    · exact fun _ _ _ _ _ hc => absurd hc hslash
    · exact fun _ _ hc => absurd hc hslash

/-- A text is read back from its escapes, up to the quote that ends them. -/
theorem readParts?_escapes (t rest : Text) :
    readParts? (t.flatMap escaped ++ '"' :: rest) = some (t.map .char, rest) := by
  induction t with
  | nil => rfl
  | cons c t ih =>
    rw [List.flatMap_cons, List.append_assoc]
    exact readParts?_escaped c ih

/-- Characters make a text. -/
theorem textOfParts?_map_char (t : Text) : textOfParts? (t.map .char) = some t := by
  induction t with
  | nil => rfl
  | cons c t ih => rw [List.map_cons, textOfParts?, ih]; rfl

/-- **A string reads back**, whatever characters it has and whatever follows it. -/
theorem readString?_quoted (t rest : Text) :
    readString? (t.flatMap escaped ++ '"' :: rest) = some (some t, rest) := by
  rw [readString?, readParts?_escapes, Option.map_some]
  exact congrArg (fun text => some (text, rest)) (textOfParts?_map_char t)

/-- A quoted text starts with a quote and ends with one. -/
theorem quoted_append (t rest : Text) :
    quoted t ++ rest = '"' :: (t.flatMap escaped ++ '"' :: rest) := by
  rw [quoted, List.cons_append, List.cons_append, List.append_assoc, List.singleton_append]

/-! ### Numbers -/

/-- What can follow a value: the end, a space, or what closes or goes on in a list or object. -/
def Closes (rest : Text) : Prop :=
  ∀ c ∈ rest.head?, isSpace c = true ∨ c = ',' ∨ c = ']' ∨ c = '\x7d'

/-- The end of the text can follow a value. -/
theorem closes_nil : Closes [] := fun _ h => by cases h

/-- Space, a comma or a closing bracket can follow a value. -/
theorem closes_cons {c : Char} (h : isSpace c = true ∨ c = ',' ∨ c = ']' ∨ c = '\x7d') (t : Text) :
    Closes (c :: t) := fun _ hd => by cases hd; exact h

/-- What can follow a value does not go on in a number. -/
theorem Closes.stops (h : Closes rest) : Binary64.StopsDigits rest ∧
    ∀ c ∈ rest.head?, c ≠ '.' ∧ ¬(c = 'e' ∨ c = 'E') := by
  have hchar : ∀ c : Char, (isSpace c = true ∨ c = ',' ∨ c = ']' ∨ c = '\x7d') →
      c.isDigit = false ∧ c ≠ '.' ∧ ¬(c = 'e' ∨ c = 'E') := by
    intro c hc
    simp only [isSpace, Bool.or_eq_true, beq_iff_eq] at hc
    rcases hc with (((rfl | rfl) | rfl) | rfl) | rfl | rfl | rfl
    all_goals decide
  exact ⟨fun c t hrest => (hchar c (h c (by rw [hrest]; rfl))).1, fun c hc => (hchar c (h c hc)).2⟩

/-- Only zero is written with a leading zero. -/
theorem head_ofNat_ne_zero {n : Nat} (hn : n ≠ 0) : (Text.ofNat n).head? ≠ some '0' := by
  induction n using Nat.strongRecOn with
  | ind n ih =>
    rcases Nat.lt_or_ge n 10 with hlt | hge
    · have hdigit : ∀ n < 10, n ≠ 0 → some (Nat.digitChar n) ≠ some '0' := by decide
      rw [Text.ofNat, Nat.toDigits_of_lt_base hlt]
      exact hdigit n hlt hn
    · have hfirst := ih (n / 10) (by omega) (by omega)
      obtain ⟨c, t, hdigits, -⟩ := Text.head_ofNat (n / 10)
      rw [Text.ofNat, Nat.toDigits_of_base_le (by omega) hge]
      rw [Text.ofNat] at hdigits hfirst
      rw [hdigits] at hfirst ⊢
      exact hfirst

/-- Digits never make a number less. -/
theorem le_foldl_digits (ds : Text) (n : Nat) :
    n ≤ ds.foldl (fun n c => 10 * n + (c.toNat - '0'.toNat)) n := by
  induction ds generalizing n with
  | nil => exact Nat.le_refl n
  | cons d ds ih => exact Nat.le_trans (show n ≤ 10 * n + (d.toNat - '0'.toNat) by omega) (ih _)

/-- Digits whose value fits into 64 bits are taken in as a whole. -/
theorem takeDigits_of_lt : ∀ {ds : Text} {n : Nat},
    ds.foldl (fun n c => 10 * n + (c.toNat - '0'.toNat)) n < wordLimit →
      takeDigits n ds = (ds.foldl (fun n c => 10 * n + (c.toNat - '0'.toNat)) n, []) := by
  intro ds
  induction ds with
  | nil => intros; rfl
  | cons d ds ih =>
    intro n h
    have hstep : n * 10 + digitValue d = 10 * n + (d.toNat - '0'.toNat) := by
      rw [digitValue, Nat.mul_comm]
    rw [List.foldl_cons] at h ⊢
    rw [takeDigits, hstep, if_pos (Nat.lt_of_le_of_lt (le_foldl_digits ds _) h), ih h]

/-- Of a number that fits into 64 bits all digits are taken. -/
theorem takeDigits_ofNat {n : Nat} (h : n < wordLimit) : takeDigits 0 (Text.ofNat n) = (n, []) := by
  have hvalue := Text.foldl_ofNat n
  rw [takeDigits_of_lt (by rw [hvalue]; exact h), hvalue]

/-- Where no digit follows, the digits of a text are the same with what follows as without. -/
theorem takeWhile_digits_append (hrest : Binary64.StopsDigits rest) (t : Text) :
    (t ++ rest).takeWhile Char.isDigit = t.takeWhile Char.isDigit ∧
      (t ++ rest).dropWhile Char.isDigit = t.dropWhile Char.isDigit ++ rest := by
  induction t with
  | nil => exact Binary64.takeWhile_digits rfl hrest
  | cons c t ih =>
    rw [List.cons_append, List.takeWhile_cons, List.takeWhile_cons, List.dropWhile_cons,
      List.dropWhile_cons, ih.1, ih.2]
    split
    · exact ⟨rfl, rfl⟩
    · exact ⟨rfl, rfl⟩

/-- Where a value ends, no fraction follows. -/
theorem readFraction?_of_closes (hrest : Closes rest) : readFraction? rest = some (none, rest) := by
  rw [readFraction?]
  rintro more rfl
  exact (hrest.stops.2 '.' rfl).1 rfl

/-- Where a value ends, no exponent follows. -/
theorem readPower?_of_closes (hrest : Closes rest) : readPower? rest = some (none, rest) := by
  rcases rest with _ | ⟨c, rest⟩
  · rfl
  · rw [readPower?, if_neg (hrest.stops.2 c rfl).2]

/-- A fraction that is read is followed by the rest of the text, and is read the same in front of
what can follow a value. -/
theorem readFraction?_spec {fraction : Option Text} {more : Text}
    (h : readFraction? t = some (fraction, more)) : more <:+ t ∧ (∀ rest, Closes rest →
      readFraction? (t ++ rest) = some (fraction, more ++ rest)) := by
  rw [readFraction?.eq_def] at h
  split at h
  · next u =>
    dsimp only at h
    split at h
    · cases h
    · next hdigits =>
      cases h
      refine ⟨(List.dropWhile_suffix _).trans (List.suffix_cons _ _), fun rest hrest => ?_⟩
      obtain ⟨htake, hdrop⟩ := takeWhile_digits_append hrest.stops.1 u
      rw [List.cons_append, readFraction?, htake, hdrop, if_neg hdigits]
  · next hpoint =>
    cases h
    refine ⟨List.suffix_rfl, fun rest hrest => ?_⟩
    rcases t with _ | ⟨c, u⟩
    · exact readFraction?_of_closes hrest
    · rw [List.cons_append, readFraction?]
      intro more he
      exact hpoint u (by rw [(List.cons.inj he).1])

/-- A sign is split off the front, whatever follows the text. -/
theorem splitSign_spec (t : Text) : (Binary64.splitSign t).2 <:+ t ∧ (t ≠ [] → ∀ rest,
    Binary64.splitSign (t ++ rest) =
      ((Binary64.splitSign t).1, (Binary64.splitSign t).2 ++ rest)) := by
  rw [Binary64.splitSign.eq_def t]
  split
  · exact ⟨List.suffix_cons _ _, fun _ _ => rfl⟩
  · exact ⟨List.suffix_cons _ _, fun _ _ => rfl⟩
  · next hminus hplus =>
    refine ⟨List.suffix_rfl, fun hne rest => ?_⟩
    obtain ⟨c, u, rfl⟩ := List.exists_cons_of_ne_nil hne
    rw [List.cons_append, Binary64.splitSign]
    · intro more he
      exact hminus u (by rw [(List.cons.inj he).1])
    · intro more he
      exact hplus u (by rw [(List.cons.inj he).1])

/-- An exponent that is read is followed by the rest of the text, and is read the same in front of
what can follow a value. -/
theorem readPower?_spec {exponent : Option (Bool × Text)} {more : Text}
    (h : readPower? t = some (exponent, more)) : more <:+ t ∧ (∀ rest, Closes rest →
      readPower? (t ++ rest) = some (exponent, more ++ rest)) := by
  rcases t with _ | ⟨c, u⟩
  · cases h
    exact ⟨List.suffix_rfl, fun _ => readPower?_of_closes⟩
  rw [readPower?] at h
  split at h
  · next hletter =>
    dsimp only at h
    split at h
    · cases h
    · next hdigits =>
      cases h
      have hne : u ≠ [] := by
        rintro rfl
        exact hdigits rfl
      obtain ⟨hsuffix, hsign⟩ := splitSign_spec u
      have hmore := (List.dropWhile_suffix Char.isDigit).trans hsuffix
      refine ⟨hmore.trans (List.suffix_cons _ _), fun rest hrest => ?_⟩
      obtain ⟨htake, hdrop⟩ := takeWhile_digits_append hrest.stops.1 (Binary64.splitSign u).2
      rw [List.cons_append, readPower?, if_pos hletter, hsign hne rest]
      dsimp only
      rw [htake, hdrop, if_neg hdigits]
  · next hletter =>
    cases h
    refine ⟨List.suffix_rfl, fun rest _ => ?_⟩
    rw [List.cons_append, readPower?, if_neg hletter]

/-- **A number that is read** is followed by the rest of the text, and is read the same in front of
what can follow a value. -/
theorem readMagnitude?_spec {negative : Bool} {j : Json} {more : Text}
    (h : readMagnitude? negative t = some (j, more)) : more <:+ t ∧ (∀ rest, Closes rest →
      readMagnitude? negative (t ++ rest) = some (j, more ++ rest)) := by
  simp only [readMagnitude?] at h
  split at h
  · cases h
  · next hwhole =>
    simp only [Option.bind_eq_bind, Option.bind_eq_some_iff, Option.pure_def] at h
    obtain ⟨⟨fraction, more'⟩, hread, ⟨exponent, last⟩, hread', he⟩ := h
    cases he
    obtain ⟨hmore, hfraction⟩ := readFraction?_spec hread
    obtain ⟨hlast, hpower⟩ := readPower?_spec hread'
    refine ⟨hlast.trans (hmore.trans (List.dropWhile_suffix _)), fun rest hrest => ?_⟩
    obtain ⟨htake, hdrop⟩ := takeWhile_digits_append hrest.stops.1 t
    simp only [readMagnitude?, htake, hdrop, hfraction rest hrest, Option.bind_eq_bind,
      Option.bind_some]
    rw [if_neg hwhole, hpower rest hrest]
    rfl

/-- A number starts with a digit. -/
theorem head_of_readMagnitude? {negative : Bool} {j : Json} {more : Text}
    (h : readMagnitude? negative t = some (j, more)) : ∃ c u, t = c :: u ∧ c.isDigit = true := by
  rcases t with _ | ⟨c, u⟩
  · cases h
  · rcases hc : c.isDigit with _ | _
    · simp only [readMagnitude?, List.takeWhile_cons, hc] at h
      cases h
    · exact ⟨c, u, rfl, hc⟩

/-- The sign of a number. -/
def signOf (negative : Bool) : Text := if negative then ['-'] else []

/-- Nothing is skipped in front of what is no space. -/
theorem skipSpace_cons {c : Char} (hc : isSpace c = false) (t : Text) :
    skipSpace (c :: t) = c :: t := List.dropWhile_cons_of_neg (by simp [hc])

/-- What starts with a digit, behind a sign or not, is read as a number. -/
theorem readValue?_number {c : Char} (hc : c.isDigit = true) (negative : Bool) (steps : Nat)
    (t : Text) : readValue? (steps + 1) (signOf negative ++ c :: t) =
      readMagnitude? negative (c :: t) := by
  have hne : ∀ d : Char, d.isDigit = false → c ≠ d := by
    rintro d hd rfl
    rw [hc] at hd
    cases hd
  rcases negative with _ | _
  · have hspace : isSpace c = false := by
      simp only [isSpace, Bool.or_eq_false_iff, beq_eq_false_iff_ne]
      exact ⟨⟨⟨hne _ rfl, hne _ rfl⟩, hne _ rfl⟩, hne _ rfl⟩
    show readValue? (steps + 1) (c :: t) = _
    rw [readValue?, skipSpace_cons hspace]
    dsimp only
    rw [if_neg (hne _ rfl), if_neg (hne _ rfl), if_neg (hne _ rfl), if_neg (hne _ rfl),
      if_neg (hne _ rfl), if_neg (hne _ rfl), if_neg (hne _ rfl)]
  · rfl

/-- A whole number that fits into 64 bits is a number that ends its text. -/
theorem readMagnitude?_ofNat (negative : Bool) (n : Nat) : readMagnitude? negative (Text.ofNat n) =
    some ((ofParts? negative (Text.ofNat n) none none).getD .undefined, []) := by
  have hzero : ((Text.ofNat n).head? == some '0' && (Text.ofNat n).length != 1) = false := by
    rcases Nat.eq_zero_or_pos n with rfl | hpos
    · rfl
    · rw [Bool.and_eq_false_iff, beq_eq_false_iff_ne]
      exact Or.inl (head_ofNat_ne_zero (by omega))
  have hempty : (Text.ofNat n).isEmpty = false := by
    rw [List.isEmpty_eq_false_iff]
    exact Text.ofNat_ne_nil n
  obtain ⟨htake, hdrop⟩ :=
    Binary64.takeWhile_digits (Text.all_isDigit_ofNat n) Binary64.stopsDigits_nil
  rw [List.append_nil] at htake hdrop
  simp only [readMagnitude?, htake, hdrop, hempty, hzero]
  rfl

/-- An integer is written as a minus, if it is negative, and its magnitude. -/
theorem ofInt_eq (i : Int) : Text.ofInt i = signOf (decide (i < 0)) ++ Text.ofNat i.natAbs := by
  rw [Text.ofInt, signOf]
  by_cases h : i < 0
  · rw [if_pos h, decide_eq_true h]
    rfl
  · rw [if_neg h, decide_eq_false h]
    rfl

/-- An integer that fits into 64 bits is read back from its magnitude. -/
theorem ofParts?_ofInt {i : Int} (hlow : -(2 ^ 63) ≤ i) (hhigh : i < 2 ^ 64) :
    ofParts? (decide (i < 0)) (Text.ofNat i.natAbs) none none = some (.int i) := by
  have htake : takeDigits 0 (Text.ofNat i.natAbs) = (i.natAbs, []) :=
    takeDigits_ofNat (by rw [wordLimit]; omega)
  simp only [ofParts?, htake, List.isEmpty_nil, Option.isNone_none, Bool.and_self, Bool.not_true,
    Bool.false_eq_true, if_true, if_false]
  by_cases hneg : i < 0
  · rw [decide_eq_true hneg, if_neg (by simp), if_neg (by omega)]
    exact congrArg (fun i => some (Json.int i)) (by omega)
  · rw [decide_eq_false hneg, if_pos (show (!false) = true from rfl)]
    exact congrArg (fun i => some (Json.int i)) (by omega)

/-- A character that needs no quotes is no space. -/
theorem isSpace_of_isBareChar {c : Char} (h : Text.isBareChar c = true) : isSpace c = false := by
  have := Text.toNat_of_isBareChar h
  simp only [isSpace, Bool.or_eq_false_iff, beq_eq_false_iff_ne]
  refine ⟨⟨⟨?_, ?_⟩, ?_⟩, ?_⟩
  all_goals
    rintro rfl
    revert this
    decide

/-- A number that is written out starts with a digit. -/
theorem head_positional (d : Decimal) : ∃ c u, d.positional = c :: u ∧ c.isDigit = true := by
  obtain ⟨c, t, hds, hc, -⟩ := Text.head_ofNat d.digits
  rw [Decimal.positional, Decimal.digitText, hds]
  dsimp only
  split
  · exact ⟨c, _, rfl, hc⟩
  · split
    · next hplaces =>
      obtain ⟨n, hn⟩ := Nat.exists_eq_add_of_lt hplaces
      refine ⟨c, t.take n ++ '.' :: (c :: t).drop (n + 1), ?_, hc⟩
      rw [show (c :: t).length - d.exponent.natAbs = n + 1 by omega]
      rfl
    · exact ⟨'0', _, rfl, rfl⟩

/-- A number that is not whole starts with a digit behind its sign. -/
theorem head_jsonText (d : Decimal) : ∃ c u, d.jsonText = c :: u ∧ c.isDigit = true := by
  obtain ⟨c, u, htext, hc⟩ := head_positional d
  rw [Decimal.jsonText]
  split
  · exact ⟨c, u ++ ['.', '0'], by rw [htext]; rfl, hc⟩
  · split
    · exact ⟨c, u, htext, hc⟩
    · exact Decimal.head_scientific ['+'] d

/-- No number has a space in it. -/
theorem not_isSpace_of_mem_jsonText {d : Decimal} {c : Char} (hc : c ∈ d.jsonText) :
    isSpace c = false := by
  rw [Decimal.jsonText] at hc
  split at hc
  · rcases List.mem_append.mp hc with hc | hc
    · exact isSpace_of_isBareChar ((Decimal.isBare_positional d).2 c hc)
    · rcases List.mem_cons.mp hc with rfl | hc
      · rfl
      · rw [List.mem_singleton.mp hc]
        rfl
  · split at hc
    · exact isSpace_of_isBareChar ((Decimal.isBare_positional d).2 c hc)
    · rcases Decimal.isBareChar_of_mem_scientific hc with hbare | hplus
      · exact isSpace_of_isBareChar hbare
      · rw [List.mem_singleton.mp hplus]
        rfl

/-- **A number that reads back** from its whole text is a number that ends its text. -/
theorem readMagnitude?_of_readsBack {x : Binary64} (h : ofText? (realText x) = some (.real x)) :
    readMagnitude? x.negative (Decimal.shortest .even x).jsonText = some (.real x, []) := by
  obtain ⟨c, u, htext, hc⟩ := head_jsonText (Decimal.shortest .even x)
  have hspace : ∀ d ∈ c :: u, isSpace d = false := by
    intro d hd
    rw [← htext] at hd
    exact not_isSpace_of_mem_jsonText hd
  rw [ofText?, show realText x = signOf x.negative ++ c :: u from congrArg (_ ++ ·) htext,
    readValue?_number hc] at h
  simp only [Option.bind_eq_bind, Option.bind_eq_some_iff] at h
  obtain ⟨⟨j, rest⟩, hread, hend⟩ := h
  rw [htext]
  dsimp only at hend
  split at hend
  · next hempty =>
    cases hend
    obtain ⟨front, hfront⟩ := (readMagnitude?_spec hread).1
    -- what is left is space, but the text of a number has none
    rcases rest with _ | ⟨d, rest⟩
    · exact hread
    · have hd := hspace d (by rw [← hfront]; simp)
      rw [skipSpace_cons hd] at hempty
      cases hempty
  · cases hend

end BlockEdit.Json
