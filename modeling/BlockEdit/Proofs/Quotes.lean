import BlockEdit.Proofs.Scans

/-!
# Values that are misread

A text that cannot be read again from its quotes is read as another text, whatever follows it, and
the two differ in more than their blanks. Each string in quotes takes its opening quote away, so the
values that are read off a text start with fewer quotes than the text does. The text behind a
closing quote that comes too soon would have to start with more.

Main statements:

* **`quotes_leadingValues`**: values start with fewer quotes than the text they are read off.
* **`solid_ne_of_not_isQuotable`**: a text that cannot be read again is read as another.
-/

namespace BlockEdit

namespace Text

/-! ### Texts without blanks -/

/-- The text without its blanks. -/
def solid (t : Text) : Text := t.filter fun c => !isBlank c

/-- Of two texts each loses its own blanks. -/
theorem solid_append (t u : Text) : solid (t ++ u) = solid t ++ solid u := List.filter_append ..

/-- A blank in front is lost. -/
theorem solid_cons_of_isBlank {c : Char} (h : isBlank c = true) (t : Text) :
    solid (c :: t) = solid t :=
  List.filter_cons_of_neg (by simp [h])

/-- Any other character in front is kept. -/
theorem solid_cons {c : Char} (h : isBlank c = false) (t : Text) :
    solid (c :: t) = c :: solid t :=
  List.filter_cons_of_pos (by simp [h])

/-- Nothing is left of blanks. -/
theorem solid_eq_nil {t : Text} (h : ∀ c ∈ t, isBlank c = true) : solid t = [] :=
  List.filter_eq_nil_iff.mpr fun c hc => by simp [h c hc]

/-- Blanks are lost once. -/
theorem solid_solid (t : Text) : solid (solid t) = solid t :=
  List.filter_eq_self.mpr fun _ hc => (List.mem_filter.mp hc).2

/-- Spaces between texts do not count. -/
theorem solid_joinWith (ts : List Text) : solid (joinWith [' '] ts) = solid ts.flatten := by
  induction ts with
  | nil => rfl
  | cons t ts ih =>
    rcases ts with _ | ⟨u, ts⟩
    · rw [joinWith_singleton, List.flatten_singleton]
    · rw [joinWith_cons_of_ne_nil _ _ (by simp), solid_append, solid_append, ih,
        show solid [' '] = [] from rfl, List.append_nil, List.flatten_cons (l := t),
        solid_append t]

/-- Blanks around a text do not count. -/
theorem solid_trim (t : Text) : solid (trim t) = solid t := by
  obtain ⟨u, hu, hend⟩ := exists_dropEndWhile isBlank (trimStart t)
  have hstart : solid (trimStart t) = solid t := by
    have hblank : solid (t.takeWhile isBlank) = [] :=
      solid_eq_nil fun c hc => List.all_eq_true.mp List.all_takeWhile c hc
    have hsplit := solid_append (t.takeWhile isBlank) (t.dropWhile isBlank)
    rw [List.takeWhile_append_dropWhile, hblank] at hsplit
    exact hsplit.symm
  rw [← hstart, hu, solid_append, solid_eq_nil hend, List.append_nil]
  rfl

/-- **The words of a text** are the text without its blanks. -/
theorem flatten_words (t : Text) : (words t).flatten = solid t := by
  induction t with
  | nil => rfl
  | cons c t ih =>
    rw [words, pieces]
    split
    · next hc =>
      rw [solid_cons_of_isBlank hc, ← ih]
      rfl
    · next hc =>
      rw [solid_cons (by simpa using hc), ← ih, words]
      split
      · next h => exact absurd h (pieces_ne_nil isBlank t)
      · next w ws h =>
        rw [h]
        rcases w with _ | ⟨d, w⟩
        · rfl
        · rfl

/-! ### Leading quotes -/

/-- Single and double quotes. -/
def isQuote (c : Char) : Bool := c == '\x27' || c == '"'

/-- The number of quotes that the text starts with, blanks apart. -/
def quotes (t : Text) : Nat := ((solid t).takeWhile isQuote).length

/-- An empty text starts with no quote. -/
theorem quotes_nil : quotes [] = 0 := rfl

/-- A blank in front does not matter to the quotes. -/
theorem quotes_cons_of_isBlank {c : Char} (h : isBlank c = true) (t : Text) :
    quotes (c :: t) = quotes t := by
  rw [quotes, solid_cons_of_isBlank h, quotes]

/-- A quote is no blank. -/
theorem not_isBlank_of_isQuote {c : Char} (h : isQuote c = true) : isBlank c = false := by
  rw [isQuote, Bool.or_eq_true, beq_iff_eq, beq_iff_eq] at h
  rcases h with rfl | rfl
  · rfl
  · rfl

/-- A quote in front is one more. -/
theorem quotes_cons_of_isQuote {c : Char} (h : isQuote c = true) (t : Text) :
    quotes (c :: t) = quotes t + 1 := by
  rw [quotes, solid_cons (not_isBlank_of_isQuote h), List.takeWhile_cons_of_pos h, quotes]
  rfl

/-- Another character ends the quotes. -/
theorem quotes_cons {c : Char} (hb : isBlank c = false) (hq : isQuote c = false) (t : Text) :
    quotes (c :: t) = 0 := by
  rw [quotes, solid_cons hb, List.takeWhile_cons_of_neg (by simp [hq])]
  rfl

/-- **The quotes of two texts** are those of the first, and those of the second behind a text of
quotes only. -/
theorem quotes_append (t : Text) :
    (∀ u, quotes (t ++ u) = (solid t).length + quotes u) ∨ ∀ u, quotes (t ++ u) = quotes t := by
  by_cases h : ((solid t).takeWhile isQuote).length = (solid t).length
  · left
    intro u
    rw [quotes, solid_append, List.takeWhile_append, if_pos h, List.length_append]
    rfl
  · right
    intro u
    rw [quotes, solid_append, List.takeWhile_append, if_neg h]
    rfl

/-- A quote behind a text adds one to its quotes, or nothing. -/
theorem quotes_append_quote {rest : Text} (hrest : quotes rest = 0) (t : Text) :
    quotes (t ++ '"' :: rest) ≤ quotes t + 1 := by
  rcases quotes_append t with happ | happ
  · have hall := happ []
    rw [List.append_nil, quotes_nil, Nat.add_zero] at hall
    have hquote := happ ('"' :: rest)
    rw [quotes_cons_of_isQuote rfl, hrest] at hquote
    omega
  · rw [happ]
    exact Nat.le_succ _

end Text

/-! ### Leading values -/

namespace Outline

/-- The values that stand in front of anything else. -/
def leadingValues : List Token → List Text
  | [] => []
  | token :: rest => token.value?.elim [] fun v => v :: leadingValues rest

/-- The values at the start of a line are those of its tokens in front of anything else. -/
theorem takeValues_fst (lexemes : List Lexeme) :
    (takeValues lexemes).1 = leadingValues (lexemes.map Lexeme.token) := by
  induction lexemes with
  | nil => rfl
  | cons l lexemes ih =>
    rw [takeValues, List.map_cons, leadingValues, ← ih]
    rcases l.token.value? with _ | v
    · rfl
    · rfl

end Outline

open Outline Text Token

/-- What stands between tokens is blank. -/
theorem isBlank_of_isFiller {c : Char} (h : isFiller c = true) : isBlank c = true := by
  simp only [isFiller, Bool.or_eq_true, beq_iff_eq] at h
  rcases h with ((rfl | rfl) | rfl) | rfl
  all_goals rfl

/-- A word starts without quotes. -/
theorem quotes_cons_of_isWordStart {c : Char} (h : isWordStart c = true) (t : Text) :
    quotes (c :: t) = 0 := by
  have hpart := isWordPart_of_isWordStart h
  simp only [isWordPart, Bool.and_eq_true, Bool.not_eq_true', bne_iff_ne, ne_eq] at hpart
  obtain ⟨⟨⟨hblank, -⟩, hsingle⟩, hdouble⟩ := hpart
  refine quotes_cons hblank ?_ t
  rw [isQuote, Bool.or_eq_false_iff, beq_eq_false_iff_ne, beq_eq_false_iff_ne]
  exact ⟨hsingle, hdouble⟩

/-- A string in quotes takes its opening quote away. -/
theorem quotes_quoted (inner : Text) {rest values : Text} {q : Char} (hq : isQuote q = true)
    (h : quotes values = 0 ∨ quotes values < quotes rest) :
    quotes (inner ++ values) < quotes (q :: inner ++ q :: rest) := by
  rw [List.cons_append, quotes_cons_of_isQuote hq]
  rcases quotes_append inner with happ | happ
  · rw [happ, happ, quotes_cons_of_isQuote hq]
    omega
  · rw [happ, happ]
    omega

/-- **Values start with fewer quotes** than the text that they are read off, or with none. -/
theorem quotes_leadingValues {t : Text} {tokens : List Token} (h : Scans [] t tokens) :
    quotes (leadingValues tokens).flatten = 0 ∨
      quotes (leadingValues tokens).flatten < quotes t := by
  induction h with
  | done => exact Or.inl rfl
  | filler hc _ ih => rwa [quotes_cons_of_isBlank (isBlank_of_isFiller hc)]
  | @token c t rest token tokens hc hn _ ih =>
    have happ := next?_eq_some hn
    have hproper := proper_of_next? hn
    rw [happ]
    cases token with
    | singleQuoted inner =>
      right
      have hless := quotes_quoted inner (q := '\x27') rfl ih
      rw [lexeme, List.append_assoc]
      exact hless
    | doubleQuoted inner =>
      right
      have hless := quotes_quoted inner (q := '"') rfl ih
      rw [lexeme, List.append_assoc]
      exact hless
    | word w =>
      left
      obtain ⟨⟨d, w, rfl, hd⟩, -⟩ := hproper
      exact quotes_cons_of_isWordStart hd _
    | _ => exact Or.inl rfl

/-! ### Texts that cannot be read again -/

/-- **A text that cannot be read again** from its quotes is read as another, whatever follows. -/
theorem solid_ne_of_not_isQuotable {t rest : Text} {tokens : List Token} (ht : ¬ IsQuotable t)
    (hrest : quotes rest = 0) (h : Scans [] ('"' :: t ++ '"' :: rest) tokens) :
    solid (leadingValues tokens).flatten ≠ solid t := by
  have hcut : doubleInner? (t ++ '"' :: rest) ≠ some (t, rest) :=
    fun hinner => ht fun _ => doubleInner?_cut rest hinner
  rw [List.cons_append] at h
  cases h with
  | filler hc _ => exact absurd hc (by decide)
  | @token _ _ _ _ tokens _ hn hmore =>
    rw [next?, if_neg (by decide), if_neg (by decide), if_neg (by decide), if_neg (by decide),
      if_neg (by decide), if_pos rfl] at hn
    obtain ⟨⟨inner, more⟩, hinner, he⟩ := Option.map_eq_some_iff.mp hn
    cases he
    show solid (inner ++ _) ≠ _
    rcases List.append_eq_append_iff.mp (doubleInner?_eq_some hinner) with
      ⟨late, hlate, hquote⟩ | ⟨early, hearly, hquote⟩
    · rcases late with _ | ⟨c, late⟩
      · rw [List.append_nil] at hlate
        obtain ⟨-, rfl⟩ := List.cons.inj hquote
        exact absurd (hlate ▸ hinner) hcut
      · -- The closing quote is read as a part of the text, which is longer then.
        obtain ⟨rfl, -⟩ := List.cons.inj hquote
        intro heq
        have hlength := congrArg List.length heq
        rw [hlate, List.append_assoc, List.cons_append, solid_append, List.length_append,
          solid_cons (by decide), List.length_cons] at hlength
        omega
    · rcases early with _ | ⟨c, early⟩
      · rw [List.append_nil] at hearly
        obtain ⟨-, rfl⟩ := List.cons.inj hquote
        exact absurd (hearly ▸ hinner) hcut
      · -- A quote inside of the text is read as the closing one, so the values behind it would
        -- have to start with that quote and all that follow it.
        obtain ⟨rfl, rfl⟩ := List.cons.inj hquote
        intro heq
        rw [hearly, solid_append, solid_append, solid_cons (by decide)] at heq
        have hvalues := List.append_cancel_left heq
        have hmany : quotes (leadingValues tokens).flatten = quotes early + 1 := by
          rw [quotes, hvalues, List.takeWhile_cons_of_pos rfl, List.length_cons, quotes]
        have hfew := quotes_leadingValues hmore
        have hbound : quotes (early.append ('"' :: rest)) ≤ quotes early + 1 :=
          quotes_append_quote hrest early
        omega

end BlockEdit
