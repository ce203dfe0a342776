import BlockEdit.Source.Token

/-!
# Forms of tokens

Each kind of token has a form, which says what can stand in it. Comments and words have no mark at
their end: they go on for as long as they can, so not every text can follow them. A token is read
off a text exactly when it has its form and ends before what follows; nothing else about the text
behind it matters.

Main statements:

* **`Token.next?_eq_some_iff`**: when a token is read off a text.
* **`Token.exists_longer`**: a token that does not end before what follows is the start of a longer
  one.
-/

namespace BlockEdit.Token

/-! ### Parts of tokens -/

/-- A run of characters is read up to the first that stops it. -/
theorem upTo?_append {p : Char → Bool} {stop : Char} (hs : p stop = false) (t : Text) :
    {inner : Text} → (∀ c ∈ inner, p c = true) →
      upTo? p stop (inner ++ stop :: t) = some (inner, t)
  | [], _ => by
    rw [List.nil_append, upTo?, if_neg (by simp [hs]), if_pos rfl]
  | c :: inner, h => by
    have ih := upTo?_append hs t fun d hd => h d (List.mem_cons_of_mem _ hd)
    rw [List.cons_append, upTo?, if_pos (h c List.mem_cons_self), ih]
    rfl

/-- What is read up to the closing quote does not depend on what follows it. -/
theorem doubleInner?_append (more : Text) : {t inner rest : Text} →
    doubleInner? t = some (inner, rest) →
      doubleInner? (t ++ more) = some (inner, rest ++ more) := by
  intro t
  fun_induction doubleInner? t with
  | case1 => intro inner rest h; cases h
  | case2 => intro inner rest h; cases h; rfl
  | case3 => intro inner rest h; cases h
  | case4 c t hc ih =>
    intro inner rest h
    obtain ⟨⟨inner', rest'⟩, h', he⟩ := Option.map_eq_some_iff.mp h
    cases he
    rw [List.cons_append, List.cons_append, doubleInner?, if_neg hc, ih h']
    rfl
  | case5 => intro inner rest h; cases h
  | case6 c t hquote hslash hc ih =>
    intro inner rest h
    obtain ⟨⟨inner', rest'⟩, h', he⟩ := Option.map_eq_some_iff.mp h
    cases he
    rw [List.cons_append, doubleInner?, if_neg hc, ih h']
    · rfl
    · exact hquote
    · exact fun d more hd _ => hc (Or.inl hd)

/-- Behind a backslash any character but a line end is taken along. -/
theorem doubleInner?_slash (c : Char) (t : Text) : doubleInner? ('\\' :: c :: t) =
    if c = '\n' then none
    else (doubleInner? t).map fun (inner, rest) => ('\\' :: c :: inner, rest) := rfl

/-- A character that is no quote and no backslash stands for itself in double quotes, unless it ends
the line. -/
theorem doubleInner?_cons {c : Char} (hq : c ≠ '"') (hs : c ≠ '\\') (t : Text) :
    doubleInner? (c :: t) =
      if c = '\n' then none else (doubleInner? t).map fun (inner, rest) => (c :: inner, rest) := by
  rw [doubleInner?]
  · simp only [hs, false_or]
  · exact hq
  · exact fun d rest hd _ => hs hd

/-- What is read up to a closing quote is read up to it when nothing follows. -/
theorem doubleInner?_cut (rest : Text) : {t : Text} →
    doubleInner? (t ++ '"' :: rest) = some (t, rest) → doubleInner? (t ++ ['"']) = some (t, [])
  | [], _ => rfl
  | c :: t, h => by
    by_cases hq : c = '"'
    · subst hq
      cases h
    by_cases hs : c = '\\'
    · subst hs
      rcases t with _ | ⟨d, t⟩
      · rw [List.singleton_append, doubleInner?_slash, if_neg (by decide)] at h
        obtain ⟨⟨inner, more⟩, -, he⟩ := Option.map_eq_some_iff.mp h
        cases he
      · rw [List.cons_append, List.cons_append, doubleInner?_slash] at h ⊢
        split at h
        · cases h
        · next hline =>
          obtain ⟨⟨inner, more⟩, hinner, he⟩ := Option.map_eq_some_iff.mp h
          cases he
          rw [if_neg hline, doubleInner?_cut rest hinner]
          rfl
    · rw [List.cons_append, doubleInner?_cons hq hs] at h ⊢
      split at h
      · cases h
      · next hline =>
        obtain ⟨⟨inner, more⟩, hinner, he⟩ := Option.map_eq_some_iff.mp h
        cases he
        rw [if_neg hline, doubleInner?_cut rest hinner]
        rfl

/-- A run that is taken for as long as it can be ends before something else. -/
theorem takeWhile_spec (p : Char → Bool) (t : Text) :
    (∀ c ∈ t.takeWhile p, p c = true) ∧ ∀ c ∈ (t.dropWhile p).head?, p c = false := by
  refine ⟨List.all_eq_true.mp List.all_takeWhile, fun c hc => ?_⟩
  have hstop := List.head?_dropWhile_not p t
  rw [Option.mem_def.mp hc] at hstop
  simpa using hstop

/-- A run that ends before something else is taken, and nothing more. -/
theorem takeWhile_append {p : Char → Bool} {t rest : Text} (ht : ∀ c ∈ t, p c = true)
    (hrest : ∀ c ∈ rest.head?, p c = false) :
    (t ++ rest).takeWhile p = t ∧ (t ++ rest).dropWhile p = rest := by
  rw [List.takeWhile_append_of_pos ht, List.dropWhile_append_of_pos ht]
  cases rest with
  | nil => simp
  | cons c rest => simp [hrest c rfl]

/-! ### Tokens -/

/-- A word of a document. -/
def IsWord (t : Text) : Prop :=
  (∃ c rest, t = c :: rest ∧ isWordStart c = true) ∧ ∀ c ∈ t, isWordPart c = true

/-- What can start a word can go on with it. -/
theorem isWordPart_of_isWordStart {c : Char} (h : isWordStart c = true) : isWordPart c = true := by
  simp only [isWordStart, Bool.and_eq_true] at h
  exact h.1.1.1

/-- What stands in the token is what can stand in a token of its kind. -/
def WellFormed : Token → Prop
  | header inner => ∀ c ∈ inner, isHeaderPart c = true
  | assign => True
  | newline => True
  | comment body => ∀ c ∈ body, isCommentPart c = true
  | singleQuoted inner => ∀ c ∈ inner, isSinglePart c = true
  | doubleQuoted inner => doubleInner? (inner ++ ['"']) = some (inner, [])
  | word t => IsWord t

/-- The text does not carry the token on. -/
def EndsBefore (t : Text) : Token → Prop
  | comment _ => ∀ c ∈ t.head?, isCommentPart c = false
  | word _ => ∀ c ∈ t.head?, isWordPart c = false
  | _ => True

/-- Every token ends at the end of the text. -/
theorem endsBefore_nil (token : Token) : token.EndsBefore [] := by
  cases token <;> simp [EndsBefore]

/-- What does not carry a token on still does not when it is cut off. -/
theorem EndsBefore.cut {token : Token} {a b : Text} (h : token.EndsBefore (a ++ b)) :
    token.EndsBefore a := by
  cases a with
  | nil => exact endsBefore_nil token
  | cons c a => cases token <;> exact h

/-- No token is written as nothing. -/
theorem lexeme_ne_nil_of_wellFormed {token : Token} (h : token.WellFormed) :
    token.lexeme ≠ [] := by
  cases token with
  | word t =>
    obtain ⟨⟨c, rest, rfl, -⟩, -⟩ := h
    exact List.cons_ne_nil c rest
  | _ => simp [lexeme]

/-- What a word starts with is none of the marks that other tokens start with. -/
theorem ne_mark_of_isWordStart {c : Char} (h : isWordStart c = true) :
    c ≠ '[' ∧ c ≠ '=' ∧ c ≠ '\n' ∧ c ≠ '#' ∧ c ≠ '\x27' ∧ c ≠ '"' := by
  refine ⟨?_, ?_, ?_, ?_, ?_, ?_⟩
  all_goals
    rintro rfl
    revert h
    decide

/-- **A token is read off a text** exactly when it has its form and ends before what follows. -/
theorem next?_eq_some_iff {t rest : Text} {token : Token} :
    next? t = some (token, rest) ↔
      t = token.lexeme ++ rest ∧ token.WellFormed ∧ token.EndsBefore rest := by
  -- The cases of the reader are those of the first character, the cases behind those of the token.
  constructor
  · intro h
    refine ⟨next?_eq_some h, ?_⟩
    cases t with
    | nil => cases h
    | cons c t =>
      rw [next?] at h
      split at h
      · obtain ⟨⟨inner, rest'⟩, hread, he⟩ := Option.map_eq_some_iff.mp h
        cases he
        exact ⟨(upTo?_eq_some hread).2, trivial⟩
      split at h
      · cases h
        exact ⟨trivial, trivial⟩
      split at h
      · cases h
        exact ⟨trivial, trivial⟩
      split at h
      · cases h
        exact takeWhile_spec isCommentPart t
      split at h
      · obtain ⟨⟨inner, rest'⟩, hread, he⟩ := Option.map_eq_some_iff.mp h
        cases he
        exact ⟨(upTo?_eq_some hread).2, trivial⟩
      split at h
      · obtain ⟨⟨inner, rest'⟩, hread, he⟩ := Option.map_eq_some_iff.mp h
        cases he
        rw [doubleInner?_eq_some hread] at hread
        exact ⟨doubleInner?_cut _ hread, trivial⟩
      split at h
      · next hstart =>
        cases h
        obtain ⟨hparts, hends⟩ := takeWhile_spec isWordPart t
        refine ⟨⟨⟨c, _, rfl, hstart⟩, fun d hd => ?_⟩, hends⟩
        rcases List.mem_cons.mp hd with rfl | hd
        · exact isWordPart_of_isWordStart hstart
        · exact hparts d hd
      · cases h
  · rintro ⟨rfl, hform, hends⟩
    cases token with
    | header inner =>
      have hread := upTo?_append (show isHeaderPart ']' = false from rfl) rest hform
      simp [lexeme, next?, hread]
    | assign => simp [lexeme, next?]
    | newline => simp [lexeme, next?]
    | comment body =>
      obtain ⟨htake, hdrop⟩ := takeWhile_append hform hends
      simp [lexeme, next?, htake, hdrop]
    | singleQuoted inner =>
      have hread := upTo?_append (show isSinglePart '\x27' = false from rfl) rest hform
      simp [lexeme, next?, hread]
    | doubleQuoted inner =>
      have hread := doubleInner?_append rest hform
      rw [List.append_assoc, List.singleton_append, List.nil_append] at hread
      simp [lexeme, next?, hread]
    | word w =>
      obtain ⟨⟨c, w, rfl, hstart⟩, hparts⟩ := hform
      obtain ⟨htake, hdrop⟩ :=
        takeWhile_append (fun d hd => hparts d (List.mem_cons_of_mem _ hd)) hends
      simp [lexeme, next?, ne_mark_of_isWordStart hstart, hstart, htake, hdrop]

/-- What can start a word is no filler. -/
theorem not_isFiller_of_isWordStart {c : Char} (h : isWordStart c = true) :
    isFiller c = false := by
  rw [← Bool.not_eq_true]
  intro hc
  simp only [isFiller, Bool.or_eq_true, beq_iff_eq] at hc
  rcases hc with ((rfl | rfl) | rfl) | rfl
  all_goals exact absurd h (by decide)

/-- What starts a token is no filler. -/
theorem not_isFiller_of_next? {c : Char} {t rest : Text} {token : Token}
    (h : next? (c :: t) = some (token, rest)) : isFiller c = false := by
  obtain ⟨happ, hform, -⟩ := next?_eq_some_iff.mp h
  cases token with
  | word w =>
    obtain ⟨⟨d, w, rfl, hstart⟩, -⟩ := hform
    rw [(List.cons.inj happ).1]
    exact not_isFiller_of_isWordStart hstart
  | _ =>
    rw [(List.cons.inj happ).1]
    rfl

/-- **A token that does not end** before what follows is the start of a longer one. -/
theorem exists_longer {token : Token} {t : Text} (hform : token.WellFormed)
    (hends : ¬ token.EndsBefore t) :
    ∃ (c : Char) (rest : Text) (longer : Token),
      t = c :: rest ∧ longer.WellFormed ∧ longer.lexeme = token.lexeme ++ [c] := by
  cases t with
  | nil => exact absurd (endsBefore_nil token) hends
  | cons c t =>
    cases token with
    | comment body =>
      have hc : isCommentPart c = true := by simpa [EndsBefore] using hends
      refine ⟨c, t, comment (body ++ [c]), rfl, fun d hd => ?_, rfl⟩
      rcases List.mem_append.mp hd with hd | hd
      · exact hform d hd
      · rwa [List.mem_singleton.mp hd]
    | word w =>
      have hc : isWordPart c = true := by simpa [EndsBefore] using hends
      obtain ⟨⟨d, w, rfl, hstart⟩, hparts⟩ := hform
      refine ⟨c, t, word (d :: w ++ [c]), rfl, ⟨⟨d, w ++ [c], rfl, hstart⟩, fun e he => ?_⟩, rfl⟩
      rcases List.mem_append.mp he with he | he
      · exact hparts e he
      · rwa [List.mem_singleton.mp he]
    | _ => exact absurd trivial hends

end BlockEdit.Token
