import BlockEdit.Proofs.Regular

/-!
# The tokens of a text

`Scans` relates a text to its tokens without their places, up to some point where scanning stops:
fillers are skipped, and a token is what `Token.next?` reads. A text that is put together from
written tokens is scanned piece by piece, each piece in front of any text that goes on in a way that
ends it. `Lexeme.Scanned` does the same for a whole text and keeps the places.

Main statements:

* **`Scans.scanFrom`**, **`scans_of_scanFrom`**: the tokens of a text are what scanning it gives,
  wherever the text stands.
* **`Lexeme.scanFrom_eq_ok_iff`**: what scanning gives, with the places.
* **`scans_lexeme`** and its instances: each kind of written token is scanned as such.
-/

namespace BlockEdit

/-- The text has these tokens in front of where it stops. -/
inductive Scans (stop : Text) : Text → List Token → Prop
  /-- Nothing more is scanned. -/
  | done : Scans stop stop []
  /-- A filler belongs to no token. -/
  | filler {c : Char} {t : Text} {tokens : List Token} (hc : Token.isFiller c = true)
      (h : Scans stop t tokens) : Scans stop (c :: t) tokens
  /-- Anything else starts a token. -/
  | token {c : Char} {t rest : Text} {token : Token} {tokens : List Token}
      (hc : Token.isFiller c = false) (hn : Token.next? (c :: t) = some (token, rest))
      (h : Scans stop rest tokens) : Scans stop (c :: t) (token :: tokens)

variable {stop : Text}

/-- **The tokens of a text** are what scanning it gives, wherever the text stands and whatever
follows where it stops. -/
theorem Scans.scanFrom {t : Text} {tokens : List Token} (h : Scans stop t tokens) :
    ∀ offset : Nat, ∃ lexemes place, lexemes.map Lexeme.token = tokens ∧
      Lexeme.scanFrom 0 offset t = (Lexeme.scanFrom 0 place stop).map (lexemes ++ ·) := by
  induction h with
  | done =>
    intro offset
    refine ⟨[], offset, rfl, ?_⟩
    rcases Lexeme.scanFrom 0 offset stop with e | more
    · rfl
    · rfl
  | filler hc _ ih =>
    intro offset
    rw [Lexeme.scanFrom_filler hc]
    exact ih _
  | @token c t rest token tokens hc hn _ ih =>
    intro offset
    obtain ⟨lexemes, place, htokens, hscan⟩ := ih (offset + Text.byteSize token.lexeme)
    refine ⟨⟨token, offset, offset + Text.byteSize token.lexeme⟩ :: lexemes, place, ?_, ?_⟩
    · rw [List.map_cons, htokens]
    · rw [Lexeme.scanFrom_token hc hn, hscan]
      rcases Lexeme.scanFrom 0 place stop with e | more
      · rfl
      · rfl

/-- A text that is scanned to its end gives its tokens. -/
theorem Scans.exists_lexemes {t : Text} {tokens : List Token} (h : Scans [] t tokens)
    (offset : Nat) :
    ∃ lexemes, Lexeme.scanFrom 0 offset t = .ok lexemes ∧ lexemes.map Lexeme.token = tokens := by
  obtain ⟨lexemes, place, htokens, hscan⟩ := h.scanFrom offset
  refine ⟨lexemes, ?_, htokens⟩
  rw [hscan, Lexeme.scanFrom_nil]
  exact congrArg Except.ok (List.append_nil lexemes)

namespace Lexeme

/-- The tokens of a text that has `offset` bytes in front, each with its place. -/
inductive Scanned : Nat → Text → List Lexeme → Prop
  /-- Nothing is left. -/
  | done (offset : Nat) : Scanned offset [] []
  /-- A filler belongs to no token. -/
  | filler {offset : Nat} {c : Char} {t : Text} {lexemes : List Lexeme}
      (hc : Token.isFiller c = true) (h : Scanned (offset + c.utf8Size) t lexemes) :
      Scanned offset (c :: t) lexemes
  /-- Anything else starts a token, and scanning goes on behind it. -/
  | token {offset : Nat} {c : Char} {t rest : Text} {token : Token} {lexemes : List Lexeme}
      (hc : Token.isFiller c = false) (hn : Token.next? (c :: t) = some (token, rest))
      (h : Scanned (offset + Text.byteSize token.lexeme) rest lexemes) :
      Scanned offset (c :: t)
        (⟨token, offset, offset + Text.byteSize token.lexeme⟩ :: lexemes)

/-- The scan gives the tokens that a text has. -/
theorem Scanned.scanFrom {offset : Nat} {t : Text} {lexemes : List Lexeme}
    (h : Scanned offset t lexemes) : scanFrom 0 offset t = .ok lexemes := by
  induction h with
  | done offset => exact scanFrom_nil 0 offset
  | filler hc _ ih => rw [scanFrom_filler hc, ih]
  | token hc hn _ ih => rw [scanFrom_token hc hn, ih]; rfl

/-- What the scan gives are the tokens of the text, found one after the other. -/
theorem scanned_of_scanFrom {offset : Nat} {t : Text} {lexemes : List Lexeme}
    (h : Lexeme.scanFrom 0 offset t = .ok lexemes) : Scanned offset t lexemes := by
  induction hn : t.length using Nat.strongRecOn generalizing t offset lexemes with
  | ind n ih =>
  subst hn
  rcases t with _ | ⟨c, t⟩
  · rw [scanFrom_nil] at h
    cases h
    exact .done offset
  rcases hc : Token.isFiller c with _ | _
  · rcases hnext : Token.next? (c :: t) with _ | ⟨token, rest⟩
    · rw [Lexeme.scanFrom, hc, hnext] at h
      cases h
    · have hlength := congrArg List.length (Token.next?_eq_some hnext)
      have hne := List.length_pos_iff.mpr (Token.lexeme_ne_nil hnext)
      rw [List.length_append] at hlength
      rw [scanFrom_token hc hnext] at h
      rcases hmore : Lexeme.scanFrom 0 (offset + Text.byteSize token.lexeme) rest with e | more
      · rw [hmore] at h
        cases h
      · rw [hmore] at h
        cases h
        exact .token hc hnext (ih rest.length (by omega) hmore rfl)
  · rw [scanFrom_filler hc] at h
    exact .filler hc (ih t.length (Nat.lt_succ_self _) h rfl)

/-- **What scanning gives** are the tokens with their places. -/
theorem scanFrom_eq_ok_iff {offset : Nat} {t : Text} {lexemes : List Lexeme} :
    Lexeme.scanFrom 0 offset t = .ok lexemes ↔ Scanned offset t lexemes :=
  ⟨scanned_of_scanFrom, Scanned.scanFrom⟩

end Lexeme

/-- The tokens that scanning gives are the tokens of the text. -/
theorem scans_of_scanFrom {t : Text} {offset : Nat} {lexemes : List Lexeme}
    (h : Lexeme.scanFrom 0 offset t = .ok lexemes) : Scans [] t (lexemes.map Lexeme.token) := by
  induction Lexeme.scanFrom_eq_ok_iff.mp h with
  | done => exact .done
  | filler hc hrest ih => exact .filler hc (ih hrest.scanFrom)
  | token hc hn hrest ih => exact .token hc hn (ih hrest.scanFrom)

/-! ### Written tokens -/

namespace Token

/-- The text can be read again from the quotes that it is written in: single quotes give back every
text without single quotes. -/
def IsQuotable (t : Text) : Prop :=
  t.contains '\x27' = true → doubleInner? (t ++ ['"']) = some (t, [])

instance (t : Text) : Decidable (IsQuotable t) :=
  inferInstanceAs (Decidable (t.contains '\x27' = true → doubleInner? (t ++ ['"']) = some (t, [])))

/-- A text without quotes, backslashes and line ends is read up to the closing quote. -/
theorem doubleInner?_of_plain : {inner : Text} →
    (∀ c ∈ inner, c ≠ '"' ∧ c ≠ '\\' ∧ c ≠ '\n') →
      doubleInner? (inner ++ ['"']) = some (inner, [])
  | [], _ => rfl
  | c :: inner, h => by
    obtain ⟨hquote, hslash, hline⟩ := h c List.mem_cons_self
    have ih := doubleInner?_of_plain fun d hd => h d (List.mem_cons_of_mem _ hd)
    rw [List.cons_append, doubleInner?]
    · rw [if_neg (by simp [hslash, hline]), ih]
      rfl
    · exact hquote
    · exact fun d rest hd _ => hslash hd

/-- **A text that does not need both kinds of quotes** can be read again. -/
theorem isQuotable_of_needsBothQuotes {t : Text} (h : Value.needsBothQuotes t = false) :
    IsQuotable t := by
  intro hsingle
  rw [Value.needsBothQuotes, hsingle, Bool.true_and, Bool.or_eq_false_iff,
    Bool.or_eq_false_iff] at h
  obtain ⟨⟨hdouble, hline⟩, hslash⟩ := h
  have hne : ∀ d : Char, t.contains d = false → ∀ c ∈ t, c ≠ d := by
    rintro d hd c hc rfl
    rw [List.contains_iff_mem.mpr hc] at hd
    cases hd
  exact doubleInner?_of_plain fun c hc => ⟨hne _ hdouble c hc, hne _ hslash c hc, hne _ hline c hc⟩

/-- The text goes on with something that is no part of a word. -/
def EndsWord (t : Text) : Prop := ∃ c rest, t = c :: rest ∧ isWordPart c = false

end Token

open Token

/-- Fillers in front of a text belong to no token. -/
theorem scans_fillers {f t : Text} {tokens : List Token} (hf : ∀ c ∈ f, isFiller c = true)
    (h : Scans stop t tokens) : Scans stop (f ++ t) tokens := by
  induction f with
  | nil => exact h
  | cons c f ih =>
    exact .filler (hf c List.mem_cons_self) (ih fun d hd => hf d (List.mem_cons_of_mem _ hd))

/-- **A written token** is scanned as such, in front of a text that does not carry it on. -/
theorem scans_lexeme {token : Token} {t : Text} {tokens : List Token} (hform : token.WellFormed)
    (hends : token.EndsBefore t) (h : Scans stop t tokens) :
    Scans stop (token.lexeme ++ t) (token :: tokens) := by
  have hnext := next?_eq_some_iff.mpr ⟨rfl, hform, hends⟩
  obtain ⟨c, rest, hl⟩ := List.exists_cons_of_ne_nil (lexeme_ne_nil_of_wellFormed hform)
  rw [hl, List.cons_append] at hnext ⊢
  exact .token (not_isFiller_of_next? hnext) hnext h

/-- A line end in front of a text is one more token. -/
theorem scans_newline {t : Text} {tokens : List Token} (h : Scans stop t tokens) :
    Scans stop ('\n' :: t) (.newline :: tokens) :=
  .token rfl rfl h

/-- An equals sign in front of a text is one more token. -/
theorem scans_assign {t : Text} {tokens : List Token} (h : Scans stop t tokens) :
    Scans stop ('=' :: t) (.assign :: tokens) :=
  .token rfl rfl h

/-- A header in front of a text is one more token, when its characters can stand in one. -/
theorem scans_header {inner t : Text} {tokens : List Token}
    (hi : ∀ c ∈ inner, isHeaderPart c = true) (h : Scans stop t tokens) :
    Scans stop ('[' :: inner ++ ']' :: t) (.header inner :: tokens) := by
  have hform : (header inner).WellFormed := hi
  simpa [lexeme] using scans_lexeme hform trivial h

/-- A comment goes on to the end of its line. -/
theorem scans_comment {body t : Text} {tokens : List Token}
    (hb : ∀ c ∈ body, isCommentPart c = true) (h : Scans stop ('\n' :: t) tokens) :
    Scans stop ('#' :: body ++ '\n' :: t) (.comment body :: tokens) := by
  have hform : (comment body).WellFormed := hb
  have hends : (comment body).EndsBefore ('\n' :: t) := by simp [EndsBefore, isCommentPart]
  exact scans_lexeme hform hends h

/-- A text in single quotes in front of another is one more token, when it has none inside. -/
theorem scans_singleQuoted {inner t : Text} {tokens : List Token}
    (hi : ∀ c ∈ inner, isSinglePart c = true) (h : Scans stop t tokens) :
    Scans stop ('\x27' :: inner ++ '\x27' :: t) (.singleQuoted inner :: tokens) := by
  have hform : (singleQuoted inner).WellFormed := hi
  simpa [lexeme] using scans_lexeme hform trivial h

/-- A text in double quotes in front of another is one more token, when it ends at the last of
them. -/
theorem scans_doubleQuoted {inner t : Text} {tokens : List Token}
    (hi : doubleInner? (inner ++ ['"']) = some (inner, [])) (h : Scans stop t tokens) :
    Scans stop ('"' :: inner ++ '"' :: t) (.doubleQuoted inner :: tokens) := by
  have hform : (doubleQuoted inner).WellFormed := hi
  simpa [lexeme] using scans_lexeme hform trivial h

/-- A word goes on to the first character that is no part of one. -/
theorem scans_word_of_head {w t : Text} {tokens : List Token} (hw : IsWord w)
    (ht : ∀ c ∈ t.head?, isWordPart c = false) (h : Scans stop t tokens) :
    Scans stop (w ++ t) (.word w :: tokens) := by
  have hform : (word w).WellFormed := hw
  exact scans_lexeme hform ht h

/-- A word in front of a text is one more token, when the text does not go on with it. -/
theorem scans_word {w t : Text} {tokens : List Token} (hw : IsWord w) (ht : EndsWord t)
    (h : Scans stop t tokens) : Scans stop (w ++ t) (.word w :: tokens) := by
  obtain ⟨d, more, rfl, hd⟩ := ht
  refine scans_word_of_head hw (fun c hc => ?_) h
  cases hc
  exact hd

/-- A word at the end of a text goes on to the end. -/
theorem scans_word_end {w : Text} (hw : IsWord w) : Scans [] w [.word w] := by
  have h := scans_word_of_head hw (t := []) (fun c hc => by cases hc) .done
  rwa [List.append_nil] at h

/-! ### Lines of tokens -/

namespace Outline

/-- The tokens of lines, each with its end. -/
def flatLines (lines : List (List Token)) : List Token := lines.flatMap (· ++ [.newline])

/-- The tokens of lines start with those of the first one and its end. -/
theorem flatLines_cons (line : List Token) (lines : List (List Token)) :
    flatLines (line :: lines) = line ++ .newline :: flatLines lines := by
  simp [flatLines]

/-- The tokens of lines are those of the first ones and then of the others. -/
theorem flatLines_append (a b : List (List Token)) :
    flatLines (a ++ b) = flatLines a ++ flatLines b := by
  simp [flatLines]

/-- There is always a line. -/
theorem lines_ne_nil : ∀ lexemes : List Lexeme, lines lexemes ≠ []
  | [] => by simp [lines]
  | l :: rest => by
    rw [lines]
    split
    · simp
    · split
      · simp
      · simp

/-- Lexemes without a line end belong to the line that follows. -/
theorem lines_append_of_not_newline {b line : List Lexeme} {more : List (List Lexeme)}
    (hb : lines b = line :: more) : {a : List Lexeme} → (∀ k ∈ a, k.token ≠ .newline) →
      lines (a ++ b) = (a ++ line) :: more
  | [], _ => hb
  | k :: a, ha => by
    rw [List.cons_append, lines, if_neg (ha k List.mem_cons_self),
      lines_append_of_not_newline hb fun m hm => ha m (List.mem_cons_of_mem _ hm)]
    rfl

/-- **Lexemes of some lines** are cut into these lines, whatever follows. -/
theorem lines_flatLines_append (back : List Lexeme) : {ls : List (List Token)} →
    (∀ line ∈ ls, Token.newline ∉ line) → {front : List Lexeme} →
      front.map Lexeme.token = flatLines ls →
        ∃ cut, cut.map (List.map Lexeme.token) = ls ∧ lines (front ++ back) = cut ++ lines back
  | [], _, front, h => by
    obtain rfl : front = [] := by simpa [flatLines] using h
    exact ⟨[], rfl, rfl⟩
  | line :: ls, hls, front, h => by
    rw [flatLines_cons] at h
    obtain ⟨a, b, rfl, ha, hb⟩ := List.map_eq_append_iff.mp h
    obtain ⟨l, rest, rfl, hl, hrest⟩ := List.map_eq_cons_iff.mp hb
    have hnot : ∀ k ∈ a, k.token ≠ .newline := by
      intro k hk heq
      refine hls line List.mem_cons_self ?_
      rw [← ha, ← heq]
      exact List.mem_map_of_mem hk
    obtain ⟨cut, hcut, ih⟩ :=
      lines_flatLines_append back (fun k hk => hls k (List.mem_cons_of_mem _ hk)) hrest
    refine ⟨a :: cut, by rw [List.map_cons, ha, hcut], ?_⟩
    have hend : lines (l :: (rest ++ back)) = [] :: (cut ++ lines back) := by
      rw [lines, if_pos hl, ih]
    rw [List.append_assoc, List.cons_append, lines_append_of_not_newline hend hnot,
      List.append_nil, List.cons_append]

/-- **The lines of a text** whose tokens are those of some lines are these, and an empty one. -/
theorem lines_of_flatLines {ls : List (List Token)} (hls : ∀ line ∈ ls, Token.newline ∉ line)
    {lexemes : List Lexeme} (h : lexemes.map Lexeme.token = flatLines ls) :
    (lines lexemes).map (List.map Lexeme.token) = ls ++ [[]] := by
  obtain ⟨cut, hcut, hlines⟩ := lines_flatLines_append [] hls h
  rw [List.append_nil] at hlines
  rw [hlines, List.map_append, hcut]
  rfl

end Outline

end BlockEdit
