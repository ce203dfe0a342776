import BlockEdit.Text.Basic

/-!
# Tokens of a document

A document is made of block headers `[name]`, words, equality signs, strings in quotes, comments
and line ends. The first character of a token decides which of them it is. Only a string in single
quotes can run over a line end.

Main statements:

* **`next?_eq_some`**: a token is read off the text exactly as it is written.
* **`Token.lexeme_ne_nil`**: no token is empty, so scanning always moves on.
-/

namespace BlockEdit

/-- A token. What surrounds its text (brackets, quotes, the comment mark) is not part of it. -/
inductive Token where
  /-- A block header, with what stands between its brackets. -/
  | header (inner : Text)
  /-- The equality sign. -/
  | assign
  /-- The end of a line. -/
  | newline
  /-- A comment, with what follows its mark. -/
  | comment (body : Text)
  /-- A string in single quotes. -/
  | singleQuoted (inner : Text)
  /-- A string in double quotes; its escapes are kept as they are written. -/
  | doubleQuoted (inner : Text)
  /-- A word. -/
  | word (text : Text)
deriving DecidableEq, Repr

namespace Token

/-- The token as it is written. -/
def lexeme : Token → Text
  | header inner => '[' :: inner ++ [']']
  | assign => ['=']
  | newline => ['\n']
  | comment body => '#' :: body
  | singleQuoted inner => '\x27' :: inner ++ ['\x27']
  | doubleQuoted inner => '"' :: inner ++ ['"']
  | word text => text

/-- The text that a token adds to a value: a word, or a string without its quotes. -/
def value? : Token → Option Text
  | singleQuoted inner => some inner
  | doubleQuoted inner => some inner
  | word text => some text
  | _ => none

/-- How an error names the token. -/
def describe : Token → Text
  | header inner => "header ".toList ++ (header inner).lexeme
  | assign => ['=']
  | newline => "end of line".toList
  | comment _ => "comment".toList
  | singleQuoted inner => "string ".toList ++ (singleQuoted inner).lexeme
  | doubleQuoted inner => "string ".toList ++ (doubleQuoted inner).lexeme
  | word text => '\x27' :: text ++ ['\x27']

/-! ## Character classes -/

/-- The characters that stand between tokens and belong to none. -/
def isFiller (c : Char) : Bool := c == ' ' || c == '\t' || c == '\r' || c == '\x0c'

/-- The characters that a word can go on with. -/
def isWordPart (c : Char) : Bool := !Text.isBlank c && c != '=' && c != '\x27' && c != '"'

/-- The characters that a word can start with. -/
def isWordStart (c : Char) : Bool := isWordPart c && c != '[' && c != ']' && c != '#'

/-- The characters that a header can hold between its brackets. -/
def isHeaderPart (c : Char) : Bool := c != ']' && c != '\n'

/-- The characters that a comment can hold. -/
def isCommentPart (c : Char) : Bool := c != '\n'

/-- The characters that a string in single quotes can hold. -/
def isSinglePart (c : Char) : Bool := c != '\x27'

/-! ## Reading one token -/

/-- What stands in front of the closing double quote, and what follows it. A backslash takes the
character behind it along; neither that character nor any other is a line end. -/
def doubleInner? : Text → Option (Text × Text)
  | [] => none
  | '"' :: rest => some ([], rest)
  | '\\' :: c :: rest =>
    if c = '\n' then none
    else (doubleInner? rest).map fun (inner, rest) => ('\\' :: c :: inner, rest)
  | c :: rest =>
    if c = '\\' ∨ c = '\n' then none
    else (doubleInner? rest).map fun (inner, rest) => (c :: inner, rest)

/-- The characters up to the first that does not satisfy `p`, when that is `stop`, and what follows
the stop. -/
def upTo? (p : Char → Bool) (stop : Char) : Text → Option (Text × Text)
  | [] => none
  | c :: rest =>
    if p c then (upTo? p stop rest).map fun (inner, rest) => (c :: inner, rest)
    else if c = stop then some ([], rest)
    else none

/-- The token at the start of a text, and what follows it. -/
def next? : Text → Option (Token × Text)
  | [] => none
  | c :: rest =>
    if c = '[' then (upTo? isHeaderPart ']' rest).map fun (inner, rest) => (header inner, rest)
    else if c = '=' then some (assign, rest)
    else if c = '\n' then some (newline, rest)
    else if c = '#' then some (comment (rest.takeWhile isCommentPart), rest.dropWhile isCommentPart)
    else if c = '\x27' then
      (upTo? isSinglePart '\x27' rest).map fun (inner, rest) => (singleQuoted inner, rest)
    else if c = '"' then (doubleInner? rest).map fun (inner, rest) => (doubleQuoted inner, rest)
    else if isWordStart c then
      some (word (c :: rest.takeWhile isWordPart), rest.dropWhile isWordPart)
    else none

/-! ## Laws -/

/-- What is found in front of the closing double quote is the text up to it. -/
theorem doubleInner?_eq_some : {t inner rest : Text} → doubleInner? t = some (inner, rest) →
    t = inner ++ '"' :: rest := by
  intro t
  fun_induction doubleInner? t with
  | case1 => intro inner rest h; cases h
  | case2 => intro inner rest h; cases h; rfl
  | case3 => intro inner rest h; cases h
  | case4 c t hc ih =>
    intro inner rest h
    obtain ⟨⟨inner', rest'⟩, h', he⟩ := Option.map_eq_some_iff.mp h
    cases he
    simp [ih h']
  | case5 => intro inner rest h; cases h
  | case6 c t _ _ hc ih =>
    intro inner rest h
    obtain ⟨⟨inner', rest'⟩, h', he⟩ := Option.map_eq_some_iff.mp h
    cases he
    simp [ih h']

/-- What is found in front of the stop is the text up to it, and all of it can stand there. -/
theorem upTo?_eq_some {p : Char → Bool} {stop : Char} :
    {t inner rest : Text} → upTo? p stop t = some (inner, rest) →
      t = inner ++ stop :: rest ∧ ∀ c ∈ inner, p c = true
  | [], _, _, h => by simp [upTo?] at h
  | c :: t, inner, rest, h => by
    simp only [upTo?] at h
    split at h
    · next hc =>
      obtain ⟨⟨inner', rest'⟩, h', he⟩ := Option.map_eq_some_iff.mp h
      cases he
      obtain ⟨rfl, hp⟩ := upTo?_eq_some h'
      exact ⟨rfl, fun d hd => by
        rcases List.mem_cons.mp hd with rfl | hd
        · exact hc
        · exact hp d hd⟩
    · split at h
      · next hs =>
        cases h
        exact ⟨by simp [hs], by simp⟩
      · cases h

/-- **A token is read off the text** exactly as it is written. -/
theorem next?_eq_some {t rest : Text} {token : Token} (h : next? t = some (token, rest)) :
    t = token.lexeme ++ rest := by
  rcases t with _ | ⟨c, t⟩
  · cases h
  · simp only [next?] at h
    split at h
    · next hc =>
      obtain ⟨⟨inner, rest'⟩, h', he⟩ := Option.map_eq_some_iff.mp h
      cases he
      simp [lexeme, hc, (upTo?_eq_some h').1]
    split at h
    · next hc => cases h; simp [lexeme, hc]
    split at h
    · next hc => cases h; simp [lexeme, hc]
    split at h
    · next hc => cases h; simp [lexeme, hc]
    split at h
    · next hc =>
      obtain ⟨⟨inner, rest'⟩, h', he⟩ := Option.map_eq_some_iff.mp h
      cases he
      simp [lexeme, hc, (upTo?_eq_some h').1]
    split at h
    · next hc =>
      obtain ⟨⟨inner, rest'⟩, h', he⟩ := Option.map_eq_some_iff.mp h
      cases he
      simp [lexeme, hc, doubleInner?_eq_some h']
    split at h
    · cases h; simp [lexeme]
    · cases h

/-- **No token is empty.** -/
theorem lexeme_ne_nil {t rest : Text} {token : Token} (h : next? t = some (token, rest)) :
    token.lexeme ≠ [] := by
  rcases token with _ | _ | _ | _ | _ | _ | text
  case word =>
    rcases t with _ | ⟨c, t⟩
    · cases h
    · simp only [next?] at h
      intro hl
      obtain rfl : text = [] := hl
      repeat' split at h
      all_goals simp [Option.map_eq_some_iff] at h
  all_goals simp [lexeme]

end Token

end BlockEdit
