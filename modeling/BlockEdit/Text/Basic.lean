/-!
# Texts

A text is the list of its characters, so every law about texts is a law about lists. This module
holds the operations on texts that more than one part of the editor needs.

Main statements:

* **`intercalate_pieces`**: cutting a text at a mark loses nothing but the marks.
* **`mem_words`**: a word is a nonempty run without blanks.
-/

namespace BlockEdit

/-- A text is the list of its characters. -/
abbrev Text := List Char

/-- Texts are compared character by character. -/
instance Text.lawfulBEq : LawfulBEq Text := inferInstance

namespace Text

/-! ## Blanks -/

/-- A blank is a character with the White_Space property of the Unicode standard. -/
def isBlank (c : Char) : Bool :=
  let code := c.toNat
  (9 ≤ code && code ≤ 13) || code == 0x20 || code == 0x85 || code == 0xA0 || code == 0x1680 ||
    (0x2000 ≤ code && code ≤ 0x200A) || code == 0x2028 || code == 0x2029 || code == 0x202F ||
    code == 0x205F || code == 0x3000

/-- The text without the blanks it starts with. -/
def trimStart (t : Text) : Text := t.dropWhile isBlank

/-- The text without its last characters that satisfy `p`. -/
def dropEndWhile (p : Char → Bool) (t : Text) : Text := (t.reverse.dropWhile p).reverse

/-- The text without the blanks it ends with. -/
def trimEnd (t : Text) : Text := dropEndWhile isBlank t

/-- The text without the blanks around it. -/
def trim (t : Text) : Text := trimEnd (trimStart t)

/-! ## Pieces and words -/

/-- The pieces between the characters that satisfy `p`; there is always at least one. -/
def pieces (p : Char → Bool) : Text → List Text
  | [] => [[]]
  | c :: t =>
    if p c then [] :: pieces p t
    else
      match pieces p t with
      | [] => [[c]]
      | w :: ws => (c :: w) :: ws

/-- The first line, without the carriage return that can be a part of its end. -/
def firstLine (t : Text) : Text :=
  let line := t.takeWhile (· != '\n')
  if line.getLast? = some '\r' then line.dropLast else line

/-- The nonempty pieces between blanks. -/
def words (t : Text) : List Text := (pieces isBlank t).filter (!·.isEmpty)

/-- The texts one after the other, with `separator` between any two. -/
def joinWith (separator : Text) : List Text → Text
  | [] => []
  | [t] => t
  | t :: u :: rest => t ++ separator ++ joinWith separator (u :: rest)

/-- What stands before and after the first place where `mark` occurs. -/
def splitFirst? (mark : Text) : Text → Option (Text × Text)
  | [] => if mark.isEmpty then some ([], []) else none
  | c :: t =>
    if mark.isPrefixOf (c :: t) then some ([], (c :: t).drop mark.length)
    else (splitFirst? mark t).map fun (before, after) => (c :: before, after)

/-- Whether `part` occurs somewhere in the text. -/
def includes (part t : Text) : Bool := (splitFirst? part t).isSome

/-- The text with every occurrence of `old` replaced by `new`. -/
def replaceChar (old new : Char) (t : Text) : Text := t.map fun c => if c = old then new else c

/-- The text with the letters A to Z in lower case. -/
def lower (t : Text) : Text := t.map Char.toLower

/-- The text `count` times over. -/
def times : Nat → Text → Text
  | 0, _ => []
  | count + 1, t => t ++ times count t

/-! ## Sizes -/

/-- The number of bytes that the text takes in UTF-8. -/
def byteSize : Text → Nat
  | [] => 0
  | c :: t => c.utf8Size + byteSize t

/-- The text without as many characters as fit into its first `count` bytes. -/
def dropBytes : Nat → Text → Text
  | _, [] => []
  | 0, t => t
  | count + 1, c :: t =>
    if c.utf8Size ≤ count + 1 then dropBytes (count + 1 - c.utf8Size) t else c :: t

/-- The text behind its first `count` bytes; none when it has fewer, or when one of its characters
reaches across that place. -/
def cut? : Nat → Text → Option Text
  | 0, t => some t
  | _ + 1, [] => none
  | count + 1, c :: t => if c.utf8Size ≤ count + 1 then cut? (count + 1 - c.utf8Size) t else none

/-- The characters that fit into the first `count` bytes of the text. -/
def takeBytes : Nat → Text → Text
  | _, [] => []
  | 0, _ => []
  | count + 1, c :: t =>
    if c.utf8Size ≤ count + 1 then c :: takeBytes (count + 1 - c.utf8Size) t else []

/-- A natural number in decimal notation. -/
def ofNat (n : Nat) : Text := Nat.toDigits 10 n

/-- An integer in decimal notation. -/
def ofInt (i : Int) : Text := if i < 0 then '-' :: ofNat i.natAbs else ofNat i.natAbs

/-! ## Laws -/

/-- A text has a piece at least. -/
@[simp] theorem pieces_ne_nil (p : Char → Bool) (t : Text) : pieces p t ≠ [] := by
  cases t with
  | nil => simp [pieces]
  | cons c t =>
    simp only [pieces]
    split
    · simp
    · split <;> simp

/-- Joining no texts gives the empty text. -/
@[simp] theorem joinWith_nil (separator : Text) : joinWith separator [] = [] := rfl

/-- Joining one text gives this text. -/
@[simp] theorem joinWith_singleton (separator t : Text) : joinWith separator [t] = t := rfl

/-- A separator stands between the first text and the others. -/
theorem joinWith_cons_of_ne_nil (separator t : Text) {ts : List Text} (h : ts ≠ []) :
    joinWith separator (t :: ts) = t ++ separator ++ joinWith separator ts := by
  cases ts with
  | nil => exact absurd rfl h
  | cons u rest => rfl

/-- **Nothing is lost**: the pieces with the mark put back between them are the text. -/
theorem intercalate_pieces (mark : Char) (t : Text) :
    joinWith [mark] (pieces (· == mark) t) = t := by
  induction t with
  | nil => rfl
  | cons c t ih =>
    simp only [pieces]
    split
    · next h =>
      rw [joinWith_cons_of_ne_nil _ _ (pieces_ne_nil _ t), ih]
      simp_all
    · split
      · next h => exact absurd h (pieces_ne_nil _ t)
      · next w ws h =>
        rw [h] at ih
        cases ws with
        | nil => simpa using ih
        | cons v vs =>
          rw [joinWith_cons_of_ne_nil _ _ (by simp)] at ih ⊢
          simp only [List.cons_append, List.append_assoc] at ih ⊢
          rw [ih]

/-- No piece holds a mark. -/
theorem not_mark_of_mem_pieces {p : Char → Bool} :
    (t : Text) → ∀ w ∈ pieces p t, ∀ c ∈ w, p c = false
  | [] => by simp [pieces]
  | d :: t => by
    intro w hw c hc
    simp only [pieces] at hw
    split at hw
    · rcases List.mem_cons.mp hw with rfl | hw
      · cases hc
      · exact not_mark_of_mem_pieces t w hw c hc
    · next hd =>
      split at hw
      · next h => exact absurd h (pieces_ne_nil p t)
      · next v vs h =>
        have ih := not_mark_of_mem_pieces (p := p) t
        rw [h] at ih
        rcases List.mem_cons.mp hw with rfl | hw
        · rcases List.mem_cons.mp hc with rfl | hc
          · simpa using hd
          · exact ih v (by simp) c hc
        · exact ih w (by simp [hw]) c hc

/-- **A word** is nonempty and holds no blank. -/
theorem mem_words {t w : Text} (h : w ∈ words t) : w ≠ [] ∧ ∀ c ∈ w, isBlank c = false := by
  rw [words, List.mem_filter] at h
  exact ⟨by simpa using h.2, not_mark_of_mem_pieces t w h.1⟩

end Text

end BlockEdit
