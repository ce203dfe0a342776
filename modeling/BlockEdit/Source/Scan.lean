import BlockEdit.Source.Fault

/-!
# Scanning a text

`scan` cuts a text into tokens with their places and skips the fillers between them. A text where
no token can be read has its fault there.

Main statements:

* **`scanFrom_filler`**, **`scanFrom_token`**: how scanning goes on behind a filler and behind a
  token.
-/

namespace BlockEdit

/-- A token and its place: the bytes before it and the bytes up to its end. -/
structure Lexeme where
  /-- The token. -/
  token : Token
  /-- The number of bytes before the token. -/
  start : Nat
  /-- The number of bytes up to its end. -/
  stop : Nat
deriving DecidableEq, Repr

namespace Lexeme

/-- Why no token can be read at the start of the text. An open header is shown up to the end of its
line, anything else by its first character. -/
def causeAt : Text → Cause
  | [] => .unexpected []
  | c :: rest =>
    if c = '\x27' ∨ c = '"' then .unterminatedString
    else if c = '[' then .unexpected (c :: rest.takeWhile Token.isHeaderPart)
    else .unexpected [c]

/-- Scans a text of which `skip` more characters belong to the last token, with `offset` bytes
before it. The result is the tokens, or the place and the cause of the first fault. -/
def scanFrom : (skip offset : Nat) → Text → Except (Nat × Cause) (List Lexeme)
  | _, _, [] => .ok []
  | skip + 1, offset, c :: rest => scanFrom skip (offset + c.utf8Size) rest
  | 0, offset, c :: rest =>
    if Token.isFiller c then scanFrom 0 (offset + c.utf8Size) rest
    else
      match Token.next? (c :: rest) with
      | none => .error (offset, causeAt (c :: rest))
      | some (token, _) =>
        (scanFrom (token.lexeme.length - 1) (offset + c.utf8Size) rest).map
          (⟨token, offset, offset + Text.byteSize token.lexeme⟩ :: ·)

/-- The tokens of a text with their places. -/
def scan (source : Text) : Except Fault (List Lexeme) :=
  (scanFrom 0 0 source).mapError fun (offset, cause) => Fault.locate source offset cause

/-! ## Laws -/

/-- At the end of a text no token is left. -/
@[simp] theorem scanFrom_nil (skip offset : Nat) : scanFrom skip offset [] = .ok [] := by
  cases skip <;> rfl

/-- Skipping is scanning what is left. -/
theorem scanFrom_skip : (skip offset : Nat) → (t : Text) →
    scanFrom skip offset t = scanFrom 0 (offset + Text.byteSize (t.take skip)) (t.drop skip)
  | 0, _, _ => by simp [Text.byteSize]
  | skip + 1, offset, [] => by simp
  | skip + 1, offset, c :: t => by
    rw [scanFrom, scanFrom_skip skip, List.take_succ_cons, List.drop_succ_cons, Text.byteSize,
      Nat.add_assoc]

/-- **Behind a filler** scanning goes on with the next character. -/
theorem scanFrom_filler {c : Char} (h : Token.isFiller c = true) (offset : Nat) (t : Text) :
    scanFrom 0 offset (c :: t) = scanFrom 0 (offset + c.utf8Size) t := by
  rw [scanFrom, if_pos h]

/-- **Behind a token** scanning goes on with what follows the token. -/
theorem scanFrom_token {c : Char} {t rest : Text} {token : Token}
    (hc : Token.isFiller c = false) (h : Token.next? (c :: t) = some (token, rest))
    (offset : Nat) :
    scanFrom 0 offset (c :: t) =
      (scanFrom 0 (offset + Text.byteSize token.lexeme) rest).map
        (⟨token, offset, offset + Text.byteSize token.lexeme⟩ :: ·) := by
  rw [scanFrom, if_neg (by simp [hc]), h]
  have happ := Token.next?_eq_some h
  have hne := Token.lexeme_ne_nil h
  rcases hl : token.lexeme with _ | ⟨d, l⟩
  · exact absurd hl hne
  · rw [hl, List.cons_append, List.cons.injEq] at happ
    obtain ⟨rfl, rfl⟩ := happ
    simp only [hl, List.length_cons, Nat.add_sub_cancel, Text.byteSize]
    rw [scanFrom_skip l.length]
    simp [Nat.add_assoc]

end Lexeme

end BlockEdit
