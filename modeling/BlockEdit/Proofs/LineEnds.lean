import BlockEdit.Proofs.Positions
import BlockEdit.Proofs.Scans

/-!
# Scanning at line ends

Only a string in single quotes can hold a line end, and such a string ends with its own quote. A
token that can be read is therefore the same when the text goes on behind a line end, and a text
with a line end in it is scanned as the two texts around it, one after the other. The second one is
scanned as if it stood alone; only its places move.

Main statements:

* **`Token.next?_append_newline`**: a token does not depend on what stands behind a line end.
* **`Lexeme.scanFrom_add`**: what is scanned does not depend on where the text stands.
* **`Lexeme.scan_append_newline`**: a text is scanned line end by line end.
* **`Lexeme.scan_line_by_line`**: what is scanned behind a line end is what is scanned there alone.
-/

namespace BlockEdit

namespace Token

/-! ### One token in front of a line end -/

/-- A line end carries no token on. -/
theorem EndsBefore.append_newline {token : Token} {t : Text} (h : token.EndsBefore t)
    (more : Text) : token.EndsBefore (t ++ '\n' :: more) := by
  cases t with
  | nil => cases token <;> simp [EndsBefore, isCommentPart, isWordPart, Text.isBlank]
  | cons c t => cases token <;> exact h

/-- **A token that can be read** is read just the same when the text goes on behind a line end: no
kind of token could take the line end in. -/
theorem next?_append_newline (more : Text) {t rest : Text} {token : Token}
    (h : next? t = some (token, rest)) :
    next? (t ++ '\n' :: more) = some (token, rest ++ '\n' :: more) := by
  obtain ⟨rfl, hform, hends⟩ := next?_eq_some_iff.mp h
  exact next?_eq_some_iff.mpr
    ⟨List.append_assoc _ _ _, hform, hends.append_newline more⟩

end Token

namespace Lexeme

/-! ### Where a text stands -/

/-- The lexeme in a text that has `count` more bytes in front. -/
def shift (count : Nat) (l : Lexeme) : Lexeme := ⟨l.token, l.start + count, l.stop + count⟩

/-- **What is scanned** does not depend on where the text stands: only the places move. -/
theorem scanFrom_add (count : Nat) (skip offset : Nat) (t : Text) :
    scanFrom skip (offset + count) t =
      ((scanFrom skip offset t).map (List.map (shift count))).mapError
        fun fault => (fault.1 + count, fault.2) := by
  induction t generalizing skip offset with
  | nil =>
    rw [scanFrom_nil, scanFrom_nil]
    rfl
  | cons c t ih =>
    have hmove : offset + count + c.utf8Size = offset + c.utf8Size + count := by omega
    rcases skip with _ | skip
    · rw [scanFrom, scanFrom, hmove]
      split
      · exact ih 0 _
      · split
        · rfl
        · next token rest hnext =>
          rw [ih]
          rcases scanFrom (token.lexeme.length - 1) (offset + c.utf8Size) t with fault | more
          · rfl
          · simp only [Except.map, Except.mapError, shift, List.map_cons]
            rw [Nat.add_right_comm]
    · rw [scanFrom, scanFrom, hmove]
      exact ih skip _

/-- **Scanning a text that goes on** behind a line end gives the tokens of its first part, and then
what is scanned from the line end on. -/
theorem scanFrom_append_newline (more : Text) {t : Text} {offset : Nat} {lexemes : List Lexeme}
    (h : scanFrom 0 offset t = .ok lexemes) :
    scanFrom 0 offset (t ++ '\n' :: more) =
      (scanFrom 0 (offset + Text.byteSize t) ('\n' :: more)).map (lexemes ++ ·) := by
  induction scanFrom_eq_ok_iff.mp h with
  | done offset =>
    show scanFrom 0 offset ('\n' :: more) = (scanFrom 0 (offset + 0) ('\n' :: more)).map ([] ++ ·)
    rcases scanFrom 0 offset ('\n' :: more) with fault | all
    · rfl
    · rfl
  | filler hc hrest ih =>
    rw [List.cons_append, scanFrom_filler hc, ih hrest.scanFrom, Text.byteSize, Nat.add_assoc]
  | @token offset c t rest token lexemes hc hn hrest ih =>
    have hmore := Token.next?_append_newline more hn
    rw [List.cons_append] at hmore ⊢
    rw [scanFrom_token hc hmore, ih hrest.scanFrom, Token.next?_eq_some hn, Text.byteSize_append,
      ← Nat.add_assoc]
    rcases scanFrom 0 (offset + Text.byteSize token.lexeme + Text.byteSize rest)
      ('\n' :: more) with fault | all
    · rfl
    · rfl

end Lexeme

/-- The fault in a text that has `front` and a line end before it. -/
def Fault.below (front : Text) (f : Fault) : Fault where
  line := f.line + (Text.lineEnds front + 1)
  column := f.column
  offset := f.offset + (Text.byteSize front + 1)
  cause := f.cause

namespace Lexeme

/-- The line end behind a text. -/
def lineEnd (front : Text) : Lexeme :=
  ⟨.newline, Text.byteSize front, Text.byteSize front + 1⟩

/-- A line end in front of a text is a token of its own. -/
theorem scanFrom_newline (offset : Nat) (t : Text) :
    scanFrom 0 offset ('\n' :: t) =
      (scanFrom 0 (offset + 1) t).map (⟨.newline, offset, offset + 1⟩ :: ·) :=
  scanFrom_token rfl (show Token.next? ('\n' :: t) = some (.newline, t) from rfl) offset

/-- A text behind a text that can be scanned and a line end is scanned as if it stood alone: its
places move, and so does its fault. -/
theorem scan_append_newline {front : Text} {lexemes : List Lexeme} (h : scan front = .ok lexemes)
    (back : Text) :
    scan (front ++ '\n' :: back) =
      ((scan back).map fun more =>
        lexemes ++ lineEnd front :: more.map (shift (Text.byteSize front + 1))).mapError
          (Fault.below front) := by
  have hfront : scanFrom 0 0 front = .ok lexemes := by
    rw [scan] at h
    rcases hscan : scanFrom 0 0 front with fault | all
    · rw [hscan] at h
      cases h
    · rw [hscan] at h
      exact congrArg Except.ok (Except.ok.inj h)
  have hall := scanFrom_append_newline back hfront
  rw [Nat.zero_add, scanFrom_newline, ← Nat.zero_add (Text.byteSize front + 1), scanFrom_add,
    Nat.zero_add] at hall
  rw [scan, hall, scan]
  rcases scanFrom 0 0 back with ⟨offset, cause⟩ | more
  · have hplace := Text.lineColumn_append_newline front back offset
    show Except.error (Fault.locate (front ++ '\n' :: back)
      (offset + (Text.byteSize front + 1)) cause)
      = Except.error ((Fault.locate back offset cause).below front)
    rw [Fault.locate, hplace]
    rfl
  · rfl

/-- **Scanning goes from line end to line end.** When a text can be scanned, the text that goes on
behind it and a line end can be scanned exactly when what stands there can be scanned alone.
Together they give the tokens of both, with the line end between them and the places of the second
moved by the bytes in front of it; otherwise the fault is that of the second, as many lines further
down. -/
theorem scan_line_by_line {front : Text} {lexemes : List Lexeme} (h : scan front = .ok lexemes)
    (back : Text) :
    ((∃ all, scan (front ++ '\n' :: back) = .ok all) ↔ ∃ more, scan back = .ok more) ∧
      (∀ more, scan back = .ok more → scan (front ++ '\n' :: back) =
        .ok (lexemes ++ lineEnd front :: more.map (shift (Text.byteSize front + 1)))) ∧
      ∀ fault, scan back = .error fault →
        scan (front ++ '\n' :: back) = .error (fault.below front) := by
  have hall := scan_append_newline h back
  rcases hback : scan back with fault | more
  · rw [hback] at hall
    refine ⟨⟨?_, ?_⟩, ?_, ?_⟩
    · rintro ⟨all, hok⟩
      cases hok.symm.trans hall
    · rintro ⟨more, hok⟩
      cases hok
    · intro more hok
      cases hok
    · intro fault' herror
      cases herror
      exact hall
  · rw [hback] at hall
    refine ⟨⟨fun _ => ⟨more, rfl⟩, fun _ => ⟨_, hall⟩⟩, ?_, ?_⟩
    · intro more' hok
      cases hok
      exact hall
    · intro fault herror
      cases herror

/-- A string with a line end in it stands in front of the line end. -/
theorem scan_line_by_line_sample :
    ∃ lexemes, scan "x = 'é\ny'#".toList = .ok lexemes ∧
      scan ("x = 'é\ny'#".toList ++ '\n' :: "[A]".toList) =
        .ok (lexemes ++ [⟨.newline, 11, 12⟩, ⟨.header ['A'], 12, 15⟩]) := by
  have hfront : scan "x = 'é\ny'#".toList = .ok [⟨.word ['x'], 0, 1⟩, ⟨.assign, 2, 3⟩,
      ⟨.singleQuoted ['é', '\n', 'y'], 4, 10⟩, ⟨.comment [], 10, 11⟩] := by decide
  have hback : scan "[A]".toList = .ok [⟨.header ['A'], 0, 3⟩] := by decide
  exact ⟨_, hfront, (scan_line_by_line hfront "[A]".toList).2.1 _ hback⟩

end Lexeme

end BlockEdit
