import BlockEdit.Proofs.Grammar
import BlockEdit.Proofs.Tiling

/-!
# Places of faults

A fault of a document names a place: an offset, a line and a column. The scanner finds a fault where
no token starts, and the reader finds one where a token starts that does not fit, or where a block
starts that is never closed. Each of these places lies between two characters, so the offset, the
line and the column say the same, and no other place has that line and that column.

What the reader keeps is `State.Within`: the places that it remembers are starts of tokens. A step
of the reader that `Locates` a fault says what holds of its result and of the place of its fault at
once.

Main statements:

* **`Lexeme.locates_scanFrom`**: a fault of the scanner lies between two characters.
* **`Outline.locates_ofLexemes`**: a fault of the reader stands where a token starts.
* **`Fault.faithful_of_fault`**: places go by line and column, and a fault is where it says.
-/

namespace BlockEdit

open Text (byteSize lineColumn IsBoundary)

/-- A result has the property `Q`, and a fault is at a place with the property `P`. -/
def Locates {α : Type} (P : Nat → Prop) (Q : α → Prop) : Except (Nat × Cause) α → Prop
  | .ok a => Q a
  | .error fault => P fault.1

section locates

variable {α β : Type} {P : Nat → Prop} {Q : α → Prop} {R : β → Prop}

/-- What goes on with a result is asked only for the results that there are. -/
theorem locates_bind {x : Except (Nat × Cause) α} {f : α → Except (Nat × Cause) β}
    (hx : Locates P Q x) (hf : ∀ a, Q a → Locates P R (f a)) : Locates P R (x >>= f) := by
  rcases x with fault | a
  · exact hx
  · exact hf a hx

/-- A function of the result leaves the places of faults alone. -/
theorem locates_map {x : Except (Nat × Cause) α} {f : α → β} (hx : Locates P Q x)
    (hf : ∀ a, Q a → R (f a)) : Locates P R (x.map f) := by
  rcases x with fault | a
  · exact hx
  · exact hf a hx

end locates

/-! ### The scanner -/

namespace Lexeme

/-- A fault of the scanner lies between two characters, whatever `front` is before the text that is
scanned. -/
theorem locates_scanFrom {source : Text} (t : Text) : ∀ {skip : Nat} {front : Text},
    front ++ t = source →
      Locates (IsBoundary source) (fun _ => True) (scanFrom skip (byteSize front) t) := by
  induction t with
  | nil =>
    intro skip front _
    rw [scanFrom_nil]
    trivial
  | cons c t ih =>
    intro skip front hsource
    have hnext : byteSize front + c.utf8Size = byteSize (front ++ [c]) :=
      (Text.byteSize_append front [c]).symm
    have hrest : (front ++ [c]) ++ t = source := by rw [← List.append_cons, hsource]
    rcases skip with _ | skip
    · rw [scanFrom, hnext]
      split
      · exact ih hrest
      · split
        · exact ⟨front, c :: t, hsource.symm, rfl⟩
        · exact locates_map (ih hrest) fun _ _ => trivial
    · rw [scanFrom, hnext]
      exact ih hrest

end Lexeme

/-! ### The reader -/

namespace Outline

variable {P : Nat → Prop} {s : State} {offset : Nat} {rest : List Lexeme}

/-- The open sections start at places with the property `P`. -/
def State.Within (P : Nat → Prop) (s : State) : Prop := ∀ o ∈ s.current :: s.outer, P o.offset

/-- Behind a comment are tokens that were there with it. -/
theorem mem_of_takeComment : ∀ l ∈ (takeComment rest).2, l ∈ rest := by
  unfold takeComment
  split
  · exact fun l hl => List.mem_cons_of_mem _ hl
  · exact fun l hl => hl

/-- A line that does not end is at fault where the next token starts. -/
theorem locates_lineEnd (hrest : ∀ l ∈ rest, P l.start) :
    Locates P (fun _ => True) (lineEnd rest) := by
  cases rest with
  | nil => trivial
  | cons l rest => exact hrest l List.mem_cons_self

/-- A setting is at fault at its name or at a token behind it. -/
theorem locates_readSetting {key : Text} {pending : List Text} (ho : P offset)
    (hrest : ∀ l ∈ rest, P l.start) :
    Locates P (fun _ => True) (readSetting key offset pending rest) := by
  unfold readSetting
  split
  · next start stop more =>
    refine locates_map (locates_lineEnd fun l hl => ?_) fun _ _ => trivial
    exact hrest l (List.mem_cons_of_mem _ (mem_of_takeValues l (mem_of_takeComment l hl)))
  · exact ho

/-- A header that closes nothing is at fault where it starts. -/
theorem locates_closeBlock (hs : s.Within P) (ho : P offset) :
    Locates P (State.Within P) (closeBlock s offset) := by
  unfold closeBlock
  split
  · exact ho
  · next parent outer houter =>
    intro o hmem
    rw [State.Within, houter] at hs
    rcases List.mem_cons.mp hmem with rfl | hmem
    · exact hs parent (by simp)
    · exact hs o (by simp [hmem])

/-- A header that cannot open a block is at fault where it starts. -/
theorem locates_openBlock {inner comment : Text} (hs : s.Within P) (ho : P offset) :
    Locates P (State.Within P) (openBlock s inner offset comment) := by
  unfold openBlock
  dsimp only
  split
  · exact ho
  · split
    · exact ho
    · intro o hmem
      rcases List.mem_cons.mp hmem with rfl | hmem
      · exact ho
      · exact hs o hmem

/-- A header is at fault where it starts or at a token behind it. -/
theorem locates_readHeader {inner : Text} (hs : s.Within P) (ho : P offset)
    (hrest : ∀ l ∈ rest, P l.start) :
    Locates P (State.Within P) (readHeader s inner offset rest) := by
  unfold readHeader
  dsimp only
  have hend := locates_lineEnd fun l hl => hrest l (mem_of_takeComment l hl)
  split
  · exact locates_bind (locates_closeBlock hs ho) fun _ hnext =>
      locates_bind hend fun _ _ => hnext
  · exact locates_bind (locates_openBlock hs ho) fun _ hnext =>
      locates_bind hend fun _ _ => hnext

/-- A setting that is there twice is at fault where it starts. -/
theorem locates_addSetting {setting : Setting} (hs : s.Within P) (ho : P offset) :
    Locates P (State.Within P) (addSetting s offset setting) := by
  unfold addSetting
  split
  · exact ho
  · intro o hmem
    rcases List.mem_cons.mp hmem with rfl | hmem
    · exact hs s.current List.mem_cons_self
    · exact hs o (List.mem_cons_of_mem _ hmem)

/-- **One line** finds its fault where one of its tokens starts, and remembers no other place. -/
theorem locates_readLine {line : List Lexeme} (hs : s.Within P) (hline : ∀ l ∈ line, P l.start) :
    Locates P (State.Within P) (readLine s line) := by
  rcases line with _ | ⟨⟨token, offset, stop⟩, rest⟩
  · exact hs
  have ho : P offset := hline _ List.mem_cons_self
  have hrest : ∀ l ∈ rest, P l.start := fun l hl => hline l (List.mem_cons_of_mem _ hl)
  cases token with
  | comment body => exact locates_map (locates_lineEnd hrest) fun _ _ => hs
  | header inner => exact locates_readHeader hs ho hrest
  | word key =>
    exact locates_bind (locates_readSetting ho hrest) fun _ _ => locates_addSetting hs ho
  | _ => exact ho

/-- **Lines one after the other** find their fault where a token starts. -/
theorem locates_readLines {lines : List (List Lexeme)} : ∀ {s : State}, s.Within P →
    (∀ line ∈ lines, ∀ l ∈ line, P l.start) →
      Locates P (State.Within P) (readLines s lines) := by
  induction lines with
  | nil => exact fun hs _ => hs
  | cons line lines ih =>
    intro s hs hlines
    have hline := locates_readLine hs (hlines line List.mem_cons_self)
    rw [readLines]
    split
    · next next hnext =>
      rw [hnext] at hline
      exact ih hline fun other hother => hlines other (List.mem_cons_of_mem _ hother)
    · next fault hfault =>
      rw [hfault] at hline
      exact hline

/-- **A fault of the reader** stands at the start of the text or where a token starts. -/
theorem locates_ofLexemes {lexemes : List Lexeme} (hstart : P 0)
    (hlexemes : ∀ l ∈ lexemes, P l.start) :
    Locates P (fun _ => True) (ofLexemes lexemes) := by
  have hopen : State.start.Within P := List.forall_mem_singleton.mpr hstart
  have hlines := locates_readLines hopen fun line hline l hl =>
    hlexemes l (mem_of_mem_lines line hline l hl)
  unfold ofLexemes
  split
  · next last hlast =>
    rw [hlast] at hlines
    unfold finish
    split
    · trivial
    · exact hlines last.current List.mem_cons_self
  · next fault hfault =>
    rw [hfault] at hlines
    exact hlines

end Outline

/-! ### Faults -/

namespace Fault

/-- The fault says where it is: its offset is the place of a character or the end of the text, its
line and its column are those of this place, and they are those of no other place. -/
structure Faithful (source : Text) (f : Fault) : Prop where
  /-- The place lies between two characters. -/
  boundary : IsBoundary source f.offset
  /-- The place is not behind the end. -/
  le : f.offset ≤ byteSize source
  /-- The line and the column are those of the place. -/
  position : (f.line, f.column) = lineColumn source f.offset
  /-- No other place has them. -/
  only : ∀ offset, IsBoundary source offset → lineColumn source offset = (f.line, f.column) →
    offset = f.offset

/-- A fault that is located at a boundary says where it is. -/
theorem faithful_locate {source : Text} {offset : Nat} (h : IsBoundary source offset)
    (cause : Cause) : (locate source offset cause).Faithful source where
  boundary := h
  le := h.le
  position := rfl
  only _ hother hsame := Text.eq_of_lineColumn_eq hother h hsame

/-- What is located at places between characters is told as faithful faults. -/
theorem faithful_of_locates {α : Type} {source : Text} {Q : α → Prop}
    {x : Except (Nat × Cause) α} (hx : Locates (IsBoundary source) Q x) {f : Fault}
    (h : x.mapError (fun (offset, cause) => locate source offset cause) = .error f) :
    f.Faithful source := by
  rcases x with ⟨offset, cause⟩ | a
  · cases h
    exact faithful_locate hx cause
  · cases h

/-- The fault of a text without tokens says where it is. -/
theorem faithful_of_scan {source : Text} {f : Fault} (h : Lexeme.scan source = .error f) :
    f.Faithful source :=
  faithful_of_locates (Lexeme.locates_scanFrom source (List.nil_append source)) h

/-- The fault of a text without an outline says where it is. -/
theorem faithful_of_ofText {source : Text} {f : Fault} (h : Outline.ofText source = .error f) :
    f.Faithful source := by
  unfold Outline.ofText at h
  split at h
  · next fault hscan =>
    cases h
    exact faithful_of_scan hscan
  · next lexemes hscan =>
    have hlaid := (Lexeme.scan_eq_ok_iff.mp hscan).laid [] rfl
    refine faithful_of_locates (Outline.locates_ofLexemes ?_ fun l hl => ?_) h
    · exact Text.isBoundary_append [] source
    · exact (hlaid.stands l hl).boundary.1

/-- **Faults are where they say.** Of two places between characters the later one is further down or
further right on the same line, and every fault of the scanner and of the reader, whatever the
catalog, has the offset, the line and the column of one such place and of no other. -/
theorem faithful_of_fault (source : Text) :
    (∀ first second, IsBoundary source first → IsBoundary source second → first < second →
      Prod.Lex (· < ·) (· < ·) (lineColumn source first) (lineColumn source second)) ∧
    (∀ f, Lexeme.scan source = .error f → f.Faithful source) ∧
    ∀ catalog f, Block.parse catalog source = .error f → f.Faithful source := by
  refine ⟨fun _ _ => Text.lineColumn_lt, fun _ => faithful_of_scan, fun catalog f h => ?_⟩
  refine faithful_of_ofText ?_
  rcases ho : Outline.ofText source with fault | outline
  · rw [Block.parse, ho] at h
    cases h
    rfl
  · rw [Block.parse, ho] at h
    cases h

/-- A string that is never closed, and a block that is never closed, behind characters of two
bytes. -/
theorem faithful_of_fault_sample :
    (∃ f, Lexeme.scan "é = 1\n  'ü".toList = .error f ∧ (f.line, f.column, f.offset) = (2, 3, 9) ∧
        f.Faithful "é = 1\n  'ü".toList) ∧
      ∃ f, Block.parse Catalog.empty "é = 1\n  [ü]".toList = .error f ∧
        (f.line, f.column, f.offset) = (2, 3, 9) ∧ f.Faithful "é = 1\n  [ü]".toList := by
  have hscan : Lexeme.scan "é = 1\n  'ü".toList = .error ⟨2, 3, 9, .unterminatedString⟩ := by decide
  have hparse : Block.parse Catalog.empty "é = 1\n  [ü]".toList =
      .error ⟨2, 3, 9, .neverClosed "ü".toList⟩ := by rfl
  exact ⟨⟨_, hscan, rfl, (faithful_of_fault _).2.1 _ hscan⟩,
    ⟨_, hparse, rfl, (faithful_of_fault _).2.2 _ _ hparse⟩⟩

end Fault

end BlockEdit
