import BlockEdit.Proofs.WrittenLines

/-!
# The outline of a written document

The lines that a document is written as are read as one setting for each parameter that is written
and one section for each block. The only thing that can keep them from being read is a name that
two parameters of one block share.

Each statement about reading names the state behind the lines, so that they can be put together
line by line.

Main statements:

* **`Layout.readLines_blockLines`**: the lines of a block are read as its section.
* **`Layout.ofText_serialize_eq_ok_iff`**: what the text of a document is read as, and when.
-/

namespace BlockEdit

namespace Layout

/-- The comment without the carriage returns at the ends of its lines. -/
def readComments (comments : Text) : Text :=
  Text.joinWith ['\n']
    ((Text.pieces (· == '\n') comments).map (Text.dropEndWhile (· == '\r')))

/-- What the lines of a parameter are read as. -/
def setting (s : Slot) : Setting := ⟨s.name, s.text, readComments s.comments⟩

mutual

/-- What the lines of a block are read as. -/
def sectionOf : Block → Section
  | ⟨info, children, unused⟩ =>
    ⟨info.name, Text.dropEndWhile (· == '\r') (Text.replaceChar '\n' ' ' info.comments),
      (writtenSlots ⟨info, children, unused⟩).map setting, sectionsOf children⟩

/-- What the lines of blocks are read as. -/
def sectionsOf : List Block → List Section
  | [] => []
  | b :: bs => sectionOf b :: sectionsOf bs

end

/-- What the text of a document is read as. -/
def outlineOf (root : Block) : Section :=
  ⟨[], [], (writtenSlots root).map setting, sectionsOf root.children⟩

/-- Blocks are read as sections one by one. -/
theorem sectionsOf_eq_map (bs : List Block) : sectionsOf bs = bs.map sectionOf := by
  induction bs with
  | nil => rfl
  | cons b bs ih => rw [sectionsOf, ih, List.map_cons]

/-- A block is read as a section of its name. -/
theorem name_sectionOf (b : Block) : (sectionOf b).name = b.name := by
  cases b
  rfl

end Layout

/-- No two parameters that are written share a name. -/
def Block.Distinct (b : Block) : Prop := (Named.names (Layout.writtenSlots b)).Nodup

instance (b : Block) : Decidable b.Distinct :=
  inferInstanceAs (Decidable (Named.names (Layout.writtenSlots b)).Nodup)

/-! ### Reading lines one after the other -/

namespace Outline

/-- The state with more settings in the innermost section. -/
def State.withSettings (st : State) (settings : List Setting) : State :=
  ⟨{ st.current with settings := st.current.settings ++ settings }, st.outer, []⟩

/-- The state with more sections in the innermost section. -/
def State.withChildren (st : State) (children : List Section) : State :=
  ⟨{ st.current with children := st.current.children ++ children }, st.outer, []⟩

/-- The state with a new section opened in the innermost one. -/
def State.opened (st : State) (name : Text) (offset : Nat) (comment : Text) : State :=
  ⟨OpenSection.ofHeader name offset comment, st.current :: st.outer, []⟩

/-- Lines are read when the first one is and then the others. -/
theorem readLines_cons_eq_ok_iff {st st' : State} {line : List Lexeme}
    {lines : List (List Lexeme)} : readLines st (line :: lines) = .ok st' ↔
      ∃ next, readLine st line = .ok next ∧ readLines next lines = .ok st' := by
  rw [readLines]
  rcases readLine st line with e | next
  · simp
  · simp

/-- One line is read as itself. -/
theorem readLines_singleton (st : State) (line : List Lexeme) :
    readLines st [line] = readLine st line := by
  rw [readLines]
  rcases readLine st line with e | next
  · rfl
  · rfl

/-- Lines are read in two parts. -/
theorem readLines_append_eq_ok_iff {st st' : State} {b : List (List Lexeme)} :
    {a : List (List Lexeme)} → (readLines st (a ++ b) = .ok st' ↔
      ∃ next, readLines st a = .ok next ∧ readLines next b = .ok st') := by
  intro a
  induction a generalizing st with
  | nil => simp [readLines]
  | cons line a ih =>
    rw [List.cons_append, readLines_cons_eq_ok_iff]
    constructor
    · rintro ⟨next, hline, hrest⟩
      obtain ⟨last, ha, hb⟩ := ih.mp hrest
      exact ⟨last, readLines_cons_eq_ok_iff.mpr ⟨next, hline, ha⟩, hb⟩
    · rintro ⟨last, ha, hb⟩
      obtain ⟨next, hline, hrest⟩ := readLines_cons_eq_ok_iff.mp ha
      exact ⟨next, hline, ih.mpr ⟨last, hrest, hb⟩⟩

end Outline

/-! ### Reading parameters -/

namespace Slot

/-- The value of a slot is written as nothing, when it is empty, or as one token. -/
theorem valueTokens_cases (s : Slot) : s.valueTokens = [] ∧ s.text = [] ∨
    ∃ token, s.valueTokens = [token] ∧ token.value? = some s.text := by
  rw [valueTokens]
  split
  · refine Or.inr ⟨_, rfl, ?_⟩
    rw [quoteToken]
    split <;> rfl
  · split
    · next h => exact Or.inl ⟨rfl, List.isEmpty_iff.mp h⟩
    · exact Or.inr ⟨_, rfl, rfl⟩

end Slot

namespace Layout

open Outline

/-- A comment is read without the space in front of it. -/
theorem commentText_space (t : Text) :
    commentText (' ' :: t) = Text.dropEndWhile (· == '\r') t := by
  simp only [commentText, Text.dropEndWhile_cons (c := ' ') (p := (· == '\r')) (by decide)]

/-- A line of a comment is read as the line. -/
theorem commentText_line (line : Text) :
    commentText (if line.isEmpty then [] else ' ' :: line) =
      Text.dropEndWhile (· == '\r') line := by
  split
  · next h =>
    rw [List.isEmpty_iff.mp h]
    rfl
  · exact commentText_space line

/-- Tokens that start no value are no values. -/
theorem takeValues_of_comment {lexemes : List Lexeme} {comment : Text}
    (h : lexemes.map Lexeme.token = lineCommentTokens comment) :
    takeValues lexemes = ([], lexemes) := by
  rcases lexemes with _ | ⟨l, lexemes⟩
  · rfl
  · rw [lineCommentTokens] at h
    split at h
    · cases h
    · rw [List.map_cons, List.cons.injEq] at h
      rw [takeValues, h.1]
      rfl

/-- The comment behind something is read to its end. -/
theorem takeComment_of_comment {lexemes : List Lexeme} {comment : Text}
    (h : lexemes.map Lexeme.token = lineCommentTokens comment) :
    takeComment lexemes =
      (if comment.isEmpty then none else some (Text.dropEndWhile (· == '\r') comment), []) := by
  rw [lineCommentTokens] at h
  split at h
  · next he =>
    obtain rfl := List.map_eq_nil_iff.mp h
    rw [if_pos he]
    rfl
  · next he =>
    obtain ⟨l, rest, rfl, hl, hrest⟩ := List.map_eq_cons_iff.mp h
    obtain rfl := List.map_eq_nil_iff.mp hrest
    obtain ⟨token, start, stop⟩ := l
    obtain rfl : token = .comment (' ' :: comment) := hl
    rw [if_neg he, takeComment, commentText_space]

/-- The values of a parameter are read as its text. -/
theorem takeValues_valueTokens {s : Slot} {lexemes : List Lexeme} {comment : Text}
    (h : lexemes.map Lexeme.token = s.valueTokens ++ lineCommentTokens comment) :
    ∃ values rest, takeValues lexemes = (values, rest) ∧
      Text.joinWith [' '] values = s.text ∧
        rest.map Lexeme.token = lineCommentTokens comment := by
  rcases s.valueTokens_cases with ⟨hnone, htext⟩ | ⟨token, hsome, hvalue⟩
  · rw [hnone, List.nil_append] at h
    exact ⟨[], lexemes, takeValues_of_comment h, htext.symm, h⟩
  · rw [hsome, List.singleton_append] at h
    obtain ⟨l, rest, rfl, rfl, hrest⟩ := List.map_eq_cons_iff.mp h
    refine ⟨[s.text], rest, ?_, rfl, hrest⟩
    rw [takeValues, hvalue, takeValues_of_comment hrest]

/-- The line of a parameter is read with the comments above it. -/
theorem readSetting_eq {s : Slot} {lexemes : List Lexeme} {comment : Text}
    (h : lexemes.map Lexeme.token = .assign :: (s.valueTokens ++ lineCommentTokens comment))
    (offset : Nat) (pending : List Text) :
    readSetting s.name offset pending lexemes =
      .ok ⟨s.name, s.text, Text.joinWith ['\n'] (pending ++
        if comment.isEmpty then [] else [Text.dropEndWhile (· == '\r') comment])⟩ := by
  obtain ⟨l, rest, rfl, hl, hrest⟩ := List.map_eq_cons_iff.mp h
  obtain ⟨token, start, stop⟩ := l
  obtain rfl : token = .assign := hl
  obtain ⟨values, more, htake, hjoin, hmore⟩ := takeValues_valueTokens hrest
  simp only [readSetting, htake, takeComment_of_comment hmore]
  rw [hjoin]
  split
  · rfl
  · rfl

/-- Lines of comments wait for the setting below them. -/
theorem readLines_comments (st : State) : {bodies : List Text} → {lines : List (List Lexeme)} →
    lines.map (List.map Lexeme.token) = bodies.map (fun body => [Token.comment body]) →
      readLines st lines = .ok { st with pending := st.pending ++ bodies.map commentText }
  | [], lines, h => by
    obtain rfl := List.map_eq_nil_iff.mp h
    rw [List.map_nil, List.append_nil]
    rfl
  | body :: bodies, lines, h => by
    obtain ⟨line, rest, rfl, hline, hrest⟩ := List.map_eq_cons_iff.mp h
    obtain ⟨l, more, rfl, hl, hmore⟩ := List.map_eq_cons_iff.mp hline
    obtain rfl := List.map_eq_nil_iff.mp hmore
    obtain ⟨token, start, stop⟩ := l
    obtain rfl : token = .comment body := hl
    refine readLines_cons_eq_ok_iff.mpr
      ⟨{ st with pending := st.pending ++ [commentText body] }, rfl, ?_⟩
    rw [readLines_comments _ hrest, List.map_cons, List.append_assoc]
    rfl

/-- **The comments of a parameter**, above it and behind it, are read as its comment. -/
theorem joinWith_comments (comments : Text) :
    Text.joinWith ['\n'] ((bodiesAbove comments).map commentText ++
      if (behind comments).isEmpty then []
      else [Text.dropEndWhile (· == '\r') (behind comments)]) = readComments comments := by
  rw [bodiesAbove, behind, readComments]
  split
  · rw [List.map_map, List.isEmpty_nil, if_pos rfl, List.append_nil]
    congr 1
    exact List.map_congr_left fun line _ => commentText_line line
  · next h =>
    have hno : ∀ c ∈ comments, (c == '\n') = false := by
      intro c hc
      rw [beq_eq_false_iff_ne]
      rintro rfl
      exact h (List.contains_iff_mem.mpr hc)
    rw [List.map_nil, List.nil_append, Text.pieces_eq_singleton hno]
    split
    · next he =>
      rw [List.isEmpty_iff.mp he]
      rfl
    · rfl

/-- A setting can be added exactly when its name is new to the section. -/
theorem addSetting_eq_ok_iff {st st' : State} {offset : Nat} {s : Setting} :
    addSetting st offset s = .ok st' ↔
      s.key ∉ st.current.settings.map Setting.key ∧ st' = st.withSettings [s] := by
  have hany : st.current.settings.any (·.key = s.key) = true ↔
      s.key ∈ st.current.settings.map Setting.key := by
    simp [List.any_eq_true]
  rw [addSetting]
  split
  · next h => simp [hany.mp h]
  · next h =>
    rw [hany] at h
    simp [h, State.withSettings, eq_comm]

/-- **The lines of a parameter** are read as its setting, unless its section has one of that name
already. -/
theorem readLines_slotLines {s : Slot} {st st' : State} {lines : List (List Lexeme)}
    (hp : st.pending = []) (hl : lines.map (List.map Lexeme.token) = slotLines s) :
    readLines st lines = .ok st' ↔ s.name ∉ st.current.settings.map Setting.key ∧
      st' = st.withSettings [setting s] := by
  rw [slotLines] at hl
  obtain ⟨above, last, rfl, habove, hlast⟩ := List.map_eq_append_iff.mp hl
  obtain ⟨line, none, rfl, hline, hnone⟩ := List.map_eq_cons_iff.mp hlast
  obtain rfl := List.map_eq_nil_iff.mp hnone
  obtain ⟨l, rest, rfl, htoken, hrest⟩ := List.map_eq_cons_iff.mp hline
  obtain ⟨token, start, stop⟩ := l
  obtain rfl : token = .word s.name := htoken
  have hread := readSetting_eq hrest start ((bodiesAbove s.comments).map commentText)
  rw [joinWith_comments] at hread
  have hlast : ∀ {waiting : State},
      waiting.pending = (bodiesAbove s.comments).map commentText →
        readLine waiting (⟨.word s.name, start, stop⟩ :: rest) =
          addSetting waiting start (setting s) := by
    intro waiting hw
    rw [readLine, hw, hread]
    rfl
  rw [readLines_append_eq_ok_iff, readLines_comments st habove, hp, List.nil_append]
  simp only [Except.ok.injEq, exists_eq_left', readLines_singleton, hlast, addSetting_eq_ok_iff]
  rfl

/-- **The lines of parameters** are read as their settings, unless two settings of the section would
have one name. -/
theorem readLines_slots : {slots : List Slot} → (st st' : State) →
    {lines : List (List Lexeme)} → st.pending = [] →
      (st.current.settings.map Setting.key).Nodup →
        lines.map (List.map Lexeme.token) = slots.flatMap slotLines →
          (readLines st lines = .ok st' ↔
            (st.current.settings.map Setting.key ++ Named.names slots).Nodup ∧
              st' = st.withSettings (slots.map setting))
  | [], st, st', lines, hp, hn, hl => by
    obtain rfl := List.map_eq_nil_iff.mp hl
    have hst : st.withSettings [] = st := by
      obtain ⟨current, outer, pending⟩ := st
      obtain rfl : pending = [] := hp
      rw [State.withSettings, List.append_nil]
    simp [readLines, hn, hst, eq_comm]
  | s :: slots, st, st', lines, hp, hn, hl => by
    rw [List.flatMap_cons] at hl
    obtain ⟨first, rest, rfl, hfirst, hrest⟩ := List.map_eq_append_iff.mp hl
    have hkeys : (st.withSettings [setting s]).current.settings.map Setting.key =
        st.current.settings.map Setting.key ++ [s.name] := by
      rw [State.withSettings, List.map_append]
      rfl
    have hstates : (st.withSettings [setting s]).withSettings (slots.map setting) =
        st.withSettings ((s :: slots).map setting) := by
      simp [State.withSettings]
    rw [readLines_append_eq_ok_iff, Named.names_cons]
    -- The name that was read goes over from those to come to those that are there.
    have hassoc : st.current.settings.map Setting.key ++ Named.name s :: Named.names slots =
        (st.current.settings.map Setting.key ++ [s.name]) ++ Named.names slots := by
      simp [Named.name]
    rw [hassoc]
    constructor
    · rintro ⟨next, hnext, hmore⟩
      obtain ⟨hfresh, rfl⟩ := (readLines_slotLines hp hfirst).mp hnext
      have hn' : ((st.withSettings [setting s]).current.settings.map Setting.key).Nodup := by
        rw [hkeys, ← List.concat_eq_append]
        exact hn.concat hfresh
      have ih := (readLines_slots _ _ rfl hn' hrest).mp hmore
      rwa [hkeys, hstates] at ih
    · rintro ⟨hall, rfl⟩
      have hn' := (List.nodup_append.mp hall).1
      have hfresh : s.name ∉ st.current.settings.map Setting.key := by
        intro hm
        exact (List.nodup_append.mp hn').2.2 _ hm _ (List.mem_singleton_self _) rfl
      refine ⟨_, (readLines_slotLines hp hfirst).mpr ⟨hfresh, rfl⟩, ?_⟩
      rw [← hkeys] at hn'
      refine (readLines_slots _ _ rfl hn' hrest).mpr ⟨?_, hstates.symm⟩
      rwa [hkeys]

/-! ### Reading blocks -/

/-- A name that can stand in a header has no blanks. -/
theorem trim_of_isHeaderName {name : Text} (h : IsHeaderName name) : Text.trim name = name := by
  have hblock := h.block
  simp only [isBlockName, Bool.and_eq_true, Bool.not_eq_true', List.any_eq_false,
    Bool.or_eq_true, not_or] at hblock
  exact Text.trim_of_not_blank fun c hc => by simpa using (hblock.2 c hc).2

/-- A name that can stand in a header has no slash. -/
theorem slash_not_mem_of_isHeaderName {name : Text} (h : IsHeaderName name) : '/' ∉ name := by
  have hblock := h.block
  simp only [isBlockName, Bool.and_eq_true, Bool.not_eq_true', List.any_eq_false,
    Bool.or_eq_true, not_or, beq_iff_eq] at hblock
  exact fun hm => (hblock.2 _ hm).1 rfl

/-- A name that can stand in a header opens a block. -/
theorem isClose_of_isHeaderName {name : Text} (h : IsHeaderName name) : isClose name = false := by
  rw [isClose, trim_of_isHeaderName h, Bool.or_eq_false_iff, decide_eq_false_iff_not,
    decide_eq_false_iff_not]
  constructor
  · rintro rfl
    have := h.block
    revert this
    decide
  · rintro rfl
    exact slash_not_mem_of_isHeaderName h (by decide)

/-- A name that can stand in a header is the name of the block that it opens. -/
theorem openName_of_isHeaderName {name : Text} (h : IsHeaderName name) : openName name = name := by
  have hslash := slash_not_mem_of_isHeaderName h
  rw [openName, trim_of_isHeaderName h]
  split
  · exact absurd (by simp) hslash
  · rfl

/-- **The header line of a block** opens its section. -/
theorem readLine_header {name comment : Text} {st : State} {line : List Lexeme}
    (hn : IsHeaderName name) (hfresh : name ∉ st.current.children.map Section.name)
    (hl : line.map Lexeme.token = .header name :: lineCommentTokens comment) :
    ∃ offset, readLine st line =
      .ok (st.opened name offset (Text.dropEndWhile (· == '\r') comment)) := by
  obtain ⟨l, rest, rfl, htoken, hrest⟩ := List.map_eq_cons_iff.mp hl
  obtain ⟨token, start, stop⟩ := l
  obtain rfl : token = .header name := htoken
  have hany : st.current.children.any (·.name = name) = false := by
    rw [List.any_eq_false]
    intro c hc hname
    exact hfresh (List.mem_map.mpr ⟨c, hc, of_decide_eq_true hname⟩)
  have hcomment : (if comment.isEmpty then none
      else some (Text.dropEndWhile (· == '\r') comment)).getD [] =
        Text.dropEndWhile (· == '\r') comment := by
    split
    · next he =>
      rw [List.isEmpty_iff.mp he]
      rfl
    · rfl
  refine ⟨start, ?_⟩
  rw [readLine, readHeader, takeComment_of_comment hrest]
  dsimp only
  rw [hcomment, isClose_of_isHeaderName hn, if_neg Bool.false_ne_true, openBlock,
    openName_of_isHeaderName hn, hn.block, hany]
  rfl

/-- **The last line of a block** closes its section. -/
theorem readLine_close {current parent : OpenSection} {outer : List OpenSection}
    {pending : List Text} {line : List Lexeme} (hl : line.map Lexeme.token = [.header []]) :
    readLine ⟨current, parent :: outer, pending⟩ line =
      .ok ⟨{ parent with children := parent.children ++ [current.close] }, outer, []⟩ := by
  obtain ⟨l, rest, rfl, htoken, hrest⟩ := List.map_eq_cons_iff.mp hl
  obtain rfl := List.map_eq_nil_iff.mp hrest
  obtain ⟨token, start, stop⟩ := l
  obtain rfl : token = .header [] := htoken
  rfl

/-- Without more sections the state is the same, if no comment waits. -/
theorem State.withChildren_nil {st : State} (hp : st.pending = []) : st.withChildren [] = st := by
  obtain ⟨current, outer, pending⟩ := st
  obtain rfl : pending = [] := hp
  rw [State.withChildren, List.append_nil]

/-- The name of a block that was read stands among those of the sections, and no longer among those
to come. -/
theorem names_withChildren (st : State) (b : Block) (bs : List Block) :
    (st.withChildren [sectionOf b]).current.children.map Section.name ++ Named.names bs =
      st.current.children.map Section.name ++ Named.names (b :: bs) := by
  rw [State.withChildren, List.map_append, List.map_singleton, name_sectionOf, List.append_assoc]
  rfl

/-- A block that is read in front of others is read as the first section. -/
theorem readLines_append_block {b : Block} {bs : List Block} {st st' : State}
    {first rest : List (List Lexeme)}
    (hfirst : ∀ next, readLines st first = .ok next ↔
      (∀ d ∈ b.descendants, d.Distinct) ∧ next = st.withChildren [sectionOf b])
    (hrest : readLines (st.withChildren [sectionOf b]) rest = .ok st' ↔
      (∀ c ∈ bs, ∀ d ∈ c.descendants, d.Distinct) ∧
        st' = (st.withChildren [sectionOf b]).withChildren (sectionsOf bs)) :
    readLines st (first ++ rest) = .ok st' ↔
      (∀ c ∈ b :: bs, ∀ d ∈ c.descendants, d.Distinct) ∧
        st' = st.withChildren (sectionsOf (b :: bs)) := by
  have hstates : (st.withChildren [sectionOf b]).withChildren (sectionsOf bs) =
      st.withChildren (sectionsOf (b :: bs)) := by
    rw [State.withChildren, State.withChildren, State.withChildren, List.append_assoc, sectionsOf]
    rfl
  rw [hstates] at hrest
  rw [readLines_append_eq_ok_iff]
  constructor
  · rintro ⟨next, hnext, hmore⟩
    obtain ⟨hdistinct, rfl⟩ := (hfirst next).mp hnext
    obtain ⟨hothers, hst⟩ := hrest.mp hmore
    exact ⟨List.forall_mem_cons.mpr ⟨hdistinct, hothers⟩, hst⟩
  · rintro ⟨hall, hst⟩
    obtain ⟨hdistinct, hothers⟩ := List.forall_mem_cons.mp hall
    exact ⟨_, (hfirst _).mpr ⟨hdistinct, rfl⟩, hrest.mpr ⟨hothers, hst⟩⟩

mutual

/-- **The lines of a block** are read as its section, unless two parameters of a block share a
name. -/
theorem readLines_blockLines (depth : Nat) : ∀ (b : Block), IsHeaderName b.name →
    (∀ d ∈ b.descendants, d.Readable) → ∀ {st st' : State} {lines : List (List Lexeme)},
      b.name ∉ st.current.children.map Section.name →
        lines.map (List.map Lexeme.token) = blockLines depth b →
          (readLines st lines = .ok st' ↔
            (∀ d ∈ b.descendants, d.Distinct) ∧ st' = st.withChildren [sectionOf b])
  | ⟨info, children, unused⟩, hn, hr, st, st', lines, hfresh, hl => by
    have hhere := hr _ (Block.mem_descendants_self _)
    rw [blockLines_mk] at hl
    obtain ⟨header, rest, rfl, hheader, hrest⟩ := List.map_eq_cons_iff.mp hl
    obtain ⟨inner, last, rfl, hinner, hlast⟩ := List.map_eq_append_iff.mp hrest
    obtain ⟨own, below, rfl, hown, hbelow⟩ := List.map_eq_append_iff.mp hinner
    obtain ⟨close, none, rfl, hclose, hnone⟩ := List.map_eq_cons_iff.mp hlast
    obtain rfl := List.map_eq_nil_iff.mp hnone
    obtain ⟨offset, hopen⟩ := readLine_header hn hfresh hheader
    -- What the settings, the sections inside and the end of the block make of the opened section.
    generalize hcomment :
      Text.dropEndWhile (· == '\r') (Text.replaceChar '\n' ' ' info.comments) = comment at hopen
    have hslots := fun next =>
      readLines_slots (st.opened info.name offset comment) next rfl List.nodup_nil hown
    have hblocks := fun next => readLines_blocksLines (depth + 1) children
      (fun c hc => ⟨hhere.names c hc, fun d hd => hr d (Block.mem_descendants_of_child hc hd)⟩)
      ((st.opened info.name offset comment).withSettings
        ((writtenSlots ⟨info, children, unused⟩).map setting)) next rfl hhere.nodup hbelow
    rw [sectionOf, hcomment]
    constructor
    · intro h
      obtain ⟨opened, hopened, h⟩ := readLines_cons_eq_ok_iff.mp h
      rw [hopen] at hopened
      cases hopened
      obtain ⟨filled, hfilled, h⟩ := readLines_append_eq_ok_iff.mp h
      obtain ⟨set, hset, hfilled⟩ := readLines_append_eq_ok_iff.mp hfilled
      obtain ⟨hdistinct, rfl⟩ := (hslots set).mp hset
      obtain ⟨hinside, rfl⟩ := (hblocks filled).mp hfilled
      rw [readLines_singleton, State.withChildren, State.withSettings, State.opened,
        readLine_close hclose] at h
      cases h
      refine ⟨?_, rfl⟩
      intro d hd
      rcases Block.mem_descendants_cases hd with rfl | ⟨c, hc, hd⟩
      · exact hdistinct
      · exact hinside c hc d hd
    · rintro ⟨hdistinct, rfl⟩
      refine readLines_cons_eq_ok_iff.mpr ⟨_, hopen, readLines_append_eq_ok_iff.mpr ⟨_,
        readLines_append_eq_ok_iff.mpr ⟨_, (hslots _).mpr ⟨?_, rfl⟩,
          (hblocks _).mpr ⟨?_, rfl⟩⟩, ?_⟩⟩
      · exact hdistinct _ (Block.mem_descendants_self _)
      · exact fun c hc d hd => hdistinct d (Block.mem_descendants_of_child hc hd)
      · rw [readLines_singleton, State.withChildren, State.withSettings, State.opened,
          readLine_close hclose]
        rfl

/-- The lines of blocks are read as their sections. -/
theorem readLines_blocksLines (depth : Nat) : ∀ (bs : List Block),
    (∀ b ∈ bs, IsHeaderName b.name ∧ ∀ d ∈ b.descendants, d.Readable) →
      ∀ (st st' : State) {lines : List (List Lexeme)}, st.pending = [] →
        (st.current.children.map Section.name ++ Named.names bs).Nodup →
          lines.map (List.map Lexeme.token) = blocksLines depth bs →
            (readLines st lines = .ok st' ↔ (∀ b ∈ bs, ∀ d ∈ b.descendants, d.Distinct) ∧
              st' = st.withChildren (sectionsOf bs))
  | [], _, st, st', lines, hp, _, hl => by
    obtain rfl := List.map_eq_nil_iff.mp hl
    simp [readLines, sectionsOf, State.withChildren_nil hp, eq_comm]
  | b :: bs, hb, st, st', lines, hp, hn, hl => by
    rw [blocksLines_cons] at hl
    obtain ⟨first, rest, rfl, hfirst, hrest⟩ := List.map_eq_append_iff.mp hl
    have hfresh : b.name ∉ st.current.children.map Section.name :=
      fun hm => (List.nodup_append.mp hn).2.2 _ hm _ List.mem_cons_self rfl
    obtain ⟨hname, hread⟩ := hb b List.mem_cons_self
    exact readLines_append_block
      (fun _ => readLines_blockLines depth b hname hread hfresh hfirst)
      (readLines_blocksLines depth bs (fun c hc => hb c (List.mem_cons_of_mem _ hc)) _ _ rfl
        (by rwa [names_withChildren]) hrest)

end

/-- The lines of the blocks below the root are read as their sections, with the empty line that
every list of lines ends in. -/
theorem readLines_topLines : ∀ (bs : List Block) (separate : Bool),
    (∀ b ∈ bs, IsHeaderName b.name ∧ ∀ d ∈ b.descendants, d.Readable) →
      ∀ (st st' : State) {lines : List (List Lexeme)}, st.pending = [] →
        (st.current.children.map Section.name ++ Named.names bs).Nodup →
          lines.map (List.map Lexeme.token) = topLines separate bs ++ [[]] →
            (readLines st lines = .ok st' ↔ (∀ b ∈ bs, ∀ d ∈ b.descendants, d.Distinct) ∧
              st' = st.withChildren (sectionsOf bs))
  | [], separate, _, st, st', lines, hp, _, hl => by
    obtain ⟨line, none, rfl, hline, hnone⟩ := List.map_eq_cons_iff.mp hl
    obtain rfl := List.map_eq_nil_iff.mp hnone
    obtain rfl := List.map_eq_nil_iff.mp hline
    have hst : ({ st with pending := [] } : State) = st := by rw [← hp]
    simp [readLines, readLine, sectionsOf, State.withChildren_nil hp, hst, eq_comm]
  | b :: bs, separate, hb, st, st', lines, hp, hn, hl => by
    rw [topLines_cons, List.append_assoc, List.append_assoc] at hl
    obtain ⟨empty, more, rfl, hempty, hmore⟩ := List.map_eq_append_iff.mp hl
    obtain ⟨first, rest, rfl, hfirst, hrest⟩ := List.map_eq_append_iff.mp hmore
    have hfresh : b.name ∉ st.current.children.map Section.name :=
      fun hm => (List.nodup_append.mp hn).2.2 _ hm _ List.mem_cons_self rfl
    obtain ⟨hname, hread⟩ := hb b List.mem_cons_self
    have hblocks := readLines_append_block
      (fun _ => readLines_blockLines 0 b hname hread hfresh hfirst)
      (readLines_topLines bs true (fun c hc => hb c (List.mem_cons_of_mem _ hc)) _ st' rfl
        (by rwa [names_withChildren]) hrest)
    -- The empty line in front of the block changes nothing.
    have hskip : readLines st empty = .ok st := by
      cases separate with
      | false =>
        obtain rfl := List.map_eq_nil_iff.mp hempty
        rfl
      | true =>
        obtain ⟨line, none, rfl, hline, hnone⟩ := List.map_eq_cons_iff.mp hempty
        obtain rfl := List.map_eq_nil_iff.mp hnone
        obtain rfl := List.map_eq_nil_iff.mp hline
        rw [readLines_singleton, readLine, ← hp]
    rw [readLines_append_eq_ok_iff, hskip]
    simpa using hblocks

/-- **The text of a document** is read as its outline, unless two parameters of a block share a
name. -/
theorem ofText_serialize_eq_ok_iff {indent : Text}
    (hi : ∀ c ∈ indent, Token.isFiller c = true) {root : Block}
    (hr : ∀ d ∈ root.descendants, d.Readable) {outline : Section} :
    Outline.ofText (root.serialize indent) = .ok outline ↔
      (∀ d ∈ root.descendants, d.Distinct) ∧ outline = outlineOf root := by
  have hhere := hr root (Block.mem_descendants_self root)
  obtain ⟨lexemes, hscan, htokens⟩ := (scans_serialize hi hr).exists_lexemes 0
  have hlines := lines_of_flatLines (newline_not_mem_pieces (documentPieces root)) htokens
  rw [← documentLines, documentLines_eq, List.append_assoc] at hlines
  -- The root has no header, so its parameters are read before any block is opened.
  obtain ⟨own, below, hsplit, hown, hbelow⟩ := List.map_eq_append_iff.mp hlines
  have hslots := fun next => readLines_slots State.start next rfl List.nodup_nil hown
  have htop := fun next => readLines_topLines root.children _ (fun b hb =>
    ⟨hhere.names b hb, fun d hd => hr d (Block.mem_descendants_of_child hb hd)⟩)
    (State.start.withSettings ((writtenSlots root).map setting)) next rfl hhere.nodup hbelow
  have hdistinct : (∀ d ∈ root.descendants, d.Distinct) ↔
      root.Distinct ∧ ∀ b ∈ root.children, ∀ d ∈ b.descendants, d.Distinct := by
    constructor
    · intro h
      exact ⟨h root (Block.mem_descendants_self root),
        fun b hb d hd => h d (Block.mem_descendants_of_child hb hd)⟩
    · rintro ⟨hroot, hinside⟩ d hd
      rcases Block.mem_descendants_cases hd with rfl | ⟨b, hb, hd⟩
      · exact hroot
      · exact hinside b hb d hd
  have hread : ∀ st', readLines State.start (lines lexemes) = .ok st' ↔
      (∀ d ∈ root.descendants, d.Distinct) ∧
        st' = (State.start.withSettings ((writtenSlots root).map setting)).withChildren
          (sectionsOf root.children) := by
    intro st'
    rw [hsplit, readLines_append_eq_ok_iff, hdistinct]
    constructor
    · rintro ⟨next, hnext, hmore⟩
      obtain ⟨hroot, rfl⟩ := (hslots next).mp hnext
      obtain ⟨hinside, hst⟩ := (htop st').mp hmore
      exact ⟨⟨hroot, hinside⟩, hst⟩
    · rintro ⟨⟨hroot, hinside⟩, hst⟩
      exact ⟨_, (hslots _).mpr ⟨hroot, rfl⟩, (htop st').mpr ⟨hinside, hst⟩⟩
  have hoftext : Outline.ofText (root.serialize indent) =
      (ofLexemes lexemes).mapError fun e => Fault.locate (root.serialize indent) e.1 e.2 := by
    rw [Outline.ofText, Lexeme.scan, hscan]
    rfl
  rw [hoftext, ofLexemes]
  rcases hst : readLines State.start (lines lexemes) with e | st'
  · constructor
    · intro h
      cases h
    · rintro ⟨hall, -⟩
      rw [(hread _).mpr ⟨hall, rfl⟩] at hst
      cases hst
  · obtain ⟨hall, rfl⟩ := (hread st').mp hst
    constructor
    · intro h
      cases h
      exact ⟨hall, rfl⟩
    · rintro ⟨-, rfl⟩
      rfl

end Layout

end BlockEdit
