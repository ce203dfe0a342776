import BlockEdit.Proofs.WrittenOutline

/-!
# Documents with the same text

The lines of a document say where each of its blocks starts and what is on the lines of each
parameter. So two documents that can be read have the same text only if they have the same blocks,
one after the other, and on the lines of their parameters the same names, the same values with the
same quotes and the same comments.

Main statements:

* **`Layout.map_line_of_flatMap`**: the lines of parameters tell them apart.
* **`Layout.lines_of_serialize_eq`**: the text of a document tells what is on the lines of each
  block.
-/

namespace BlockEdit

open Layout Outline

/-- A list is cut in one way only where a property holds for the first time. -/
theorem eq_of_append_cons {α : Type} {p : α → Bool} : ∀ {xs ys : List α} {x y : α}
    {xs' ys' : List α}, (∀ a ∈ xs, p a = false) → (∀ a ∈ ys, p a = false) → p x = true →
      p y = true → xs ++ x :: xs' = ys ++ y :: ys' → xs = ys ∧ x = y ∧ xs' = ys'
  | [], [], _, _, _, _, _, _, _, _, h => by
    cases h
    exact ⟨rfl, rfl, rfl⟩
  | [], b :: ys, x, _, _, _, _, hys, hx, _, h => by
    obtain ⟨rfl, -⟩ := List.cons.inj h
    rw [hys x List.mem_cons_self] at hx
    cases hx
  | a :: xs, [], _, y, _, _, hxs, _, _, hy, h => by
    obtain ⟨rfl, -⟩ := List.cons.inj h
    rw [hxs a List.mem_cons_self] at hy
    cases hy
  | a :: xs, b :: ys, _, _, _, _, hxs, hys, hx, hy, h => by
    obtain ⟨rfl, htail⟩ := List.cons.inj h
    obtain ⟨rfl, hrest⟩ := eq_of_append_cons (fun c hc => hxs c (List.mem_cons_of_mem _ hc))
      (fun c hc => hys c (List.mem_cons_of_mem _ hc)) hx hy htail
    exact ⟨rfl, hrest⟩

/-! ### What is on the lines of a parameter -/

/-- What is on the lines of a parameter: its name, its value as it is written, and its comment. -/
def Slot.line (s : Slot) : Text × Text × Text := (s.name, s.writtenText, s.comments)

/-- What is on the lines of the parameters of a block. -/
def Block.lines (b : Block) : List (Text × Text × Text) := (writtenSlots b).map Slot.line

/-- The value is written as its tokens are. -/
theorem Slot.writtenText_eq_flatMap (s : Slot) :
    s.writtenText = s.valueTokens.flatMap Token.lexeme := by
  rw [writtenText, valueTokens]
  split
  · rw [List.flatMap_singleton, quote, quoteToken]
    split
    · rfl
    · rfl
  · split
    · next hempty => exact List.isEmpty_iff.mp hempty
    · rw [List.flatMap_singleton, Token.lexeme]

namespace Layout

/-- Two parameters with the same line are written the same way. -/
theorem slotText_congr {s t : Slot} (h : s.line = t.line) (start : Text) :
    slotText start s = slotText start t := by
  simp only [Slot.line, Prod.mk.injEq] at h
  obtain ⟨hname, hvalue, hcomments⟩ := h
  rw [slotText, slotText, hname, hvalue, hcomments]

/-- What is on the lines of its parameters decides their text. -/
theorem flatMap_slotText_congr {ss ts : List Slot} (h : ss.map Slot.line = ts.map Slot.line)
    (start : Text) : ss.flatMap (slotText start) = ts.flatMap (slotText start) := by
  induction ss generalizing ts with
  | nil => rw [List.map_eq_nil_iff.mp h.symm]
  | cons s ss ih =>
    obtain ⟨t, ts, rfl, hfirst, hrest⟩ := List.map_eq_cons_iff.mp h.symm
    rw [List.flatMap_cons, List.flatMap_cons, slotText_congr hfirst.symm, ih hrest.symm]

/-- A comment is known from its lines above the parameter and from the one behind. -/
theorem eq_of_bodiesAbove {c d : Text} (ha : bodiesAbove c = bodiesAbove d)
    (hb : behind c = behind d) : c = d := by
  have hlines : Function.Injective
      fun line : Text => if line.isEmpty then [] else ' ' :: line := by
    intro a b h
    rcases a with _ | ⟨x, a⟩ <;> rcases b with _ | ⟨y, b⟩ <;> simp_all
  unfold bodiesAbove at ha
  unfold behind at hb
  by_cases hc : c.contains '\n' <;> by_cases hd : d.contains '\n'
  · rw [if_pos hc, if_pos hd] at ha
    rw [← Text.intercalate_pieces '\n' c, ← Text.intercalate_pieces '\n' d,
      List.map_injective_iff.mpr hlines ha]
  · rw [if_pos hc, if_neg hd] at ha
    exact absurd (List.map_eq_nil_iff.mp ha) (Text.pieces_ne_nil _ _)
  · rw [if_neg hc, if_pos hd] at ha
    exact absurd (List.map_eq_nil_iff.mp ha.symm) (Text.pieces_ne_nil _ _)
  · rwa [if_neg hc, if_neg hd] at hb

/-- Comments with the same tokens are the same. -/
theorem lineCommentTokens_injective : Function.Injective lineCommentTokens := by
  intro c d h
  rw [lineCommentTokens, lineCommentTokens] at h
  rcases c with _ | ⟨x, c⟩ <;> rcases d with _ | ⟨y, d⟩ <;> simp_all

/-- The tokens behind the name of a parameter are those of its value and of its comment. -/
theorem eq_of_valueTokens_append {s t : Slot} {c d : Text}
    (h : s.valueTokens ++ lineCommentTokens c = t.valueTokens ++ lineCommentTokens d) :
    s.valueTokens = t.valueTokens ∧ c = d := by
  have hvalue : ∀ s : Slot, ∀ token ∈ s.valueTokens, token.value?.isSome = true := by
    intro s token hm
    rcases s.valueTokens_cases with ⟨hnone, -⟩ | ⟨one, hone, hv⟩
    · rw [hnone] at hm
      cases hm
    · rw [hone, List.mem_singleton] at hm
      rw [hm, hv]
      rfl
  have hcomment : ∀ c : Text, ∀ token ∈ lineCommentTokens c, token.value?.isSome = false := by
    intro c token hm
    unfold lineCommentTokens at hm
    split at hm
    · cases hm
    · rw [List.mem_singleton.mp hm]
      rfl
  have hkeep : ∀ (s : Slot) (c : Text),
      (s.valueTokens ++ lineCommentTokens c).filter (·.value?.isSome) = s.valueTokens := by
    intro s c
    rw [List.filter_append, List.filter_eq_self.mpr (hvalue s),
      List.filter_eq_nil_iff.mpr fun token hm => by simp [hcomment c token hm], List.append_nil]
  have hsame : s.valueTokens = t.valueTokens := by rw [← hkeep s c, h, hkeep]
  rw [hsame] at h
  exact ⟨hsame, lineCommentTokens_injective (List.append_cancel_left h)⟩

/-- Whether a line starts with a word. -/
def startsWithWord : List Token → Bool
  | .word _ :: _ => true
  | _ => false

/-- The line that holds the value of a parameter. -/
def valueLine (s : Slot) : List Token :=
  .word s.name :: .assign :: (s.valueTokens ++ lineCommentTokens (behind s.comments))

/-- The lines of a parameter are those of its comment, if that stands above it, and then that of its
value. -/
theorem slotLines_append (s : Slot) (rest : List (List Token)) :
    slotLines s ++ rest =
      (bodiesAbove s.comments).map (fun body => [.comment body]) ++ valueLine s :: rest := by
  rw [slotLines, List.append_assoc]
  rfl

/-- No line of a comment starts with a word. -/
theorem startsWithWord_of_mem_bodies {bodies : List Text} :
    ∀ line ∈ bodies.map (fun body => [Token.comment body]), startsWithWord line = false := by
  intro line hm
  obtain ⟨body, -, rfl⟩ := List.mem_map.mp hm
  rfl

/-- What is on the lines of a parameter is read off their tokens. -/
theorem line_eq_of_valueLine {s t : Slot}
    (hb : bodiesAbove s.comments = bodiesAbove t.comments) (hv : valueLine s = valueLine t) :
    s.line = t.line := by
  simp only [valueLine, List.cons.injEq, Token.word.injEq, true_and] at hv
  obtain ⟨hname, hrest⟩ := hv
  obtain ⟨hvalue, hbehind⟩ := eq_of_valueTokens_append hrest
  rw [Slot.line, Slot.line, hname, s.writtenText_eq_flatMap, hvalue, ← t.writtenText_eq_flatMap,
    eq_of_bodiesAbove hb hbehind]

/-- **The lines of parameters** tell what is on them. -/
theorem map_line_of_flatMap : ∀ {ss ts : List Slot},
    ss.flatMap slotLines = ts.flatMap slotLines → ss.map Slot.line = ts.map Slot.line
  | [], [], _ => rfl
  | [], t :: ts, h => by
    rw [List.flatMap_cons, slotLines_append] at h
    exact absurd h (List.append_ne_nil_of_right_ne_nil _ (List.cons_ne_nil _ _)).symm
  | s :: ss, [], h => by
    rw [List.flatMap_cons, slotLines_append] at h
    exact absurd h (List.append_ne_nil_of_right_ne_nil _ (List.cons_ne_nil _ _))
  | s :: ss, t :: ts, h => by
    rw [List.flatMap_cons, List.flatMap_cons, slotLines_append, slotLines_append] at h
    obtain ⟨hbodies, hvalue, hrest⟩ := eq_of_append_cons startsWithWord_of_mem_bodies
      startsWithWord_of_mem_bodies rfl rfl h
    have hmark : Function.Injective fun body => [Token.comment body] := by
      intro a b hab
      simpa using hab
    rw [List.map_cons, List.map_cons,
      line_eq_of_valueLine (List.map_injective_iff.mpr hmark hbodies) hvalue,
      map_line_of_flatMap hrest]

end Layout

/-! ### Blocks with the same lines -/

namespace Block

/-- Blocks that correspond with all that is inside of them correspond one after the other. -/
theorem forall₂_allDescendants {R : Block → Block → Prop} {bs cs : List Block}
    (h : List.Forall₂ (fun b c => List.Forall₂ R b.descendants c.descendants) bs cs) :
    List.Forall₂ R (allDescendants bs) (allDescendants cs) := by
  induction h with
  | nil => exact .nil
  | cons h _ ih =>
    rw [allDescendants, allDescendants]
    exact List.rel_append h ih

/-- The lines of both blocks are the same, with everything inside of them. -/
def SameText (b c : Block) : Prop :=
  ∀ indent depth, blockText indent depth c = blockText indent depth b

/-- Blocks with the same lines have the same text for their parameters. -/
theorem slotsText_congr {b c : Block} (h : c.lines = b.lines) (start : Text) :
    slotsText start c = slotsText start b :=
  flatMap_slotText_congr h start

namespace SameText

variable {b c : Block} {bs cs : List Block}

/-- Blocks with the same text one by one have it together. -/
theorem blocksText (h : List.Forall₂ SameText bs cs) (indent : Text) (depth : Nat) :
    Layout.blocksText indent depth cs = Layout.blocksText indent depth bs := by
  induction h with
  | nil => rfl
  | cons h _ ih => rw [Layout.blocksText, Layout.blocksText, h, ih]

/-- Blocks that stand at the top have the same text, with the lines between them, when each of them
has. -/
theorem topText (h : List.Forall₂ SameText bs cs) (indent : Text) : ∀ separate : Bool,
    Layout.topText indent separate cs = Layout.topText indent separate bs := by
  induction h with
  | nil => exact fun _ => rfl
  | cons h _ ih =>
    intro separate
    rw [Layout.topText, Layout.topText, h, ih]

/-- **Blocks have the same lines** when they say the same and those inside of them do. -/
theorem of_children (hname : c.name = b.name) (hcomments : c.info.comments = b.info.comments)
    (hlines : c.lines = b.lines) (h : List.Forall₂ SameText b.children c.children) :
    SameText b c := by
  intro indent depth
  have hheader : headerText (margin indent depth) c = headerText (margin indent depth) b := by
    rw [headerText, headerText, hname, hcomments]
  have hslots := slotsText_congr hlines (margin indent (depth + 1))
  have hinside := blocksText h indent (depth + 1)
  obtain ⟨bi, bc, bu⟩ := b
  obtain ⟨ci, cc, cu⟩ := c
  rw [blockText, blockText, hheader, hslots, hinside]

/-- **Documents have the same text** when their roots have the same parameters and the blocks below
have the same lines. -/
theorem serialize (hlines : c.lines = b.lines) (h : List.Forall₂ SameText b.children c.children)
    (indent : Text) : c.serialize indent = b.serialize indent := by
  unfold Block.serialize
  dsimp only
  rw [slotsText_congr hlines, topText h]

end SameText

end Block

/-! ### Where the blocks start -/

namespace Layout

/-- The line that a block starts with. -/
def headerLine (b : Block) : List Token :=
  .header b.name :: lineCommentTokens (Text.replaceChar '\n' ' ' b.info.comments)

/-- The lines of the parameters of a block. -/
def ownLines (b : Block) : List (List Token) := (writtenSlots b).flatMap slotLines

/-- Whether a line says something about a block: it is not the end of one, nor empty. -/
def saysSomething (line : List Token) : Bool := line != [] && line != [.header []]

/-- Whether a line starts with a header. -/
def startsWithHeader : List Token → Bool
  | .header _ :: _ => true
  | _ => false

/-- No line of a parameter starts with a header. -/
theorem startsWithHeader_of_mem_slotLines {s : Slot} {line : List Token}
    (h : line ∈ slotLines s) : startsWithHeader line = false := by
  rcases List.mem_append.mp h with hm | hm
  · obtain ⟨body, -, rfl⟩ := List.mem_map.mp hm
    rfl
  · rw [List.mem_singleton.mp hm]
    rfl

/-- No line of a block's parameters starts with a header. -/
theorem startsWithHeader_of_mem_ownLines {b : Block} {line : List Token}
    (h : line ∈ ownLines b) : startsWithHeader line = false := by
  obtain ⟨s, -, hm⟩ := List.mem_flatMap.mp h
  exact startsWithHeader_of_mem_slotLines hm

/-- Every line of a block's parameters says something. -/
theorem filter_ownLines (b : Block) : (ownLines b).filter saysSomething = ownLines b := by
  refine List.filter_eq_self.mpr fun line hline => ?_
  have hheader := startsWithHeader_of_mem_ownLines hline
  obtain ⟨s, -, hm⟩ := List.mem_flatMap.mp hline
  have hne : line ≠ [] := by
    rcases List.mem_append.mp hm with hm | hm
    · obtain ⟨body, -, rfl⟩ := List.mem_map.mp hm
      exact List.cons_ne_nil _ _
    · rw [List.mem_singleton.mp hm]
      exact List.cons_ne_nil _ _
  have hend : line ≠ [.header []] := by
    rintro rfl
    cases hheader
  simp [saysSomething, hne, hend]

/-- The line that a block with a name starts with says something. -/
theorem saysSomething_headerLine {b : Block} (h : b.name ≠ []) :
    saysSomething (headerLine b) = true := by
  simp [saysSomething, headerLine, h]

mutual

/-- **The lines of a block** that say something are the headers and the parameters of the block and
of those inside of it. -/
theorem filter_blockLines (depth : Nat) : ∀ b : Block, (∀ d ∈ b.descendants, d.name ≠ []) →
    (blockLines depth b).filter saysSomething =
      b.descendants.flatMap fun d => headerLine d :: ownLines d
  | ⟨info, children, unused⟩, h => by
    have hinside := filter_blocksLines (depth + 1) children fun c hc d hd =>
      h d (Block.mem_descendants_of_child hc hd)
    -- A header without a name would be the end of a block, so the name is needed here.
    have hheader := saysSomething_headerLine (h _ (Block.mem_descendants_self _))
    have hown := filter_ownLines ⟨info, children, unused⟩
    rw [headerLine] at hheader
    rw [ownLines] at hown
    rw [blockLines_mk, List.filter_cons_of_pos hheader, List.filter_append, List.filter_append,
      hinside, hown, Block.descendants_eq_cons, List.flatMap_cons, Block.inside,
      Block.allDescendants_eq_flatMap, List.flatMap_assoc,
      List.filter_cons_of_neg (by decide), List.filter_nil, List.append_nil]
    rfl

/-- What the lines of blocks say is, block by block, the header and the lines of the parameters. -/
theorem filter_blocksLines (depth : Nat) : ∀ bs : List Block,
    (∀ b ∈ bs, ∀ d ∈ b.descendants, d.name ≠ []) →
      (blocksLines depth bs).filter saysSomething =
        bs.flatMap fun b => b.descendants.flatMap fun d => headerLine d :: ownLines d
  | [], _ => rfl
  | b :: bs, h => by
    rw [blocksLines_cons, List.filter_append, List.flatMap_cons,
      filter_blockLines depth b (h b List.mem_cons_self),
      filter_blocksLines depth bs fun c hc => h c (List.mem_cons_of_mem _ hc)]

end

/-- What the lines of a document say is the same: the lines between its blocks say nothing. -/
theorem filter_topLines : ∀ (separate : Bool) (bs : List Block),
    (∀ b ∈ bs, ∀ d ∈ b.descendants, d.name ≠ []) →
      (topLines separate bs).filter saysSomething =
        bs.flatMap fun b => b.descendants.flatMap fun d => headerLine d :: ownLines d
  | _, [], _ => rfl
  | separate, b :: bs, h => by
    have hempty : (if separate then [([] : List Token)] else []).filter saysSomething = [] := by
      cases separate with
      | false => rfl
      | true => rfl
    rw [topLines_cons, List.filter_append, List.filter_append, List.flatMap_cons, hempty,
      List.nil_append, filter_blockLines 0 b (h b List.mem_cons_self),
      filter_topLines true bs fun c hc => h c (List.mem_cons_of_mem _ hc)]

/-- **The lines of a document** that say something, block by block. -/
theorem filter_documentLines {root : Block} (h : ∀ d ∈ root.inside, d.name ≠ []) :
    (documentLines root).filter saysSomething =
      ownLines root ++ root.inside.flatMap fun d => headerLine d :: ownLines d := by
  have hchildren : ∀ b ∈ root.children, ∀ d ∈ b.descendants, d.name ≠ [] :=
    fun b hb d hd => h d (Block.mem_inside_of_child hb hd)
  rw [documentLines_eq, List.filter_append, filter_topLines _ _ hchildren, Block.inside,
    Block.allDescendants_eq_flatMap, List.flatMap_assoc]
  exact congrArg (· ++ _) (filter_ownLines root)

/-- **Blocks are told apart** by their headers. In front of the first header stand the lines `xs`
and `ys` of a block that has started before. -/
theorem map_lines_of_append : ∀ {bs cs : List Block} {xs ys : List (List Token)},
    (∀ line ∈ xs, startsWithHeader line = false) → (∀ line ∈ ys, startsWithHeader line = false) →
      (xs ++ bs.flatMap fun d => headerLine d :: ownLines d) =
          (ys ++ cs.flatMap fun d => headerLine d :: ownLines d) →
        xs = ys ∧ bs.map Block.lines = cs.map Block.lines
  | [], [], xs, ys, _, _, h => by
    rw [List.flatMap_nil, List.append_nil, List.append_nil] at h
    exact ⟨h, rfl⟩
  | [], c :: cs, xs, ys, hxs, _, h => by
    have hmem : headerLine c ∈ xs := by
      rw [List.flatMap_nil, List.append_nil] at h
      rw [h]
      simp
    cases hxs _ hmem
  | b :: bs, [], xs, ys, _, hys, h => by
    have hmem : headerLine b ∈ ys := by
      rw [List.flatMap_nil, List.append_nil] at h
      rw [← h]
      simp
    cases hys _ hmem
  | b :: bs, c :: cs, xs, ys, hxs, hys, h => by
    rw [List.flatMap_cons, List.flatMap_cons, List.cons_append, List.cons_append] at h
    obtain ⟨hfirst, -, hrest⟩ := eq_of_append_cons hxs hys rfl rfl h
    obtain ⟨hown, hothers⟩ := map_lines_of_append
      (fun _ hm => startsWithHeader_of_mem_ownLines hm)
      (fun _ hm => startsWithHeader_of_mem_ownLines hm) hrest
    have hlines : b.lines = c.lines := map_line_of_flatMap hown
    exact ⟨hfirst, by rw [List.map_cons, List.map_cons, hlines, hothers]⟩

/-! ### The text of a document -/

/-- The blocks below the root of a document that can be read have names. -/
theorem name_ne_nil_of_readable {root : Block} (hr : ∀ d ∈ root.descendants, d.Readable) :
    ∀ d ∈ root.inside, d.name ≠ [] := by
  intro d hd hname
  obtain ⟨parent, hparent, hchild⟩ := Block.exists_parent_of_mem_inside hd
  have hblock := ((hr parent hparent).names d hchild).block
  rw [hname] at hblock
  cases hblock

/-- A document that can be read has the lines that its text is cut into. -/
theorem documentLines_eq_of_serialize {indent : Text} (hi : ∀ c ∈ indent, Token.isFiller c = true)
    {root other : Block} (hr : ∀ d ∈ root.descendants, d.Readable)
    (ho : ∀ d ∈ other.descendants, d.Readable)
    (h : other.serialize indent = root.serialize indent) :
    documentLines other = documentLines root := by
  obtain ⟨lexemes, hscan, htokens⟩ := (scans_serialize hi hr).exists_lexemes 0
  obtain ⟨lexemes', hscan', htokens'⟩ := (scans_serialize hi ho).exists_lexemes 0
  rw [h, hscan] at hscan'
  cases hscan'
  have hlines := lines_of_flatLines (newline_not_mem_pieces (documentPieces root)) htokens
  have hlines' := lines_of_flatLines (newline_not_mem_pieces (documentPieces other)) htokens'
  exact List.append_cancel_right (hlines'.symm.trans hlines)

/-- **The text of a document** tells what is on the lines of each block. -/
theorem lines_of_serialize_eq {indent : Text} (hi : ∀ c ∈ indent, Token.isFiller c = true)
    {root other : Block} (hr : ∀ d ∈ root.descendants, d.Readable)
    (ho : ∀ d ∈ other.descendants, d.Readable)
    (h : other.serialize indent = root.serialize indent) :
    other.descendants.map Block.lines = root.descendants.map Block.lines := by
  have hlines := congrArg (List.filter saysSomething) (documentLines_eq_of_serialize hi hr ho h)
  rw [filter_documentLines (name_ne_nil_of_readable hr),
    filter_documentLines (name_ne_nil_of_readable ho)] at hlines
  obtain ⟨hown, hrest⟩ := map_lines_of_append
    (fun _ hm => startsWithHeader_of_mem_ownLines hm)
    (fun _ hm => startsWithHeader_of_mem_ownLines hm) hlines
  have hfirst : other.lines = root.lines := map_line_of_flatMap hown
  rw [Block.descendants_eq_cons, Block.descendants_eq_cons, List.map_cons, List.map_cons, hfirst,
    hrest]

end Layout

end BlockEdit
