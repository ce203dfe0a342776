import BlockEdit.Proofs.Names
import BlockEdit.Proofs.WrittenOutline

/-!
# The places of settings

Lines only add to a document: a setting that was read stays where it is, in the section that was
open then. Which sections are open depends on the headers only, so the lines of a parameter are read
into the section of its block, whatever their values are read as.

Main statements:

* **`holds_readLines`**: a setting that was read stays in the document.
* **`place_readLines_pieces`**: which section is open behind the pieces of a document.
-/

namespace BlockEdit

/-- The setting stands in the section at this path below `s`. -/
def Section.Holds (s : Section) : List Text → Setting → Prop
  | [], x => x ∈ s.settings
  | n :: ns, x => ∃ c ∈ s.children, c.name = n ∧ c.Holds ns x

namespace Outline

/-! ### What reading a line can do -/

/-- What reading a line can do. -/
inductive Reads (st : State) : List Lexeme → State → Prop
  /-- An empty line or a comment changes the comments that wait. -/
  | quiet {line : List Lexeme} {pending : List Text}
      (h : ∀ l rest, line = l :: rest → ∃ body, l.token = .comment body) :
      Reads st line { st with pending }
  /-- A setting is added. -/
  | setting {key : Text} {start stop : Nat} {rest : List Lexeme} {x : Setting}
      (h : readSetting key start st.pending rest = .ok x) :
      Reads st (⟨.word key, start, stop⟩ :: rest) (st.withSettings [x])
  /-- The innermost section is closed. -/
  | close {inner : Text} {start stop : Nat} {rest : List Lexeme} {parent : OpenSection}
      {outer : List OpenSection} (hc : isClose inner = true) (ho : st.outer = parent :: outer) :
      Reads st (⟨.header inner, start, stop⟩ :: rest)
        ⟨{ parent with children := parent.children ++ [st.current.close] }, outer, []⟩
  /-- A section is opened. -/
  | opened {inner comment : Text} {start stop : Nat} {rest : List Lexeme}
      (hc : isClose inner = false) :
      Reads st (⟨.header inner, start, stop⟩ :: rest) (st.opened (openName inner) start comment)

/-- A header that is read closes a block or opens one, and the place moves with it. -/
theorem reads_of_readHeader {st st' : State} {inner : Text} {start stop : Nat}
    {rest : List Lexeme} (h : readHeader st inner start rest = .ok st') :
    Reads st (⟨.header inner, start, stop⟩ :: rest) st' := by
  rw [readHeader] at h
  rcases ht : takeComment rest with ⟨comment, more⟩
  rw [ht] at h
  dsimp only at h
  split at h
  · next hclose =>
    obtain ⟨next, hnext, h⟩ := Except.exists_of_bind_eq_ok h
    obtain ⟨_, -, h⟩ := Except.exists_of_bind_eq_ok h
    cases h
    rw [closeBlock] at hnext
    split at hnext
    · cases hnext
    · next parent outer houter =>
      cases hnext
      exact .close hclose houter
  · next hclose =>
    obtain ⟨next, hnext, h⟩ := Except.exists_of_bind_eq_ok h
    obtain ⟨_, -, h⟩ := Except.exists_of_bind_eq_ok h
    cases h
    rw [openBlock] at hnext
    split at hnext
    · cases hnext
    · split at hnext
      · cases hnext
      · cases hnext
        exact .opened (Bool.eq_false_iff.mpr hclose)

/-- **What a line that is read** does. -/
theorem reads_of_readLine {st st' : State} {line : List Lexeme} (h : readLine st line = .ok st') :
    Reads st line st' := by
  rcases line with _ | ⟨⟨token, start, stop⟩, rest⟩
  · cases h
    exact .quiet fun l rest hl => by cases hl
  · cases token with
    | comment body =>
      rw [readLine] at h
      rcases he : lineEnd rest with e | u
      · rw [he] at h
        cases h
      · rw [he] at h
        cases h
        refine .quiet fun l more hl => ?_
        cases hl
        exact ⟨body, rfl⟩
    | header inner => exact reads_of_readHeader h
    | word key =>
      rw [readLine] at h
      obtain ⟨x, hx, h⟩ := Except.exists_of_bind_eq_ok h
      obtain ⟨-, rfl⟩ := Layout.addSetting_eq_ok_iff.mp h
      exact .setting hx
    | _ => cases h

/-! ### Settings stay -/

/-- The section with the open sections around it closed. -/
def enclose : Section → List OpenSection → Section
  | s, [] => s
  | s, parent :: outer =>
    enclose ({ parent with children := parent.children ++ [s] } : OpenSection).close outer

/-- What has been read of the document. -/
def State.whole (st : State) : Section := enclose st.current.close st.outer

/-- The names of the open sections below the document, from the outside in. -/
def State.place (st : State) : List Text :=
  ((st.current :: st.outer).map OpenSection.name).dropLast.reverse

/-- A section that leaves a setting where it is leaves it where it is in the document. -/
theorem holds_enclose_mono {x : Setting} : ∀ (outer : List OpenSection) (s t : Section),
    t.name = s.name → (∀ ns, s.Holds ns x → t.Holds ns x) →
      ∀ ns, (enclose s outer).Holds ns x → (enclose t outer).Holds ns x
  | [], _, _, _, h, ns, hx => h ns hx
  | parent :: outer, s, t, hname, h, ns, hx => by
    refine holds_enclose_mono outer
      ({ parent with children := parent.children ++ [s] } : OpenSection).close
      ({ parent with children := parent.children ++ [t] } : OpenSection).close rfl ?_ ns hx
    rintro (_ | ⟨n, below⟩) hbelow
    · exact hbelow
    · obtain ⟨c, hc, hn, hinside⟩ := hbelow
      rcases List.mem_append.mp hc with hc | hc
      · exact ⟨c, List.mem_append_left _ hc, hn, hinside⟩
      · obtain rfl := List.mem_singleton.mp hc
        exact ⟨t, List.mem_append_right _ (List.mem_singleton_self t), hname.trans hn,
          h below hinside⟩

/-- A setting of the innermost section stands at its place in the document. -/
theorem holds_enclose {x : Setting} : ∀ (outer : List OpenSection) (s : Section) (ns : List Text),
    s.Holds ns x →
      (enclose s outer).Holds ((s.name :: outer.map OpenSection.name).dropLast.reverse ++ ns) x
  | [], _, _, hx => hx
  | parent :: outer, s, ns, hx => by
    have := holds_enclose outer
      ({ parent with children := parent.children ++ [s] } : OpenSection).close (s.name :: ns)
      ⟨s, List.mem_append_right _ (List.mem_singleton_self s), rfl, hx⟩
    rw [List.map_cons, List.dropLast_cons_cons, List.reverse_cons, List.append_assoc]
    exact this

/-- A setting of the open section stands at its place in the whole. -/
theorem holds_whole {st : State} {x : Setting} (h : x ∈ st.current.settings) :
    st.whole.Holds st.place x := by
  have := holds_enclose st.outer st.current.close [] h
  rwa [List.append_nil] at this

/-- **A line that is read** leaves the settings where they are. -/
theorem holds_readLine {st st' : State} {line : List Lexeme} (h : readLine st line = .ok st')
    {ns : List Text} {x : Setting} (hx : st.whole.Holds ns x) : st'.whole.Holds ns x := by
  cases reads_of_readLine h with
  | quiet _ => exact hx
  | @setting key start stop rest y hy =>
    refine holds_enclose_mono st.outer st.current.close
      (st.withSettings [y]).current.close rfl ?_ ns hx
    rintro (_ | ⟨n, below⟩) hbelow
    · exact List.mem_append_left _ hbelow
    · exact hbelow
  | close _ ho =>
    rw [State.whole, ho] at hx
    exact hx
  | opened _ =>
    refine holds_enclose_mono st.outer st.current.close
      ({ st.current with children := st.current.children ++ [_] } : OpenSection).close rfl ?_ ns hx
    rintro (_ | ⟨n, below⟩) hbelow
    · exact hbelow
    · obtain ⟨c, hc, hn, hinside⟩ := hbelow
      exact ⟨c, List.mem_append_left _ hc, hn, hinside⟩

/-- **Lines that are read** leave the settings where they are. -/
theorem holds_readLines {ns : List Text} {x : Setting} : ∀ {lines : List (List Lexeme)}
    {st st' : State}, readLines st lines = .ok st' → st.whole.Holds ns x → st'.whole.Holds ns x
  | [], st, st', h, hx => by
    cases h
    exact hx
  | line :: lines, st, st', h, hx => by
    obtain ⟨next, hline, h⟩ := readLines_cons_eq_ok_iff.mp h
    exact holds_readLines h (holds_readLine hline hx)

/-! ### Which section is open -/

/-- The place behind a line. -/
def lineMove (ns : List Text) : List Token → List Text
  | .header inner :: _ => if isClose inner then ns.dropLast else ns ++ [openName inner]
  | _ => ns

/-- **A line that is read** moves the place by its header only. -/
theorem place_readLine {st st' : State} {line : List Lexeme} (h : readLine st line = .ok st') :
    st'.place = lineMove st.place (line.map Lexeme.token) := by
  cases reads_of_readLine h with
  | quiet hquiet =>
    rcases line with _ | ⟨⟨token, start, stop⟩, rest⟩
    · rfl
    · obtain ⟨body, rfl⟩ : ∃ body, token = .comment body := hquiet _ rest rfl
      rfl
  | setting _ => rfl
  | @close inner start stop rest parent outer hc ho =>
    rw [List.map_cons, lineMove, if_pos hc]
    show (parent.name :: outer.map OpenSection.name).dropLast.reverse = st.place.dropLast
    rw [State.place, ho, List.map_cons, List.map_cons, List.dropLast_cons_cons, List.reverse_cons,
      List.dropLast_concat]
  | opened hc =>
    rw [List.map_cons, lineMove, if_neg (by simp [hc]), State.place, State.place, State.opened,
      List.map_cons, List.map_cons, List.dropLast_cons_cons, List.reverse_cons]
    rfl

/-- The place behind lines follows from their headers alone. -/
theorem place_readLines : ∀ {lines : List (List Lexeme)} {st st' : State},
    readLines st lines = .ok st' →
      st'.place = (lines.map (List.map Lexeme.token)).foldl lineMove st.place
  | [], st, st', h => by
    cases h
    rfl
  | line :: lines, st, st', h => by
    obtain ⟨next, hline, h⟩ := readLines_cons_eq_ok_iff.mp h
    rw [place_readLines h, place_readLine hline]
    rfl

end Outline

/-! ### The places of pieces -/

open Outline

/-- The place behind a piece. -/
def Piece.move (ns : List Text) : Piece → List Text
  | header _ b => ns ++ [b.name]
  | slot _ _ _ => ns
  | close _ => ns.dropLast
  | separator => ns

namespace Layout

/-- Comments do not move the place. -/
theorem foldl_lineMove_comments (ns bodies : List Text) :
    (bodies.map fun body => [Token.comment body]).foldl lineMove ns = ns := by
  induction bodies with
  | nil => rfl
  | cons body bodies ih => exact ih

/-- The lines of a piece move the place as the piece does. -/
theorem foldl_lineMove_piece {p : Piece} (hp : p.Readable) (ns : List Text) :
    p.lines.foldl lineMove ns = p.move ns := by
  cases p with
  | header depth b =>
    rw [Piece.lines, List.foldl_cons, lineMove, isClose_of_isHeaderName hp, openName_of_isHeaderName hp]
    rfl
  | slot depth b s =>
    rw [Piece.lines, slotLines, List.foldl_append, foldl_lineMove_comments]
    rfl
  | close depth => rfl
  | separator => rfl

/-- **The pieces of a document** move the place by the names of their blocks. -/
theorem foldl_lineMove_pieces : ∀ {ps : List Piece} (ns : List Text), (∀ p ∈ ps, p.Readable) →
    (ps.flatMap Piece.lines).foldl lineMove ns = ps.foldl Piece.move ns
  | [], ns, _ => rfl
  | p :: ps, ns, hp => by
    rw [List.flatMap_cons, List.foldl_append, foldl_lineMove_piece (hp p List.mem_cons_self),
      foldl_lineMove_pieces _ fun q hq => hp q (List.mem_cons_of_mem _ hq)]
    rfl

/-- Each parameter stands at the place of its block. -/
def InPlace : List Text → List Piece → Prop
  | _, [] => True
  | ns, p :: ps => (∀ depth b s, p = .slot depth b s → Path.segments b.path = ns) ∧
      InPlace (p.move ns) ps

/-- A parameter that is in place stands where the pieces before it have moved to. -/
theorem InPlace.slot {depth : Nat} {b : Block} {s : Slot} {after : List Piece} :
    ∀ (before : List Piece) {ns : List Text}, InPlace ns (before ++ .slot depth b s :: after) →
      Path.segments b.path = before.foldl Piece.move ns
  | [], _, h => h.1 depth b s rfl
  | _ :: before, _, h => InPlace.slot before h.2

/-- The parameters of a block are in place when the block is, and none of them moves the place. -/
theorem inPlace_slots {depth : Nat} {b : Block} {ns : List Text} {rest : List Piece}
    (hb : Path.segments b.path = ns) (h : InPlace ns rest) : ∀ slots : List Slot,
      InPlace ns (slots.map (Piece.slot depth b) ++ rest)
  | [] => h
  | s :: slots => by
    refine ⟨?_, inPlace_slots hb h slots⟩
    rintro _ _ _ he
    cases he
    exact hb

mutual

/-- **The parameters of a block** and of the blocks inside of it stand in their places. -/
theorem inPlace_blockPieces (depth : Nat) : ∀ b : Block, Block.All Block.Sound b →
    ∀ {ns : List Text} {rest : List Piece}, Path.segments b.path = ns ++ [b.name] →
      InPlace ns rest → InPlace ns (blockPieces depth b ++ rest)
  | ⟨info, children, unused⟩, h, ns, rest, hpath, hrest => by
    rw [blockPieces, List.cons_append, List.append_assoc, List.append_assoc]
    refine ⟨fun _ _ _ he => (by cases he), inPlace_slots hpath ?_ _⟩
    refine inPlace_blocksPieces (depth + 1) children (fun c hc => ⟨h.child c hc, ?_⟩) ?_
    · have hplaced := h.here.child c hc
      rw [hplaced.path, Path.segments_join_segment _ hplaced.segment, hpath]
    · refine ⟨fun _ _ _ he => (by cases he), ?_⟩
      rw [Piece.move, List.dropLast_concat]
      exact hrest

/-- The pieces of blocks in their places are in place, and leave the place where it was. -/
theorem inPlace_blocksPieces (depth : Nat) : ∀ bs : List Block, ∀ {ns : List Text}
    {rest : List Piece},
      (∀ b ∈ bs, Block.All Block.Sound b ∧ Path.segments b.path = ns ++ [b.name]) →
        InPlace ns rest → InPlace ns (blocksPieces depth bs ++ rest)
  | [], _, _, _, hrest => hrest
  | b :: bs, ns, rest, h, hrest => by
    rw [blocksPieces, List.append_assoc]
    obtain ⟨hsound, hpath⟩ := h b List.mem_cons_self
    exact inPlace_blockPieces depth b hsound hpath
      (inPlace_blocksPieces depth bs (fun c hc => h c (List.mem_cons_of_mem _ hc)) hrest)

end

/-- The pieces of a document are in place. -/
theorem inPlace_topPieces : ∀ (separate : Bool) (bs : List Block),
    (∀ b ∈ bs, Block.All Block.Sound b ∧ Path.segments b.path = [b.name]) →
      InPlace [] (topPieces separate bs)
  | _, [], _ => trivial
  | separate, b :: bs, h => by
    obtain ⟨hsound, hpath⟩ := h b List.mem_cons_self
    have hrest := inPlace_topPieces true bs fun c hc => h c (List.mem_cons_of_mem _ hc)
    have hblock := inPlace_blockPieces 0 b hsound hpath hrest
    rw [topPieces, List.append_assoc]
    cases separate with
    | false => exact hblock
    | true => exact ⟨fun _ _ _ he => (by cases he), hblock⟩

/-- **The parameters of a sound document** stand in their places. -/
theorem inPlace_documentPieces {root : Block} (h : Block.All Block.Sound root)
    (hp : root.path = Path.root) : InPlace [] (documentPieces root) := by
  have hsegments : Path.segments root.path = [] := by rw [hp, Path.segments_root]
  refine inPlace_slots hsegments (inPlace_topPieces _ _ fun b hb => ⟨h.child b hb, ?_⟩) _
  have hplaced := h.here.child b hb
  rw [hplaced.path, Path.segments_join_segment _ hplaced.segment, hsegments]
  rfl

end Layout

end BlockEdit
