import BlockEdit.Proofs.Grammar
import BlockEdit.Proofs.Places

/-!
# What the lines of a document write

Read from the top, each header that opens a block starts an entry at the place that it leads to, and
each setting adds a key with its text to the entry of the block that is open then. This is what the
outline of the document holds: its sections in order, each with its settings.

Main statements:

* **`Outline.exists_forms_of_readLines`**: what the lines add to what has been read.
* **`Outline.exists_forms_of_ofText`**: the entries of an outline are what the lines write.
-/

namespace BlockEdit

/-- The key of a setting and its text. -/
def Setting.written (s : Setting) : Text × Text := (s.key, s.value)

mutual

/-- The sections of an outline from the top, each with the names that lead to it and with its
settings. -/
def Section.entries (place : List Text) : Section → List (List Text × List Setting)
  | ⟨_, _, settings, children⟩ => (place, settings) :: Section.allEntries place children

/-- The sections below a place. -/
def Section.allEntries (place : List Text) : List Section → List (List Text × List Setting)
  | [] => []
  | s :: rest => s.entries (place ++ [s.name]) ++ Section.allEntries place rest

end

namespace Section

/-- The entries of sections one after the other are theirs one after the other. -/
theorem allEntries_append (place : List Text) : ∀ a b : List Section,
    allEntries place (a ++ b) = allEntries place a ++ allEntries place b
  | [], _ => rfl
  | s :: a, b => by
    rw [List.cons_append, allEntries, allEntries, allEntries_append place a b, List.append_assoc]

/-- What the first entry at a place has written. -/
def writtenAt (place : List Text) : List (List Text × List Setting) → List (Text × Text)
  | [] => []
  | (other, settings) :: rest =>
    if other = place then settings.map Setting.written else writtenAt place rest

variable {place other : List Text} {before after : List (List Text × List Setting)}
  {settings : List Setting}

/-- An entry counts when none of its place stands in front of it. -/
theorem writtenAt_append (place : List Text) : ∀ a b : List (List Text × List Setting),
    writtenAt place (a ++ b) =
      if place ∈ a.map Prod.fst then writtenAt place a else writtenAt place b
  | [], _ => rfl
  | (other, settings) :: a, b => by
    rw [List.cons_append, writtenAt, writtenAt, writtenAt_append place a b, List.map_cons]
    by_cases h : other = place
    · rw [if_pos h, if_pos (List.mem_cons.mpr (Or.inl h.symm)), if_pos h]
    · have hmem : place ∈ other :: a.map Prod.fst ↔ place ∈ a.map Prod.fst :=
        List.mem_cons.trans (or_iff_right (Ne.symm h))
      rw [if_neg h, if_neg h, if_congr hmem rfl rfl]

/-- An entry without settings has written nothing. -/
theorem writtenAt_concat_nil (place other : List Text) (before : List (List Text × List Setting)) :
    writtenAt place (before ++ [(other, [])]) = writtenAt place before := by
  induction before with
  | nil => simp [writtenAt]
  | cons entry before ih => rw [List.cons_append, writtenAt, writtenAt, ih]

/-- The only entry at a place has written what it says. -/
theorem writtenAt_of_mem {entries : List (List Text × List Setting)}
    (hn : (entries.map Prod.fst).Nodup) (h : (place, settings) ∈ entries) :
    writtenAt place entries = settings.map Setting.written := by
  obtain ⟨before, after, rfl⟩ := List.append_of_mem h
  rw [List.map_append, List.map_cons, List.nodup_append] at hn
  rw [writtenAt_append, if_neg fun hm => hn.2.2 place hm place List.mem_cons_self rfl, writtenAt,
    if_pos rfl]

/-- A setting that is added to an entry is written at its place and at no other. -/
theorem writtenAt_add (hn : ((before ++ (other, settings) :: after).map Prod.fst).Nodup)
    (place : List Text) (x : Setting) :
    writtenAt place (before ++ (other, settings ++ [x]) :: after) =
      writtenAt place (before ++ (other, settings) :: after) ++
        if other = place then [x.written] else [] := by
  have hn' : ((before ++ (other, settings ++ [x]) :: after).map Prod.fst).Nodup := by
    rw [List.map_append, List.map_cons] at hn ⊢
    exact hn
  split
  · next h =>
    subst h
    rw [writtenAt_of_mem hn (List.mem_append_right _ List.mem_cons_self),
      writtenAt_of_mem hn' (List.mem_append_right _ List.mem_cons_self), List.map_append]
    rfl
  · next h =>
    rw [List.append_nil, writtenAt_append, writtenAt_append, writtenAt, writtenAt, if_neg h,
      if_neg h]

end Section

namespace Outline

namespace Line

/-- The places of the blocks that lines open, in order, when the block at `place` is open before
them. -/
def openings : (place : List Text) → List Line → List (List Text)
  | _, [] => []
  | place, .opened name :: lines => (place ++ [name]) :: openings (place ++ [name]) lines
  | place, .close :: lines => openings place.dropLast lines
  | place, _ :: lines => openings place lines

/-- The keys with their texts that lines write into `block`, in order, when the block at `place` is
open before them. -/
def writtenIn (block : List Text) : (place : List Text) → List Line → List (Text × Text)
  | _, [] => []
  | place, .opened name :: lines => writtenIn block (place ++ [name]) lines
  | place, .close :: lines => writtenIn block place.dropLast lines
  | place, .setting key value :: lines =>
    (if place = block then [(key, value)] else []) ++ writtenIn block place lines
  | place, _ :: lines => writtenIn block place lines

end Line

/-! ### What has been read -/

/-- The entries of what has been read. -/
def State.entries (st : State) : List (List Text × List Setting) := st.whole.entries []

/-- The innermost section is the last of the entries, with what is inside of it. -/
theorem exists_entries_enclose : ∀ (outer : List OpenSection) (name : Text), ∃ before,
    ∀ s : Section, s.name = name → (enclose s outer).entries [] =
      before ++ s.entries (name :: outer.map OpenSection.name).dropLast.reverse
  | [], name => ⟨[], fun s _ => rfl⟩
  | parent :: outer, name => by
    obtain ⟨before, h⟩ := exists_entries_enclose outer parent.name
    refine ⟨before ++ (((parent.name :: outer.map OpenSection.name).dropLast.reverse,
      parent.settings) :: Section.allEntries
        (parent.name :: outer.map OpenSection.name).dropLast.reverse parent.children), ?_⟩
    rintro s rfl
    rw [enclose, h _ rfl, OpenSection.close, Section.entries, Section.allEntries_append,
      Section.allEntries, Section.allEntries, List.append_nil, List.map_cons,
      List.dropLast_cons_cons, List.reverse_cons, List.append_assoc, List.cons_append]

/-- **A line that is read** adds what it writes to the entries. -/
theorem entries_of_moves {st st' : State} {x : Line} (h : Line.Moves st x st')
    (hn : (st'.entries.map Prod.fst).Nodup) (lines : List Line) :
    st.entries.map Prod.fst ++ Line.openings st.place (x :: lines) =
        st'.entries.map Prod.fst ++ Line.openings st'.place lines ∧
      ∀ block, Section.writtenAt block st.entries ++ Line.writtenIn block st.place (x :: lines) =
        Section.writtenAt block st'.entries ++ Line.writtenIn block st'.place lines := by
  obtain ⟨before, hbefore⟩ := exists_entries_enclose st.outer st.current.name
  -- What was read before the open section does not depend on what is read into it.
  have hentries : st.entries = before ++
      (st.place, st.current.settings) :: Section.allEntries st.place st.current.children :=
    hbefore st.current.close rfl
  cases h with
  | blank => exact ⟨rfl, fun block => rfl⟩
  | comment => exact ⟨rfl, fun block => rfl⟩
  | @close parent outer ho =>
    have hwhole : st.entries = State.entries
        ⟨{ parent with children := parent.children ++ [st.current.close] }, outer, []⟩ := by
      rw [State.entries, State.whole, ho]
      rfl
    have hplace : State.place
        ⟨{ parent with children := parent.children ++ [st.current.close] }, outer, []⟩ =
          st.place.dropLast := by
      rw [State.place, State.place, ho, List.map_cons, List.map_cons, List.map_cons,
        List.dropLast_cons_cons, List.reverse_cons, List.dropLast_concat]
    rw [hwhole, hplace]
    exact ⟨rfl, fun block => rfl⟩
  | @opened name comment offset hname hfresh =>
    have hnext : (st.opened name offset comment).entries =
        st.entries ++ [(st.place ++ [name], [])] := by
      have := hbefore ({ st.current with children := st.current.children ++
        [(OpenSection.ofHeader name offset comment).close] } : OpenSection).close rfl
      rw [hentries, List.append_assoc]
      refine this.trans ?_
      rw [OpenSection.close, Section.entries, Section.allEntries_append]
      rfl
    have hplace : (st.opened name offset comment).place = st.place ++ [name] := by
      rw [State.place, State.place, State.opened, List.map_cons, List.map_cons,
        List.dropLast_cons_cons, List.reverse_cons]
      rfl
    rw [hnext, hplace]
    refine ⟨?_, fun block => ?_⟩
    · rw [List.map_append, List.append_assoc]
      rfl
    · rw [Section.writtenAt_concat_nil]
      rfl
  | @setting y hfresh =>
    have hnext : (st.withSettings [y]).entries = before ++
        (st.place, st.current.settings ++ [y]) ::
          Section.allEntries st.place st.current.children :=
      hbefore (st.withSettings [y]).current.close rfl
    have hfst : (st.withSettings [y]).entries.map Prod.fst = st.entries.map Prod.fst := by
      rw [hnext, hentries, List.map_append, List.map_append]
      rfl
    rw [hfst] at hn ⊢
    refine ⟨rfl, fun block => ?_⟩
    rw [hentries] at hn
    rw [hnext, Section.writtenAt_add hn, ← hentries, List.append_assoc]
    rfl

/-- **The lines that are read** add what they write to the entries. -/
theorem exists_forms_of_readLines : ∀ {lines : List (List Lexeme)} {st st' : State},
    readLines st lines = .ok st' → (st'.entries.map Prod.fst).Nodup →
      ∃ forms, List.Forall₂ Line.Says (lines.map (List.map Lexeme.token)) forms ∧
        st'.entries.map Prod.fst = st.entries.map Prod.fst ++ Line.openings st.place forms ∧
        ∀ block, Section.writtenAt block st'.entries =
          Section.writtenAt block st.entries ++ Line.writtenIn block st.place forms
  | [], st, st', h, _ => by
    cases h
    exact ⟨[], .nil, (List.append_nil _).symm, fun block => (List.append_nil _).symm⟩
  | line :: lines, st, st', h, hn => by
    obtain ⟨next, hline, h⟩ := readLines_cons_eq_ok_iff.mp h
    obtain ⟨x, hsays, hmoves⟩ := moves_of_readLine hline
    obtain ⟨forms, hforms, hplaces, hwritten⟩ := exists_forms_of_readLines h hn
    have hnext : (next.entries.map Prod.fst).Nodup := by
      rw [hplaces, List.nodup_append] at hn
      exact hn.1
    obtain ⟨hfirst, hall⟩ := entries_of_moves hmoves hnext forms
    exact ⟨x :: forms, .cons hsays hforms, hplaces.trans hfirst.symm,
      fun block => (hwritten block).trans (hall block).symm⟩

/-! ### Outlines -/

mutual

/-- In a regular section no two entries are at one place. -/
theorem nodup_entries : ∀ (s : Section), s.Regular → ∀ place : List Text,
    ((s.entries place).map Prod.fst).Nodup ∧
      ∀ p ∈ (s.entries place).map Prod.fst, ∃ below, p = place ++ below
  | ⟨name, comment, settings, children⟩, hr, place => by
    obtain ⟨hn, hbelow⟩ := nodup_allEntries children hr.inside hr.nodup place
    rw [Section.entries, List.map_cons]
    refine ⟨List.nodup_cons.mpr ⟨fun hm => ?_, hn⟩, fun p hp => ?_⟩
    · obtain ⟨n, -, below, he⟩ := hbelow place hm
      have := congrArg List.length he
      simp at this
    · rcases List.mem_cons.mp hp with rfl | hp
      · exact ⟨[], (List.append_nil _).symm⟩
      · obtain ⟨n, -, below, rfl⟩ := hbelow p hp
        exact ⟨n :: below, rfl⟩

/-- Where no name repeats among sections of one place, no path repeats among their entries, since
each path starts with the name of its section. -/
theorem nodup_allEntries : ∀ (ss : List Section), (∀ s ∈ ss, s.Regular) →
    (ss.map Section.name).Nodup → ∀ place : List Text,
      ((Section.allEntries place ss).map Prod.fst).Nodup ∧
        ∀ p ∈ (Section.allEntries place ss).map Prod.fst,
          ∃ n ∈ ss.map Section.name, ∃ below, p = place ++ n :: below
  | [], _, _, place => by
    rw [Section.allEntries]
    exact ⟨List.nodup_nil, fun p hp => by cases hp⟩
  | s :: ss, hr, hn, place => by
    rw [List.map_cons, List.nodup_cons] at hn
    obtain ⟨hfirst, hin⟩ := nodup_entries s (hr s List.mem_cons_self) (place ++ [s.name])
    obtain ⟨hrest, hothers⟩ :=
      nodup_allEntries ss (fun t ht => hr t (List.mem_cons_of_mem _ ht)) hn.2 place
    rw [Section.allEntries, List.map_append]
    refine ⟨List.nodup_append.mpr ⟨hfirst, hrest, ?_⟩, fun p hp => ?_⟩
    · rintro p hp q hq rfl
      obtain ⟨below, rfl⟩ := hin p hp
      obtain ⟨n, hmem, below', he⟩ := hothers _ hq
      rw [List.append_assoc, List.append_cancel_left_eq, List.singleton_append,
        List.cons.injEq] at he
      exact hn.1 (he.1 ▸ hmem)
    · rcases List.mem_append.mp hp with hp | hp
      · obtain ⟨below, rfl⟩ := hin p hp
        exact ⟨s.name, List.mem_cons_self, below, by rw [List.append_assoc]; rfl⟩
      · obtain ⟨n, hmem, below, rfl⟩ := hothers p hp
        exact ⟨n, List.mem_cons_of_mem _ hmem, below, rfl⟩

end

/-- **The outline of a document** has an entry for the document and one for each block that a line
opens, in order, and each entry has the settings that the lines write into its block. -/
theorem exists_forms_of_ofText {source : Text} {outline : Section}
    (h : ofText source = .ok outline) : ∃ lexemes forms, Lexeme.scan source = .ok lexemes ∧
      List.Forall₂ Line.Says ((lexemes.map Lexeme.token).splitOn .newline) forms ∧
      (outline.entries []).map Prod.fst = [] :: Line.openings [] forms ∧
      ∀ entry ∈ outline.entries [],
        entry.2.map Setting.written = Line.writtenIn entry.1 [] forms := by
  obtain ⟨lexemes, st, hscan, hread, houter, rfl⟩ := exists_readLines_of_ofText h
  have hentries : st.entries = st.current.close.entries [] := by
    rw [State.entries, State.whole, houter]
    rfl
  have hn : (st.entries.map Prod.fst).Nodup := by
    rw [hentries]
    exact (nodup_entries _ (regular_of_ofText h) []).1
  obtain ⟨forms, hforms, hplaces, hwritten⟩ := exists_forms_of_readLines hread hn
  rw [tokens_lines] at hforms
  have hscan' : Lexeme.scan source = .ok lexemes := by
    rw [Lexeme.scan, hscan]
    rfl
  rw [← hentries]
  refine ⟨lexemes, forms, hscan', hforms, hplaces, fun entry hentry => ?_⟩
  rw [← Section.writtenAt_of_mem hn hentry, hwritten]
  have hstart : Section.writtenAt entry.1 State.start.entries = [] :=
    Section.writtenAt_concat_nil entry.1 [] []
  rw [hstart]
  rfl

end Outline

end BlockEdit
