import BlockEdit.Proofs.Settling

/-!
# What a text means

The catalog says what a block is before anything is written in it: `Block.blank`. What is written
in the block then decides everything else: `type` chooses a subtype, each key that is written gives
its parameter a value, and a key that names no parameter makes a new one. `Block.Means` is this, key
by key, with the warnings that come of it; it does not say in which order the keys are bound.

Main statements:

* **`Block.means_of_settles`**: what a block means when settings were bound to it.
* **`Block.stands_grow`**: the blocks that a section grows into mean what is written in them.
* **`Block.exists_meaning_of_parse`**: what the tree of a text is, block by block.
-/

namespace BlockEdit

/-- The slot `s` is `o` with the text that was written for it: read as the type that `o` has, or
else as the type of the same shape that takes any text. -/
def Slot.Reads (s o : Slot) (t : Text) : Prop :=
  match o.type.read t with
  | .ok v => s.type = o.type ∧ s.value = some v
  | .error _ => s.type = o.type.relaxed ∧ ∃ v, o.type.relaxed.read t = .ok v ∧ s.value = some v

namespace Block

open Outline

/-- The block `b` is what the block `start` at rest becomes when each of these keys is written once
in it, with its text. -/
structure Means (start : Block) (given : List (Text × Text)) (b : Block) : Prop where
  /-- No key is written twice. -/
  once : (Named.names given).Nodup
  /-- The catalog says the same about both. -/
  schema : b.info.schema = start.info.schema
  /-- The active subtype is the one that `type` chooses. -/
  subtype : b.info.subtype = start.chosen? given
  /-- No two parameters share a name. -/
  nodup : (Named.names b.allParameters).Nodup
  /-- The parameters are those that the catalog gives the block and those that are written. -/
  names : ∀ n, n ∈ Named.names b.allParameters ↔
    n ∈ Named.names (start.declared given) ∨ n ∈ Named.names given
  /-- The parameters that are set are those that are written. -/
  explicit : ∀ s ∈ b.allParameters, s.explicit = true ↔ s.name ∈ Named.names given
  /-- A parameter that is not written is as the catalog gives it, at its default. -/
  unwritten : ∀ s ∈ b.allParameters, s.name ∉ Named.names given →
    s ∈ start.declared given ∧ s.value = s.default
  /-- A parameter that is written holds its text, unless it is the `type` that chooses a subtype. -/
  written : ∀ s ∈ b.allParameters, ∀ o ∈ start.declared given, ∀ t, o.name = s.name →
    (s.name, t) ∈ given → (s.name = Slot.typeName → start.chosen? given = none) → s.Reads o t
  /-- The `type` that chooses a subtype holds the name of it; one that is no list is a text. -/
  type : ∀ t, start.chosen? given = some t → ∃ s o v, s ∈ b.allParameters ∧
    Named.find? Slot.typeName start.info.parameters = some o ∧ s.name = Slot.typeName ∧
    s.type = o.type.relaxed ∧ o.type.relaxed.read t = .ok v ∧ s.value = some v ∧
    (o.type.isArray = false → s.type = ValueType.string ∧ s.value = some (Value.ofText t))
  /-- A key that the catalog does not know is a text, and it is the user's when the catalog knows
  the block. -/
  unknown : ∀ s ∈ b.allParameters, ∀ t, (s.name, t) ∈ given →
    s.name ∉ Named.names (start.declared given) →
      s.type = ValueType.string ∧ s.value = some (Value.ofText t) ∧ s.userAdded = b.isKnown
  /-- The block has one warning for each oddity, and no other. -/
  warnings : b.info.warnings.Perm
    (start.typeOddities given ++ given.flatMap (start.oddities given))

variable {start b c : Block} {given : List (Text × Text)} {settings : List Setting}

/-! ### What a settled block means -/

/-- A slot that takes a setting reads its text. -/
theorem reads_take (o : Slot) (x : Setting) : (o.take x).Reads o x.value := by
  rw [Slot.Reads]
  rcases h : o.type.read x.value with e | v
  · obtain ⟨v, hv⟩ := ValueType.exists_read_relaxed o.type x.value
    rw [Slot.take_of_error h]
    refine ⟨rfl, v, hv, ?_⟩
    show (o.type.relaxed.read x.value).toOption = some v
    rw [hv]
    rfl
  · rw [Slot.take_of_ok h]
    exact ⟨rfl, rfl⟩

/-- **A settled block** means what is written in it. -/
theorem means_of_settles (hb : b.AtRest) (hn : (Named.names settings).Nodup)
    (h : b.Settles settings c) : b.Means (settings.map Setting.written) c where
  once := by rwa [names_written]
  schema := h.schema
  subtype := h.subtype
  nodup := h.nodup
  names := by
    intro n
    rw [names_written]
    exact h.mem_names_iff n
  explicit := by
    intro s hs
    rw [names_written]
    rcases (h.parameters s).mp hs with ⟨o, ho, rfl⟩ | ⟨x, hx, -, rfl⟩
    · obtain ⟨p, rfl⟩ := hb.exists_of_mem_declared ho
      rw [name_settle]
      exact explicit_settle rfl
    · refine iff_of_true ?_ (Named.mem_names.mpr ⟨x, hx, (name_newSlot b x).symm⟩)
      rw [newSlot]
      split
      · rfl
      · rfl
  unwritten := by
    intro s hs hnot
    rw [names_written] at hnot
    rcases (h.parameters s).mp hs with ⟨o, ho, rfl⟩ | ⟨x, hx, -, rfl⟩
    · rw [name_settle] at hnot
      rw [settle_of_not_mem hnot]
      obtain ⟨p, rfl⟩ := hb.exists_of_mem_declared ho
      exact ⟨ho, rfl⟩
    · exact absurd (Named.mem_names.mpr ⟨x, hx, (name_newSlot b x).symm⟩) hnot
  written := by
    intro s hs o ho t hname ht htype
    obtain ⟨x, -, -, rfl, hx⟩ := exists_of_mem_written hn ht
    rw [← hname] at hx htype
    rw [h.eq_settle hb hs ho hname, settle_of_find? hx htype]
    exact reads_take o x
  type := fun t ht => h.exists_type hb ht
  unknown := by
    intro s hs t ht hnot
    obtain ⟨x, -, -, rfl, hx⟩ := exists_of_mem_written hn ht
    have hknown : c.isKnown = b.isKnown := by
      rw [isKnown, isKnown, h.schema]
    rw [hknown, h.eq_newSlot hn hs hnot hx, newSlot]
    split
    · next hk => exact ⟨rfl, rfl, hk.symm⟩
    · next hk => exact ⟨rfl, rfl, (Bool.eq_false_iff.mpr hk).symm⟩
  warnings := h.warnings

/-- Only the schema, the path, the parameters, the subtype and the warnings count for what a block
means. -/
theorem Means.congr {start' c : Block} (h : start.Means given b)
    (hs : start'.info.schema = start.info.schema)
    (hp : start'.info.parameters = start.info.parameters) (hpath : start'.path = start.path)
    (hc : c.info.schema = b.info.schema ∧ c.info.subtype = b.info.subtype ∧
      c.info.parameters = b.info.parameters ∧
      c.info.subtypeParameters = b.info.subtypeParameters ∧ c.info.warnings = b.info.warnings) :
    start'.Means given c := by
  obtain ⟨hschema, hsubtype, hown, hlive, hwarnings⟩ := hc
  have hall : c.allParameters = b.allParameters := by
    rw [allParameters, allParameters, hown, hlive]
  have hknown : c.isKnown = b.isKnown := by
    rw [isKnown, isKnown, hschema]
  have hsub : start'.subtypeSchema? = start.subtypeSchema? := by
    funext t
    rw [subtypeSchema?, subtypeSchema?, hs]
  have hnames : start'.subtypeNames = start.subtypeNames := by
    rw [subtypeNames, subtypeNames, hs]
  have hchosen : start'.chosen? given = start.chosen? given := by
    unfold chosen? hasSubtype
    rw [hsub]
  have hmaterialize : start'.materialize = start.materialize := by
    funext schema
    rw [materialize, materialize, hp]
  have hdeclared : start'.declared given = start.declared given := by
    rw [declared, declared, hp, hchosen, hsub, hmaterialize]
  have hodd : start'.oddities given = start.oddities given := by
    funext written
    rw [oddities, oddities, hchosen, hdeclared, hpath]
  have htype : start'.typeOddities given = start.typeOddities given := by
    unfold typeOddities
    rw [hnames, hchosen, hpath]
  constructor
  case once => exact h.once
  case schema => rw [hschema, hs, h.schema]
  case subtype => rw [hsubtype, hchosen, h.subtype]
  case nodup => rw [hall]; exact h.nodup
  case names => rw [hall, hdeclared]; exact h.names
  case explicit => rw [hall]; exact h.explicit
  case unwritten => rw [hall, hdeclared]; exact h.unwritten
  case written => rw [hall, hdeclared, hchosen]; exact h.written
  case type => rw [hall, hchosen, hp]; exact h.type
  case unknown => rw [hall, hdeclared, hknown]; exact h.unknown
  case warnings => rw [hwarnings, hodd, htype]; exact h.warnings

/-! ### The blocks of a tree -/

/-- The block stands where the entry of an outline says, and means what is written there. -/
structure Stands (catalog : Catalog) (b : Block) (entry : List Text × List Setting) : Prop where
  /-- The path is made of the names that lead to the block. -/
  path : b.path = Path.ofSegments entry.1
  /-- These names are read off the path. -/
  segments : Path.segments b.path = entry.1
  /-- The block is part of the document. -/
  included : b.info.included = true
  /-- The block means what is written in it. -/
  means : (b.blank catalog).Means (entry.2.map Setting.written) b

variable {catalog : Catalog} {path : Text} {offers : List Block} {place : List Text}

/-- What a section starts from means what the section writes in it. -/
theorem means_sprout (ho : ∀ c ∈ offers, Offered catalog path c) (name comment : Text)
    (hn : (Named.names settings).Nodup) :
    (described catalog (Path.join path name) name).Means (settings.map Setting.written)
      (sprout catalog path offers name comment settings) := by
  have hseed := offered_seed ho name
  have hname := name_seed catalog path offers name
  have hpath : (seed catalog path offers name).path = Path.join path name := by
    rw [hseed.path, hname]
  obtain ⟨included, userAdded, hinfo⟩ := hseed.described.here
  rw [hpath, hname] at hinfo
  set d := (seed catalog path offers name).commented comment with hd
  have hdinfo : d.info = { (described catalog (Path.join path name) name).info with
      included, userAdded, comments := comment } := by
    rw [hd, commented, hinfo]
  have hdrest : d.AtRest := hseed.described.here.atRest comment
  refine (means_of_settles hdrest hn (settles_bindSettings hdrest hn)).congr ?_ ?_ ?_
    ⟨rfl, rfl, rfl, rfl, rfl⟩
  · rw [hdinfo]
  · rw [hdinfo]
  · rw [show d.path = d.info.path from rfl, hdinfo]

mutual

/-- **The blocks that a section grows into** stand where its entries say. -/
theorem stands_grow : ∀ (s : Section), s.Regular → Path.IsSegment s.name →
    ∀ {path : Text} {offers : List Block} {place : List Text},
      (∀ c ∈ offers, Offered catalog path c) → Path.segments path = place →
        (∀ n, Path.IsSegment n → Path.join path n = Path.ofSegments (place ++ [n])) →
          List.Forall₂ (Stands catalog) (grow catalog path offers s).descendants
            (s.entries (place ++ [s.name]))
  | ⟨name, comment, settings, children⟩, hr, hname, path, offers, place, ho, hsegments, hjoin => by
    have hset := retouch_sprout catalog path offers name comment settings
    have hseed := offered_seed ho name
    have hseedName := name_seed catalog path offers name
    have hbpath : (sprout catalog path offers name comment settings).path =
        Path.join path name := by
      rw [hset.place.path]
      show (seed catalog path offers name).path = _
      rw [hseed.path, hseedName]
    have hbname := name_sprout catalog path offers name comment settings
    have hmeans := means_sprout ho name comment hr.settings.nodup
    have hunused : ∀ c ∈ (sprout catalog path offers name comment settings).unused,
        Offered catalog (Path.join path name) c := by
      intro c hc
      rw [hset.unused] at hc
      have := hseed.unused c hc
      rwa [hseed.path, hseedName] at this
    set b := sprout catalog path offers name comment settings with hb
    rw [grow, ← hb, Section.entries, descendants_eq_cons]
    refine .cons ⟨?_, ?_, rfl, ?_⟩ ?_
    · show b.path = _
      rw [hbpath]
      exact hjoin name hname
    · show Path.segments b.path = _
      rw [hbpath, Path.segments_join_segment path hname, hsegments]
    · have hroot : b.path ≠ Path.root := by
        rw [hbpath]
        exact Path.join_ne_root path hname
      have hblank : b.blank catalog = described catalog b.path b.name := blank_of_ne_root hroot
      rw [← hbpath, ← hbname, ← hblank] at hmeans
      exact hmeans.congr rfl rfl rfl ⟨rfl, rfl, rfl, rfl, rfl⟩
    · show List.Forall₂ _ (allDescendants (growAll catalog b.path b.unused children)) _
      rw [hbpath]
      refine stands_growAll children (fun s hs => ⟨hr.inside s hs, (hr.names s hs).isSegment⟩)
        hunused (by rw [Path.segments_join_segment path hname, hsegments]) fun n hn => ?_
      rw [Path.join_join path hname, hjoin name hname, Path.ofSegments, Path.ofSegments,
        List.flatMap_append]
      simp

/-- The blocks that sections grow into stand where the entries say, one by one, when the offers are
those of the catalog. -/
theorem stands_growAll : ∀ (ss : List Section),
    (∀ s ∈ ss, s.Regular ∧ Path.IsSegment s.name) →
      ∀ {path : Text} {offers : List Block} {place : List Text},
        (∀ c ∈ offers, Offered catalog path c) → Path.segments path = place →
          (∀ n, Path.IsSegment n → Path.join path n = Path.ofSegments (place ++ [n])) →
            List.Forall₂ (Stands catalog) (allDescendants (growAll catalog path offers ss))
              (Section.allEntries place ss)
  | [], _, _, _, _, _, _, _ => .nil
  | s :: ss, h, path, offers, place, ho, hsegments, hjoin => by
    obtain ⟨hr, hname⟩ := h s List.mem_cons_self
    rw [growAll, allDescendants, Section.allEntries]
    exact List.rel_append (stands_grow s hr hname ho hsegments hjoin)
      (stands_growAll ss (fun t ht => h t (List.mem_cons_of_mem _ ht)) ho hsegments hjoin)

end

/-- **The document** of an outline stands where its entries say, block by block. -/
theorem stands_growRoot (catalog : Catalog) {outline : Section} (hr : outline.Regular) :
    ((growRoot catalog outline).path = Path.root ∧
      ((growRoot catalog outline).blank catalog).Means (outline.settings.map Setting.written)
        (growRoot catalog outline)) ∧
      List.Forall₂ (Stands catalog) (growRoot catalog outline).inside
        (Section.allEntries [] outline.children) := by
  have hn : (Named.names outline.settings).Nodup := hr.settings.nodup
  have hset := retouch_foldl_bindSetting outline.settings (instantiateRoot catalog)
  have hrest := atRest_fresh [] Path.root none none
  have hroot : (instantiateRoot catalog).AtRest :=
    ⟨rfl, rfl, rfl, rfl, hrest.nodup, hrest.described, hrest.type⟩
  -- The root has no schema, so that its `type` chooses nothing.
  have hnone : (instantiateRoot catalog).chosen? (outline.settings.map Setting.written) = none := by
    rw [chosen?]
    rcases Named.find? Slot.typeName (outline.settings.map Setting.written) with _ | type
    · rfl
    · rfl
  have hquiet : (instantiateRoot catalog).typeOddities (outline.settings.map Setting.written) =
      [] := by
    rw [typeOddities]
    split
    · exact if_pos (Or.inl rfl)
    · rfl
  have hbound := foldl_bindSetting_eq_bound hn (b := instantiateRoot catalog) List.nodup_nil
  have hsettles := settles_bound hroot hn hnone (.refl _) (by rw [hquiet, warnAll_nil])
  have hmeans := means_of_settles hroot hn hsettles
  rw [← hbound] at hmeans
  have hpath : (outline.settings.foldl bindSetting (instantiateRoot catalog)).path = Path.root :=
    hset.place.path
  refine ⟨⟨hpath, ?_⟩, ?_⟩
  · have hblank : (growRoot catalog outline).blank catalog =
        fresh [] Path.root none none :=
      if_pos (beq_iff_eq.mpr hpath)
    rw [hblank]
    exact hmeans.congr rfl rfl rfl ⟨rfl, rfl, rfl, rfl, rfl⟩
  · show List.Forall₂ _ (allDescendants (growAll catalog _ _ outline.children)) _
    rw [hpath, hset.unused]
    refine stands_growAll outline.children
      (fun s hs => ⟨hr.inside s hs, (hr.names s hs).isSegment⟩)
      (offered_placeholders catalog catalog.height Path.root) Path.segments_root fun n _ => ?_
    rw [Path.join, if_pos (Or.inl rfl), Path.ofSegments]
    simp

/-- Each block below the root stands where an entry says. -/
theorem exists_stands (catalog : Catalog) {outline : Section} (hr : outline.Regular) {b : Block}
    (hb : b ∈ (growRoot catalog outline).inside) :
    ∃ entry ∈ Section.allEntries [] outline.children, b.Stands catalog entry := by
  have hinside := (stands_growRoot catalog hr).2
  obtain ⟨i, hi, rfl⟩ := List.mem_iff_getElem.mp hb
  have hlength := hinside.length_eq
  exact ⟨_, List.getElem_mem (hlength ▸ hi), hinside.get hi (hlength ▸ hi)⟩

/-- Each block of a tree that was read says what was written for it. -/
theorem exists_means_of_parse {catalog : Catalog} {source : Text} {root : Block}
    (h : parse catalog source = .ok root) :
    ∀ b ∈ root.descendants, ∃ given, (b.blank catalog).Means given b := by
  obtain ⟨outline, houtline, rfl⟩ := exists_outline_of_parse h
  have hr := regular_of_ofText houtline
  intro b hb
  rw [descendants_eq_cons] at hb
  rcases List.mem_cons.mp hb with rfl | hb
  · exact ⟨_, (stands_growRoot catalog hr).1.2⟩
  · obtain ⟨entry, -, hentry⟩ := exists_stands catalog hr hb
    exact ⟨_, hentry.means⟩

/-- **What a text means**: below the root there is one block for each header that opens one, in
order and at the place that the header leads to, and in each block and at the root stands what is
written there. -/
theorem exists_meaning_of_parse {catalog : Catalog} {source : Text} {root : Block}
    (h : parse catalog source = .ok root) :
    ∃ lexemes forms, Lexeme.scan source = .ok lexemes ∧
      List.Forall₂ Line.Says ((lexemes.map Lexeme.token).splitOn .newline) forms ∧
      root.inside.map Block.path = (Line.openings [] forms).map Path.ofSegments ∧
      (∀ b ∈ root.inside, b.info.included = true) ∧
      ∀ b ∈ root.descendants,
        (b.blank catalog).Means (Line.writtenIn (Path.segments b.path) [] forms) b := by
  obtain ⟨outline, houtline, rfl⟩ := exists_outline_of_parse h
  obtain ⟨lexemes, forms, hscan, hforms, hplaces, hwritten⟩ := exists_forms_of_ofText houtline
  obtain ⟨⟨hpath, hmeans⟩, hinside⟩ := stands_growRoot catalog (regular_of_ofText houtline)
  have hentries : outline.entries [] =
      ([], outline.settings) :: Section.allEntries [] outline.children := by
    cases outline
    rfl
  rw [hentries] at hplaces hwritten
  have hopenings : (Section.allEntries [] outline.children).map Prod.fst =
      Line.openings [] forms := (List.cons.inj hplaces).2
  have hstands := fun b => exists_stands (b := b) catalog (regular_of_ofText houtline)
  refine ⟨lexemes, forms, hscan, hforms, ?_, fun b hb => ?_, fun b hb => ?_⟩
  · rw [← hopenings, List.map_map]
    have hpaths := List.forall₂_map_left_iff.mpr (List.forall₂_map_right_iff.mpr
      (hinside.imp fun b entry hb => hb.path))
    rwa [List.forall₂_eq_eq_eq] at hpaths
  · obtain ⟨entry, -, hentry⟩ := hstands b hb
    exact hentry.included
  · rw [descendants_eq_cons] at hb
    rcases List.mem_cons.mp hb with rfl | hb
    · rw [hpath, Path.segments_root, ← hwritten _ List.mem_cons_self]
      exact hmeans
    · obtain ⟨entry, hmem, hentry⟩ := hstands b hb
      rw [hentry.segments, ← hwritten _ (List.mem_cons_of_mem _ hmem)]
      exact hentry.means

/-- A text with a subtype, a block inside of a block and a number that is none. -/
theorem exists_meaning_of_parse_sample : ∃ root, ∃ lexemes : List Lexeme, ∃ forms,
    parse Document.sampleCatalog sampleSource = .ok root ∧
      root.paths = ["/A".toList, "/A/b".toList] ∧
      List.Forall₂ Line.Says ((lexemes.map Lexeme.token).splitOn .newline) forms ∧
      (Line.openings [] forms).map Path.ofSegments = root.paths ∧
      ∀ b ∈ root.descendants, (b.blank Document.sampleCatalog).Means
        (Line.writtenIn (Path.segments b.path) [] forms) b := by
  have hrun : (parse Document.sampleCatalog sampleSource).toOption.map Block.paths =
      some ["/A".toList, "/A/b".toList] := by decide +kernel
  rcases hd : parse Document.sampleCatalog sampleSource with e | root
  · rw [hd] at hrun
    cases hrun
  · rw [hd] at hrun
    obtain ⟨lexemes, forms, -, hforms, hplaces, -, hmeans⟩ := exists_meaning_of_parse hd
    exact ⟨root, lexemes, forms, rfl, Option.some.inj hrun, hforms, hplaces.symm, hmeans⟩

end Block

end BlockEdit
