import BlockEdit.Proofs.Offers
import BlockEdit.Proofs.Runs

/-!
# Tidy trees

An edited document has only names that a catalog or a check vouches for, and what a user added can
be written. A block and its subtype can come to have parameters of one name, when a user adds one
while the other is in the stash; the parameter of the block is then the one that was added. A tree
in which this holds of every block, used or not, is tidy.

Main statements:

* **`Block.orderly_switchSubtype`** and its companions: each operation on what a block knows keeps
  its parameters in order.
* **`Block.all_tidy_set`** and its companions: each operation on the children of a block keeps the
  tree tidy.
-/

namespace BlockEdit

/-- The parameters of the schema and of its subtypes, and the subtypes, are named by words. -/
structure BlockSchema.NamesAreWords (s : BlockSchema) : Prop where
  /-- The parameters of the block are. -/
  own : ∀ p ∈ s.parameters, Edit.isName p.name = true
  /-- The subtypes and their parameters are. -/
  live : ∀ entry ∈ s.subtypes, Edit.isName entry.1 = true ∧
    ∀ p ∈ entry.2.parameters, Edit.isName p.name = true

/-- The parameters and the subtypes of the catalog are named by words. -/
def Catalog.NamesAreWords (c : Catalog) : Prop := ∀ entry ∈ c.entries, entry.2.NamesAreWords

/-- The value can be written. -/
def Slot.Writable (s : Slot) : Prop := ∀ v ∈ s.value, v.checkWritable = .ok ()

/-- The parameters of a subtype of a block with these parameters of its own. -/
structure Slot.BesideOwn (own slots : List Slot) : Prop where
  /-- They are named by words. -/
  words : ∀ s ∈ slots, Edit.isName s.name = true
  /-- No two of them share a name. -/
  nodup : (Named.names slots).Nodup
  /-- When the block has one of that name too, a user added it. -/
  added : ∀ s ∈ own, s.name ∈ Named.names slots → s.userAdded = true

/-- The parameters that a block has or could have are in order. -/
structure BlockInfo.Orderly (i : BlockInfo) : Prop where
  /-- Those of its schema are named by words. -/
  schema : ∀ s ∈ i.schema, s.NamesAreWords
  /-- Its own are named by words. -/
  words : ∀ s ∈ i.parameters, Edit.isName s.name = true
  /-- No two of them share a name. -/
  nodup : (Named.names i.parameters).Nodup
  /-- What a user added can be written. -/
  added : ∀ s ∈ i.parameters, s.userAdded = true → s.Writable
  /-- Those of its subtype are in order. -/
  live : Slot.BesideOwn i.parameters i.subtypeParameters
  /-- Those in the stash are. -/
  stashed : ∀ entry ∈ i.stash, Slot.BesideOwn i.parameters entry.2

/-! ### Slots -/

namespace Slot

variable {own own' slots : List Slot}

/-- An empty list of parameters is in order beside any other. -/
theorem BesideOwn.nil (own : List Slot) : BesideOwn own [] :=
  ⟨by simp, List.nodup_nil, fun _ _ h => absurd h List.not_mem_nil⟩

/-- Parameters of the block can change when they keep their names and who added them. -/
theorem BesideOwn.of_own (h : BesideOwn own slots)
    (ho : ∀ s ∈ own', s.name ∈ Named.names slots →
      s.userAdded = true ∨ ∃ t ∈ own, t.name = s.name ∧ t.userAdded = s.userAdded) :
    BesideOwn own' slots := by
  refine ⟨h.words, h.nodup, fun s hs hm => ?_⟩
  rcases ho s hs hm with hadded | ⟨t, ht, hname, hadded⟩
  · exact hadded
  · rw [← hadded]
    exact h.added t ht (hname ▸ hm)

/-- Parameters of the subtype can change when they keep their names. -/
theorem BesideOwn.of_names {slots' : List Slot} (h : BesideOwn own slots)
    (hn : Named.names slots' = Named.names slots) : BesideOwn own slots' := by
  refine ⟨fun s hs => ?_, hn ▸ h.nodup, hn ▸ h.added⟩
  have hm : s.name ∈ Named.names slots := hn ▸ Named.name_mem_names hs
  obtain ⟨t, ht, hname⟩ := Named.mem_names.mp hm
  rw [← hname]
  exact h.words t ht

/-- A parameter that the user adds can be written if its text can. -/
theorem writable_user {name text : Text} (h : (Value.ofText text).checkWritable = .ok ()) :
    (user name text).Writable := by
  intro v hv
  cases hv
  exact h

/-- A parameter that changes where it is can be written if it could. -/
theorem Keeps.writable {s t : Slot} (h : s.Keeps t) (hs : s.Writable) : t.Writable :=
  fun v hv => (h.value v hv).elim (hs v) id

/-- A parameter that is set can be written, since the value was checked. -/
theorem writable_setValue {s t : Slot} {v : Value} (h : s.setValue v = .ok t) : t.Writable := by
  obtain ⟨w, hw, rfl⟩ := value_setValue h
  intro u hu
  cases hu
  exact (checkValue_eq_ok.mp hw).2

/-- A parameter that is set keeps its name and whose choice it was. -/
theorem name_setValue {s t : Slot} {v : Value} (h : s.setValue v = .ok t) :
    t.name = s.name ∧ t.userAdded = s.userAdded := by
  obtain ⟨w, -, rfl⟩ := value_setValue h
  exact ⟨rfl, rfl⟩

end Slot

/-- A word that was kept as texts is written as it was. -/
theorem ValueType.text_of_read_relaxed {type : ValueType} {t : Text} {v : Value} (hne : t ≠ [])
    (hb : ∀ c ∈ t, Text.isBlank c = false) (h : type.relaxed.read t = .ok v) : v.text = t := by
  rcases type with kind | kind
  · cases h
    rfl
  · have hall : ∀ w ∈ [t], w ≠ [] ∧ ∀ c ∈ w, Text.isBlank c = false := by
      intro w hw
      rw [List.mem_singleton.mp hw]
      exact ⟨hne, hb⟩
    have hwords : Text.words t = [t] := Text.words_joinWith hall
    rw [relaxed, read, readItems_string, hwords] at h
    cases h
    rfl

/-- A name has no quotes in it. -/
theorem Edit.needsBothQuotes_of_isName {name : Text} (h : isName name = true) :
    Value.needsBothQuotes name = false := by
  have hquote : '\x27' ∉ name := by
    intro hm
    exact absurd ((isName_iff.mp h).2 _ hm) (by decide)
  rw [Value.needsBothQuotes, Bool.and_eq_false_iff]
  left
  simpa using hquote

namespace Slot

/-- The slot that selects a subtype can be written. -/
theorem writable_selectType {subtype : Text} (h : Edit.isName subtype = true) (s : Slot) :
    (Block.selectType subtype s).Writable := by
  rw [Block.selectType]
  split
  · next t ht => exact writable_setValue ht
  · intro v hv
    have hread : s.type.relaxed.read subtype = .ok v := by
      obtain ⟨w, hw⟩ := ValueType.exists_read_relaxed s.type subtype
      have : (s.type.relaxed.read subtype).toOption = some v := hv
      rw [hw] at this
      cases this
      exact hw
    obtain ⟨hne, hall⟩ := Edit.isName_iff.mp h
    have hblank : ∀ c ∈ subtype, Text.isBlank c = false := by
      intro c hc
      have := hall c hc
      simp only [Edit.isReserved, Bool.or_eq_false_iff] at this
      exact this.1.1.1.1.1.1.1
    rw [Value.writable_iff, ValueType.text_of_read_relaxed hne hblank hread]
    exact Edit.needsBothQuotes_of_isName h

/-- The parameter that names the subtype is the user's choice if it was. -/
theorem added_selectType (subtype : Text) (s : Slot) :
    (Block.selectType subtype s).userAdded = s.userAdded := by
  rw [Block.selectType]
  split
  · next t ht => exact (name_setValue ht).2
  · rfl

end Slot

namespace Block

variable {b : Block}

/-! ### What a block knows -/

/-- The parameters of a new block are in order. -/
theorem orderly_fresh (name path : Text) {schema : Option BlockSchema}
    (childSchema : Option BlockSchema) (hs : ∀ s ∈ schema, s.NamesAreWords) :
    (fresh name path schema childSchema).info.Orderly := by
  rcases schema with _ | schema
  · refine ⟨hs, ?_, List.nodup_nil, ?_, .nil _, ?_⟩
    · intro s hm
      cases hm
    · intro s hm
      cases hm
    · intro entry hm
      cases hm
  · have hslots : ∀ s ∈ schemaSlots schema,
        Edit.isName s.name = true ∧ s.userAdded = false := by
      intro s hm
      rcases mem_schemaSlots hm with rfl | ⟨p, hp, rfl⟩
      · exact ⟨rfl, rfl⟩
      · exact ⟨(hs schema rfl).own p hp, rfl⟩
    refine ⟨hs, fun s hm => (hslots s hm).1, nodup_schemaSlots schema, fun s hm hadded => ?_,
      .nil _, ?_⟩
    · rw [(hslots s hm).2] at hadded
      cases hadded
    · intro entry hm
      cases hm

/-- **A change of a parameter** keeps the parameters in order when it keeps the name of the
parameter and who added it, and what can be written. -/
theorem orderly_updateParameter {n : Text} {f : Slot → Slot} (h : b.info.Orderly)
    (hf : ∀ s, b.parameter? n = some s → (f s).name = s.name ∧ (f s).userAdded = s.userAdded ∧
      (s.Writable → (f s).Writable)) : (b.updateParameter n f).info.Orderly := by
  rw [updateParameter]
  split
  · next hhas =>
    obtain ⟨s, hs⟩ := Named.exists_find? (Named.has_iff.mp hhas)
    obtain ⟨hmem, hname⟩ := Named.find?_eq_some hs
    obtain ⟨hsame, hadded, hwritable⟩ := hf s (by rw [parameter?, hs, Option.some_or])
    have hnames := Named.names_update_of_find? hs (hsame.trans hname)
    have hcases : ∀ t ∈ Named.update n f b.info.parameters,
        t ∈ b.info.parameters ∨ t = f s := by
      intro t ht
      rcases Named.mem_update ht with ht | ⟨y, hy, rfl⟩
      · exact Or.inl ht
      · rw [hs] at hy
        cases hy
        exact Or.inr rfl
    -- A change of an own parameter keeps its name, so nothing else comes to clash with it.
    have hbeside : ∀ slots, Slot.BesideOwn b.info.parameters slots →
        Slot.BesideOwn (Named.update n f b.info.parameters) slots := by
      intro slots hslots
      refine hslots.of_own fun t ht _ => Or.inr ?_
      rcases hcases t ht with ht | rfl
      · exact ⟨t, ht, rfl, rfl⟩
      · exact ⟨s, hmem, hsame.symm, hadded.symm⟩
    refine ⟨h.schema, ?_, hnames ▸ h.nodup, ?_, hbeside _ h.live,
      fun entry he => hbeside _ (h.stashed entry he)⟩
    · intro t ht
      rcases hcases t ht with ht | rfl
      · exact h.words t ht
      · rw [hsame]
        exact h.words s hmem
    · intro t ht hadd
      rcases hcases t ht with ht | rfl
      · exact h.added t ht hadd
      · exact hwritable (h.added s hmem (hadded.symm.trans hadd))
  · next hhas =>
    refine ⟨h.schema, h.words, h.nodup, h.added, ?_, h.stashed⟩
    rcases hfind : Named.find? n b.info.subtypeParameters with _ | s
    · have hsame : Named.update n f b.info.subtypeParameters = b.info.subtypeParameters :=
        Named.update_of_not_mem (Named.find?_eq_none_iff.mp hfind)
      show Slot.BesideOwn _ (Named.update n f b.info.subtypeParameters)
      rw [hsame]
      exact h.live
    · have hnone : Named.find? n b.info.parameters = none :=
        Named.find?_eq_none (Named.has_eq_false_iff.mp (by simpa using hhas))
      obtain ⟨hsame, -, -⟩ := hf s (by rw [parameter?, hnone, hfind, Option.none_or])
      exact h.live.of_names
        (Named.names_update_of_find? hfind (hsame.trans (Named.name_of_find? hfind)))

/-- **A new parameter** of the user's choice keeps the parameters in order. -/
theorem orderly_addParameter {name text : Text} (h : b.info.Orderly)
    (hn : Edit.isName name = true) (hw : (Value.ofText text).checkWritable = .ok ()) :
    (b.addParameter (Slot.user name text)).info.Orderly := by
  have hbeside : ∀ slots, Slot.BesideOwn b.info.parameters slots →
      Slot.BesideOwn (Named.put (Slot.user name text) b.info.parameters) slots := by
    intro slots hslots
    refine hslots.of_own fun t ht _ => ?_
    rcases Named.mem_put ht with rfl | ht
    · exact Or.inl rfl
    · exact Or.inr ⟨t, ht, rfl, rfl⟩
  refine ⟨h.schema, ?_, Named.nodup_put h.nodup, ?_, hbeside _ h.live,
    fun entry he => hbeside _ (h.stashed entry he)⟩
  · intro t ht
    rcases Named.mem_put ht with rfl | ht
    · exact hn
    · exact h.words t ht
  · intro t ht hadded
    rcases Named.mem_put ht with rfl | ht
    · exact Slot.writable_user hw
    · exact h.added t ht hadded

/-- A subtype of a block, and its parameters, are named by words. -/
theorem isName_of_subtypeSchema? (h : b.info.Orderly) {subtype : Text} {schema : SubtypeSchema}
    (hs : b.subtypeSchema? subtype = some schema) :
    Edit.isName subtype = true ∧ ∀ p ∈ schema.parameters, Edit.isName p.name = true := by
  rw [subtypeSchema?] at hs
  obtain ⟨whole, hwhole, hfound⟩ := Option.bind_eq_some_iff.mp hs
  obtain ⟨⟨name, found⟩, hfind, rfl⟩ := Option.map_eq_some_iff.mp hfound
  obtain ⟨hmem, rfl⟩ := Named.find?_eq_some hfind
  exact (h.schema whole hwhole).live _ hmem

/-- The parameters that a subtype adds are in order. -/
theorem besideOwn_materialize (h : b.info.Orderly) {subtype : Text} {schema : SubtypeSchema}
    (hs : b.subtypeSchema? subtype = some schema) :
    Slot.BesideOwn b.info.parameters (b.materialize schema) := by
  refine ⟨fun s hm => ?_, Named.nodup_ofList _, fun s hm hn => ?_⟩
  · obtain ⟨p, hp, rfl⟩ := List.mem_map.mp (Named.mem_ofList hm)
    exact (isName_of_subtypeSchema? h hs).2 p (List.mem_of_mem_filter hp)
  · exact absurd (Named.name_mem_names hm) (not_mem_of_mem_materialize hn)

/-- What comes out of the stash is in order, and so is what stays in it. -/
theorem besideOwn_unstash (h : b.info.Orderly) {subtype : Text} {schema : SubtypeSchema}
    (hs : b.subtypeSchema? subtype = some schema) :
    Slot.BesideOwn b.info.parameters (b.unstash subtype schema).1 ∧
      ∀ entry ∈ (b.unstash subtype schema).2, Slot.BesideOwn b.info.parameters entry.2 := by
  rw [unstash]
  split
  · next slots hfind =>
    exact ⟨h.stashed _ (Named.mem_of_find? hfind),
      fun entry he => h.stashed entry (Named.mem_of_mem_remove he)⟩
  · exact ⟨besideOwn_materialize h hs, h.stashed⟩

/-- **A switch of the subtype** keeps the parameters in order. -/
theorem orderly_switchSubtype? {c : Block} (h : b.info.Orderly) {subtype : Text}
    (hc : b.switchSubtype? subtype = some c) : c.info.Orderly := by
  rw [switchSubtype?] at hc
  obtain ⟨schema, hs, rfl⟩ := Option.map_eq_some_iff.mp hc
  obtain ⟨hslots, hstash⟩ := besideOwn_unstash h hs
  dsimp only
  split
  · exact h
  · have hname : ∀ t : Slot, Named.name t = Slot.typeName →
        Named.name (selectType subtype t) = Slot.typeName :=
      fun t ht => (name_selectType subtype t).trans ht
    -- Only the `type` changes among the block's own parameters, and it keeps its name.
    have hbeside : ∀ slots, Slot.BesideOwn b.info.parameters slots →
        Slot.BesideOwn (Named.update Slot.typeName (selectType subtype) b.info.parameters)
          slots := by
      intro slots hslots
      refine hslots.of_own fun t ht _ => Or.inr ?_
      rcases Named.mem_update ht with ht | ⟨s, hfind, rfl⟩
      · exact ⟨t, ht, rfl, rfl⟩
      · exact ⟨s, Named.mem_of_find? hfind, (name_selectType subtype s).symm,
          (Slot.added_selectType subtype s).symm⟩
    refine ⟨h.schema, ?_, ?_, ?_, hbeside _ (hslots.of_names (names_carryOver _ _)), ?_⟩
    · intro t ht
      rcases Named.mem_update ht with ht | ⟨s, hfind, rfl⟩
      · exact h.words t ht
      · rw [name_selectType]
        exact h.words s (Named.mem_of_find? hfind)
    · show (Named.names (Named.update _ _ _)).Nodup
      rw [Named.names_update hname]
      exact h.nodup
    · intro t ht hadded
      rcases Named.mem_update ht with ht | ⟨s, -, rfl⟩
      · exact h.added t ht hadded
      · exact Slot.writable_selectType (isName_of_subtypeSchema? h hs).1 s
    · intro entry he
      refine hbeside _ ?_
      change entry ∈ stashed { b.info with stash := (b.unstash subtype schema).2 } at he
      rw [stashed] at he
      split at he
      · rcases Named.mem_put he with rfl | he
        · exact h.live
        · exact hstash entry he
      · exact hstash entry he

/-- A switch of the subtype keeps the parameters in order. -/
theorem orderly_switchSubtype (h : b.info.Orderly) (subtype : Text) :
    (b.switchSubtype subtype).info.Orderly := by
  rw [switchSubtype]
  rcases hc : b.switchSubtype? subtype with _ | c
  · exact h
  · exact orderly_switchSubtype? h hc

/-! ### Trees -/

/-- The parameters of a block are in order, and its children have names that were checked. -/
structure Tidy (b : Block) : Prop where
  /-- The parameters are in order. -/
  info : b.info.Orderly
  /-- The names of the children are checked. -/
  names : ∀ c ∈ b.children, Edit.isName c.name = true

/-- A tree can change what it knows at its top. -/
theorem all_tidy_with_info (h : All Tidy b) {info : BlockInfo} (hi : info.Orderly) :
    All Tidy { b with info } :=
  .node ⟨hi, h.here.names⟩ h.child h.unused

/-- **A tree can change its children** when their names are checked. -/
theorem all_tidy_with_children (h : All Tidy b) {children unused : List Block}
    (hc : ∀ c ∈ children, Edit.isName c.name = true ∧ All Tidy c)
    (hu : ∀ c ∈ unused, All Tidy c) : All Tidy { b with children, unused } :=
  .node ⟨h.here.info, fun c hm => (hc c hm).1⟩ (fun c hm => (hc c hm).2) hu

/-- The path does not matter to the parameters. -/
theorem Orderly.with_path {i : BlockInfo} (h : i.Orderly) (path : Text) :
    ({ i with path } : BlockInfo).Orderly :=
  ⟨h.schema, h.words, h.nodup, h.added, h.live, h.stashed⟩

/-- A tree stays tidy under new paths. -/
theorem all_tidy_rebase (h : All Tidy b) : ∀ parent : Text, All Tidy (b.rebase parent) := by
  induction h with
  | @node b here _ _ ihc ihu =>
    intro parent
    rw [rebase_mk]
    refine .node ⟨Orderly.with_path here.info _, ?_⟩ ?_ ?_
    · intro c hc
      obtain ⟨d, hd, rfl⟩ := List.mem_map.mp hc
      rw [name_rebase]
      exact here.names d hd
    · intro c hc
      obtain ⟨d, hd, rfl⟩ := List.mem_map.mp hc
      exact ihc d hd _
    · intro c hc
      obtain ⟨d, hd, rfl⟩ := List.mem_map.mp hc
      exact ihu d hd _

/-- A mark does not matter to whether a tree is tidy. -/
theorem all_tidy_mark (h : All Tidy b) (included : Bool) : All Tidy (b.mark included) :=
  all_tidy_with_info h ⟨h.here.info.schema, h.here.info.words, h.here.info.nodup,
    h.here.info.added, h.here.info.live, h.here.info.stashed⟩

/-- **A block that is retouched** leaves the tree tidy when its parameters are in order. -/
theorem all_tidy_of_retouch (h : All Tidy b) {c : Block} (hr : b.Retouch c)
    (hc : c.info.Orderly) : All Tidy c := by
  refine .node ⟨hc, ?_⟩ ?_ ?_
  · rw [hr.children]
    exact h.here.names
  · rw [hr.children]
    exact h.child
  · rw [hr.unused]
    exact h.unused

/-- A switch of the subtype that is asked for leaves the tree tidy. -/
theorem all_tidy_elim_switchSubtype (h : All Tidy b) (subtype : Option Text) :
    All Tidy (subtype.elim b b.switchSubtype) := by
  refine all_tidy_of_retouch h (Edit.retouch_elim_switchSubtype b subtype) ?_
  rcases subtype with _ | subtype
  · exact h.here.info
  · exact orderly_switchSubtype h.here.info subtype

/-! ### New blocks -/

section catalog

variable {catalog : Catalog} (hc : catalog.NamesAreWords)

include hc

/-- What a catalog describes has its parameters in order. -/
theorem orderly_described (path name : Text) : (described catalog path name).info.Orderly := by
  refine orderly_fresh name path _ fun s hs => ?_
  obtain ⟨p, hmem⟩ := Catalog.exists_mem_of_lookup (c := catalog) hs
  exact hc _ hmem

/-- Placeholders are tidy, with all inside of them. -/
theorem all_tidy_placeholders : ∀ (levels : Nat) (path : Text),
    ∀ b ∈ placeholders catalog levels path, All Tidy b
  | 0, _, b, hb => by
    rw [placeholders] at hb
    cases hb
  | levels + 1, path, b, hb => by
    rw [placeholders] at hb
    obtain ⟨name, -, rfl⟩ := List.mem_map.mp hb
    have h := orderly_described hc (Path.join path name) name
    refine .node ⟨⟨h.schema, h.words, h.nodup, h.added, h.live, h.stashed⟩, ?_⟩ ?_ ?_
    · intro c hm
      cases hm
    · intro c hm
      cases hm
    · exact all_tidy_placeholders levels (Path.join path name)

/-- **A new block** is tidy with all that the catalog offers in it. -/
theorem all_tidy_instantiate (parent name : Text) : All Tidy (instantiate catalog parent name) := by
  refine .node ⟨orderly_described hc _ name, ?_⟩ ?_ ?_
  · intro c hm
    cases hm
  · intro c hm
    cases hm
  · exact all_tidy_placeholders hc catalog.height (Path.join parent name)

/-- A new tree is tidy. -/
theorem all_tidy_instantiateRoot : All Tidy (instantiateRoot catalog) := by
  refine .node ⟨orderly_fresh [] Path.root none fun s hs => (by cases hs), ?_⟩ ?_ ?_
  · intro c hm
    cases hm
  · intro c hm
    cases hm
  · exact all_tidy_placeholders hc catalog.height Path.root

end catalog

/-! ### Operations on the children of a block -/

section children

variable {c : Block}

/-- **A child at the end** keeps the tree tidy when its name was checked. -/
theorem all_tidy_attach (hb : All Tidy b) (hc : All Tidy c) (hn : Edit.isName c.name = true) :
    All Tidy (b.attach c) := by
  refine all_tidy_with_children hb (fun d hd => ?_)
    fun d hd => hb.unused d (Named.mem_of_mem_remove hd)
  rcases List.mem_append.mp hd with hd | hd
  · exact ⟨hb.here.names d hd, hb.child d hd⟩
  · rw [List.mem_singleton.mp hd]
    exact ⟨hn, hc⟩

/-- **A child that goes** leaves a tidy tree. -/
theorem all_tidy_withdraw {catalog : Catalog} (hc : catalog.NamesAreWords) (hb : All Tidy b)
    (n : Text) : All Tidy (b.withdraw catalog n) := by
  refine all_tidy_with_children hb (fun d hd => ⟨hb.here.names d (Named.mem_of_mem_remove hd),
    hb.child d (Named.mem_of_mem_remove hd)⟩) fun d hd => ?_
  rcases List.mem_append.mp hd with hd | hd
  · exact hb.unused d hd
  · split at hd
    · rw [List.mem_singleton.mp hd]
      exact all_tidy_mark (all_tidy_instantiate hc b.path n) false
    · cases hd

/-- **Renaming a child** to a name that was checked keeps the tree tidy. -/
theorem all_tidy_renameChild? {b' : Block} {old new : Text} (hb : All Tidy b)
    (hn : Edit.isName new = true) (h : b.renameChild? old new = some b') : All Tidy b' := by
  obtain ⟨c, children, hc, rfl, hperm⟩ := exists_of_renameChild? h
  have htidy := hb.child c (Named.mem_of_find? hc)
  have hrenamed : All Tidy ({ c with info := { c.info with name := new } } : Block) :=
    all_tidy_with_info htidy ⟨htidy.here.info.schema, htidy.here.info.words,
      htidy.here.info.nodup, htidy.here.info.added, htidy.here.info.live,
      htidy.here.info.stashed⟩
  refine all_tidy_with_children hb (fun d hd => ?_) hb.unused
  rcases List.mem_cons.mp (hperm.mem_iff.mp hd) with rfl | hd
  · exact ⟨(name_renamed c b.path new).symm ▸ hn, all_tidy_rebase hrenamed b.path⟩
  · have hmem' := Named.mem_of_mem_remove (Named.mem_of_mem_remove hd)
    exact ⟨hb.here.names d hmem', hb.child d hmem'⟩

end children

/-! ### Replacing a block -/

/-- **A block in a tidy tree** can be replaced by a tidy tree of its name, and the top of the tree
keeps its own. -/
theorem all_tidy_replaceAt {old new : Block} (hnew : All Tidy new) (hn : new.name = old.name) :
    ∀ (ns : List Text) {b : Block}, All Tidy b → b.descend? ns = some old →
      All Tidy (b.replaceAt ns new) ∧ (b.replaceAt ns new).name = b.name
  | [], b, _, h => by
    cases h
    rw [replaceAt]
    exact ⟨hnew, hn⟩
  | n :: ns, b, hb, h => by
    rw [descend?] at h
    obtain ⟨c, hc, hold⟩ := Option.bind_eq_some_iff.mp h
    obtain ⟨hmem, hname⟩ := Named.find?_eq_some hc
    obtain ⟨htidy, hsame⟩ := all_tidy_replaceAt hnew hn ns (hb.child c hmem) hold
    rw [replaceAt]
    refine ⟨all_tidy_with_children hb (fun d hd => ?_) hb.unused, rfl⟩
    rcases Named.mem_update hd with hd | ⟨e, he, rfl⟩
    · exact ⟨hb.here.names d hd, hb.child d hd⟩
    · rw [hc] at he
      cases he
      rw [hsame]
      exact ⟨hb.here.names c hmem, htidy⟩

/-- **A block of a tidy document** can be replaced by a tidy tree of its name. -/
theorem all_tidy_set {root old new : Block} {path : Text} (h : All Tidy root)
    (hold : root.find? path = some old) (hnew : All Tidy new) (hn : new.name = old.name) :
    All Tidy (root.set path new) :=
  (all_tidy_replaceAt hnew hn _ h hold).1

/-- A block that is found in a tidy tree is tidy, with all inside of it. -/
theorem all_tidy_of_find? {root b : Block} {path : Text} (h : All Tidy root)
    (hb : root.find? path = some b) : All Tidy b :=
  h.descendant (mem_descendants_of_descend? _ hb)

end Block

end BlockEdit
