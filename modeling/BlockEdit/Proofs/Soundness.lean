import BlockEdit.Proofs.Fit
import BlockEdit.Proofs.Named
import BlockEdit.Proofs.Segments
import BlockEdit.Tree.Binding

/-!
# Sound trees

A tree is sound when each of its blocks agrees with its place: its children have the paths that
follow from their names, they are marked for the list that they are in, no two of them share a
name, and its subtype and its values are ones that its schema and its slots allow. What an unused
block holds is unused too.

`Block.All` says that something holds of every block of a tree, used or not; a tree is sound when
`Block.Sound` holds of all its blocks.

Main statements:

* **`Block.rebase_eq_self`**: a sound block that already has the path of its place stays as it is.
* **`Block.all_sound_insertChild`** and its companions: each operation on the children of a block
  keeps the tree sound.
-/

namespace BlockEdit

/-- What a block knows apart from its children agrees with its schema and with its slots. -/
structure BlockInfo.Sound (i : BlockInfo) : Prop where
  /-- The active subtype is one of the schema, or there is none and it has no parameters. -/
  subtype : i.subtype = none ∧ i.subtypeParameters = [] ∨
    ∃ schema st, i.schema = some schema ∧ i.subtype = some st ∧ (schema.subtype? st).isSome
  /-- The values of the block's own parameters fit. -/
  own : ∀ s ∈ i.parameters, s.Fits
  /-- The values of the parameters of the subtype fit. -/
  live : ∀ s ∈ i.subtypeParameters, s.Fits
  /-- The values in the stash fit. -/
  stashed : ∀ entry ∈ i.stash, ∀ s ∈ entry.2, s.Fits

namespace Block

/-- The block `c` is where `path` and `included` say. -/
structure Placed (path : Text) (included : Bool) (c : Block) : Prop where
  /-- The path follows from the name. -/
  path : c.path = Path.join path c.name
  /-- The block is marked for the list that it is in. -/
  included : c.info.included = included
  /-- The name can stand in a path. -/
  segment : Path.IsSegment c.name

/-- A block agrees with its children and with its schema. -/
structure Sound (b : Block) : Prop where
  /-- What the block knows is sound. -/
  info : b.info.Sound
  /-- The children of the document are in place. -/
  child : ∀ c ∈ b.children, Placed b.path true c
  /-- The unused children are in place. -/
  unused : ∀ c ∈ b.unused, Placed b.path false c
  /-- Nothing in an unused block is part of the document. -/
  leaf : ∀ c ∈ b.unused, c.children = []
  /-- No name is used twice among the children of both lists. -/
  nodup : (Named.names b.children ++ Named.names b.unused).Nodup

/-- Something holds of a block and of every block inside of it, used or not. -/
inductive All (P : Block → Prop) : Block → Prop
  /-- It holds of a block and of the trees of its children. -/
  | node {b : Block} (here : P b) (child : ∀ c ∈ b.children, All P c)
      (unused : ∀ c ∈ b.unused, All P c) : All P b

namespace All

variable {P : Block → Prop} {b : Block}

/-- What holds everywhere in a block holds of it. -/
theorem here (h : All P b) : P b := by
  cases h with
  | node h _ _ => exact h

/-- What holds everywhere in a block holds everywhere in its children. -/
theorem child (h : All P b) : ∀ c ∈ b.children, All P c := by
  cases h with
  | node _ h _ => exact h

/-- What holds everywhere in a block holds everywhere in what the catalog offers there. -/
theorem unused (h : All P b) : ∀ c ∈ b.unused, All P c := by
  cases h with
  | node _ _ h => exact h

/-- What holds everywhere can be weakened. -/
theorem imp {Q : Block → Prop} (h : All P b) (hpq : ∀ c, P c → Q c) : All Q b := by
  induction h with
  | node here _ _ ihc ihu => exact .node (hpq _ here) ihc ihu

/-- Two things that hold everywhere hold together. -/
theorem and {Q : Block → Prop} (hp : All P b) (hq : All Q b) : All (fun c => P c ∧ Q c) b := by
  induction hp with
  | node here _ _ ihc ihu =>
    exact .node ⟨here, hq.here⟩ (fun c hc => ihc c hc (hq.child c hc))
      fun c hc => ihu c hc (hq.unused c hc)

end All

/-! ### Rebasing -/

/-- A block gets its path from its new parent, and the blocks inside of it get theirs from it. -/
theorem rebase_mk (parent : Text) (b : Block) :
    b.rebase parent =
      ⟨{ b.info with path := Path.join parent b.name },
        b.children.map (rebase (Path.join parent b.name)),
        b.unused.map (rebase (Path.join parent b.name))⟩ := by
  obtain ⟨info, children, unused⟩ := b
  rw [rebase, rebaseAll_eq_map, rebaseAll_eq_map]

/-- **A sound block that has the path of its place** stays as it is. -/
theorem rebase_eq_self {b : Block} (h : All Sound b) :
    ∀ {parent : Text}, b.path = Path.join parent b.name → b.rebase parent = b := by
  induction h with
  | @node b here _ _ ihc ihu =>
    intro parent hp
    have hc : b.children.map (rebase b.path) = b.children := by
      conv => rhs; rw [← List.map_id b.children]
      exact List.map_congr_left fun c hc => ihc c hc (here.child c hc).path
    have hu : b.unused.map (rebase b.path) = b.unused := by
      conv => rhs; rw [← List.map_id b.unused]
      exact List.map_congr_left fun c hc => ihu c hc (here.unused c hc).path
    rw [rebase_mk, ← hp, hc, hu]
    cases b
    rfl

/-- Sound blocks that are in place stay as they are when they get their paths anew. -/
theorem rebaseAll_eq_self {bs : List Block} {path : Text} (h : ∀ b ∈ bs, All Sound b)
    (hp : ∀ b ∈ bs, b.path = Path.join path b.name) : rebaseAll path bs = bs := by
  rw [rebaseAll_eq_map]
  conv => rhs; rw [← List.map_id bs]
  exact List.map_congr_left fun b hb => rebase_eq_self (h b hb) (hp b hb)

/-- New paths leave the names alone. -/
theorem names_map_rebase (parent : Text) (bs : List Block) :
    Named.names (bs.map (rebase parent)) = Named.names bs :=
  Named.names_map fun b _ => name_rebase parent b

/-- A new path leaves the mark alone. -/
theorem included_rebase (parent : Text) (b : Block) :
    (b.rebase parent).info.included = b.info.included := by
  rw [rebase_mk]

/-- The children get their paths from that of the block. -/
theorem children_rebase (parent : Text) (b : Block) :
    (b.rebase parent).children = b.children.map (rebase (Path.join parent b.name)) := by
  rw [rebase_mk]

/-- A block in a list has, after rebasing the list, the place that its name gives it. -/
theorem placed_rebase {path parent : Text} {included : Bool} {c : Block}
    (h : Placed path included c) : Placed parent included (c.rebase parent) where
  path := by rw [path_rebase, name_rebase]
  included := by rw [included_rebase, h.included]
  segment := by rw [name_rebase]; exact h.segment

/-- Rebasing keeps a tree sound. -/
theorem all_sound_rebase {b : Block} (h : All Sound b) :
    ∀ parent : Text, All Sound (b.rebase parent) := by
  induction h with
  | @node b here _ _ ihc ihu =>
    intro parent
    rw [rebase_mk]
    refine .node ⟨⟨here.info.subtype, here.info.own, here.info.live, here.info.stashed⟩,
      ?_, ?_, ?_, ?_⟩ ?_ ?_
    · intro c hc
      obtain ⟨d, hd, rfl⟩ := List.mem_map.mp hc
      exact placed_rebase (here.child d hd)
    · intro c hc
      obtain ⟨d, hd, rfl⟩ := List.mem_map.mp hc
      exact placed_rebase (here.unused d hd)
    · intro c hc
      obtain ⟨d, hd, rfl⟩ := List.mem_map.mp hc
      rw [children_rebase, here.leaf d hd, List.map_nil]
    · rw [names_map_rebase, names_map_rebase]
      exact here.nodup
    · intro c hc
      obtain ⟨d, hd, rfl⟩ := List.mem_map.mp hc
      exact ihc d hd _
    · intro c hc
      obtain ⟨d, hd, rfl⟩ := List.mem_map.mp hc
      exact ihu d hd _

/-! ### New blocks -/

/-- The parameters that a schema has have values that fit. -/
theorem fits_of_mem_schemaSlots {schema : BlockSchema} {s : Slot} (h : s ∈ schemaSlots schema) :
    s.Fits := by
  have hof : ∀ t ∈ Named.ofList (schema.parameters.map Slot.ofSchema), t.Fits := by
    intro t ht
    obtain ⟨p, -, rfl⟩ := List.mem_map.mp (Named.mem_ofList ht)
    exact Slot.fits_ofSchema p
  simp only [schemaSlots] at h
  split at h
  · rcases List.mem_cons.mp h with rfl | h
    · exact Slot.fits_ofSchema _
    · exact hof s h
  · exact hof s h

/-- What a new block knows is sound. -/
theorem sound_info_fresh (name path : Text) (schema childSchema : Option BlockSchema) :
    (fresh name path schema childSchema).info.Sound where
  subtype := Or.inl ⟨rfl, rfl⟩
  own := by
    intro s hs
    rcases schema with _ | schema
    · cases hs
    · exact fits_of_mem_schemaSlots hs
  live := by simp [fresh]
  stashed := by simp [fresh]

/-- Placeholders have the names that the catalog declares at the path, if they go down one level at
least. -/
theorem names_placeholders (catalog : Catalog) (levels : Nat) (path : Text) :
    Named.names (placeholders catalog (levels + 1) path) = catalog.childrenOf path := by
  rw [placeholders, Named.names, List.map_map]
  conv => rhs; rw [← List.map_id (catalog.childrenOf path)]
  rfl

/-- No two placeholders of a path share a name. -/
theorem nodup_names_placeholders (catalog : Catalog) (levels : Nat) (path : Text) :
    (Named.names (placeholders catalog levels path)).Nodup := by
  cases levels with
  | zero => exact List.nodup_nil
  | succ levels =>
    rw [names_placeholders]
    exact catalog.nodup_childrenOf path

/-- A block without children of the document is sound when its unused blocks are. -/
theorem all_sound_of_unused {b : Block} (hi : b.info.Sound) (hc : b.children = [])
    (hn : (Named.names b.unused).Nodup)
    (hu : ∀ c ∈ b.unused, Placed b.path false c ∧ c.children = [] ∧ All Sound c) :
    All Sound b := by
  refine .node ⟨hi, ?_, fun c h => (hu c h).1, fun c h => (hu c h).2.1, ?_⟩ ?_
    fun c h => (hu c h).2.2
  · simp [hc]
  · simpa [hc] using hn
  · simp [hc]

/-- **The placeholders of a path** are in place, unused, and sound trees. -/
theorem placeholders_spec (catalog : Catalog) : ∀ (levels : Nat) (path : Text),
    ∀ c ∈ placeholders catalog levels path,
      Placed path false c ∧ c.children = [] ∧ All Sound c
  | 0, _ => by simp [placeholders]
  | levels + 1, path => by
    intro c hc
    rw [placeholders] at hc
    obtain ⟨name, hname, rfl⟩ := List.mem_map.mp hc
    have hinfo := sound_info_fresh name (Path.join path name)
      (catalog.lookup (Path.join path name)) (catalog.wildcardFor (Path.join path name))
    refine ⟨⟨rfl, rfl, Catalog.isSegment_of_mem_childrenOf hname⟩, rfl, ?_⟩
    refine all_sound_of_unused ⟨hinfo.subtype, hinfo.own, hinfo.live, hinfo.stashed⟩ rfl
      (nodup_names_placeholders catalog levels _) ?_
    exact placeholders_spec catalog levels (Path.join path name)

/-- A block that is made from the catalog is sound everywhere. -/
theorem all_sound_instantiate (catalog : Catalog) (parent name : Text) :
    All Sound (instantiate catalog parent name) := by
  refine all_sound_of_unused (sound_info_fresh _ _ _ _) rfl
    (nodup_names_placeholders catalog _ _) ?_
  exact placeholders_spec catalog catalog.height (Path.join parent name)

/-- A new tree is sound everywhere. -/
theorem all_sound_instantiateRoot (catalog : Catalog) : All Sound (instantiateRoot catalog) := by
  refine all_sound_of_unused (sound_info_fresh _ _ _ _) rfl
    (nodup_names_placeholders catalog _ _) ?_
  exact placeholders_spec catalog catalog.height Path.root

/-! ### Operations on the children of a block -/

section children

variable {b c : Block}

/-- A change of what a block knows, apart from its name and its place, keeps the tree sound. -/
theorem all_sound_with_info (h : All Sound b) {info : BlockInfo} (hi : info.Sound)
    (hp : info.path = b.path) : All Sound { b with info } := by
  refine .node ⟨hi, ?_, ?_, h.here.leaf, h.here.nodup⟩ h.child h.unused
  · intro d hd
    have := h.here.child d hd
    rwa [← hp] at this
  · intro d hd
    have := h.here.unused d hd
    rwa [← hp] at this

/-- A mark does not matter to whether a tree is sound. -/
theorem all_sound_mark (h : All Sound b) (included : Bool) : All Sound (b.mark included) :=
  all_sound_with_info h ⟨h.here.info.subtype, h.here.info.own, h.here.info.live,
    h.here.info.stashed⟩ rfl

/-- A tree that is marked and rebased for its new parent is sound and in place. -/
theorem placed_mark_rebase {included : Bool} (hn : Path.IsSegment c.name) (path : Text) :
    Placed path included ((c.mark included).rebase path) where
  path := by rw [path_rebase, name_rebase]
  included := by rw [included_rebase]; rfl
  segment := by rw [name_rebase]; exact hn

/-- No two children of a sound block share a name. -/
theorem nodup_children (h : b.Sound) : (Named.names b.children).Nodup :=
  (List.nodup_append.mp h.nodup).1

/-- No two of the blocks that are offered share a name. -/
theorem nodup_unused (h : b.Sound) : (Named.names b.unused).Nodup :=
  (List.nodup_append.mp h.nodup).2.1

/-- What is part of the document is not offered. -/
theorem not_mem_unused_of_mem_children (h : b.Sound) {n : Text} (hn : n ∈ Named.names b.children) :
    n ∉ Named.names b.unused :=
  fun hu => (List.nodup_append.mp h.nodup).2.2 n hn n hu rfl

/-- What is offered is not part of the document. -/
theorem not_mem_children_of_mem_unused (h : b.Sound) (hc : c ∈ b.unused) :
    c.name ∉ Named.names b.children :=
  fun hm => not_mem_unused_of_mem_children h hm (Named.name_mem_names hc)

/-- A name is free when no child has it, of the document or unused. -/
theorem hasChild_eq_false_iff {n : Text} : b.hasChild n = false ↔
    n ∉ Named.names b.children ∧ n ∉ Named.names b.unused := by
  rw [hasChild, Bool.or_eq_false_iff, Named.has_eq_false_iff, Named.has_eq_false_iff]

/-- A child of a sound tree is a sound tree in its place. -/
theorem child_spec (h : All Sound b) (hc : c ∈ b.children) : Placed b.path true c ∧ All Sound c :=
  ⟨h.here.child c hc, h.child c hc⟩

/-- An unused child of a sound tree is a sound tree in its place, without children. -/
theorem unused_spec (h : All Sound b) (hc : c ∈ b.unused) :
    Placed b.path false c ∧ c.children = [] ∧ All Sound c :=
  ⟨h.here.unused c hc, h.here.leaf c hc, h.unused c hc⟩

/-- **Other children**, each a sound tree in its place, keep the tree sound. -/
theorem all_sound_with_children (h : All Sound b) {children unused : List Block}
    (hc : ∀ c ∈ children, Placed b.path true c ∧ All Sound c)
    (hu : ∀ c ∈ unused, Placed b.path false c ∧ c.children = [] ∧ All Sound c)
    (hcn : (Named.names children).Nodup) (hun : (Named.names unused).Nodup)
    (hdisj : ∀ n ∈ Named.names children, n ∉ Named.names unused) :
    All Sound { b with children, unused } := by
  refine .node ⟨h.here.info, fun c hm => (hc c hm).1, fun c hm => (hu c hm).1,
    fun c hm => (hu c hm).2.1, ?_⟩ (fun c hm => (hc c hm).2) fun c hm => (hu c hm).2.2
  refine List.nodup_append.mpr ⟨hcn, hun, ?_⟩
  intro n hn m hm hnm
  exact hdisj n hn (hnm ▸ hm)

/-- **Attaching a child** to the document keeps the tree sound. -/
theorem all_sound_insertChild (hb : All Sound b) (hc : All Sound c) (hn : Path.IsSegment c.name) :
    All Sound (b.insertChild c) := by
  have hname : Named.name ((c.mark true).rebase b.path) = c.name := name_rebase b.path _
  refine all_sound_with_children hb ?_ ?_ (Named.nodup_put (nodup_children hb.here))
    (Named.nodup_remove (nodup_unused hb.here)) ?_
  · intro d hd
    rcases Named.mem_put hd with rfl | hd
    · exact ⟨placed_mark_rebase hn b.path, all_sound_rebase (all_sound_mark hc true) b.path⟩
    · exact child_spec hb hd
  · exact fun d hd => unused_spec hb (Named.mem_of_mem_remove hd)
  · intro n hn hm
    rcases Named.mem_names_put.mp hn with rfl | hn
    · exact Named.not_mem_names_remove (nodup_unused hb.here) (hname ▸ hm)
    · exact not_mem_unused_of_mem_children hb.here hn (Named.mem_names_of_remove hm)

/-- A sound block in its place, with a new name, is attached as it is. -/
theorem insertChild_of_new (hc : All Sound c) (hp : c.path = Path.join b.path c.name)
    (hn : c.name ∉ Named.names b.children) :
    b.insertChild c = { b with
      children := b.children ++ [c.mark true]
      unused := Named.remove c.name b.unused } := by
  have hstay : (c.mark true).rebase b.path = c.mark true :=
    rebase_eq_self (all_sound_mark hc true) hp
  have hnew : Named.name (c.mark true) ∉ Named.names b.children := hn
  rw [insertChild, hstay, Named.put_of_not_mem hnew]

/-- **Taking a child** leaves a sound tree and gives another, of that name, which was in one of
the lists. -/
theorem all_sound_takeChild? {b' : Block} {n : Text} (hb : All Sound b)
    (h : b.takeChild? n = some (c, b')) :
    All Sound c ∧ All Sound b' ∧ c.name = n ∧ Path.IsSegment n ∧ b'.path = b.path ∧
      n ∉ Named.names b'.children := by
  have hchildren := nodup_children hb.here
  have hunused := nodup_unused hb.here
  rw [takeChild?] at h
  split at h
  · next d hd =>
    cases h
    obtain ⟨hmem, rfl⟩ := Named.find?_eq_some hd
    refine ⟨hb.child c hmem, ?_, rfl, (hb.here.child c hmem).segment, rfl,
      Named.not_mem_names_remove hchildren⟩
    refine all_sound_with_children hb (fun d hd => child_spec hb (Named.mem_of_mem_remove hd))
      (fun d hd => unused_spec hb hd) (Named.nodup_remove hchildren) hunused ?_
    exact fun m hm => not_mem_unused_of_mem_children hb.here (Named.mem_names_of_remove hm)
  · next hnone =>
    obtain ⟨d, hd, he⟩ := Option.map_eq_some_iff.mp h
    cases he
    obtain ⟨hmem, rfl⟩ := Named.find?_eq_some hd
    refine ⟨hb.unused c hmem, ?_, rfl, (hb.here.unused c hmem).segment, rfl,
      Named.find?_eq_none_iff.mp hnone⟩
    refine all_sound_with_children hb (fun d hd => child_spec hb hd)
      (fun d hd => unused_spec hb (Named.mem_of_mem_remove hd)) hchildren
      (Named.nodup_remove hunused) ?_
    exact fun m hm hk =>
      not_mem_unused_of_mem_children hb.here hm (Named.mem_names_of_remove hk)

/-- The block with another name, and with the paths that this gives under `parent`. -/
def renamed (d : Block) (parent m : Text) : Block :=
  rebase parent { d with info := { d.info with name := m } }

/-- A renamed block has the new name. -/
theorem name_renamed (d : Block) (parent m : Text) : Named.name (d.renamed parent m) = m :=
  name_rebase parent _

/-- **Renaming a child** puts it among the other children again, wherever that is. -/
theorem exists_of_renameChild? {old new : Text} (h : b.renameChild? old new = some c) :
    ∃ d children, Named.find? old b.children = some d ∧ c = { b with children } ∧
      children.Perm (d.renamed b.path new :: Named.remove new (Named.remove old b.children)) := by
  rw [renameChild?] at h
  obtain ⟨d, hd, rfl⟩ := Option.map_eq_some_iff.mp h
  exact ⟨d, _, hd, rfl, List.perm_insertIdx _ _ (Nat.min_le_right _ _)⟩

/-- Renaming a child does not matter to what the block knows. -/
theorem info_renameChild? {old new : Text} (h : b.renameChild? old new = some c) :
    c.info = b.info := by
  obtain ⟨d, children, -, rfl, -⟩ := exists_of_renameChild? h
  rfl

/-- **Renaming a child** keeps the tree sound, when no unused child has the new name. -/
theorem all_sound_renameChild? {b' : Block} {old new : Text} (hb : All Sound b)
    (h : b.renameChild? old new = some b') (hn : Path.IsSegment new)
    (hfree : new ∉ Named.names b.unused) : All Sound b' := by
  obtain ⟨c, children, hc, rfl, hperm⟩ := exists_of_renameChild? h
  obtain ⟨hmem, -⟩ := Named.find?_eq_some hc
  have hplaced := hb.here.child c hmem
  have hrenamed : All Sound ({ c with info := { c.info with name := new } } : Block) :=
    all_sound_with_info (hb.child c hmem) ⟨(hb.child c hmem).here.info.subtype,
      (hb.child c hmem).here.info.own, (hb.child c hmem).here.info.live,
      (hb.child c hmem).here.info.stashed⟩ rfl
  have hothers : (Named.names (Named.remove old b.children)).Nodup :=
    Named.nodup_remove (nodup_children hb.here)
  have hmemo : ∀ d ∈ Named.remove new (Named.remove old b.children), d ∈ b.children :=
    fun d hd => Named.mem_of_mem_remove (Named.mem_of_mem_remove hd)
  have hnames : (Named.names children).Perm
      (new :: Named.names (Named.remove new (Named.remove old b.children))) := by
    have hmap := hperm.map (Named.name (α := Block))
    rwa [List.map_cons, name_renamed] at hmap
  refine all_sound_with_children hb ?_ (fun d hd => unused_spec hb hd) ?_
    (nodup_unused hb.here) ?_
  · intro d hd
    rcases List.mem_cons.mp (hperm.mem_iff.mp hd) with rfl | hd
    · refine ⟨⟨by rw [renamed, path_rebase, name_rebase], ?_, (name_renamed c b.path new).symm ▸ hn⟩,
        all_sound_rebase hrenamed b.path⟩
      rw [renamed, included_rebase]
      exact hplaced.included
    · exact child_spec hb (hmemo d hd)
  · refine hnames.nodup_iff.mpr (List.nodup_cons.mpr ⟨?_, ?_⟩)
    · exact Named.not_mem_names_remove hothers
    · exact Named.nodup_remove hothers
  · intro m hm
    rcases List.mem_cons.mp (hnames.mem_iff.mp hm) with rfl | hm
    · exact hfree
    · obtain ⟨d, hd, rfl⟩ := Named.mem_names.mp hm
      exact not_mem_unused_of_mem_children hb.here (Named.name_mem_names (hmemo d hd))

end children

end Block

end BlockEdit
