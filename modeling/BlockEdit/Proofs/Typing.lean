import BlockEdit.Proofs.Agreement
import BlockEdit.Proofs.FlatView
import BlockEdit.Proofs.Patterns
import BlockEdit.Proofs.Spellings

/-!
# Blocks that are typed by their paths

When a block is made, and when a text is read, the block gets the schema that the catalog has for
its path, and the schema for children that a user adds to it. An edit that renames a block gives all
the blocks inside of it other paths and leaves their schemas as they are. So the blocks stay typed
by their paths just as long as no edit moves a block to a path for which the catalog has other
schemas: `Edit.Mistypes`.

Main statements:

* **`Block.all_typedAt_rebase`**: which paths the blocks of a tree have when it moves.
* **`Edit.typed_of_effect_iff`**: an edit leaves the blocks typed by their paths exactly when it
  moves no block to other schemas.
* **`Document.ReachedBy.typed`**: a run that moves no block to other schemas keeps all of them
  typed.
* **`Document.ReachedBy.typed_of_unnoticed`**: so does a run whose renames are between names that no
  key of the catalog has.
* **`Document.Reached.rename_typed`**: what a rename does to the types of the blocks that it moves.
-/

namespace BlockEdit

/-! ### All the blocks of a tree -/

namespace Block

mutual

/-- The block and every block inside of it, used or not. -/
def entire : Block → List Block
  | ⟨info, children, unused⟩ => ⟨info, children, unused⟩ :: (allEntire children ++ allEntire unused)

/-- The blocks, each with those inside of it. -/
def allEntire : List Block → List Block
  | [] => []
  | b :: bs => entire b ++ allEntire bs

end

/-- A block is in some trees when it is in one of them. -/
theorem mem_allEntire {x : Block} {bs : List Block} :
    x ∈ allEntire bs ↔ ∃ b ∈ bs, x ∈ b.entire := by
  induction bs with
  | nil => simp [allEntire]
  | cons b bs ih =>
    rw [allEntire, List.mem_append, ih]
    simp

/-- The blocks of a tree are its top and those of the trees in it, used or not. -/
theorem mem_entire {x b : Block} :
    x ∈ b.entire ↔ x = b ∨ (∃ c ∈ b.children, x ∈ c.entire) ∨ ∃ c ∈ b.unused, x ∈ c.entire := by
  obtain ⟨info, children, unused⟩ := b
  rw [entire, List.mem_cons, List.mem_append, mem_allEntire, mem_allEntire]

/-- **What holds throughout a tree** holds of all its blocks. -/
theorem all_iff_forall_mem_entire {P : Block → Prop} (b : Block) :
    All P b ↔ ∀ x ∈ b.entire, P x := by
  induction b using induct with
  | step info children unused ihc ihu =>
    constructor
    · intro h x hx
      rcases mem_entire.mp hx with rfl | ⟨c, hc, hx⟩ | ⟨c, hc, hx⟩
      · exact h.here
      · exact (ihc c hc).mp (h.child c hc) x hx
      · exact (ihu c hc).mp (h.unused c hc) x hx
    · intro h
      refine .node (h _ (mem_entire.mpr (Or.inl rfl))) (fun c hc => ?_) fun c hc => ?_
      · exact (ihc c hc).mpr fun x hx => h x (mem_entire.mpr (Or.inr (Or.inl ⟨c, hc, hx⟩)))
      · exact (ihu c hc).mpr fun x hx => h x (mem_entire.mpr (Or.inr (Or.inr ⟨c, hc, hx⟩)))

/-- What holds everywhere holds of the top and everywhere in the trees in it. -/
theorem all_iff {P : Block → Prop} {b : Block} :
    All P b ↔ P b ∧ (∀ c ∈ b.children, All P c) ∧ ∀ c ∈ b.unused, All P c :=
  ⟨fun h => ⟨h.here, h.child, h.unused⟩, fun h => .node h.1 h.2.1 h.2.2⟩

end Block

/-! ### What a catalog says about a path -/

/-- The catalog says about both paths the same. -/
def Catalog.SameTypes (catalog : Catalog) (path other : Text) : Prop :=
  catalog.lookup other = catalog.lookup path ∧ catalog.wildcardFor other = catalog.wildcardFor path

instance (catalog : Catalog) (path other : Text) : Decidable (catalog.SameTypes path other) :=
  inferInstanceAs (Decidable (_ ∧ _))

/-- What a block knows is what the catalog says about the path. -/
structure BlockInfo.TypedAt (catalog : Catalog) (path : Text) (i : BlockInfo) : Prop where
  /-- It has the schema that the catalog has for the path. -/
  schema : i.schema = catalog.lookup path
  /-- It has the schema that the catalog has for children that a user adds there. -/
  childSchema : i.childSchema = catalog.wildcardFor path

/-- A block below the root is typed by its path. -/
def BlockInfo.Typed (catalog : Catalog) (i : BlockInfo) : Prop :=
  i.path ≠ Path.root → i.TypedAt catalog i.path

/-- The path that a rename gives the block at a path. -/
def Path.renamed (path newName : Text) : Text :=
  ofNames ((segments path).dropLast ++ [newName])

/-- The edit moves a block, used or not, to a path for which the catalog has other schemas. -/
def Edit.Mistypes (catalog : Catalog) (root : Block) : Edit → Prop
  | .rename path newName => ∃ b ∈ root.find? path, ∃ x ∈ b.entire,
      ¬ catalog.SameTypes x.path (Path.moved b.path (Path.renamed path newName) x.path)
  | _ => False

instance (catalog : Catalog) (root : Block) : (e : Edit) → Decidable (e.Mistypes catalog root)
  | .rename path newName =>
    inferInstanceAs (Decidable (∃ b ∈ root.find? path, ∃ x ∈ b.entire,
      ¬ catalog.SameTypes x.path (Path.moved b.path (Path.renamed path newName) x.path)))
  | .addChild .. | .remove _ | .setSubtype .. | .setValue .. | .setText .. | .addParameter ..
  | .setComment .. => .isFalse id

/-- No key of the catalog has the name that the edit takes from a block or the one that it gives. -/
def Edit.Unnoticed (catalog : Catalog) : Edit → Prop
  | .rename path newName => ∀ n ∈ (Path.segments path).getLast?,
    ∀ key ∈ Named.names catalog.entries, n ∉ Path.segments key ∧ newName ∉ Path.segments key
  | _ => True

instance (catalog : Catalog) : (e : Edit) → Decidable (e.Unnoticed catalog)
  | .rename path newName => inferInstanceAs (Decidable (∀ n ∈ (Path.segments path).getLast?,
      ∀ key ∈ Named.names catalog.entries, n ∉ Path.segments key ∧ newName ∉ Path.segments key))
  | .addChild .. | .remove _ | .setSubtype .. | .setValue .. | .setText .. | .addParameter ..
  | .setComment .. => .isTrue trivial

namespace BlockInfo

variable {catalog : Catalog} {i j : BlockInfo} {path other : Text}

/-- Whether a block is typed by a path is told by its two schemas. -/
theorem TypedAt.of_eq (h : i.TypedAt catalog path) (hs : j.schema = i.schema)
    (hc : j.childSchema = i.childSchema) : j.TypedAt catalog path :=
  ⟨hs.trans h.schema, hc.trans h.childSchema⟩

/-- Whether it is typed by its own is told by these and the path. -/
theorem Typed.of_eq (h : i.Typed catalog) (hp : j.path = i.path) (hs : j.schema = i.schema)
    (hc : j.childSchema = i.childSchema) : j.Typed catalog := by
  rw [Typed, hp]
  exact fun hne => (h hne).of_eq hs hc

/-- What is typed by one path is typed by another one when the catalog says the same about both. -/
theorem TypedAt.iff_sameTypes (h : i.TypedAt catalog path) :
    i.TypedAt catalog other ↔ catalog.SameTypes path other := by
  constructor
  · exact fun ho => ⟨ho.schema.symm.trans h.schema, ho.childSchema.symm.trans h.childSchema⟩
  · exact fun hsame => ⟨h.schema.trans hsame.1.symm, h.childSchema.trans hsame.2.symm⟩

end BlockInfo

/-! ### The paths of a tree that moves -/

/-- Below the root, joining is writing one more name. -/
theorem Path.join_eq_append {path : Text} (hroot : path ≠ root) (hnil : path ≠ []) (name : Text) :
    join path name = path ++ ofSegments [name] := by
  rw [join, if_neg (not_or.mpr ⟨hroot, hnil⟩), ofSegments_cons]
  exact congrArg _ (List.append_nil _).symm

/-- A path that is written behind another one moves with it. -/
theorem Path.moved_append (old new : Text) (names : List Text) :
    moved old new (old ++ ofSegments names) = new ++ ofSegments names := by
  have hwithin : isWithin old (old ++ ofSegments names) = true := by
    refine isWithin_iff.mpr ⟨ofSegments names, rfl, ?_⟩
    rcases names with _ | ⟨n, names⟩
    · exact Or.inl rfl
    · exact Or.inr ⟨_, ofSegments_cons n names⟩
  rw [moved, if_pos hwithin, List.drop_left]

/-- What a user may add at a path is what the catalog has for a `*` behind the path. -/
theorem Catalog.wildcardFor_ofSegments {catalog : Catalog} {ns : List Text}
    (h : ∀ n ∈ ns, Path.IsSegment n) (hne : ns ≠ []) : catalog.wildcardFor (Path.ofSegments ns) =
      catalog.lookup (Path.ofSegments (ns ++ [Path.wildcard])) := by
  rw [wildcardFor, Path.join_eq_append (Path.ofSegments_ne_root h hne) (Path.ofSegments_ne_nil hne),
    ← Path.ofSegments_append]

/-- **Two names that no key of the catalog has** make no difference to it: in front of the same
names both are found like the wildcard. -/
theorem Catalog.sameTypes_of_unknown {catalog : Catalog} {front rest : List Text} {n m : Text}
    (hfront : ∀ k ∈ front, Path.IsSegment k) (hn : Path.IsSegment n) (hm : Path.IsSegment m)
    (hrest : ∀ k ∈ rest, Path.IsSegment k) (hunknown : ∀ key ∈ Named.names catalog.entries,
      n ∉ Path.segments key ∧ m ∉ Path.segments key) :
    catalog.SameTypes (Path.ofSegments (front ++ n :: rest))
      (Path.ofSegments (front ++ m :: rest)) := by
  have hlookup : ∀ rest : List Text, (∀ k ∈ rest, Path.IsSegment k) →
      catalog.lookup (Path.ofSegments (front ++ m :: rest)) =
        catalog.lookup (Path.ofSegments (front ++ n :: rest)) := by
    intro rest hrest
    rw [lookup_eq_wildcard hfront hn hrest fun key hkey before after hsplit _ _ =>
        (hunknown key hkey).1 (by simp [hsplit]),
      lookup_eq_wildcard hfront hm hrest fun key hkey before after hsplit _ _ =>
        (hunknown key hkey).2 (by simp [hsplit])]
  have hall : ∀ {x : Text}, Path.IsSegment x → ∀ k ∈ front ++ x :: rest, Path.IsSegment k :=
    fun hx => List.forall_mem_append.mpr ⟨hfront, List.forall_mem_cons.mpr ⟨hx, hrest⟩⟩
  refine ⟨hlookup rest hrest, ?_⟩
  rw [wildcardFor_ofSegments (hall hm) (by simp), wildcardFor_ofSegments (hall hn) (by simp),
    List.append_assoc, List.append_assoc]
  exact hlookup _ (List.forall_mem_append.mpr ⟨hrest, by simp [Path.isSegment_wildcard]⟩)

namespace Block

open BlockInfo (TypedAt Typed)

variable {catalog : Catalog} {b c d root : Block}

/-- The path of every block of a sound tree is written behind that of the tree. -/
theorem all_path_append (h : All Sound b) (hroot : b.path ≠ Path.root) (hnil : b.path ≠ []) :
    All (fun x => ∃ names, (∀ n ∈ names, Path.IsSegment n) ∧
      x.path = b.path ++ Path.ofSegments names) b := by
  induction h with
  | @node b here hc hu ihc ihu =>
    have hbelow : ∀ {included : Bool} {c : Block}, Placed b.path included c →
        (c.path ≠ Path.root → c.path ≠ [] → All (fun x => ∃ names,
          (∀ n ∈ names, Path.IsSegment n) ∧ x.path = c.path ++ Path.ofSegments names) c) →
        All (fun x => ∃ names, (∀ n ∈ names, Path.IsSegment n) ∧
          x.path = b.path ++ Path.ofSegments names) c := by
      intro included c hplaced ih
      have hpath := hplaced.path
      have hne : c.path ≠ Path.root := hpath ▸ Path.join_ne_root _ hplaced.segment
      refine (ih hne (hpath ▸ Path.join_ne_nil _ _)).imp ?_
      rintro x ⟨names, hnames, hx⟩
      refine ⟨c.name :: names, List.forall_mem_cons.mpr ⟨hplaced.segment, hnames⟩, ?_⟩
      rw [hx, hpath, Path.join_eq_append hroot hnil, List.append_assoc, ← Path.ofSegments_append]
      rfl
    refine .node ⟨[], List.forall_mem_nil _, (List.append_nil _).symm⟩ (fun c hmem => ?_)
      fun c hmem => ?_
    · exact hbelow (here.child c hmem) (ihc c hmem)
    · exact hbelow (here.unused c hmem) (ihu c hmem)

/-- No block of a tree below the root has the path of the root. -/
theorem all_path_ne_root (h : All Sound b) (hroot : b.path ≠ Path.root) (hnil : b.path ≠ []) :
    All (fun x => x.path ≠ Path.root) b := by
  refine (all_path_append h hroot hnil).imp ?_
  rintro x ⟨names, -, hx⟩ hxroot
  rw [hxroot] at hx
  rcases List.append_eq_cons_iff.mp hx.symm with ⟨hempty, -⟩ | ⟨rest, hpath, hrest⟩
  · exact hnil hempty
  · rw [(List.append_eq_nil_iff.mp hrest.symm).1] at hpath
    exact hroot hpath

/-- **Below the root** all blocks are typed by their paths. -/
theorem all_typedAt_of_throughout (h : All Sound b) (hroot : b.path ≠ Path.root)
    (hnil : b.path ≠ []) (ht : Throughout (Typed catalog) b) :
    All (fun x => x.info.TypedAt catalog x.path) b :=
  (All.and ht (all_path_ne_root h hroot hnil)).imp fun _ hx => hx.1 hx.2

/-- **When a tree moves**, each block in it moves to the path that starts with the new one of the
tree and goes on as it did. -/
theorem all_typedAt_rebase (h : All Sound b) (hroot : b.path ≠ Path.root) (hnil : b.path ≠ [])
    (hname : Path.IsSegment b.name) (parent : Text) :
    All (fun x => x.info.TypedAt catalog x.path) (b.rebase parent) ↔
      All (fun x => x.info.TypedAt catalog
        (Path.moved b.path (Path.join parent b.name) x.path)) b := by
  induction h generalizing parent with
  | @node b here hc hu ihc ihu =>
    have hself : Path.moved b.path (Path.join parent b.name) b.path = Path.join parent b.name := by
      have h := Path.moved_append b.path (Path.join parent b.name) []
      rwa [show Path.ofSegments [] = [] from rfl, List.append_nil, List.append_nil] at h
    have hbelow : ∀ {included : Bool} {c : Block}, Placed b.path included c → All Sound c →
        (c.path ≠ Path.root → c.path ≠ [] → Path.IsSegment c.name → ∀ parent,
          (All (fun x => x.info.TypedAt catalog x.path) (c.rebase parent) ↔
            All (fun x => x.info.TypedAt catalog
              (Path.moved c.path (Path.join parent c.name) x.path)) c)) →
        (All (fun x => x.info.TypedAt catalog x.path) (c.rebase (Path.join parent b.name)) ↔
          All (fun x => x.info.TypedAt catalog
            (Path.moved b.path (Path.join parent b.name) x.path)) c) := by
      intro included c hplaced hsound ih
      have hpath := hplaced.path
      have hcroot : c.path ≠ Path.root := hpath ▸ Path.join_ne_root _ hplaced.segment
      have hcnil : c.path ≠ [] := hpath ▸ Path.join_ne_nil _ _
      rw [ih hcroot hcnil hplaced.segment]
      have hpaths := all_path_append hsound hcroot hcnil
      -- Moved with its parent or on its own, the child comes to the same path.
      have hsame : ∀ x : Block, (∃ names, (∀ n ∈ names, Path.IsSegment n) ∧
          x.path = c.path ++ Path.ofSegments names) →
          Path.moved c.path (Path.join (Path.join parent b.name) c.name) x.path =
            Path.moved b.path (Path.join parent b.name) x.path := by
        rintro x ⟨names, -, hx⟩
        have hx' : x.path = b.path ++ Path.ofSegments (c.name :: names) := by
          rw [hx, hpath, Path.join_eq_append hroot hnil, List.append_assoc,
            ← Path.ofSegments_append]
          rfl
        rw [hx, Path.moved_append, ← hx, hx', Path.moved_append,
          Path.join_eq_append (Path.join_ne_root _ hname) (Path.join_ne_nil _ _),
          List.append_assoc, ← Path.ofSegments_append]
        rfl
      constructor
      · intro hall
        exact (hall.and hpaths).imp fun x hx => hsame x hx.2 ▸ hx.1
      · intro hall
        exact (hall.and hpaths).imp fun x hx => (hsame x hx.2).symm ▸ hx.1
    rw [all_iff, all_iff, rebase_mk]
    refine and_congr ?_ (and_congr ?_ ?_)
    · rw [hself]
      exact ⟨fun h => h.of_eq rfl rfl, fun h => h.of_eq rfl rfl⟩
    · rw [List.forall_mem_map]
      exact forall₂_congr fun c hmem => hbelow (here.child c hmem) (hc c hmem) (ihc c hmem)
    · rw [List.forall_mem_map]
      exact forall₂_congr fun c hmem => hbelow (here.unused c hmem) (hu c hmem) (ihu c hmem)

/-- **A block that gets another name** is typed by its new path, with all inside of it, when the
catalog says of the new paths what it said of the old ones. -/
theorem all_typedAt_renamed_iff (h : All Sound d) (hroot : d.path ≠ Path.root) (hnil : d.path ≠ [])
    (ht : All (fun x => x.info.TypedAt catalog x.path) d) {parent m : Text}
    (hm : Path.IsSegment m) :
    All (fun x => x.info.TypedAt catalog x.path) (d.renamed parent m) ↔
      ∀ x ∈ d.entire, catalog.SameTypes x.path
        (Path.moved d.path (Path.join parent m) x.path) := by
  have hnamed : All Sound { d with info := { d.info with name := m } } :=
    all_sound_with_info h ⟨h.here.info.subtype, h.here.info.own, h.here.info.live,
      h.here.info.stashed⟩ rfl
  rw [renamed, all_typedAt_rebase hnamed hroot hnil hm, ← all_iff_forall_mem_entire]
  rw [all_iff, all_iff (b := d)]
  have hsame : ∀ {c : Block}, All (fun x => x.info.TypedAt catalog x.path) c →
      (All (fun x => x.info.TypedAt catalog (Path.moved d.path (Path.join parent m) x.path)) c ↔
        All (fun x => catalog.SameTypes x.path
          (Path.moved d.path (Path.join parent m) x.path)) c) := by
    intro c hc
    constructor
    · exact fun hall => (hc.and hall).imp fun x hx => hx.1.iff_sameTypes.mp hx.2
    · exact fun hall => (hc.and hall).imp fun x hx => hx.1.iff_sameTypes.mpr hx.2
  refine and_congr ?_ (and_congr ?_ ?_)
  · rw [← ht.here.iff_sameTypes]
    exact ⟨fun h => h.of_eq rfl rfl, fun h => h.of_eq rfl rfl⟩
  · exact forall₂_congr fun c hc => hsame (ht.child c hc)
  · exact forall₂_congr fun c hc => hsame (ht.unused c hc)

/-- **The path of a block** below another one is written behind that of the other one. -/
theorem path_append_of_descend? {path : Text} {x : Block} {ns : List Text} (h : Grounded root)
    (hb : root.find? path = some b) (hroot : b.path ≠ Path.root) (hx : b.descend? ns = some x) :
    x.path = b.path ++ Path.ofSegments ns := by
  have hne : Path.segments path ≠ [] := by
    intro hnil
    rw [find?, hnil] at hb
    cases hb
    exact hroot h.path
  have hbelow : root.descend? (Path.segments path ++ ns) = some x := by
    rw [descend?_append, ← find?, hb, Option.bind_some, hx]
  rw [path_of_descend? h hbelow (by simp [hne]), path_of_descend? h hb hne, Path.ofSegments_append]

/-- The same path leads to blocks with the same path, below the roots of two documents. -/
theorem path_of_find?_path {other x y : Block} (h : Grounded root) (h' : Grounded other)
    (hx : x ∈ root.descendants) (hroot : x.path ≠ Path.root) (hy : other.find? x.path = some y) :
    y.path = x.path := by
  obtain ⟨ns, hns, hsegments⟩ := exists_descend? h.tree hx
  rw [h.path, show Path.segments Path.root = [] from rfl, List.nil_append] at hsegments
  have hne : ns ≠ [] := by
    rintro rfl
    cases hns
    exact hroot h.path
  rw [find?, hsegments] at hy
  rw [path_of_descend? h hns hne, path_of_descend? h' hy hne]

/-- Where two trees know the same, there are blocks in both. -/
theorem exists_descend?_of_coreAt {x : Block} {ns : List Text} (h : c.coreAt ns = b.coreAt ns)
    (hx : b.descend? ns = some x) : ∃ y, c.descend? ns = some y ∧ y.info.core = x.info.core := by
  rw [coreAt, coreAt, hx] at h
  exact Option.map_eq_some_iff.mp h

/-- **When a tree moves** and keeps what its blocks know, each block stands at the moved path with
the schema that it had. -/
theorem forall_descendants_iff_moved {root' : Block} {path path' : Text} (h : Grounded root)
    (h' : Grounded root') (hb : root.find? path = some b) (hc : root'.find? path' = some c)
    (hroot : b.path ≠ Path.root) (hroot' : c.path ≠ Path.root)
    (hcore : ∀ ns, c.coreAt ns = b.coreAt ns) (P : Text → Option BlockSchema → Prop) :
    (∀ x ∈ c.descendants, P x.path x.info.schema) ↔
      ∀ x ∈ b.descendants, P (Path.moved b.path c.path x.path) x.info.schema := by
  have hmoved : ∀ {ns : List Text} {x y : Block}, b.descend? ns = some x →
      c.descend? ns = some y → y.path = Path.moved b.path c.path x.path := by
    intro ns x y hx hy
    rw [path_append_of_descend? h hb hroot hx, path_append_of_descend? h' hc hroot' hy,
      Path.moved_append]
  constructor
  · intro hall x hx
    obtain ⟨ns, hns, -⟩ := exists_descend? (all_sound_of_find? h.tree hb) hx
    obtain ⟨y, hy, hsame⟩ := exists_descend?_of_coreAt (hcore ns) hns
    have hschema : y.info.core.schema = x.info.core.schema := congrArg BlockInfo.schema hsame
    rw [← hmoved hns hy, ← show y.info.schema = x.info.schema from hschema]
    exact hall y (mem_descendants_of_descend? ns hy)
  · intro hall y hy
    obtain ⟨ns, hns, -⟩ := exists_descend? (all_sound_of_find? h'.tree hc) hy
    obtain ⟨x, hx, hsame⟩ := exists_descend?_of_coreAt (hcore ns).symm hns
    have hschema : x.info.core.schema = y.info.core.schema := congrArg BlockInfo.schema hsame
    rw [hmoved hx hns, ← show x.info.schema = y.info.schema from hschema]
    exact hall x (mem_descendants_of_descend? ns hx)

/-! ### The tree of a text -/

/-- What agrees with the catalog is typed by its paths. -/
theorem throughout_typed_of_agrees (h : All (Agrees catalog) b) (hb : b.info.Typed catalog) :
    Throughout (Typed catalog) b := by
  induction h with
  | @node b here _ _ ihc ihu =>
    refine .node hb (fun c hc => ihc c hc fun _ => ?_) fun c hc => ihu c hc fun _ => ?_
    · have hmem : c ∈ b.children ++ b.unused := List.mem_append_left _ hc
      exact ⟨here.schema c hmem, here.childSchema c hmem⟩
    · have hmem : c ∈ b.children ++ b.unused := List.mem_append_right _ hc
      exact ⟨here.schema c hmem, here.childSchema c hmem⟩

/-- **The tree of a text** is typed by its paths. -/
theorem throughout_typed_parse {source : Text} (h : parse catalog source = .ok root) :
    Throughout (Typed catalog) root :=
  throughout_typed_of_agrees (all_agrees_parse h) fun hne => absurd (grounded_parse h).path hne

/-- **What the catalog describes** is typed by its path. -/
theorem typed_described (path name : Text) : (described catalog path name).info.Typed catalog :=
  fun _ => ⟨rfl, rfl⟩

/-- A block that is made from the catalog is typed by its path, with all inside of it. -/
theorem throughout_typed_instantiate (parent name : Text) :
    Throughout (Typed catalog) (instantiate catalog parent name) :=
  .of_described (fun p n => (typed_described p n).of_eq rfl rfl rfl) rfl rfl (typed_described _ _)

/-- A new tree is typed by its paths. -/
theorem throughout_typed_instantiateRoot : Throughout (Typed catalog) (instantiateRoot catalog) :=
  .of_described (fun p n => (typed_described p n).of_eq rfl rfl rfl) rfl rfl
    fun hne => absurd rfl hne

/-! ### Edits -/

/-- A block that is retouched is typed by its path if it was. -/
theorem Retouch.typed (h : b.Retouch c) (hc : c.info.childSchema = b.info.childSchema)
    (hb : b.info.Typed catalog) : c.info.Typed catalog :=
  hb.of_eq h.place.path h.schema hc

/-- A subtype that is chosen, if any is, leaves the schema of a user's children alone. -/
theorem childSchema_elim_switchSubtype (b : Block) (subtype : Option Text) :
    (subtype.elim b b.switchSubtype).info.childSchema = b.info.childSchema := by
  rcases subtype with _ | subtype
  · rfl
  · show (b.switchSubtype subtype).info.childSchema = _
    rw [switchSubtype]
    rcases hc : b.switchSubtype? subtype with _ | c
    · rfl
    · exact childSchema_switchSubtype? hc

end Block

namespace Edit

open Block (All Sound Throughout Grounded)
open BlockInfo (Typed)

variable {root root' : Block} {catalog : Catalog} {e : Edit} {landing : Landing}

/-- Only a rename moves blocks. -/
theorem not_mistypes (h : ∀ path newName, e ≠ .rename path newName) :
    ¬ e.Mistypes catalog root := by
  cases e with
  | rename path newName => exact absurd rfl (h path newName)
  | addChild | remove | setSubtype | setValue | setText | addParameter | setComment => exact id

/-- **A rename between names that no key of the catalog has** moves no block to other schemas. -/
theorem not_mistypes_of_unknown {path parent n newName : Text} (h : Grounded root)
    (hpath : splitPath path = .ok (parent, n)) (hnew : Path.IsSegment newName)
    (hunknown : ∀ key ∈ Named.names catalog.entries,
      n ∉ Path.segments key ∧ newName ∉ Path.segments key) :
    ¬ (Edit.rename path newName).Mistypes catalog root := by
  rintro ⟨d, hd, x, hx, hnot⟩
  have hsegments := segments_of_splitPath hpath
  rw [Block.find?, hsegments] at hd
  have hnames := Block.isSegment_of_descend? h.tree hd
  have hn : Path.IsSegment n := hnames n (by simp)
  have hfront : ∀ m ∈ Path.segments parent, Path.IsSegment m :=
    fun m hm => hnames m (List.mem_append_left _ hm)
  have hdpath := Block.path_of_descend? h hd (by simp)
  have hsound := h.tree.descendant (Block.mem_descendants_of_descend? _ hd)
  have hroot : d.path ≠ Path.root := hdpath ▸ Path.ofSegments_ne_root hnames (by simp)
  have hnil : d.path ≠ [] := hdpath ▸ Path.ofSegments_ne_nil (by simp)
  obtain ⟨names, hinside, hxpath⟩ :=
    (Block.all_iff_forall_mem_entire d).mp (Block.all_path_append hsound hroot hnil) x hx
  have hold : x.path = Path.ofSegments (Path.segments parent ++ n :: names) := by
    rw [hxpath, hdpath, ← Path.ofSegments_append, List.append_assoc]
    rfl
  have hmoved : Path.moved d.path (Path.renamed path newName) x.path =
      Path.ofSegments (Path.segments parent ++ newName :: names) := by
    rw [hxpath, Path.moved_append, Path.renamed, hsegments, List.dropLast_concat,
      Path.ofNames_of_ne_nil (by simp), ← Path.ofSegments_append, List.append_assoc]
    rfl
  rw [hmoved, hold] at hnot
  exact hnot (Catalog.sameTypes_of_unknown hfront hn hnew hinside hunknown)

/-- An edit that the catalog does not notice moves no block to other schemas. -/
theorem Unnoticed.not_mistypes (hu : e.Unnoticed catalog) (h : Grounded root)
    (he : Effect root catalog e root' landing) : ¬ e.Mistypes catalog root := by
  cases he with
  | @renamed path parent n newName b b' hpath hb hn hfree hb' =>
    have hlast : (Path.segments path).getLast? = some n := by
      rw [segments_of_splitPath hpath, List.getLast?_concat]
    exact not_mistypes_of_unknown h hpath (isHeaderName_of_isName hn).isSegment (hu n hlast)
  | switched hb hselected hc =>
    exact Edit.not_mistypes fun path newName he => by subst he; cases hselected
  | updated hb hchanged hselected hkeeps hfits =>
    exact Edit.not_mistypes fun path newName he => by subst he; cases hchanged
  | _ => exact id

/-- **What an edit does**, but for a rename, leaves the blocks typed by their paths. -/
theorem typed_of_effect (h : Throughout (Typed catalog) root)
    (he : Effect root catalog e root' landing)
    (hrename : ∀ path newName, e ≠ .rename path newName) :
    Throughout (Typed catalog) root' := by
  cases he with
  | @included path n subtype b c hb hn hc =>
    have hoffered := (h.of_find? hb).unused c (Named.mem_of_find? hc)
    have hmark : Throughout (Typed catalog) (c.mark true) :=
      hoffered.with_info (hoffered.here.of_eq rfl rfl rfl)
    have hretouch := retouch_elim_switchSubtype (c.mark true) subtype
    exact h.set ((h.of_find? hb).attach (hmark.of_retouch hretouch
      (hretouch.typed (Block.childSchema_elim_switchSubtype _ _) hmark.here)))
  | @added path n name subtype b hb hn hfree =>
    have hfresh : Throughout (Typed catalog) (Block.instantiate catalog b.path n) :=
      Block.throughout_typed_instantiate b.path n
    have hretouch := retouch_elim_switchSubtype (Block.instantiate catalog b.path n) subtype
    have hswitched := hfresh.of_retouch hretouch
      (hretouch.typed (Block.childSchema_elim_switchSubtype _ _) hfresh.here)
    exact h.set ((h.of_find? hb).attach (hswitched.with_info (hswitched.here.of_eq rfl rfl rfl)))
  | @removed path parent n b c hpath hb hc =>
    have hfresh : Throughout (Typed catalog) (Block.instantiate catalog b.path n) :=
      Block.throughout_typed_instantiate b.path n
    exact h.set ((h.of_find? hb).withdraw (hfresh.with_info (hfresh.here.of_eq rfl rfl rfl)))
  | @dropped path parent n b c hpath hb hc =>
    refine h.set ((h.of_find? hb).with_children (h.of_find? hb).child fun d hd => ?_)
    exact (h.of_find? hb).unused d (Named.mem_of_mem_remove hd)
  | renamed => exact absurd rfl (hrename _ _)
  | @switched e subtype b c hb hselected hc =>
    have hretouch := Block.retouch_switchSubtype? hc
    exact h.set ((h.of_find? hb).of_retouch hretouch
      (hretouch.typed (Block.childSchema_switchSubtype? hc) (h.of_find? hb).here))
  | @updated e n f b hb hchanged hselected hkeeps hfits =>
    exact h.set ((h.of_find? hb).of_retouch hfits
      (hfits.typed (Block.childSchema_updateParameter b n f) (h.of_find? hb).here))
  | @extended path name value b hb hn hvalue hfree =>
    have hretouch := Block.retouch_addParameter (b := b) (Slot.fits_user name value)
    exact h.set ((h.of_find? hb).of_retouch hretouch (hretouch.typed rfl (h.of_find? hb).here))

/-- **A rename** finds a child of a block. It leaves that child under its new name at the new path,
and there is nothing else that it brings. -/
theorem exists_renamed {path newName : Text} (h : Grounded root)
    (he : Effect root catalog (.rename path newName) root' landing) :
    ∃ parent b children d, root.find? parent = some b ∧ d ∈ b.children ∧
      root.find? path = some d ∧ root' = root.set parent { b with children } ∧
      root'.find? landing.path = some (d.renamed b.path newName) ∧
      Path.IsSegment newName ∧ Path.join b.path newName = Path.renamed path newName ∧
      ∀ c ∈ children, c = d.renamed b.path newName ∨ c ∈ b.children := by
  cases he with
  | switched _ hselected => cases hselected
  | updated _ hchanged => cases hchanged
  | @renamed _ parent n _ b b' hpath hb hn hfree hb' =>
    have hsegment : Path.IsSegment newName := (isHeaderName_of_isName hn).isSegment
    have hsegments := segments_of_splitPath hpath
    obtain ⟨d, hd, hfind⟩ :=
      Block.find?_renameChild? (Block.all_sound_of_find? h.tree hb) hsegment hb' hfree
    obtain ⟨d', children, hd', rfl, hperm⟩ := Block.exists_of_renameChild? hb'
    rw [hd] at hd'
    cases hd'
    refine ⟨parent, b, children, d, hb, Named.mem_of_find? hd,
      (find?_of_splitPath hpath hb).trans hd, rfl, ?_, hsegment, ?_, fun c hc => ?_⟩
    · have hset : (root.set parent { b with children }).find? parent = some { b with children } :=
        Block.find?_set hb rfl
      show (root.set parent _).find? (Path.join parent newName) = _
      rw [Block.find?, Path.segments_join_segment _ hsegment, Block.descend?_append, ← Block.find?,
        hset, Option.bind_some, Block.descend?, hfind, if_pos rfl]
      rfl
    · rw [Block.join_of_descend? h _ hb, Path.renamed, hsegments, List.dropLast_concat,
        Path.ofNames_of_ne_nil (by simp)]
    · refine (List.mem_cons.mp (hperm.mem_iff.mp hc)).imp_right fun hc => ?_
      exact Named.mem_of_mem_remove (Named.mem_of_mem_remove hc)

/-- **An edit leaves the blocks typed by their paths** exactly when it moves none of them to other
schemas. -/
theorem typed_of_effect_iff (hground : Grounded root) (h : Throughout (Typed catalog) root)
    (he : Effect root catalog e root' landing) :
    Throughout (Typed catalog) root' ↔ ¬ e.Mistypes catalog root := by
  by_cases hrename : ∃ path newName, e = .rename path newName
  · obtain ⟨path, newName, rfl⟩ := hrename
    obtain ⟨parent, b, children, d, hb, hmem, hd, rfl, hset, hsegment, hjoin, hchildren⟩ :=
      exists_renamed hground he
    have hsound := Block.all_sound_of_find? hground.tree hd
    have hplaced := (Block.all_sound_of_find? hground.tree hb).here.child d hmem
    have hroot : d.path ≠ Path.root := hplaced.path ▸ Path.join_ne_root _ hplaced.segment
    have hnil : d.path ≠ [] := hplaced.path ▸ Path.join_ne_nil _ _
    have htyped := Block.all_typedAt_of_throughout hsound hroot hnil (h.of_find? hd)
    have hmistypes : ¬ (Edit.rename path newName).Mistypes catalog root ↔
        Block.All (fun x => x.info.TypedAt catalog x.path) (d.renamed b.path newName) := by
      rw [Block.all_typedAt_renamed_iff hsound hroot hnil htyped hsegment, hjoin]
      simp [Mistypes, hd]
    rw [hmistypes]
    constructor
    · intro h'
      have hpath : (d.renamed b.path newName).path = Path.join b.path newName := rfl
      have hmoved := Block.all_sound_of_find? (he.all_sound hground.tree).1 hset
      exact Block.all_typedAt_of_throughout hmoved (hpath ▸ Path.join_ne_root _ hsegment)
        (hpath ▸ Path.join_ne_nil _ _) (h'.of_find? hset)
    · intro hmoved
      refine h.set ((h.of_find? hb).with_children (fun c hc => ?_) (h.of_find? hb).unused)
      rcases hchildren c hc with rfl | hc
      · exact hmoved.imp fun _ hx _ => hx
      · exact (h.of_find? hb).child c hc
  · push Not at hrename
    exact iff_of_true (typed_of_effect h he hrename) (not_mistypes hrename)

end Edit

namespace Document

open Block (Throughout)
open BlockInfo (Typed)

variable {catalog : Catalog} {d d' : Document}

/-- **A run that moves no block to other schemas** keeps all blocks typed by their paths. -/
theorem ReachedBy.typed {through : Document → Prop}
    (h : ReachedBy (fun d e => ¬ e.Mistypes catalog d.root) through catalog d) :
    Throughout (Typed catalog) d.root := by
  induction h with
  | new => exact Block.throughout_typed_instantiateRoot
  | ofText _ h => exact Block.throughout_typed_parse (root_of_ofText h).1
  | apply before he _ h ih =>
    obtain ⟨landing, happly, -⟩ := root_of_apply h
    have hground := before.reached.grounded
    rw [before.reached.catalog_eq] at happly
    exact (Edit.typed_of_effect_iff hground ih (Edit.effect_of_apply hground.tree happly)).mpr he
  | replaceText before _ h ih =>
    exact Block.throughout_typed_parse (before.reached.parse_of_replaceText h)

/-- **In a run whose renames the catalog does not notice** all blocks, used or not, stay typed by
their paths. -/
theorem ReachedBy.typed_of_unnoticed {through : Document → Prop}
    (h : ReachedBy (fun _ e => e.Unnoticed catalog) through catalog d) :
    Throughout (Typed catalog) d.root := by
  have hkept : ReachedBy (fun d e => ¬ e.Mistypes catalog d.root) through catalog d := by
    induction h with
    | new ht => exact .new ht
    | ofText ht h => exact .ofText ht h
    | apply before hu ht h ih =>
      obtain ⟨landing, he, -⟩ := root_of_apply h
      have hground := before.reached.grounded
      rw [before.reached.catalog_eq] at he
      exact ih.apply (hu.not_mistypes hground (Edit.effect_of_apply hground.tree he)) ht h
    | replaceText _ ht h ih => exact ih.replaceText ht h
  exact hkept.typed

/-- **What a rename does to types.** The blocks that it moves keep their schemas. So they have those
that the catalog has for their new paths, as they have when the text is read again, exactly when
these are the ones that they had. In a run that moves no block to other schemas they had those of
their old paths, and all blocks stay typed by their paths exactly when the rename moves none to
others. -/
theorem Reached.rename_typed {path newName : Text} {r : EditResult} (h : Reached catalog d)
    (happly : d.apply (.rename path newName) = .ok (d', r)) :
    ∃ b c, d.root.find? path = some b ∧ d'.root.find? r.path = some c ∧
      ((∀ x ∈ c.descendants, x.info.schema = catalog.lookup x.path) ↔
        ∀ x ∈ b.descendants, x.info.schema = catalog.lookup (Path.moved b.path c.path x.path)) ∧
      (∀ {indent again}, Block.parse catalog (d'.text indent) = .ok again →
        ∀ x ∈ c.descendants, ∀ y ∈ again.find? x.path,
          (y.info.schema = x.info.schema ↔ x.info.schema = catalog.lookup x.path)) ∧
      (ReachedBy (fun d e => ¬ e.Mistypes catalog d.root) (fun _ => True) catalog d →
        (∀ x ∈ b.descendants, x.info.schema = catalog.lookup x.path) ∧
          (Throughout (Typed catalog) d'.root ↔
            ¬ (Edit.rename path newName).Mistypes catalog d.root)) := by
  have hground := h.grounded
  have hground' := (h.apply happly).grounded
  obtain ⟨landing, he, -, hpath⟩ := root_of_apply happly
  rw [h.catalog_eq] at he
  have heffect := Edit.effect_of_apply hground.tree he
  obtain ⟨parent, b, -, c, hb, hmem, hc, -, hset, hsegment, -, -⟩ :=
    Edit.exists_renamed hground heffect
  have hplaced := (Block.all_sound_of_find? hground.tree hb).here.child c hmem
  have hroot : c.path ≠ Path.root := hplaced.path ▸ Path.join_ne_root _ hplaced.segment
  have hnil : c.path ≠ [] := hplaced.path ▸ Path.join_ne_nil _ _
  have hroot' : (c.renamed b.path newName).path ≠ Path.root := Path.join_ne_root _ hsegment
  refine ⟨c, c.renamed b.path newName, hc, hpath ▸ hset, ?_, ?_, ?_⟩
  · exact Block.forall_descendants_iff_moved hground hground' hc hset hroot hroot'
      (Block.coreAt_renamed c b.path newName) fun p schema => schema = catalog.lookup p
  · intro indent again hagain x hx y hy
    have hmoved := Block.all_sound_of_find? hground'.tree hset
    have hbelow := Block.all_path_ne_root hmoved hroot' (Path.join_ne_nil _ _)
    have hxroot := (hbelow.descendant hx).here
    have hxmem := Block.mem_descendants_trans (Block.mem_descendants_of_descend? _ hset) hx
    have hypath : y.info.path = x.path :=
      Block.path_of_find?_path hground' (Block.grounded_parse hagain) hxmem hxroot hy
    have hytyped := ((Block.throughout_typed_parse hagain).of_find? hy).here
    rw [(hytyped (hypath ▸ hxroot)).schema, hypath]
    exact eq_comm
  · intro hrun
    have htyped := Block.all_typedAt_of_throughout (Block.all_sound_of_find? hground.tree hc) hroot
      hnil (hrun.typed.of_find? hc)
    exact ⟨fun x hx => (htyped.descendant hx).here.schema,
      Edit.typed_of_effect_iff hground hrun.typed heffect⟩

/-- A catalog with a number `n` in the block `x` of every block. -/
def everywhereCatalog : Catalog where
  entries := [("/*/x".toList,
    { parameters := [{ name := "n".toList, basicType := "Integer".toList }] })]

/-- The catalog does not notice when a block gets another name, and the block inside of it stays
typed by its path. -/
theorem ReachedBy.typed_of_unnoticed_sample : ∃ d x,
    ReachedBy (fun _ e => e.Unnoticed everywhereCatalog) (fun _ => True) everywhereCatalog d ∧
      d.root.find? "/B/x".toList = some x ∧ (x.info.parameters.map Slot.name) = ["n".toList] ∧
        Throughout (Typed everywhereCatalog) d.root := by
  let last : Edit := .rename "/A".toList "B".toList
  let source := "[A]\n  [x]\n  []\n[]\n".toList
  have hrun : ((Document.ofText everywhereCatalog source .memory).toOption.bind fun d =>
      (d.apply last).toOption.bind fun (d', _) =>
        (d'.root.find? "/B/x".toList).map fun x => x.info.parameters.map Slot.name) =
          some ["n".toList] := by decide +kernel
  obtain ⟨d, hd, hrun⟩ := Option.bind_eq_some_iff.mp hrun
  obtain ⟨⟨d', r⟩, happly, hrun⟩ := Option.bind_eq_some_iff.mp hrun
  obtain ⟨x, hx, hnames⟩ := Option.map_eq_some_iff.mp hrun
  have hreached : ReachedBy (fun _ e => e.Unnoticed everywhereCatalog) (fun _ => True)
      everywhereCatalog d' :=
    (ReachedBy.ofText trivial (eq_ok_of_toOption hd)).apply (e := last) (by decide) trivial
      (eq_ok_of_toOption happly)
  exact ⟨d', x, hreached, hx, hnames, hreached.typed_of_unnoticed⟩

/-- A block is renamed and the number inside of it stays a number. -/
theorem Reached.rename_typed_sample : ∃ d d' r x, Reached everywhereCatalog d ∧
    d.apply (.rename "/A".toList "B".toList) = .ok (d', r) ∧
      d'.root.find? "/B/x".toList = some x ∧ (x.info.parameters.map Slot.name) = ["n".toList] ∧
        Throughout (Typed everywhereCatalog) d'.root := by
  let last : Edit := .rename "/A".toList "B".toList
  let source := "[A]\n  [x]\n  []\n[]\n".toList
  have hrun : ((Document.ofText everywhereCatalog source .memory).toOption.bind fun d =>
      (d.apply last).toOption.bind fun (d', _) =>
        (d'.root.find? "/B/x".toList).map fun x => (x.info.parameters.map Slot.name,
          decide (last.Mistypes everywhereCatalog d.root))) = some (["n".toList], false) := by
    decide +kernel
  obtain ⟨d, hd, hrun⟩ := Option.bind_eq_some_iff.mp hrun
  obtain ⟨⟨d', r⟩, happly, hrun⟩ := Option.bind_eq_some_iff.mp hrun
  obtain ⟨x, hx, hrun⟩ := Option.map_eq_some_iff.mp hrun
  obtain ⟨hnames, hmistypes⟩ := Prod.mk.inj hrun
  have hd := eq_ok_of_toOption hd
  have happly := eq_ok_of_toOption happly
  have hreached := Reached.ofText hd
  obtain ⟨b, c, -, -, -, -, hrun⟩ := hreached.rename_typed happly
  exact ⟨d, d', r, x, hreached, happly, hx, hnames,
    (hrun (.ofText trivial hd)).2.mpr (of_decide_eq_false hmistypes)⟩

/-- A block is renamed to the name of one that the catalog knows from inside only: a block in it
comes to a path with a schema and does not get it. -/
theorem not_forall_rename_typed :
    ¬ ∀ (catalog : Catalog) (d d' : Document) (path newName : Text) (r : EditResult) (c : Block),
      Reached catalog d → d.apply (.rename path newName) = .ok (d', r) →
        d'.root.find? r.path = some c →
          ∀ x ∈ c.descendants, x.info.schema = catalog.lookup x.path := by
  intro hall
  let catalog : Catalog := ⟨[("/B/x".toList,
    { parameters := [{ name := "n".toList, basicType := "Integer".toList }] })]⟩
  have hrun : ((ofText catalog "[A]\n  [x]\n  []\n[]\n".toList .memory).toOption.bind fun d =>
      (d.apply (.rename "/A".toList "B".toList)).toOption.bind fun (d', r) =>
        (d'.root.find? r.path).map fun c =>
          decide (∀ x ∈ c.descendants, x.info.schema = catalog.lookup x.path)) = some false := by
    decide +kernel
  obtain ⟨d, hd, hrun⟩ := Option.bind_eq_some_iff.mp hrun
  obtain ⟨⟨d', r⟩, happly, hrun⟩ := Option.bind_eq_some_iff.mp hrun
  obtain ⟨c, hc, hrun⟩ := Option.map_eq_some_iff.mp hrun
  exact of_decide_eq_false hrun (hall catalog d d' _ _ r c (.ofText (eq_ok_of_toOption hd))
    (eq_ok_of_toOption happly) hc)

end Document

end BlockEdit
