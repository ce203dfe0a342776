import BlockEdit.Proofs.Soundness
import Mathlib.Data.List.Nodup

/-!
# Look-up in sound trees

A block of a document is reached from the root by the names on the way to it, and in a sound tree
these are the segments of its path. A block that is replaced by one with the same place leaves the
tree sound, and so does a whole document that goes under another root.

Main statements:

* **`Block.find?_path`**: every block of a sound document is found at its own path.
* **`Block.nodup_paths`**: no two blocks of a sound document have the same path.
* **`Block.all_sound_set`**: a block can be replaced by any sound tree with its place.
-/

namespace BlockEdit.Block

/-- The block `c` stands where `b` does. -/
structure SamePlace (b c : Block) : Prop where
  /-- The name is the same. -/
  name : c.name = b.name
  /-- The path is the same. -/
  path : c.path = b.path
  /-- Both are marked for the same list. -/
  included : c.info.included = b.info.included

/-- A block stands where it stands. -/
theorem SamePlace.refl (b : Block) : SamePlace b b := ⟨rfl, rfl, rfl⟩

/-- A block that knows the same stands in the same place. -/
theorem SamePlace.of_info {b c : Block} (h : c.info = b.info) : SamePlace b c :=
  ⟨congrArg BlockInfo.name h, congrArg BlockInfo.path h, congrArg BlockInfo.included h⟩

/-- Places are compared step by step. -/
theorem SamePlace.trans {a b c : Block} (hab : SamePlace a b) (hbc : SamePlace b c) :
    SamePlace a c :=
  ⟨hbc.name.trans hab.name, hbc.path.trans hab.path, hbc.included.trans hab.included⟩

/-- What stands where a block in place does is in place. -/
theorem Placed.of_samePlace {path : Text} {included : Bool} {b c : Block}
    (h : Placed path included b) (hs : SamePlace b c) : Placed path included c where
  path := by rw [hs.path, h.path, hs.name]
  included := hs.included.trans h.included
  segment := hs.name ▸ h.segment

/-! ### Ways through a tree -/

/-- A block is in its tree. -/
theorem mem_descendants_self (b : Block) : b ∈ b.descendants := by
  rw [descendants_eq_cons]
  exact List.mem_cons_self

/-- What is in the tree of a child is in the tree. -/
theorem mem_descendants_of_child {b c d : Block} (hc : c ∈ b.children) (hd : d ∈ c.descendants) :
    d ∈ b.descendants := by
  rw [descendants_eq_cons, inside, allDescendants_eq_flatMap]
  exact List.mem_cons_of_mem _ (List.mem_flatMap.mpr ⟨c, hc, hd⟩)

/-- A block of a document is the root or in the tree of one of its children. -/
theorem mem_descendants_cases {b d : Block} (h : d ∈ b.descendants) :
    d = b ∨ ∃ c ∈ b.children, d ∈ c.descendants := by
  rw [descendants_eq_cons, inside, allDescendants_eq_flatMap] at h
  rcases List.mem_cons.mp h with h | h
  · exact Or.inl h
  · exact Or.inr (List.mem_flatMap.mp h)

/-- The blocks of a block of a tree are blocks of the tree. -/
theorem mem_descendants_trans {b c d : Block} (hc : c ∈ b.descendants) (hd : d ∈ c.descendants) :
    d ∈ b.descendants := by
  induction b using Block.induct with
  | step info children unused ih _ =>
    rcases mem_descendants_cases hc with rfl | ⟨e, he, hc⟩
    · exact hd
    · exact mem_descendants_of_child he (ih e he hc)

/-- What is below a block is in its tree. -/
theorem mem_descendants_of_mem_inside {b d : Block} (h : d ∈ b.inside) : d ∈ b.descendants := by
  rw [descendants_eq_cons]
  exact List.mem_cons_of_mem _ h

/-- What is in the tree of a child is below the block. -/
theorem mem_inside_of_child {b c d : Block} (hc : c ∈ b.children) (hd : d ∈ c.descendants) :
    d ∈ b.inside := by
  rw [inside, allDescendants_eq_flatMap]
  exact List.mem_flatMap.mpr ⟨c, hc, hd⟩

/-- The children of a block of a document are below its root. -/
theorem mem_inside_of_descendant {b c d : Block} (hd : d ∈ b.descendants) (hc : c ∈ d.children) :
    c ∈ b.inside := by
  induction b using Block.induct with
  | step info children unused ih _ =>
    rcases mem_descendants_cases hd with rfl | ⟨e, he, hd⟩
    · exact mem_inside_of_child hc (mem_descendants_self c)
    · exact mem_inside_of_child he (mem_descendants_of_mem_inside (ih e he hd))

/-- A block below another one is a child there. -/
theorem exists_parent_of_mem_inside {b d : Block} (h : d ∈ b.inside) :
    ∃ parent ∈ b.descendants, d ∈ parent.children := by
  induction b using Block.induct with
  | step info children unused ih _ =>
    rw [inside, allDescendants_eq_flatMap] at h
    obtain ⟨c, hc, hd⟩ := List.mem_flatMap.mp h
    rw [descendants_eq_cons] at hd
    rcases List.mem_cons.mp hd with rfl | hd
    · exact ⟨_, mem_descendants_self _, hc⟩
    · obtain ⟨parent, hparent, hchild⟩ := ih c hc hd
      exact ⟨parent, mem_descendants_of_child hc hparent, hchild⟩

/-- What holds everywhere in a tree holds everywhere in the trees of its blocks. -/
theorem All.descendant {P : Block → Prop} {b : Block} (h : All P b) :
    ∀ {d : Block}, d ∈ b.descendants → All P d := by
  induction h with
  | @node b here hc hu ihc _ =>
    intro d hd
    rcases mem_descendants_cases hd with heq | ⟨c, hcm, hd⟩
    · rw [heq]
      exact .node here hc hu
    · exact ihc c hcm hd

/-- **What is reached** by names is a block of the document. -/
theorem mem_descendants_of_descend? {d : Block} : ∀ (ns : List Text) {b : Block},
    b.descend? ns = some d → d ∈ b.descendants
  | [], _, h => by
    cases h
    exact mem_descendants_self d
  | n :: ns, b, h => by
    rw [descend?] at h
    obtain ⟨c, hc, hd⟩ := Option.bind_eq_some_iff.mp h
    exact mem_descendants_of_child (Named.mem_of_find? hc) (mem_descendants_of_descend? ns hd)

/-- **Every block of a sound tree** is reached by the names that its path adds to that of the
top. -/
theorem exists_descend? {b : Block} (h : All Sound b) : ∀ {d : Block}, d ∈ b.descendants →
    ∃ ns, b.descend? ns = some d ∧ Path.segments d.path = Path.segments b.path ++ ns := by
  induction h with
  | @node b here hc _ ihc _ =>
    intro d hd
    rcases mem_descendants_cases hd with heq | ⟨c, hcm, hd⟩
    · rw [heq]
      exact ⟨[], rfl, (List.append_nil _).symm⟩
    · obtain ⟨ns, hns, hpath⟩ := ihc c hcm hd
      have hplaced := here.child c hcm
      have hfind : Named.find? c.name b.children = some c :=
        Named.find?_of_mem (nodup_children here) hcm
      refine ⟨c.name :: ns, ?_, ?_⟩
      · rw [descend?, hfind, Option.bind_some, hns]
      · rw [hpath, hplaced.path, Path.segments_join_segment _ hplaced.segment, List.append_assoc]
        rfl

/-- **Every block of a sound document** is found at its own path. -/
theorem find?_path {root d : Block} (h : All Sound root) (hroot : root.path = Path.root)
    (hd : d ∈ root.descendants) : root.find? d.path = some d := by
  obtain ⟨ns, hns, hpath⟩ := exists_descend? h hd
  have hsegments : Path.segments d.path = ns := by
    rw [hpath, hroot]
    rfl
  rw [find?, hsegments, hns]

/-- What is found in a sound document is a sound tree. -/
theorem all_sound_of_find? {root b : Block} {path : Text} (h : All Sound root)
    (hb : root.find? path = some b) : All Sound b :=
  h.descendant (mem_descendants_of_descend? _ hb)

/-- The segments of the paths in a sound tree start with those of the path of its top. -/
theorem prefix_segments_path {b d : Block} (h : All Sound b) (hd : d ∈ b.descendants) :
    Path.segments b.path <+: Path.segments d.path := by
  obtain ⟨ns, -, hpath⟩ := exists_descend? h hd
  exact ⟨ns, hpath.symm⟩

/-- **No path occurs twice** among the blocks of a sound document. -/
theorem nodup_paths {b : Block} (h : All Sound b) : (b.descendants.map path).Nodup := by
  induction h with
  | @node b here hc hu ihc _ =>
    -- The path of a block inside of a child starts with the path of the parent and its name.
    have hfront : ∀ c ∈ b.children, ∀ d ∈ c.descendants,
        Path.segments b.path ++ [c.name] <+: Path.segments d.path := by
      intro c hcm d hd
      have hplaced := here.child c hcm
      have := prefix_segments_path (hc c hcm) hd
      rwa [hplaced.path, Path.segments_join_segment _ hplaced.segment] at this
    rw [descendants_eq_cons, List.map_cons, List.nodup_cons, inside, allDescendants_eq_flatMap]
    constructor
    · intro hmem
      obtain ⟨d, hd, hpath⟩ := List.mem_map.mp hmem
      obtain ⟨c, hcm, hd⟩ := List.mem_flatMap.mp hd
      have hle := (hfront c hcm d hd).length_le
      rw [hpath, List.length_append, List.length_singleton] at hle
      omega
    · rw [List.map_flatMap, List.nodup_flatMap]
      refine ⟨fun c hcm => ihc c hcm, ?_⟩
      have hpair : b.children.Pairwise fun c c' => c.name ≠ c'.name :=
        List.pairwise_map.mp (nodup_children here)
      refine hpair.imp_of_mem ?_
      intro c c' hcm hcm' hne p hp hp'
      obtain ⟨d, hd, rfl⟩ := List.mem_map.mp hp
      obtain ⟨d', hd', hpath⟩ := List.mem_map.mp hp'
      have h1 := hfront c hcm d hd
      have h2 := hfront c' hcm' d' hd'
      rw [hpath] at h2
      have heq := List.prefix_of_prefix_length_le h1 h2 (by simp)
      exact hne (by simpa using heq.eq_of_length (by simp))

/-! ### Replacing a block -/

/-- What a block is replaced by is found where the block was. -/
theorem descend?_replaceAt {old new : Block} (hn : new.name = old.name) :
    ∀ (ns : List Text) {b : Block}, b.descend? ns = some old →
      (b.replaceAt ns new).descend? ns = some new ∧ (b.replaceAt ns new).name = b.name
  | [], b, h => by
    cases h
    exact ⟨rfl, hn⟩
  | n :: ns, b, h => by
    rw [descend?] at h
    obtain ⟨c, hc, hold⟩ := Option.bind_eq_some_iff.mp h
    obtain ⟨hnew, hname⟩ := descend?_replaceAt hn ns hold
    refine ⟨?_, rfl⟩
    rw [replaceAt, descend?, Named.find?_update, hc, Option.map_some, Option.bind_some, hnew]
    intro d hd
    rw [hc] at hd
    cases hd
    exact hname.trans (Named.name_of_find? hc)

/-- **What a block of a document is replaced by** is found at its path. -/
theorem find?_set {root old new : Block} {path : Text} (h : root.find? path = some old)
    (hn : new.name = old.name) : (root.set path new).find? path = some new :=
  (descend?_replaceAt hn _ h).1

/-- When a block is replaced by one that knows the same in some respect, so does the root. -/
theorem congr_info_set {α : Type} (f : BlockInfo → α) {root b c : Block} {path : Text}
    (hb : root.find? path = some b) (hc : f c.info = f b.info) :
    f (root.set path c).info = f root.info := by
  rw [find?] at hb
  rw [set]
  cases hns : Path.segments path with
  | nil =>
    rw [hns] at hb
    cases hb
    exact hc
  | cons n ns => rfl

/-- **A block in a sound tree** can be replaced by a sound tree with its place, and the top of the
tree keeps its own. -/
theorem all_sound_replaceAt {old new : Block} (hnew : All Sound new) (hs : SamePlace old new) :
    ∀ (ns : List Text) {b : Block}, All Sound b → b.descend? ns = some old →
      All Sound (b.replaceAt ns new) ∧ SamePlace b (b.replaceAt ns new)
  | [], b, _, h => by
    cases h
    rw [replaceAt]
    exact ⟨hnew, hs⟩
  | n :: ns, b, hb, h => by
    rw [descend?] at h
    obtain ⟨c, hc, hold⟩ := Option.bind_eq_some_iff.mp h
    obtain ⟨hmem, hname⟩ := Named.find?_eq_some hc
    obtain ⟨hsound, hplace⟩ := all_sound_replaceAt hnew hs ns (hb.child c hmem) hold
    have hupdate : Named.update n (fun child => child.replaceAt ns new) b.children =
        Named.update n (fun _ => c.replaceAt ns new) b.children :=
      Named.update_congr hc rfl
    have hnames : Named.names (Named.update n (fun _ => c.replaceAt ns new) b.children) =
        Named.names b.children :=
      Named.names_update (fun _ _ => hplace.name.trans hname) b.children
    rw [replaceAt, hupdate]
    refine ⟨?_, rfl, rfl, rfl⟩
    refine all_sound_with_children hb ?_ (fun d hd => unused_spec hb hd) ?_
      (nodup_unused hb.here) ?_
    · intro d hd
      rcases Named.mem_update hd with hd | ⟨_, _, _, rfl⟩
      · exact child_spec hb hd
      · exact ⟨(hb.here.child c hmem).of_samePlace hplace, hsound⟩
    · rw [hnames]
      exact nodup_children hb.here
    · intro m hm
      rw [hnames] at hm
      exact not_mem_unused_of_mem_children hb.here hm

/-- **A block of a sound document** can be replaced by a sound tree with its place. -/
theorem all_sound_set {root old new : Block} {path : Text} (h : All Sound root)
    (hold : root.find? path = some old) (hnew : All Sound new) (hs : SamePlace old new) :
    All Sound (root.set path new) ∧ SamePlace root (root.set path new) :=
  all_sound_replaceAt hnew hs _ h hold

/-- **The contents of another document** under a root are a sound tree. -/
theorem all_sound_replaceContents {b other : Block} (h : All Sound other) :
    All Sound (b.replaceContents other) := by
  rw [replaceContents, rebaseAll_eq_map, rebaseAll_eq_map]
  refine .node ⟨⟨h.here.info.subtype, h.here.info.own, h.here.info.live, h.here.info.stashed⟩,
    ?_, ?_, ?_, ?_⟩ ?_ ?_
  · intro c hc
    obtain ⟨d, hd, rfl⟩ := List.mem_map.mp hc
    exact placed_rebase (h.here.child d hd)
  · intro c hc
    obtain ⟨d, hd, rfl⟩ := List.mem_map.mp hc
    exact placed_rebase (h.here.unused d hd)
  · intro c hc
    obtain ⟨d, hd, rfl⟩ := List.mem_map.mp hc
    rw [children_rebase, h.here.leaf d hd, List.map_nil]
  · rw [names_map_rebase, names_map_rebase]
    exact h.here.nodup
  · intro c hc
    obtain ⟨d, hd, rfl⟩ := List.mem_map.mp hc
    exact all_sound_rebase (h.child d hd) b.path
  · intro c hc
    obtain ⟨d, hd, rfl⟩ := List.mem_map.mp hc
    exact all_sound_rebase (h.unused d hd) b.path

/-- The contents of a sound document go unchanged under a root with the place of its own. -/
theorem replaceContents_eq_self {b other : Block} (h : All Sound other)
    (hn : b.name = other.name) (hp : b.path = other.path) : b.replaceContents other = other := by
  have hc : rebaseAll b.path other.children = other.children :=
    rebaseAll_eq_self h.child fun c hc => hp ▸ (h.here.child c hc).path
  have hu : rebaseAll b.path other.unused = other.unused :=
    rebaseAll_eq_self h.unused fun c hc => hp ▸ (h.here.unused c hc).path
  rw [replaceContents, hc, hu]
  cases other
  rw [show b.info.name = _ from hn, show b.info.path = _ from hp]

end BlockEdit.Block
