import BlockEdit.Proofs.Frames
import BlockEdit.Proofs.SortedMaps

/-!
# The flat view of a document

A snapshot is a flat map: each block of the document stands under its path, which is written from
the names that lead to the block. What an operation does to the tree can be told as an operation on
this map: one entry is put, all entries at and below a path go, or they move to another path.

Main statements:

* **`Snapshot.Shows.eq`**: a snapshot is known by what it shows under the paths that are written
  from names.
* **`Snapshot.ofBlock_set_of_retouch`**, **`Snapshot.ofBlock_set_attach`**,
  **`Snapshot.ofBlock_set_withdraw`**, **`Snapshot.ofBlock_set_renameChild?`**: the operations on a
  block of a document as operations on its snapshot.
-/

namespace BlockEdit

/-! ### Paths that are written from names -/

namespace Path

/-- The path of the block that the names lead to. -/
def ofNames (ns : List Text) : Text := if ns = [] then root else ofSegments ns

/-- The path is spelled as the path of a block is: with one slash before each name and none at the
end, or as that of the root. -/
def IsCanonical (path : Text) : Prop := path = ofNames (segments path)

instance (path : Text) : Decidable (IsCanonical path) :=
  inferInstanceAs (Decidable (path = ofNames (segments path)))

/-- A path at or below `old` with `new` in the place of `old`. -/
def moved (old new path : Text) : Text :=
  if isWithin old path then new ++ path.drop old.length else path

/-- Names that start with `os`, with `ns` in the place of `os`. -/
def movedNames (os ns ms : List Text) : List Text :=
  if os <+: ms then ns ++ ms.drop os.length else ms

variable {ns ms os : List Text}

/-- Names are written as segments, unless there are none. -/
theorem ofNames_of_ne_nil (h : ns ≠ []) : ofNames ns = ofSegments ns := if_neg h

/-- From the path that is written for names, the names are read again. -/
theorem segments_ofNames (h : ∀ n ∈ ns, IsSegment n) : segments (ofNames ns) = ns := by
  by_cases hne : ns = []
  · rw [hne]
    rfl
  · rw [ofNames_of_ne_nil hne, segments_ofSegments h]

/-- Different names are written as different paths. -/
theorem ofNames_inj (hns : ∀ n ∈ ns, IsSegment n) (hms : ∀ n ∈ ms, IsSegment n)
    (h : ofNames ns = ofNames ms) : ns = ms := by
  rw [← segments_ofNames hns, h, segments_ofNames hms]

/-- The names that come last are written behind the others. -/
theorem ofNames_append (h : os ≠ []) (ms : List Text) :
    ofNames (os ++ ms) = ofNames os ++ ofSegments ms := by
  rw [ofNames_of_ne_nil (by simp [h]), ofNames_of_ne_nil h, ofSegments_append]

/-- **A path lies below another one**, not that of the root, when its names start with those of the
other one. -/
theorem isWithin_ofNames (hne : os ≠ []) (hos : ∀ n ∈ os, IsSegment n)
    (hms : ∀ n ∈ ms, IsSegment n) :
    isWithin (ofNames os) (ofNames ms) = true ↔ os <+: ms := by
  by_cases h : ms = []
  · -- The path of the root is too short to have a name in it.
    subst h
    obtain ⟨n, os, rfl⟩ := List.exists_cons_of_ne_nil hne
    rw [isWithin_iff, List.prefix_nil]
    refine iff_of_false ?_ hne
    rintro ⟨rest, hroot, -⟩
    obtain ⟨c, t, rfl⟩ := List.exists_cons_of_ne_nil (hos n List.mem_cons_self).1
    rw [ofNames_of_ne_nil hne, ofSegments_cons] at hroot
    cases hroot
  · rw [ofNames_of_ne_nil hne, ofNames_of_ne_nil h, isWithin_ofSegments hos hms]

/-- Names below the old place go below the new one. -/
theorem movedNames_append (os ns ms : List Text) : movedNames os ns (os ++ ms) = ns ++ ms := by
  rw [movedNames, if_pos (List.prefix_append os ms), List.drop_left]

/-- All other names stay. -/
theorem movedNames_outside (h : ¬ os <+: ms) : movedNames os ns ms = ms := if_neg h

/-- Names that move become names of the new place and names of their own, all of them segments. -/
theorem isSegment_movedNames (hn : ∀ n ∈ ns, IsSegment n) (hm : ∀ n ∈ ms, IsSegment n) :
    ∀ n ∈ movedNames os ns ms, IsSegment n := by
  intro n hmem
  rw [movedNames] at hmem
  split at hmem
  · exact (List.mem_append.mp hmem).elim (hn n) fun hd => hm n (List.mem_of_mem_drop hd)
  · exact hm n hmem

/-- Names that move to segments were segments. -/
theorem isSegment_of_movedNames (ho : ∀ n ∈ os, IsSegment n)
    (h : ∀ n ∈ movedNames os ns ms, IsSegment n) : ∀ n ∈ ms, IsSegment n := by
  by_cases hpre : os <+: ms
  · obtain ⟨k, rfl⟩ := hpre
    rw [movedNames_append] at h
    exact fun n hn => (List.mem_append.mp hn).elim (ho n) fun hk =>
      h n (List.mem_append_right _ hk)
  · rwa [movedNames_outside hpre] at h

/-- Names that are not in the new place unless they come from the old one stay apart. -/
theorem movedNames_inj {ks : List Text} (hm : ns <+: ms → os <+: ms)
    (hk : ns <+: ks → os <+: ks) (h : movedNames os ns ms = movedNames os ns ks) : ms = ks := by
  by_cases hms : os <+: ms
  · obtain ⟨a, rfl⟩ := hms
    rw [movedNames_append] at h
    by_cases hks : os <+: ks
    · obtain ⟨b, rfl⟩ := hks
      rw [movedNames_append] at h
      rw [List.append_cancel_left h]
    · rw [movedNames_outside hks] at h
      exact absurd (hk ⟨a, h⟩) hks
  · rw [movedNames_outside hms] at h
    by_cases hks : os <+: ks
    · obtain ⟨b, rfl⟩ := hks
      rw [movedNames_append] at h
      exact absurd (hm ⟨b, h.symm⟩) hms
    · rwa [movedNames_outside hks] at h

/-- **A path that is moved** is written from the names that are moved. -/
theorem moved_ofNames (hos : os ≠ []) (hns : ns ≠ []) (ho : ∀ n ∈ os, IsSegment n)
    (hm : ∀ n ∈ ms, IsSegment n) :
    moved (ofNames os) (ofNames ns) (ofNames ms) = ofNames (movedNames os ns ms) := by
  rw [moved]
  by_cases hpre : os <+: ms
  · obtain ⟨k, rfl⟩ := hpre
    rw [if_pos ((isWithin_ofNames hos ho hm).mpr (List.prefix_append os k)), movedNames_append,
      ofNames_append hos, ofNames_append hns, List.drop_left]
  · rw [if_neg fun hw => hpre ((isWithin_ofNames hos ho hm).mp hw),
      movedNames_outside hpre]

end Path

namespace Block

variable {root b c : Block} {ns ms : List Text}

/-- In a grounded tree the path of a block is written from the names that lead to it. -/
theorem path_eq_ofNames (h : Grounded root) (hb : root.descend? ns = some b) :
    b.path = Path.ofNames ns := by
  by_cases hne : ns = []
  · subst hne
    cases hb
    exact h.path
  · rw [path_of_descend? h hb hne, Path.ofNames_of_ne_nil hne]

/-- The path of a child is written from the names that lead to its parent and its own. -/
theorem join_eq_ofNames (h : Grounded root) (hb : root.descend? ns = some b) (n : Text) :
    Path.join b.path n = Path.ofNames (ns ++ [n]) := by
  rw [join_of_descend? h ns hb, Path.ofNames_of_ne_nil (by simp)]

/-! ### What stands at the end of names -/

/-- What a snapshot holds of the block that the names lead to. -/
def entryAt (b : Block) (ns : List Text) : Option BlockSnapshot :=
  (b.descend? ns).map BlockSnapshot.ofBlock

/-- Of what a block knows, its place does not matter to a snapshot. -/
theorem entryAt_congr (h : c.coreAt ms = b.coreAt ns) : c.entryAt ms = b.entryAt ns := by
  have hview : ∀ (d : Block) (ks : List Text),
      d.entryAt ks = (d.coreAt ks).map fun core => BlockSnapshot.ofBlock ⟨core, [], []⟩ := by
    intro d ks
    rw [entryAt, coreAt, Option.map_map]
    rfl
  rw [hview, hview, h]

/-- Names can be followed in two steps. -/
theorem entryAt_append (hb : root.descend? ns = some b) (ms : List Text) :
    root.entryAt (ns ++ ms) = b.entryAt ms :=
  entryAt_congr (coreAt_append hb ms)

/-- Names are followed from the child with the first one. -/
theorem entryAt_cons (b : Block) (n : Text) (ms : List Text) :
    b.entryAt (n :: ms) = (Named.find? n b.children).bind fun c => c.entryAt ms := by
  rw [entryAt, descend?, Option.map_bind]
  rfl

/-- **A block of a document that is replaced** stands where it stood, and nothing changes outside
of it. -/
theorem entryAt_set {path : Text} (hb : root.find? path = some b) (hc : c.name = b.name) :
    (∀ ms, (root.set path c).entryAt (Path.segments path ++ ms) = c.entryAt ms) ∧
      ∀ ms, ¬ Path.segments path <+: ms → (root.set path c).entryAt ms = root.entryAt ms :=
  ⟨entryAt_append (descend?_replaceAt hc _ hb).1,
    fun ms hms => entryAt_congr (coreAt_replaceAt hc _ hb ms hms)⟩

/-- A retouched block shows itself anew, and all below it as before. -/
theorem entryAt_of_retouch (h : b.Retouch c) :
    c.entryAt ms = if ms = [] then some (BlockSnapshot.ofBlock c) else b.entryAt ms := by
  split
  · next hnil =>
    subst hnil
    rfl
  · next hne => exact entryAt_congr (coreAt_of_retouch h hne)

/-- Names lead to a child at the end, to nothing below it, or to what they led to. -/
theorem entryAt_attach (hfree : c.name ∉ Named.names b.children) (hleaf : c.children = []) :
    (b.attach c).entryAt ms =
      if ms = [c.name] then some (BlockSnapshot.ofBlock c) else b.entryAt ms := by
  rcases ms with _ | ⟨m, ms⟩
  · rfl
  · rw [entryAt_cons, entryAt_cons, attach, Named.find?_append, Named.find?]
    by_cases hm : m = c.name
    · subst hm
      rw [Named.find?_eq_none hfree, if_pos (show Named.name c = c.name from rfl), Option.none_or,
        Option.bind_some, Option.bind_none]
      rcases ms with _ | ⟨k, ms⟩
      · rw [if_pos rfl]
        rfl
      · rw [if_neg (by simp), entryAt_cons, hleaf]
        rfl
    · rw [if_neg (show ¬ Named.name c = m from Ne.symm hm), if_neg (by simp [hm]), Named.find?,
        Option.or_none]

/-- Names that start with that of a child that goes lead to nothing. -/
theorem entryAt_withdraw (catalog : Catalog) {n : Text} (hb : b.Sound) :
    (b.withdraw catalog n).entryAt ms = if [n] <+: ms then none else b.entryAt ms := by
  rcases ms with _ | ⟨m, ms⟩
  · rfl
  · rw [entryAt_cons, entryAt_cons, withdraw]
    by_cases hm : n = m
    · subst hm
      rw [Named.find?_eq_none (Named.not_mem_names_remove (nodup_children hb)), if_pos (by simp)]
      rfl
    · rw [Named.find?_remove (Ne.symm hm), if_neg (by simp [hm])]

/-- Names that start with the new name of a child lead to where they led with the old one. -/
theorem entryAt_renameChild? {n m : Text} (hb : All Sound b) (hm : Path.IsSegment m)
    (h : b.renameChild? n m = some c) (hfree : m = n ∨ b.hasChild m = false) :
    c.entryAt ms = if [m] <+: ms then b.entryAt (n :: ms.tail)
      else if [n] <+: ms then none else b.entryAt ms := by
  rcases ms with _ | ⟨k, ms⟩
  · obtain ⟨d, children, -, rfl, -⟩ := exists_of_renameChild? h
    rfl
  · obtain ⟨d, hd, hfind⟩ := find?_renameChild? hb hm h hfree
    have hfirst : ∀ x : Text, [x] <+: k :: ms ↔ x = k := fun x => by simp
    simp only [hfirst, entryAt_cons, hfind, List.tail_cons]
    split
    · rw [hd, Option.bind_some, Option.bind_some]
      exact entryAt_congr (coreAt_renamed d b.path m ms)
    · split
      · rfl
      · rfl

end Block

/-! ### Snapshots as maps of names -/

namespace Snapshot

open Block (All Grounded Sound)
open BlockEdit.Path (IsSegment ofNames)

/-- The snapshot without the blocks at and below a path. -/
def eraseWithin (path : Text) (m : Snapshot) : Snapshot :=
  ⟨m.entries.filter fun entry => !Path.isWithin path entry.1⟩

/-- The snapshot with the blocks at and below `old` moved to `new`. -/
def moveWithin (old new : Text) (m : Snapshot) : Snapshot :=
  .ofList (m.entries.map fun entry => (Path.moved old new entry.1, entry.2))

/-- The snapshot has what `view` tells of names under the path that is written from them, and
nothing else. -/
structure Shows (m : Snapshot) (view : List Text → Option BlockSnapshot) : Prop where
  /-- The entries are in increasing order of the paths. -/
  increasing : SortedMap.Increasing m.entries
  /-- The entries are those that the view tells. -/
  find : ∀ {p : Text} {s : BlockSnapshot}, m.find? p = some s ↔
    ∃ ns, (∀ n ∈ ns, IsSegment n) ∧ p = ofNames ns ∧ view ns = some s

variable {m m' : Snapshot} {v w : List Text → Option BlockSnapshot} {os ns : List Text}

/-- **A snapshot is known by what it shows.** -/
theorem Shows.eq (h : m.Shows v) (h' : m'.Shows v) : m = m' :=
  SortedMap.eq_of_find? h.increasing h'.increasing fun _ _ => h.find.trans h'.find.symm

/-- A snapshot shows any view that tells the same of names that are segments. -/
theorem Shows.congr (h : m.Shows v) (hw : ∀ ns, (∀ n ∈ ns, IsSegment n) → v ns = w ns) :
    m.Shows w := by
  refine ⟨h.increasing, fun {p s} => h.find.trans (exists_congr fun ns => ?_)⟩
  exact and_congr_right fun hns => by rw [hw ns hns]

/-- What is found under a path that is written from names. -/
theorem Shows.find?_ofNames (h : m.Shows v) (hns : ∀ n ∈ ns, IsSegment n) :
    m.find? (ofNames ns) = v ns := by
  refine Option.ext fun s => h.find.trans ⟨?_, fun hs => ⟨ns, hns, rfl, hs⟩⟩
  rintro ⟨ms, hms, heq, hs⟩
  rwa [Path.ofNames_inj hns hms heq]

/-- The entries of the snapshot are those that the view tells. -/
theorem Shows.mem_entries (h : m.Shows v) {p : Text} {s : BlockSnapshot} :
    (p, s) ∈ m.entries ↔ ∃ ns, (∀ n ∈ ns, IsSegment n) ∧ p = ofNames ns ∧ v ns = some s :=
  (SortedMap.mem_entries_iff h.increasing).trans h.find

/-- The snapshot of a grounded tree shows what names lead to in it. -/
theorem shows_ofBlock {root : Block} (h : Grounded root) :
    (Snapshot.ofBlock root).Shows root.entryAt := by
  have hkeys : ((root.descendants.map fun b => (b.path, BlockSnapshot.ofBlock b)).map
      Prod.fst).Nodup := by
    rw [List.map_map]
    exact Block.nodup_paths h.tree
  refine ⟨SortedMap.increasing_ofList _, fun {p s} => ⟨fun hs => ?_, ?_⟩⟩
  · have hmem := (SortedMap.entries_ofList_perm hkeys).mem_iff.mp (SortedMap.mem_of_valueIn? hs)
    obtain ⟨b, hb, heq⟩ := List.mem_map.mp hmem
    cases heq
    obtain ⟨ns, hns, -⟩ := Block.exists_descend? h.tree hb
    exact ⟨ns, Block.isSegment_of_descend? h.tree hns, Block.path_eq_ofNames h hns,
      by rw [Block.entryAt, hns]; rfl⟩
  · rintro ⟨ns, hns, rfl, hs⟩
    obtain ⟨b, hb, rfl⟩ := Option.map_eq_some_iff.mp hs
    refine SortedMap.find?_ofList_of_mem hkeys ?_
    rw [← Block.path_eq_ofNames h hb]
    exact List.mem_map_of_mem (Block.mem_descendants_of_descend? ns hb)

/-! ### Operations on snapshots -/

/-- An entry that is put into a snapshot is shown at its names, and nowhere else. -/
theorem Shows.insert (h : m.Shows v) (hns : ∀ n ∈ ns, IsSegment n) (s : BlockSnapshot) :
    Shows (m.insert (ofNames ns) s) fun ms => if ms = ns then some s else v ms := by
  refine ⟨SortedMap.increasing_insert h.increasing _ _, fun {p t} => ?_⟩
  rw [SortedMap.find?_insert_eq_some, h.find]
  constructor
  · rintro (⟨rfl, rfl⟩ | ⟨hne, ms, hms, rfl, ht⟩)
    · exact ⟨ns, hns, rfl, if_pos rfl⟩
    · exact ⟨ms, hms, rfl, (if_neg fun heq => hne (congrArg ofNames heq)).trans ht⟩
  · rintro ⟨ms, hms, rfl, ht⟩
    by_cases heq : ms = ns
    · rw [if_pos heq] at ht
      exact Or.inl ⟨congrArg ofNames heq, Option.some.inj ht⟩
    · rw [if_neg heq] at ht
      exact Or.inr ⟨fun hp => heq (Path.ofNames_inj hms hns hp), ms, hms, rfl, ht⟩

/-- Entries that are taken out at and below names are shown no longer, and all others are. -/
theorem Shows.eraseWithin (h : m.Shows v) (hne : os ≠ []) (hos : ∀ n ∈ os, IsSegment n) :
    Shows (m.eraseWithin (ofNames os)) fun ms => if os <+: ms then none else v ms := by
  have hincreasing : SortedMap.Increasing (m.eraseWithin (ofNames os)).entries :=
    List.Pairwise.filter _ h.increasing
  refine ⟨hincreasing, fun {p s} => ?_⟩
  rw [← SortedMap.mem_entries_iff hincreasing, Snapshot.eraseWithin, List.mem_filter,
    h.mem_entries]
  have hwithin : ∀ ms, (∀ n ∈ ms, IsSegment n) →
      ((!Path.isWithin (ofNames os) (ofNames ms)) = true ↔ ¬ os <+: ms) := by
    intro ms hms
    rw [Bool.not_eq_true', ← Bool.not_eq_true, Path.isWithin_ofNames hne hos hms]
  constructor
  · rintro ⟨⟨ms, hms, rfl, hs⟩, hnot⟩
    exact ⟨ms, hms, rfl, (if_neg ((hwithin ms hms).mp hnot)).trans hs⟩
  · rintro ⟨ms, hms, rfl, hs⟩
    split at hs
    · cases hs
    · next hnot => exact ⟨⟨ms, hms, rfl, hs⟩, (hwithin ms hms).mpr hnot⟩

/-- What is shown after a move is what was shown before it, under the names that moved. -/
theorem movedNames_view (hfresh : ∀ ms, ns <+: ms → ¬ os <+: ms → v ms = none) {ps : List Text}
    {s : BlockSnapshot} :
    (if ns <+: ps then v (os ++ ps.drop ns.length) else if os <+: ps then none else v ps) = some s ↔
      ∃ ms, v ms = some s ∧ Path.movedNames os ns ms = ps := by
  constructor
  · intro hs
    split at hs
    · next hpre =>
      obtain ⟨k, rfl⟩ := hpre
      rw [List.drop_left] at hs
      exact ⟨os ++ k, hs, Path.movedNames_append os ns k⟩
    · split at hs
      · cases hs
      · next hpre => exact ⟨ps, hs, Path.movedNames_outside hpre⟩
  · rintro ⟨ms, hs, rfl⟩
    by_cases hpre : os <+: ms
    · obtain ⟨k, rfl⟩ := hpre
      rw [Path.movedNames_append, if_pos (List.prefix_append ns k), List.drop_left, hs]
    · rw [Path.movedNames_outside hpre, if_neg fun hp => ?_, if_neg hpre, hs]
      rw [hfresh ms hp hpre] at hs
      cases hs

/-- Paths that are shown stay apart when they move. -/
theorem Shows.nodup_moved (h : m.Shows v) (hos : os ≠ []) (hns : ns ≠ [])
    (ho : ∀ n ∈ os, IsSegment n) (hn : ∀ n ∈ ns, IsSegment n)
    (hfresh : ∀ ms, ns <+: ms → ¬ os <+: ms → v ms = none) :
    ((m.entries.map Prod.fst).map (Path.moved (ofNames os) (ofNames ns))).Nodup := by
  refine List.Nodup.map_on (fun p hp q hq heq => ?_) (SortedMap.nodup_keys h.increasing)
  obtain ⟨⟨p, s⟩, hps, rfl⟩ := List.mem_map.mp hp
  obtain ⟨⟨q, t⟩, hqt, rfl⟩ := List.mem_map.mp hq
  obtain ⟨ms, hms, rfl, hs⟩ := h.mem_entries.mp hps
  obtain ⟨ks, hks, rfl, ht⟩ := h.mem_entries.mp hqt
  dsimp only at heq ⊢
  rw [Path.moved_ofNames hos hns ho hms, Path.moved_ofNames hos hns ho hks] at heq
  have hnames := Path.ofNames_inj (Path.isSegment_movedNames hn hms)
    (Path.isSegment_movedNames hn hks) heq
  -- Nothing is shown in the new place that does not come from the old one.
  have hfrom : ∀ {ls : List Text} {t : BlockSnapshot}, v ls = some t → ns <+: ls → os <+: ls := by
    intro ls t hl hpre
    refine Decidable.by_contra fun hnot => ?_
    rw [hfresh ls hpre hnot] at hl
    cases hl
  rw [Path.movedNames_inj (hfrom hs) (hfrom ht) hnames]

/-- **Blocks that move to a place where nothing else is** are shown there. -/
theorem Shows.moveWithin (h : m.Shows v) (hos : os ≠ []) (hns : ns ≠ [])
    (ho : ∀ n ∈ os, IsSegment n) (hn : ∀ n ∈ ns, IsSegment n)
    (hfresh : ∀ ms, ns <+: ms → ¬ os <+: ms → v ms = none) :
    Shows (m.moveWithin (ofNames os) (ofNames ns)) fun ms =>
      if ns <+: ms then v (os ++ ms.drop ns.length) else if os <+: ms then none else v ms := by
  have hkeys : ((m.entries.map fun entry =>
      (Path.moved (ofNames os) (ofNames ns) entry.1, entry.2)).map Prod.fst).Nodup := by
    have hmoved := h.nodup_moved hos hns ho hn hfresh
    rw [List.map_map] at hmoved ⊢
    exact hmoved
  have hincreasing : SortedMap.Increasing (m.moveWithin (ofNames os) (ofNames ns)).entries :=
    SortedMap.increasing_ofList _
  refine ⟨hincreasing, fun {p s} => ?_⟩
  rw [← SortedMap.mem_entries_iff hincreasing, Snapshot.moveWithin,
    (SortedMap.entries_ofList_perm hkeys).mem_iff, List.mem_map]
  constructor
  · rintro ⟨⟨q, t⟩, hq, heq⟩
    cases heq
    obtain ⟨ms, hms, rfl, hs⟩ := h.mem_entries.mp hq
    exact ⟨Path.movedNames os ns ms, Path.isSegment_movedNames hn hms,
      Path.moved_ofNames hos hns ho hms, (movedNames_view hfresh).mpr ⟨ms, hs, rfl⟩⟩
  · rintro ⟨ps, hps, rfl, hview⟩
    obtain ⟨ms, hs, hmoved⟩ := (movedNames_view hfresh).mp hview
    subst hmoved
    have hms := Path.isSegment_of_movedNames ho hps
    exact ⟨(ofNames ms, s), h.mem_entries.mpr ⟨ms, hms, rfl, hs⟩,
      congrArg (·, s) (Path.moved_ofNames hos hns ho hms)⟩

/-! ### Operations on a block of a document -/

section

variable {root b c : Block} {path : Text}

/-- A snapshot is that of a document in which a block was replaced, when it shows the new block at
the old place and the old document outside of it. -/
theorem Shows.eq_ofBlock_set (h : m.Shows v) (hroot : Grounded (root.set path c))
    (hb : root.find? path = some b) (hc : c.name = b.name)
    (hin : ∀ ms, v (Path.segments path ++ ms) = c.entryAt ms)
    (hout : ∀ ms, ¬ Path.segments path <+: ms → v ms = root.entryAt ms) :
    Snapshot.ofBlock (root.set path c) = m := by
  obtain ⟨hnew, hold⟩ := Block.entryAt_set hb hc
  refine (shows_ofBlock hroot).eq (h.congr fun ms _ => ?_)
  by_cases hms : Path.segments path <+: ms
  · obtain ⟨k, rfl⟩ := hms
    rw [hin, hnew]
  · rw [hout ms hms, hold ms hms]

/-- **A block that is retouched** gets another entry. -/
theorem ofBlock_set_of_retouch (h : Grounded root) (h' : Grounded (root.set path c))
    (hb : root.find? path = some b) (hr : b.Retouch c) :
    Snapshot.ofBlock (root.set path c) =
      (Snapshot.ofBlock root).insert b.path (BlockSnapshot.ofBlock c) := by
  rw [Block.path_eq_ofNames h hb]
  refine ((shows_ofBlock h).insert (Block.isSegment_of_descend? h.tree hb) _).eq_ofBlock_set h' hb
    hr.place.name (fun ms => ?_) fun ms hms => if_neg ?_
  · rw [Block.entryAt_of_retouch hr, Block.entryAt_append hb]
    exact if_congr List.append_right_eq_self rfl rfl
  · rintro rfl
    exact hms (List.prefix_refl _)

/-- **A child without children** that is attached gets an entry, where there was none. -/
theorem ofBlock_set_attach (h : Grounded root) (h' : Grounded (root.set path (b.attach c)))
    (hb : root.find? path = some b) (hfree : c.name ∉ Named.names b.children)
    (hleaf : c.children = []) (hc : Path.IsSegment c.name) :
    (Snapshot.ofBlock root).find? (Path.join b.path c.name) = none ∧
      Snapshot.ofBlock (root.set path (b.attach c)) =
        (Snapshot.ofBlock root).insert (Path.join b.path c.name) (BlockSnapshot.ofBlock c) := by
  have hnames := Block.isSegment_of_mem_concat h.tree hb hc
  rw [Block.join_eq_ofNames h hb]
  constructor
  · rw [(shows_ofBlock h).find?_ofNames hnames, Block.entryAt_append hb, Block.entryAt_cons,
      Named.find?_eq_none hfree]
    rfl
  · refine ((shows_ofBlock h).insert hnames _).eq_ofBlock_set h' hb rfl (fun ms => ?_)
      fun ms hms => if_neg ?_
    · rw [Block.entryAt_attach hfree hleaf, Block.entryAt_append hb]
      exact if_congr (List.append_right_inj _) rfl rfl
    · rintro rfl
      exact hms (List.prefix_append _ _)

/-- **A child that goes** takes all entries at and below its path along. -/
theorem ofBlock_set_withdraw (catalog : Catalog) {n : Text} (h : Grounded root)
    (h' : Grounded (root.set path (b.withdraw catalog n))) (hb : root.find? path = some b)
    (hn : Path.IsSegment n) :
    Snapshot.ofBlock (root.set path (b.withdraw catalog n)) =
      (Snapshot.ofBlock root).eraseWithin (Path.join b.path n) := by
  have hnames := Block.isSegment_of_mem_concat h.tree hb hn
  rw [Block.join_eq_ofNames h hb]
  refine ((shows_ofBlock h).eraseWithin (by simp) hnames).eq_ofBlock_set h' hb rfl (fun ms => ?_)
    fun ms hms => if_neg fun hpre => hms ((List.prefix_append _ _).trans hpre)
  rw [Block.entryAt_withdraw catalog (Block.all_sound_of_find? h.tree hb).here,
    Block.entryAt_append hb]
  exact if_congr (List.prefix_append_right_inj _) rfl rfl

/-- **A child that is only offered** has no entry, nor has what is inside of it. -/
theorem eraseWithin_of_unused {n : Text} (h : Grounded root) (hb : root.find? path = some b)
    (hn : Path.IsSegment n) (hnot : n ∉ Named.names b.children) :
    (Snapshot.ofBlock root).eraseWithin (Path.join b.path n) = Snapshot.ofBlock root := by
  have hnames := Block.isSegment_of_mem_concat h.tree hb hn
  have hshows := shows_ofBlock h
  rw [Block.join_eq_ofNames h hb]
  refine (hshows.eraseWithin (by simp) hnames).eq (hshows.congr fun ms _ => ?_)
  split
  · next hpre =>
    obtain ⟨k, rfl⟩ := hpre
    rw [List.append_assoc, Block.entryAt_append hb, List.singleton_append, Block.entryAt_cons,
      Named.find?_eq_none hnot, Option.bind_none]
  · rfl

/-- What is offered in a block has no entries. -/
theorem ofBlock_set_offer (h : Grounded root) {unused : List Block}
    (h' : Grounded (root.set path { b with unused })) (hb : root.find? path = some b) :
    Snapshot.ofBlock (root.set path { b with unused }) = Snapshot.ofBlock root := by
  refine (shows_ofBlock h).eq_ofBlock_set h' hb rfl (fun ms => ?_) fun ms _ => rfl
  rw [Block.entryAt_append hb]
  cases ms with
  | nil => rfl
  | cons m ms => rw [Block.entryAt_cons, Block.entryAt_cons]

/-- **A child that gets another name** takes all entries at and below its path along, to where there
were none but these. -/
theorem ofBlock_set_renameChild? {n newName : Text} (h : Grounded root)
    (h' : Grounded (root.set path c)) (hb : root.find? path = some b) (hn : Path.IsSegment n)
    (hnew : Path.IsSegment newName) (hfree : newName = n ∨ b.hasChild newName = false)
    (hc : b.renameChild? n newName = some c) :
    (∀ p ∈ (Snapshot.ofBlock root).keys, Path.isWithin (Path.join b.path newName) p = true →
      Path.isWithin (Path.join b.path n) p = true) ∧
      Snapshot.ofBlock (root.set path c) =
        (Snapshot.ofBlock root).moveWithin (Path.join b.path n) (Path.join b.path newName) := by
  have hshows := shows_ofBlock h
  have hnames := Block.isSegment_of_mem_concat h.tree hb hn
  have hnames' := Block.isSegment_of_mem_concat h.tree hb hnew
  have hplace : c.name = b.name := congrArg BlockInfo.name (Block.info_renameChild? hc)
  have hfresh : ∀ ms, Path.segments path ++ [newName] <+: ms →
      ¬ Path.segments path ++ [n] <+: ms → root.entryAt ms = none := by
    rintro _ ⟨k, rfl⟩ hnot
    rcases hfree with rfl | hfree
    · exact absurd (List.prefix_append _ k) hnot
    · rw [List.append_assoc, Block.entryAt_append hb, List.singleton_append, Block.entryAt_cons,
        Named.find?_eq_none (Block.hasChild_eq_false_iff.mp hfree).1, Option.bind_none]
  rw [Block.join_eq_ofNames h hb, Block.join_eq_ofNames h hb]
  constructor
  · intro p hp hwithin
    obtain ⟨s, hs⟩ := (SortedMap.mem_keys_iff hshows.increasing).mp hp
    obtain ⟨ms, hms, rfl, hentry⟩ := hshows.find.mp hs
    rw [Path.isWithin_ofNames (by simp) hnames' hms] at hwithin
    rw [Path.isWithin_ofNames (by simp) hnames hms]
    refine Decidable.by_contra fun hnot => ?_
    rw [hfresh ms hwithin hnot] at hentry
    cases hentry
  · refine (hshows.moveWithin (by simp) (by simp) hnames hnames' hfresh).eq_ofBlock_set h' hb hplace
      (fun ms => ?_) fun ms hms => ?_
    · rw [Block.entryAt_renameChild? (Block.all_sound_of_find? h.tree hb) hnew hc hfree,
        List.append_assoc, Block.entryAt_append hb, Block.entryAt_append hb]
      refine if_congr (List.prefix_append_right_inj _) ?_
        (if_congr (List.prefix_append_right_inj _) rfl rfl)
      rw [List.length_append, ← List.drop_drop, List.drop_left, List.length_singleton,
        List.drop_one]
      rfl
    · rw [if_neg fun hpre => hms ((List.prefix_append _ _).trans hpre),
        if_neg fun hpre => hms ((List.prefix_append _ _).trans hpre)]

end

end Snapshot

end BlockEdit
