import BlockEdit.Proofs.Coverage

/-!
# Edits with another spelling of their target

An edit changes the tree alike with every spelling of its target. But what becomes of the
identities goes by the path as it was typed: at a path that no block has, the table finds nothing to
give up and nothing to look at. So the spelling makes a difference, unless the edit goes by the path
of the block itself, as the one that adds a child does, or the table has nothing at the target
anyway. The edit does not even come to its end where the table has to follow a block whose path
cannot be cut at the size of the path that was typed, as with slashes that make this one longer.

Main statements:

* **`Document.Reached.returns_respell_iff`**: when an edit comes to its end with another spelling.
* **`Document.Reached.outcome_respell`**: an edit that comes to its end with another spelling is
  accepted and leaves the same tree; when the identities, the changes and what is touched are the
  same, too.
-/

namespace BlockEdit

open Block (Grounded)

namespace IdentityTable

variable {t : IdentityTable} {root b : Block} {p top oldTop newTop : Text} {i : Identity}

/-- The table has nothing at the path or below it. -/
def Lacks (t : IdentityTable) (top : Text) : Prop :=
  ∀ p ∈ t.byPath.keys, Path.isWithin top p = false

instance (t : IdentityTable) (top : Text) : Decidable (t.Lacks top) :=
  inferInstanceAs (Decidable (∀ p ∈ t.byPath.keys, Path.isWithin top p = false))

/-- The table of a document has nothing at a path that is not canonical. -/
theorem Covers.lacks (ht : t.Covers root) (hne : Path.segments top ≠ [])
    (htop : ¬ Path.IsCanonical top) : t.Lacks top := by
  intro p hp
  obtain ⟨i, hi⟩ := (SortedMap.mem_keys_iff ht.paths).mp hp
  obtain ⟨ns, hns⟩ := ht.spelled p i hi
  exact Bool.eq_false_iff.mpr fun hw => htop (hns.of_isWithin hw hne)

/-! ### Where the blocks can be followed -/

/-- Where the paths can be cut, what the blocks are matched by is what a cut leaves of them. -/
theorem Cuts.cut?_eq (h : Cuts root top) (hb : b ∈ blocksWithin root top) :
    Text.cut? (Text.byteSize top) b.path = some (behind top b.path) := by
  obtain ⟨rest, hrest⟩ := Option.isSome_iff_exists.mp (h b hb)
  rw [hrest, behind, Text.dropBytes_of_cut? hrest]

/-- **The blocks of a subtree** can be followed under any spelling of its path at whose size this
path can be cut: those of the blocks below start with it. -/
theorem cuts_iff {ns : List Text} (h : Grounded root) (hp : Path.SpelledBy p ns) {q : Text}
    (hq : Path.segments q = Path.segments p) : Cuts root q ↔
      ((root.find? p).isSome = true → (Text.cut? (Text.byteSize q) p).isSome = true) := by
  change (∀ x ∈ blocksWithin root q, _) ↔ _
  rw [blocksWithin_congr hq]
  constructor
  · intro hcuts hsome
    obtain ⟨c, hc⟩ := Option.isSome_iff_exists.mp hsome
    have hdescend : root.descend? (ns ++ []) = some c := by
      rw [List.append_nil, ← Path.segments_ofSegments hp.segment, ← hp.eq]
      exact hc
    have hpath : c.path = p := by
      rw [List.append_nil] at hdescend
      rw [Block.path_of_descend? h hdescend hp.below, hp.eq]
    have hmem := (mem_blocksWithin h hp).mpr ⟨[], hdescend, by
      rw [List.append_nil, hpath]
      exact hp⟩
    exact hpath ▸ hcuts c hmem
  · intro hcut x hx
    obtain ⟨k, -, hspelled⟩ := (mem_blocksWithin h hp).mp hx
    have hsome : (root.find? p).isSome = true := by
      rw [blocksWithin] at hx
      rcases hc : root.find? p with _ | c
      · rw [hc] at hx
        cases hx
      · rfl
    rw [hspelled.eq, Path.ofSegments_append, ← hp.eq]
    exact Text.isSome_cut?_append (hcut hsome) _

/-! ### What is left from before -/

/-- Where the table has nothing it gives up nothing. -/
theorem detach_of_lacks (h : t.Lacks top) : t.detach top = (t, .empty) := by
  have hnone : (t.byPath.entries.filter fun entry => Path.isWithin top entry.1) = [] :=
    List.filter_eq_nil_iff.mpr fun e he =>
      Bool.eq_false_iff.mp (h e.1 (List.mem_map_of_mem he))
  rw [detach_eq, hnone]
  rfl

/-- Whatever was taken out of a table, at whatever path below the top, is among what is left from
before. -/
theorem isSome_find?_foldl_detachOne : ∀ {entries : List (Text × Identity)}
    {state : IdentityTable × SortedMap Identity},
    p ∈ entries.map Prod.fst ∨ (state.2.find? (behind top p)).isSome = true →
      ((entries.foldl (detachOne top) state).2.find? (behind top p)).isSome = true
  | [], _, h => h.resolve_left List.not_mem_nil
  | e :: entries, state, h => by
    -- What was there stays there, since another entry of its key only puts another value.
    rw [List.foldl_cons]
    refine isSome_find?_foldl_detachOne ?_
    rw [List.map_cons, List.mem_cons] at h
    refine or_iff_not_imp_left.mpr fun hnot => ?_
    rw [show (detachOne top state e).2 = state.2.insert (behind top e.1) e.2 from rfl]
    by_cases he : behind top p = behind top e.1
    · rw [he, SortedMap.find?_insert]
      rfl
    · rw [SortedMap.find?_insert_of_ne he]
      rcases h with (rfl | hmem) | hsome
      · exact absurd rfl he
      · exact absurd hmem hnot
      · exact hsome

/-- What the table has within the top is left from before. -/
theorem isSome_find?_detach (hp : p ∈ t.byPath.keys) (hw : Path.isWithin top p = true) :
    ((t.detach top).2.find? (behind top p)).isSome = true := by
  obtain ⟨e, he, rfl⟩ := List.mem_map.mp hp
  rw [detach_eq]
  exact isSome_find?_foldl_detachOne
    (Or.inl (List.mem_map.mpr ⟨e, List.mem_filter.mpr ⟨he, hw⟩, rfl⟩))

/-! ### What comes in -/

/-- Where nothing is left from before, all blocks are new ones. -/
theorem added_foldl_attach_empty : ∀ {bs : List Block} {t : IdentityTable} {c : IdentityChanges},
    (bs.foldl (attach newTop) (t, c, .empty)).2.1.added = c.added ++ bs.map Identity.ofBlock
  | [], t, c => (List.append_nil c.added).symm
  | b :: bs, t, c => by
    rw [List.foldl_cons, attach_eq, show (SortedMap.empty.erase (behind newTop b.path)) =
      (SortedMap.empty : SortedMap Identity) from rfl, added_foldl_attach_empty]
    exact List.append_assoc _ _ _

/-- No more blocks are new than there are blocks. -/
theorem length_added_foldl_attach_le : ∀ {bs : List Block} {t : IdentityTable}
    {c : IdentityChanges} {previous : SortedMap Identity},
    (bs.foldl (attach newTop) (t, c, previous)).2.1.added.length ≤ c.added.length + bs.length
  | [], _, _, _ => Nat.le_refl _
  | b :: bs, t, c, previous => by
    rw [List.foldl_cons, attach_eq]
    refine Nat.le_trans length_added_foldl_attach_le ?_
    have hone : (new? newTop previous b).toList.length ≤ 1 := by
      cases new? newTop previous b with
      | none => exact Nat.zero_le 1
      | some i => exact Nat.le_refl 1
    rw [List.length_append, List.length_cons]
    omega

/-- When nothing is left from before, all blocks are new. -/
theorem added_of_lacks (h : t.Lacks oldTop) : (t.subtreeChanged root oldTop newTop).2.added =
    (blocksWithin root newTop).map Identity.ofBlock := by
  rw [subtreeChanged, detach_of_lacks h]
  exact added_foldl_attach_empty

/-- When the table has the old path, the block at the new one is not new. -/
theorem length_added_lt (hp : oldTop ∈ t.byPath.keys) (hb : root.find? newTop = some b)
    (hpath : b.path = newTop) : (t.subtreeChanged root oldTop newTop).2.added.length <
      (blocksWithin root newTop).length := by
  have hself : ∀ u : Text, behind u u = [] := by
    intro u
    have hnothing := Text.dropBytes_append u []
    rwa [List.append_nil] at hnothing
  have hleft := isSome_find?_detach hp (Path.isWithin_self oldTop)
  rw [hself] at hleft
  have hnew : new? newTop (t.detach oldTop).2 b = none := by
    rw [new?, hpath, hself, if_pos hleft]
  have hblocks : blocksWithin root newTop = b :: b.inside := by
    rw [blocksWithin, hb]
    exact Block.descendants_eq_cons b
  have hchanges : (t.subtreeChanged root oldTop newTop).2.added =
      ((blocksWithin root newTop).foldl (attach newTop)
        ((t.detach oldTop).1, IdentityChanges.none, (t.detach oldTop).2)).2.1.added := rfl
  rw [hchanges, hblocks, List.foldl_cons, attach_eq, hnew, List.length_cons]
  refine Nat.lt_succ_of_le (Nat.le_trans length_added_foldl_attach_le ?_)
  exact Nat.le_of_eq (Nat.zero_add _)

/-- When no block is at the new path, everything is gone. -/
theorem subtreeChanged_of_find? (h : root.find? newTop = none) :
    t.subtreeChanged root oldTop newTop =
      ((t.detach oldTop).1, ⟨[], [], (t.detach oldTop).2.values⟩) := by
  rw [subtreeChanged, h]
  rfl

end IdentityTable

namespace Document

open IdentityTable

variable {t : IdentityTable} {root b : Block} {p q : Text} {i : Identity}

/-- The table after an edit that landed, and what is told about it: how the identities moved, and
which are touched. -/
def settle (t : IdentityTable) (root : Block) (landing : Landing) :
    IdentityTable × IdentityChanges × List Identity :=
  if landing.structural then
    let (identities, changes) := t.subtreeChanged root landing.oldPath landing.path
    (identities, changes,
      changes.affected ++ (parentIdentity? identities landing.path).toList)
  else (t, .none, (t.identityAt? landing.path).toList)

/-- An edit of a document settles where the edit of the tree landed. -/
theorem exists_settle {d : Document} {e : Edit} {landing : Landing}
    (h : e.apply d.root d.catalog = .ok (root, landing)) :
    ∃ d' r, d.apply e = .ok (d', r) ∧ d'.root = root ∧
      (d'.identities, r.changes, r.touched) = settle d.identities root landing := by
  rw [apply, h, settle]
  dsimp only
  split
  · exact ⟨_, _, rfl, rfl, rfl⟩
  · exact ⟨_, _, rfl, rfl, rfl⟩

/-! ### Settling at two paths -/

/-- An edit of parameters leaves the table as it is and touches its one block. -/
theorem settle_ofParameters (p : Text) :
    settle t root (.ofParameters p) = (t, .none, (t.identityAt? p).toList) := rfl

/-- An edit of blocks is told by what became of the blocks within its paths, and of the parent. -/
theorem settle_ofBlock (p q : Text) : settle t root (.ofBlock p q) =
    ((t.subtreeChanged root p q).1, (t.subtreeChanged root p q).2,
      (t.subtreeChanged root p q).2.affected ++
        (parentIdentity? (t.subtreeChanged root p q).1 q).toList) := rfl

/-- A block that the table knows is new when it is told of at a path where the table has nothing. -/
theorem settle_ne_of_lacks {p' q' : Text} (hp : p ∈ t.byPath.keys) (hq : t.Lacks q)
    (hb : root.find? p' = some b) (hpath : b.path = p')
    (hsegments : Path.segments q' = Path.segments p') :
    settle t root (.ofBlock q q') ≠ settle t root (.ofBlock p p') := by
  intro heq
  rw [settle_ofBlock, settle_ofBlock] at heq
  have hadded := congrArg (fun s => s.2.1.added.length) heq
  dsimp only at hadded
  rw [added_of_lacks hq, List.length_map, blocksWithin_congr hsegments] at hadded
  exact absurd hadded.symm (Nat.ne_of_lt (length_added_lt hp hb hpath))

/-- **A block that is gone** is told of alike at two paths, where the table has nothing at the
second, when it has nothing at the first and the same parent. -/
theorem settle_eq_iff_of_lacks (hp : root.find? p = none) (hq : root.find? q = none)
    (hlacks : t.Lacks q) : settle t root (.ofBlock q q) = settle t root (.ofBlock p p) ↔
      t.Lacks p ∧ parentIdentity? t q = parentIdentity? t p := by
  have htouched : ∀ x y : Option Identity, x.toList = y.toList ↔ x = y := by
    rintro (_ | x) (_ | y) <;> simp
  rw [settle_ofBlock, settle_ofBlock, subtreeChanged_of_find? hp, subtreeChanged_of_find? hq,
    detach_of_lacks hlacks]
  by_cases h : t.Lacks p
  · rw [detach_of_lacks h, and_iff_right h, ← htouched]
    simp
  · refine iff_of_false (fun heq => ?_) fun hboth => h hboth.1
    -- What the table has at the first path is gone, too.
    obtain ⟨p', hp', hw⟩ : ∃ p' ∈ t.byPath.keys, Path.isWithin p p' = true := by
      simpa [Lacks] using h
    have hremoved : (t.detach p).2.values = [] := (congrArg (fun s => s.2.1.removed) heq).symm
    have hentries : (t.detach p).2.entries = [] := List.map_eq_nil_iff.mp hremoved
    have hsome := isSome_find?_detach hp' hw
    rw [SortedMap.find?, hentries] at hsome
    cases hsome

end Document

namespace Edit

open IdentityTable
open Document (settle parentIdentity?)

/-- The edits for which another spelling of the target makes no difference. -/
inductive Tolerates (t : IdentityTable) (q : Text) : Edit → Prop
  /-- The target is spelled that way. -/
  | same {e : Edit} (h : q = e.target) : Tolerates t q e
  /-- The target is the root, which has no identity. -/
  | root {e : Edit} (h : Path.segments e.target = []) : Tolerates t q e
  /-- The child that is added is told of by its own path. -/
  | added {path : Text} {name subtype : Option Text} : Tolerates t q (.addChild path name subtype)
  /-- The table has nothing of what is removed, and both spellings lead to the same parent. -/
  | removed {path : Text} (h : t.Lacks path)
      (hparent : parentIdentity? t q = parentIdentity? t path) : Tolerates t q (.remove path)

variable {root root' b c : Block} {catalog : Catalog} {landing : Landing} {e : Edit}
  {t : IdentityTable} {p q parent n : Text}

/-- A child is not found any more when its parent does not have it. -/
theorem find?_set_of_not_mem (hpath : splitPath p = .ok (parent, n))
    (hb : root.find? parent = some b) (hc : c.name = b.name) (hn : n ∉ Named.names c.children) :
    (root.set parent c).find? p = none :=
  (find?_of_splitPath hpath (Block.find?_set hb hc)).trans (Named.find?_eq_none hn)

/-- Another spelling of a removal is told the same way when the table has nothing to forget there
and both spellings name the same parent. -/
theorem tolerates_remove_iff (hsame : q ≠ p) (hnil : Path.segments p ≠ []) :
    (remove p).Tolerates t q ↔ t.Lacks p ∧ parentIdentity? t q = parentIdentity? t p := by
  refine ⟨fun htolerates => ?_, fun hboth => .removed hboth.1 hboth.2⟩
  cases htolerates with
  | same h => exact absurd h hsame
  | root h => exact absurd h hnil
  | removed h hparent => exact ⟨h, hparent⟩

/-- The target of an exact edit is in the table when it is a block below the root. -/
theorem Exact.mem_keys (hexact : e.Exact root) (h : Grounded root) (ht : t.Covers root)
    (hb : root.find? e.target = some b) (hne : Path.segments e.target ≠ []) :
    e.target ∈ t.byPath.keys := by
  rw [hexact.path_of_find? h hb]
  exact ht.mem_keys ((Block.mem_inside_iff h).mpr ⟨_, hne, hb⟩)

/-- What is told of an edit of the root does not depend on the spelling. -/
theorem Effect.settle_respell_root (he : Effect root catalog e root' landing)
    (hroot : root.info.schema = none) (ht : t.Covers root) (hnil : Path.segments e.target = [])
    (hq : Path.segments q = []) :
    settle t root' (e.relanding q landing) = settle t root' landing := by
  have hnone : ∀ {p : Text}, Path.segments p = [] → t.identityAt? p = none := fun hp =>
    ht.identityAt?_eq_none fun _ hns => hns.below (hns.segments.symm.trans hp)
  have hsplit : ∀ {parent n : Text}, splitPath e.target ≠ .ok (parent, n) := by
    intro parent n hsplit
    have hsegments := segments_of_splitPath hsplit
    rw [hnil] at hsegments
    exact absurd hsegments.symm (by simp)
  have hkept : settle t root' (.ofParameters q) = settle t root' (.ofParameters e.target) := by
    rw [Document.settle_ofParameters, Document.settle_ofParameters, hnone hq, hnone hnil]
  cases he with
  | included => rfl
  | added => rfl
  | removed hpath hb hc => exact absurd hpath hsplit
  | dropped hpath hb hc => exact absurd hpath hsplit
  | renamed hpath hb hn hfree hb' => exact absurd hpath hsplit
  | switched hb hselected hc =>
    rw [Block.find?, hnil] at hb
    cases hb
    rw [Block.switchSubtype?, Block.subtypeSchema?, hroot] at hc
    cases hc
  | updated hb hchanged hselected hkeeps hfits =>
    cases e with
    | addChild path name subtype => cases hchanged
    | rename path newName => cases hchanged
    | _ => exact hkept
  | extended => exact hkept

/-- **With another spelling** an edit settles alike just when it tolerates that. -/
theorem Effect.settle_respell (he : Effect root catalog e root' landing) (h : Grounded root)
    (h' : Grounded root') (hroot : root.info.schema = none) (ht : t.Covers root)
    (hexact : e.Exact root) (hq : Path.segments q = Path.segments e.target) :
    settle t root' (e.relanding q landing) = settle t root' landing ↔ e.Tolerates t q := by
  by_cases hsame : q = e.target
  · rw [hsame, he.relanding_target]
    exact iff_of_true rfl (.same rfl)
  by_cases hnil : Path.segments e.target = []
  · exact iff_of_true (he.settle_respell_root hroot ht hnil (hq.trans hnil)) (.root hnil)
  -- No block has the other spelling, so the table has nothing there.
  have hnot : ¬ Path.IsCanonical q := fun hcanonical =>
    hsame ((hexact.isCanonical h).eq_of_segments hcanonical hq)
  have hlacks : t.Lacks q := ht.lacks (hq ▸ hnil) hnot
  have hkept : ∀ {b : Block}, root.find? e.target = some b →
      settle t root' (.ofParameters q) ≠ settle t root' (.ofParameters e.target) := by
    intro b hb heq
    obtain ⟨i, hi⟩ := (SortedMap.mem_keys_iff ht.paths).mp (hexact.mem_keys h ht hb hnil)
    have hnone : t.identityAt? q = none :=
      ht.identityAt?_eq_none fun _ hns => hnot hns.isCanonical
    have htouched := congrArg (fun s => s.2.2) heq
    rw [Document.settle_ofParameters, Document.settle_ofParameters, hnone,
      show t.identityAt? e.target = some i from hi] at htouched
    cases htouched
  have hmoved : ∀ {p' q' : Text} {b : Block}, e.target ∈ t.byPath.keys → Path.IsCanonical p' →
      root'.find? p' = some b → Path.segments q' = Path.segments p' →
        settle t root' (.ofBlock q q') ≠ settle t root' (.ofBlock e.target p') := by
    intro p' q' b hp hcanonical hb hsegments
    have hpath := (Block.path_eq_ofNames h' hb).trans hcanonical.symm
    exact Document.settle_ne_of_lacks hp hlacks hb hpath hsegments
  have hgone : root'.find? e.target = none →
      (settle t root' (.ofBlock q q) = settle t root' (.ofBlock e.target e.target) ↔
        t.Lacks e.target ∧ parentIdentity? t q = parentIdentity? t e.target) := fun hnone =>
    Document.settle_eq_iff_of_lacks hnone ((find?_congr hq).trans hnone) hlacks
  obtain ⟨-, hlanded, -⟩ := he.relanding_alike hq
  cases he with
  | included => exact iff_of_true rfl .added
  | added => exact iff_of_true rfl .added
  | @removed path parent n b c hpath hb hc =>
    have hsound := (Block.all_sound_of_find? h.tree hb).here
    have hnone := find?_set_of_not_mem (c := b.withdraw catalog n) hpath hb rfl
      (Named.not_mem_names_remove (Block.nodup_children hsound))
    exact (hgone hnone).trans (tolerates_remove_iff hsame hnil).symm
  | @dropped path parent n b c hpath hb hc =>
    obtain ⟨hmem, rfl⟩ := Named.find?_eq_some hc
    have hsound := (Block.all_sound_of_find? h.tree hb).here
    have hnot := Block.not_mem_children_of_mem_unused hsound hmem
    have hnone := find?_set_of_not_mem
      (c := { b with unused := Named.remove c.name b.unused }) hpath hb rfl hnot
    exact (hgone hnone).trans (tolerates_remove_iff hsame hnil).symm
  | @renamed path parent n newName b b' hpath hb hn hfree hb' =>
    have hsegment := (isHeaderName_of_isName hn).isSegment
    obtain ⟨d, hd, hfind⟩ := Block.find?_renameChild? (Block.all_sound_of_find? h.tree hb) hsegment
      hb' hfree
    have hkey := hexact.mem_keys h ht ((find?_of_splitPath hpath hb).trans hd) hnil
    obtain ⟨rfl, -, -⟩ := hexact.eq_join h hpath hb
    have hname : b'.name = b.name := congrArg BlockInfo.name (Block.info_renameChild? hb')
    have hmem := Block.mem_descendants_of_descend? _ hb
    have hfound := (find?_of_splitPath (splitPath_join (Block.path_ne_nil h hmem) hsegment)
      (Block.find?_set hb hname)).trans ((hfind newName).trans (if_pos rfl))
    refine iff_of_false (hmoved hkey (spelledBy_join h hb hsegment).isCanonical hfound hlanded)
      fun htolerates => ?_
    cases htolerates <;> contradiction
  | switched hb hselected hc =>
    have hfound := Block.find?_set hb (Block.retouch_switchSubtype? hc).place.name
    have hne := hmoved (hexact.mem_keys h ht hb hnil) (hexact.isCanonical h) hfound hq
    cases e with
    | addChild path name subtype => cases hselected
    | remove path => cases hselected
    | rename path newName => cases hselected
    | addParameter path name value => cases hselected
    | setComment path parameter comment => cases hselected
    | _ => exact iff_of_false hne fun htolerates => by cases htolerates <;> contradiction
  | updated hb hchanged hselected hkeeps hfits =>
    have hne := hkept hb
    cases e with
    | addChild path name subtype => cases hchanged
    | remove path => cases hchanged
    | rename path newName => cases hchanged
    | _ => exact iff_of_false hne fun htolerates => by cases htolerates <;> contradiction
  | extended hb hn hvalue hfree =>
    exact iff_of_false (hkept hb) fun htolerates => by cases htolerates <;> contradiction

end Edit

namespace Document

variable {catalog : Catalog} {d d₁ : Document} {e : Edit} {r₁ : EditResult} {q : Text}

/-- **An edit of a block of the document** tolerates another spelling only when it adds a child or
changes the root. -/
theorem Reached.tolerates_iff (h : Reached catalog d) (he : e.Exact d.root) {b : Block}
    (hb : d.root.find? e.target = some b) (hq : q ≠ e.target) :
    e.Tolerates d.identities q ↔ Path.segments e.target = [] ∨
      ∃ path name subtype, e = .addChild path name subtype := by
  constructor
  · intro htolerates
    cases htolerates with
    | same hsame => exact absurd hsame hq
    | root hnil => exact Or.inl hnil
    | added => exact Or.inr ⟨_, _, _, rfl⟩
    | removed hlacks hparent =>
      refine or_iff_not_imp_right.mpr fun _ => ?_
      by_contra hnil
      have hkey := he.mem_keys h.grounded h.covers hb hnil
      exact Bool.eq_false_iff.mp (hlacks _ hkey) (Path.isWithin_self _)
  · rintro (hnil | ⟨path, name, subtype, rfl⟩)
    · exact .root hnil
    · exact .added

/-- **When an edit comes to its end with another spelling**: the table can always follow what the
edit leaves where it lands, unless a block is there whose path cannot be cut at the size of the path
that was typed. -/
theorem Reached.returns_respell_iff (h : Reached catalog d) (he : e.Exact d.root)
    (hq : Path.segments q = Path.segments e.target) {root : Block} {landing : Landing}
    (happly : e.apply d.root d.catalog = .ok (root, landing)) : d.Returns (e.respell q) ↔
      (landing.structural = true → (root.find? landing.path).isSome = true →
        (Text.cut? (Text.byteSize (e.relanding q landing).path) landing.path).isSome = true) := by
  have heffect := Edit.effect_of_apply h.grounded.tree happly
  obtain ⟨-, hlanded, hkind⟩ := heffect.relanding_alike hq
  have hreturns : d.Returns (e.respell q) ↔
      (landing.structural = true → IdentityTable.Cuts root (e.relanding q landing).path) := by
    rw [Returns, Edit.apply_respell hq happly, ← hkind]
    exact ⟨fun hall => hall _ rfl, fun hcuts after hafter => by cases hafter; exact hcuts⟩
  rw [hreturns]
  refine forall_congr' fun hstructural => ?_
  rcases heffect.reaches_or_keeps h.grounded h.schema_root he with ⟨-, os, ns, hr⟩ | ⟨hnot, -⟩
  · exact IdentityTable.cuts_iff (Edit.grounded_apply h.grounded happly) hr.new hlanded
  · rw [hstructural] at hnot
    cases hnot

/-- The path of a block with a slash too many is too long to cut its own path by. -/
example : ((ofText .empty "[A]\n[x]\n[]\n[]\n".toList .memory).toOption.map fun d =>
    ["/A/x", "A/x", "/A//x"].map fun path => decide (d.Returns (.rename path.toList "y".toList))) =
      some [true, true, false] := by
  decide +kernel

/-- **An edit that spells its target as the block does** comes to its end. -/
theorem Reached.returns (h : Reached catalog d) (he : e.Exact d.root)
    (happly : d.apply e = .ok (d₁, r₁)) : d.Returns e := by
  obtain ⟨landing, hland, -⟩ := identities_of_apply happly
  have hreturns := (h.returns_respell_iff he rfl hland).mpr fun _ _ => by
    rw [(Edit.effect_of_apply h.grounded.tree hland).relanding_target,
      Text.cut?_eq_some_iff.mpr ⟨landing.path, (List.append_nil _).symm, rfl⟩]
    rfl
  rwa [Edit.respell_target] at hreturns

/-- **An edit that is accepted** comes to its end when its target is spelled as the block does.
**With another spelling** it can break off. When it does not, it is accepted and leaves the same
tree. It leaves the same identities and tells of the same changes just when it tolerates the
spelling, and an edit of a block of the document does so only when it adds a child or changes the
root. -/
theorem Reached.outcome_respell (h : Reached catalog d) (he : e.Exact d.root)
    (hq : Path.segments q = Path.segments e.target) (happly : d.apply e = .ok (d₁, r₁))
    (hreturns : d.Returns (e.respell q)) :
    d.attempt e = some (.ok (d₁, r₁)) ∧
      ∃ d₂ r₂, d.attempt (e.respell q) = some (.ok (d₂, r₂)) ∧ d₂.root = d₁.root ∧
        (d₂.identities = d₁.identities ∧ r₂.changes = r₁.changes ∧ r₂.touched = r₁.touched ↔
          e.Tolerates d.identities q) ∧
        ∀ b, d.root.find? e.target = some b → q ≠ e.target →
          (e.Tolerates d.identities q ↔ Path.segments e.target = [] ∨
            ∃ path name subtype, e = .addChild path name subtype) := by
  obtain ⟨landing, hland, -⟩ := identities_of_apply happly
  have heffect := Edit.effect_of_apply h.grounded.tree hland
  obtain ⟨d₁', r₁', hfirst, -, hsettle₁⟩ := exists_settle hland
  rw [happly] at hfirst
  cases hfirst
  obtain ⟨d₂, r₂, hsecond, hroot, hsettle₂⟩ := exists_settle (Edit.apply_respell hq hland)
  refine ⟨by rw [attempt, if_pos (h.returns he happly), happly], d₂, r₂,
    by rw [attempt, if_pos hreturns, hsecond], hroot, ?_, fun b hb hne => h.tolerates_iff he hb hne⟩
  rw [← heffect.settle_respell h.grounded (h.apply happly).grounded h.schema_root h.covers he hq,
    ← hsettle₁, ← hsettle₂, Prod.mk.injEq, Prod.mk.injEq]

/-- A text with one block. -/
def oneBlockSource : Text := "[A]\n[]\n".toList

/-- The block can be removed by its path, and by its name without the slash. -/
theorem exists_removed_oneBlock : ∃ d d₁ r₁ d₂ r₂, Reached .empty d ∧
    (Edit.remove "/A".toList).Exact d.root ∧ d.apply (.remove "/A".toList) = .ok (d₁, r₁) ∧
      d.attempt (.remove "/A".toList) = some (.ok (d₁, r₁)) ∧ d.Returns (.remove "A".toList) ∧
        d.attempt (.remove "A".toList) = some (.ok (d₂, r₂)) ∧
          d₂.identities ≠ d₁.identities := by
  have hrun : ((ofText .empty oneBlockSource .memory).toOption.bind fun d =>
      (d.apply (.remove "/A".toList)).toOption.bind fun first =>
        (d.apply (.remove "A".toList)).toOption.map fun second =>
          decide ((Edit.remove "/A".toList).Exact d.root ∧ d.Returns (.remove "/A".toList) ∧
            d.Returns (.remove "A".toList) ∧
              second.1.identities ≠ first.1.identities)) = some true := by decide +kernel
  obtain ⟨d, hd, hrun⟩ := Option.bind_eq_some_iff.mp hrun
  obtain ⟨⟨d₁, r₁⟩, hfirst, hrun⟩ := Option.bind_eq_some_iff.mp hrun
  obtain ⟨⟨d₂, r₂⟩, hsecond, hdecided⟩ := Option.map_eq_some_iff.mp hrun
  obtain ⟨hexact, hreturns, hreturns', hother⟩ := of_decide_eq_true hdecided
  have hfirst := eq_ok_of_toOption hfirst
  have hsecond := eq_ok_of_toOption hsecond
  exact ⟨d, d₁, r₁, d₂, r₂, .ofText (eq_ok_of_toOption hd), hexact, hfirst,
    by rw [attempt, if_pos hreturns, hfirst], hreturns',
    by rw [attempt, if_pos hreturns', hsecond], hother⟩

/-- Without the slash the tree is the same, but the edit does not tolerate that. -/
theorem Reached.outcome_respell_sample : ∃ d d₁ r₁ d₂ r₂, Reached .empty d ∧
    d.attempt (.remove "/A".toList) = some (.ok (d₁, r₁)) ∧
      d.attempt (.remove "A".toList) = some (.ok (d₂, r₂)) ∧ d₂.root = d₁.root ∧
        ¬ (Edit.remove "/A".toList).Tolerates d.identities "A".toList := by
  obtain ⟨d, d₁, r₁, d₂, r₂, hreached, hexact, hfirst, -, hreturns, hsecond, hother⟩ :=
    exists_removed_oneBlock
  obtain ⟨hattempt, d₂', r₂', hsecond', hroot, hiff, -⟩ :=
    hreached.outcome_respell hexact (q := "A".toList) (by decide) hfirst hreturns
  cases hsecond.symm.trans hsecond'
  exact ⟨d, d₁, r₁, d₂, r₂, hreached, hattempt, hsecond, hroot,
    fun htolerates => hother (hiff.mpr htolerates).1⟩

/-- **The spelling makes a difference**: a block that is removed by its name without the slash
keeps its identity. -/
theorem not_forall_outcome_respell : ¬ ∀ (catalog : Catalog) (d : Document) (e : Edit) (q : Text)
    (d₁ d₂ : Document) (r₁ r₂ : EditResult), Reached catalog d → e.Exact d.root →
      Path.segments q = Path.segments e.target → d.attempt e = some (.ok (d₁, r₁)) →
        d.attempt (e.respell q) = some (.ok (d₂, r₂)) → d₂.root = d₁.root ∧
          d₂.identities = d₁.identities ∧ r₂.changes = r₁.changes ∧ r₂.touched = r₁.touched := by
  intro hall
  obtain ⟨d, d₁, r₁, d₂, r₂, hreached, hexact, -, hfirst, -, hsecond, hother⟩ :=
    exists_removed_oneBlock
  exact hother (hall .empty d (.remove "/A".toList) "A".toList d₁ d₂ r₁ r₂ hreached hexact
    (by decide) hfirst hsecond).2.1

end Document

end BlockEdit
