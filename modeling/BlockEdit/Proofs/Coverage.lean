import BlockEdit.Proofs.Following
import BlockEdit.Proofs.Spellings

/-!
# What the table of a document always has

An edit whose target has further slashes lands at a path that no block has. The table then gives up
nothing, and can keep paths of blocks that are gone. But it never misses a block: every block has
its identity at its path, after every run.

Main statements:

* **`IdentityTable.Covers.subtreeChanged`**: a table that covers a document covers it after a
  subtree has changed, however the two places are spelled.
* **`Document.Reached.covers`**: the table of every document of a run covers it.
-/

namespace BlockEdit

open Block (Grounded)
open SortedMap (Increasing)

namespace IdentityTable

/-- Each block of the document has its identity at its path, and every path is spelled as one of a
block is. -/
structure Covers (t : IdentityTable) (root : Block) : Prop where
  /-- The map by paths is in order. -/
  paths : Increasing t.byPath.entries
  /-- The paths have one slash before each name. -/
  spelled : ∀ p i, t.byPath.find? p = some i → ∃ ns, Path.SpelledBy p ns
  /-- The blocks are there. -/
  block : ∀ b ∈ root.inside, t.byPath.find? b.path = some (Identity.ofBlock b)

variable {t : IdentityTable} {root root' b : Block} {p top : Text} {i : Identity}

/-! ### Look-ups by path -/

/-- Putting blocks into a table keeps its paths in order. -/
theorem increasing_foldl_insert : ∀ (bs : List Block) {t : IdentityTable},
    Increasing t.byPath.entries → Increasing (bs.foldl insert t).byPath.entries
  | [], _, h => h
  | _ :: bs, _, h => increasing_foldl_insert bs (SortedMap.increasing_insert h _ _)

/-- Blocks with different paths are found at their paths, whatever was there. -/
theorem find?_foldl_insert : ∀ {bs : List Block} {t : IdentityTable}, (bs.map Block.path).Nodup →
    ((bs.foldl insert t).byPath.find? p = some i ↔
      (∃ b ∈ bs, b.path = p ∧ Identity.ofBlock b = i) ∨
        p ∉ bs.map Block.path ∧ t.byPath.find? p = some i)
  | [], t, _ => by simp
  | b :: bs, t, hn => by
    rw [List.map_cons, List.nodup_cons] at hn
    rw [List.foldl_cons, find?_foldl_insert hn.2, List.exists_mem_cons_iff, List.map_cons,
      List.mem_cons, not_or,
      show (t.insert b).byPath = t.byPath.insert b.path (Identity.ofBlock b) from rfl,
      SortedMap.find?_insert_eq_some]
    constructor
    · rintro (hbs | ⟨hnot, ⟨rfl, rfl⟩ | ⟨hne, hold⟩⟩)
      · exact Or.inl (Or.inr hbs)
      · exact Or.inl (Or.inl ⟨rfl, rfl⟩)
      · exact Or.inr ⟨⟨hne, hnot⟩, hold⟩
    · rintro ((⟨rfl, rfl⟩ | hbs) | ⟨⟨hne, hnot⟩, hold⟩)
      · exact Or.inr ⟨hn.1, Or.inl ⟨rfl, rfl⟩⟩
      · exact Or.inl hbs
      · exact Or.inr ⟨hnot, Or.inr ⟨hne, hold⟩⟩

/-- Taking pairs out of a table keeps its paths in order. -/
theorem increasing_foldl_detachOne (top : Text) : ∀ (entries : List (Text × Identity))
    {state : IdentityTable × SortedMap Identity}, Increasing state.1.byPath.entries →
      Increasing (entries.foldl (detachOne top) state).1.byPath.entries
  | [], _, h => h
  | _ :: entries, _, h =>
    increasing_foldl_detachOne top entries (SortedMap.increasing_erase h _)

/-- What is left of a table is found where no pair of that path was taken out. -/
theorem find?_foldl_detachOne : ∀ {entries : List (Text × Identity)}
    {state : IdentityTable × SortedMap Identity},
    (entries.foldl (detachOne top) state).1.byPath.find? p = some i ↔
      p ∉ entries.map Prod.fst ∧ state.1.byPath.find? p = some i
  | [], state => by simp
  | e :: entries, state => by
    rw [List.foldl_cons, find?_foldl_detachOne, List.map_cons, List.mem_cons, not_or,
      show (detachOne top state e).1.byPath = state.1.byPath.erase e.1 from rfl,
      SortedMap.find?_erase_eq_some, and_assoc, and_left_comm]

/-- Without a subtree the table has the paths that are not within it. -/
theorem find?_detach (h : Increasing t.byPath.entries) :
    (t.detach top).1.byPath.find? p = some i ↔
      Path.isWithin top p = false ∧ t.byPath.find? p = some i := by
  rw [detach_eq, find?_foldl_detachOne]
  refine and_congr_left fun hp => ?_
  have hmem := (SortedMap.mem_entries_iff h).mpr hp
  rw [← Bool.not_eq_true, not_iff_not, List.mem_map]
  constructor
  · rintro ⟨e, he, rfl⟩
    exact (List.mem_filter.mp he).2
  · exact fun hw => ⟨(p, i), List.mem_filter.mpr ⟨hmem, hw⟩, rfl⟩

/-- The identities that come in are those of the blocks, whatever was left from before. -/
theorem fst_foldl_attach {newTop : Text} : ∀ {bs : List Block}
    {state : IdentityTable × IdentityChanges × SortedMap Identity},
    (bs.foldl (attach newTop) state).1 = bs.foldl insert state.1
  | [], _ => rfl
  | b :: bs, (t, changes, previous) => by
    rw [List.foldl_cons, fst_foldl_attach, attach_eq]
    rfl

/-- The table after a change has what it had outside of the old place, and the blocks at the new
one. -/
theorem fst_subtreeChanged (t : IdentityTable) (root : Block) (oldTop newTop : Text) :
    (t.subtreeChanged root oldTop newTop).1 =
      (blocksWithin root newTop).foldl insert (t.detach oldTop).1 :=
  fst_foldl_attach

/-- Two spellings of one path lead to the same blocks. -/
theorem blocksWithin_congr {q : Text} (h : Path.segments q = Path.segments p) :
    blocksWithin root q = blocksWithin root p := by
  rw [blocksWithin, Edit.find?_congr h, blocksWithin]

/-! ### Covered documents -/

/-- The table of a document covers it. -/
theorem covers_ofTree (h : Grounded root) : (ofTree root).Covers root := by
  have hnodup := Block.nodup_paths h.tree
  rw [Block.descendants_eq_cons, List.map_cons, List.nodup_cons] at hnodup
  have hfind : ∀ p i, (ofTree root).byPath.find? p = some i ↔ root.HasIdentity p i := by
    intro p i
    rw [ofTree, addressable_eq h, find?_foldl_insert hnodup.2]
    exact or_iff_left fun hnone => by cases hnone.2
  refine ⟨increasing_foldl_insert _ List.Pairwise.nil, fun p i hp => ?_, fun b hb => ?_⟩
  · obtain ⟨ns, hns, -⟩ := (Block.hasIdentity_iff h).mp ((hfind p i).mp hp)
    exact ⟨ns, hns⟩
  · exact (hfind _ _).mpr ⟨b, hb, rfl, rfl⟩

/-- **A table that covers a document** covers it after a subtree has changed, however the two places
are spelled. -/
theorem Covers.subtreeChanged (ht : t.Covers root) {e : Edit} {oldPath newPath : Text}
    {os ns : List Text} (hr : e.Reaches root root' oldPath newPath os ns) (h : Grounded root)
    (h' : Grounded root') {oldTop newTop : Text}
    (hold : Path.segments oldTop = Path.segments oldPath)
    (hnew : Path.segments newTop = Path.segments newPath) :
    (t.subtreeChanged root' oldTop newTop).1.Covers root' := by
  have hpaths := nodup_paths_blocksWithin h' newPath
  rw [fst_subtreeChanged, blocksWithin_congr hnew]
  refine ⟨increasing_foldl_insert _ ?_, fun p i hp => ?_, fun b hb => ?_⟩
  · rw [detach_eq]
    exact increasing_foldl_detachOne _ _ ht.paths
  · rcases (find?_foldl_insert hpaths).mp hp with ⟨b, hb, rfl, -⟩ | ⟨-, hp⟩
    · obtain ⟨k, -, hspelled⟩ := (mem_blocksWithin h' hr.new).mp hb
      exact ⟨_, hspelled⟩
    · exact ht.spelled p i ((find?_detach ht.paths).mp hp).2
  · rw [find?_foldl_insert hpaths]
    by_cases hmem : b.path ∈ (blocksWithin root' newPath).map Block.path
    · obtain ⟨c, hc, hpath⟩ := List.mem_map.mp hmem
      have hfound := Block.find?_path h'.tree h'.path
        (Block.mem_descendants_of_mem_inside (mem_inside_of_mem_blocksWithin h' hr.new hc))
      rw [hpath, Block.find?_path h'.tree h'.path
        (Block.mem_descendants_of_mem_inside hb)] at hfound
      cases hfound
      exact Or.inl ⟨b, hc, rfl, rfl⟩
    · refine Or.inr ⟨hmem, (find?_detach ht.paths).mpr ?_⟩
      rcases (hasIdentity_of_reaches hr h h').mpr ⟨b, hb, rfl, rfl⟩ with
        ⟨⟨c, hc, hpath, hi⟩, hw⟩ | ⟨c, hc, hpath, -⟩
      · have hfound := ht.block c hc
        rw [hpath, hi] at hfound
        refine ⟨Bool.eq_false_iff.mpr fun hw' => ?_, hfound⟩
        -- What is given up is spelled as a block is, so it is the old place itself.
        obtain ⟨ms, hspelled⟩ := ht.spelled _ _ hfound
        have hbelow : Path.segments oldTop ≠ [] := hold ▸ hr.old.segments ▸ hr.old.below
        have htop := hspelled.of_isWithin hw' hbelow
        rw [hr.old.isCanonical.eq_of_segments htop hold, hw] at hw'
        cases hw'
      · exact absurd (List.mem_map.mpr ⟨c, hc, hpath⟩) hmem

/-- A table that covers a document covers it after an edit that keeps the blocks. -/
theorem Covers.of_keeps (ht : t.Covers root) {e : Edit} (hk : e.Keeps root root')
    (h : Grounded root) (h' : Grounded root') : t.Covers root' := by
  refine ⟨ht.paths, ht.spelled, fun b hb => ?_⟩
  obtain ⟨c, hc, hpath, hi⟩ := (hk.hasIdentity_iff h h').mpr ⟨b, hb, rfl, rfl⟩
  rw [← hpath, ← hi]
  exact ht.block c hc

/-- Every block of a covered document has a path in the table. -/
theorem Covers.mem_keys (ht : t.Covers root) (hb : b ∈ root.inside) : b.path ∈ t.byPath.keys :=
  (SortedMap.mem_keys_iff ht.paths).mpr ⟨_, ht.block b hb⟩

/-- The table has no identity at a path that is not spelled as one of a block is. -/
theorem Covers.identityAt?_eq_none (ht : t.Covers root) (hp : ∀ ns, ¬ Path.SpelledBy p ns) :
    t.identityAt? p = none := by
  refine Option.eq_none_iff_forall_ne_some.mpr fun i hi => ?_
  obtain ⟨ns, hns⟩ := ht.spelled p i hi
  exact hp ns hns

end IdentityTable

namespace Document

variable {catalog : Catalog} {d d' : Document} {e : Edit} {r : EditResult}

/-- **Every edit that is accepted**, however its target is spelled, leaves a table that covers the
document. -/
theorem covers_apply (h : Grounded d.root) (hroot : d.root.info.schema = none)
    (ht : d.identities.Covers d.root) (happly : d.apply e = .ok (d', r)) :
    d'.identities.Covers d'.root := by
  obtain ⟨landing, he, hchanges⟩ := identities_of_apply happly
  have h' : Grounded d'.root := Edit.grounded_apply h he
  -- The edit does what it does with the spelling that the block has.
  obtain ⟨p, hp, hexact⟩ := Edit.exists_exact h he
  have hback : (e.respell p).respell e.target = e := by
    rw [Edit.respell_respell, Edit.respell_target]
  have heffect := Edit.effect_of_apply h.tree (Edit.apply_respell hp he)
  have hsegments : Path.segments e.target = Path.segments (e.respell p).target := by
    rw [Edit.target_respell, hp]
  have hagain := Edit.apply_respell hsegments (Edit.apply_respell hp he)
  rw [hback, he] at hagain
  obtain ⟨hold, hnew, hkind⟩ := heffect.relanding_alike hsegments
  rw [← (Prod.mk.inj (Except.ok.inj hagain)).2] at hold hnew hkind
  rcases heffect.reaches_or_keeps h hroot hexact with ⟨hstructural, os, ns, hr⟩ | ⟨hkept, hk⟩
  · rcases hchanges with ⟨-, hchanged⟩ | ⟨hno, -⟩
    · have hcovers := ht.subtreeChanged hr h h' hold hnew
      rwa [hchanged] at hcovers
    · rw [hkind, hstructural] at hno
      cases hno
  · rcases hchanges with ⟨hyes, -⟩ | ⟨-, hsame, -⟩
    · rw [hkind, hkept] at hyes
      cases hyes
    · rw [hsame]
      exact ht.of_keeps hk h h'

/-- **The table of every document of a run** covers it: no block is ever without its identity at its
path. -/
theorem Reached.covers (h : Reached catalog d) : d.identities.Covers d.root := by
  induction h with
  | new => exact IdentityTable.covers_ofTree (Block.grounded_instantiateRoot catalog)
  | @ofText source storage d h =>
    have hroot := (Reached.ofText h).grounded
    unfold Document.ofText at h
    split at h
    · cases h
      exact IdentityTable.covers_ofTree hroot
    · cases h
  | apply before h ih => exact covers_apply before.grounded before.schema_root ih h
  | replaceText before h ih =>
    have hroot := (before.replaceText h).grounded
    unfold Document.replaceText at h
    split at h
    · cases h
    · cases h
      exact IdentityTable.covers_ofTree hroot

end Document

end BlockEdit
