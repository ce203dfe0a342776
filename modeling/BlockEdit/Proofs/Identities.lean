import BlockEdit.Proofs.Reaches
import BlockEdit.Proofs.Tables
import BlockEdit.Proofs.Texts

/-!
# Identities after an edit

The table of a document is not made anew with every edit: an edit of blocks tells where it reaches,
and the table gives up what was there and takes in what is there now. When no name has a colon, so
that an identity tells the path that it was made of, this comes to the same as a table made anew,
and the changes that are reported are those between the two documents.

Main statements:

* **`Identity.path_of_iff`**: an identity tells the path that it was made of, unless this ends in a
  colon or has two of them in a row.
* **`IdentityTable.lists_ofTree`**: the table of a document has the paths and identities of its
  blocks.
* **`IdentityTable.subtreeChanged_of_reaches`**: after an edit of blocks it has those of the new
  document, and the changes are exact.
-/

namespace BlockEdit

open Block (Grounded)

namespace Block

/-- The identity of the block that the names lead to, if there is a block. -/
def identityAt? (root : Block) (ns : List Text) : Option Identity :=
  (root.descend? ns).map Identity.ofBlock

/-- A block of the document, not its root, has this path and this identity. -/
def HasIdentity (root : Block) (path : Text) (i : Identity) : Prop :=
  ∃ b ∈ root.inside, b.path = path ∧ Identity.ofBlock b = i

/-- No block of the document has a name with a colon. -/
def Plain (root : Block) : Prop := ∀ b ∈ root.descendants, ':' ∉ b.name

instance (root : Block) : Decidable root.Plain :=
  inferInstanceAs (Decidable (∀ b ∈ root.descendants, ':' ∉ b.name))

end Block

/-- The changes say of every block of two documents what became of its identity. The names that
lead to a block in the first one lead to the same block in the second one after `moves`. -/
structure IdentityChanges.Exact (c : IdentityChanges) (moves : List Text → List Text)
    (before after : Block) : Prop where
  /-- The blocks that are still there and have another identity. -/
  remapped : ∀ old new, (old, new) ∈ c.remapped ↔ old ≠ new ∧ ∃ ns ≠ [],
    before.identityAt? ns = some old ∧ after.identityAt? (moves ns) = some new
  /-- The blocks that were not there. -/
  added : ∀ new, new ∈ c.added ↔ ∃ ms ≠ [], after.identityAt? ms = some new ∧
    ∀ ns ≠ [], moves ns = ms → before.identityAt? ns = Option.none
  /-- The blocks that are not there any more. -/
  removed : ∀ old, old ∈ c.removed ↔ ∃ ns ≠ [],
    before.identityAt? ns = some old ∧ after.identityAt? (moves ns) = Option.none

/-! ### Identities tell paths -/

namespace Identity

/-- A path is blurred when it ends in a colon or has two of them in a row: in an identity, the first
separator then starts within the path. -/
def Blurs (path : Text) : Prop := separator <:+: path ++ [':']

instance (path : Text) : Decidable (Blurs path) :=
  inferInstanceAs (Decidable (separator <:+: path ++ [':']))

/-- A path without a colon is not blurred. -/
theorem not_blurs_of_not_mem {path : Text} (h : ':' ∉ path) : ¬ Blurs path := by
  intro hblurs
  have hcount := hblurs.sublist.count_le ':'
  rw [List.count_append, List.count_eq_zero_of_not_mem h] at hcount
  exact absurd hcount (by decide)

/-- What stands before the first separator is the path, unless the path is blurred. -/
theorem splitFirst?_separator (u : Text) : ∀ path : Text,
    Text.splitFirst? separator (path ++ separator ++ u) = some (path, u) ↔ ¬ Blurs path
  | [] => iff_of_true rfl (by decide)
  | c :: path => by
    -- Whether a separator starts here is settled by the next character alone.
    have hstart : separator.isPrefixOf (c :: (path ++ separator ++ u)) = true ↔
        separator <+: c :: (path ++ [':']) := by
      rw [List.isPrefixOf_iff_prefix]
      cases path with
      | nil => simp [separator]
      | cons d path => simp [separator]
    rw [List.cons_append, List.cons_append, Text.splitFirst?, Blurs, List.cons_append,
      List.infix_cons_iff, not_or, ← hstart]
    by_cases hpre : separator.isPrefixOf (c :: (path ++ separator ++ u)) = true
    · rw [if_pos hpre]
      exact iff_of_false (fun heq => by cases heq) fun h => h.1 hpre
    · rw [if_neg hpre, and_iff_right hpre, ← Blurs, ← splitFirst?_separator u path]
      rcases Text.splitFirst? separator (path ++ separator ++ u) with _ | ⟨before, after⟩
      · exact iff_of_false (fun heq => by cases heq) fun heq => by cases heq
      · simp

/-- **An identity tells the path** that it was made of just when the path is not blurred. -/
theorem path_of_iff (path : Text) (subtypePath : Option Text) :
    Identity.path (of path subtypePath) = path ↔ ¬ Blurs path := by
  rw [← splitFirst?_separator (subtypePath.getD []) path, Identity.path, of]
  rcases hsplit : Text.splitFirst? separator (path ++ separator ++ subtypePath.getD [])
    with _ | ⟨before, after⟩
  · refine iff_of_false (fun heq => ?_) fun heq => by cases heq
    have hlength := congrArg List.length heq
    simp [separator] at hlength
  · have htext := Text.of_splitFirst? hsplit
    refine ⟨fun heq => ?_, fun heq => congrArg Prod.fst (Option.some.inj heq)⟩
    obtain rfl : before = path := heq
    rw [List.append_cancel_left htext]

/-- **An identity** tells the path that it was made of, when this has no colon. -/
theorem path_of {path : Text} (h : ':' ∉ path) (subtypePath : Option Text) :
    Identity.path (of path subtypePath) = path :=
  (path_of_iff path subtypePath).mpr (not_blurs_of_not_mem h)

/-- It tells the path of the subtype, too, which is not empty. -/
theorem subtypePath_of {path : Text} (h : ¬ Blurs path) {subtypePath : Option Text}
    (hne : subtypePath ≠ some []) : Identity.subtypePath (of path subtypePath) = subtypePath := by
  rw [Identity.subtypePath, of, (splitFirst?_separator _ path).mpr h]
  rcases subtypePath with _ | _ | ⟨c, t⟩
  · rfl
  · exact absurd rfl hne
  · rfl

end Identity

namespace Block

variable {root root' b c : Block} {ns : List Text} {p q : Text} {i j : Identity}

/-! ### Blocks below the root -/

/-- The names on the way to a block are those of blocks of the document. -/
theorem exists_name_of_descend? : ∀ {ns : List Text} {b d : Block}, b.descend? ns = some d →
    ∀ n ∈ ns, ∃ c ∈ b.descendants, c.name = n
  | [], _, _, _, n, hn => by cases hn
  | m :: ns, b, d, h, n, hn => by
    rw [descend?] at h
    obtain ⟨c, hc, hd⟩ := Option.bind_eq_some_iff.mp h
    obtain ⟨hmem, hname⟩ := Named.find?_eq_some hc
    rcases List.mem_cons.mp hn with rfl | hn
    · exact ⟨c, mem_descendants_of_child hmem (mem_descendants_self c), hname⟩
    · obtain ⟨e, he, hname⟩ := exists_name_of_descend? hd n hn
      exact ⟨e, mem_descendants_of_child hmem he, hname⟩

/-- **The blocks below the root** are those that some names lead to. -/
theorem mem_inside_iff (h : Grounded root) :
    b ∈ root.inside ↔ ∃ ns ≠ [], root.descend? ns = some b := by
  have hnodup := nodup_paths h.tree
  rw [descendants_eq_cons, List.map_cons, List.nodup_cons] at hnodup
  constructor
  · intro hb
    obtain ⟨ns, hns, -⟩ := exists_descend? h.tree (d := b)
      (mem_descendants_of_mem_inside hb)
    refine ⟨ns, ?_, hns⟩
    rintro rfl
    cases hns
    exact hnodup.1 (List.mem_map_of_mem hb)
  · rintro ⟨ns, hne, hns⟩
    have hmem := mem_descendants_of_descend? ns hns
    rw [descendants_eq_cons] at hmem
    rcases List.mem_cons.mp hmem with rfl | hmem
    · have hpath := path_of_descend? h hns hne
      rw [h.path] at hpath
      have := Path.segments_ofSegments (isSegment_of_descend? h.tree hns)
      rw [← hpath] at this
      exact absurd this.symm hne
    · exact hmem

/-- The paths and identities of a document are those at the names that spell the paths. -/
theorem hasIdentity_iff (h : Grounded root) :
    root.HasIdentity p i ↔ ∃ ns, Path.SpelledBy p ns ∧ root.identityAt? ns = some i := by
  constructor
  · rintro ⟨b, hb, rfl, rfl⟩
    obtain ⟨ns, hne, hns⟩ := (mem_inside_iff h).mp hb
    exact ⟨ns, ⟨hne, isSegment_of_descend? h.tree hns, path_of_descend? h hns hne⟩,
      by rw [identityAt?, hns, Option.map_some]⟩
  · rintro ⟨ns, hspelled, hi⟩
    obtain ⟨b, hb, rfl⟩ := Option.map_eq_some_iff.mp hi
    refine ⟨b, (mem_inside_iff h).mpr ⟨ns, hspelled.below, hb⟩, ?_, rfl⟩
    rw [path_of_descend? h hb hspelled.below, hspelled.eq]

/-- The identity at some names depends on the subtype of the block there. -/
theorem identityAt?_eq (h : Grounded root) (hne : ns ≠ []) :
    root.identityAt? ns = ((root.coreAt ns).map BlockInfo.subtype).map fun subtype =>
      Identity.of (Path.ofSegments ns) (subtype.map (Path.join (Path.ofSegments ns))) := by
  rw [identityAt?, coreAt, Option.map_map, Option.map_map]
  rcases hb : root.descend? ns with _ | b
  · rfl
  · rw [Option.map_some, Option.map_some, Identity.ofBlock, subtypePath,
      path_of_descend? h hb hne]
    rfl

/-- In two grounded trees the identity at the same names is the same when the subtype is. -/
theorem identityAt?_congr (h : Grounded root) (h' : Grounded root') (hne : ns ≠ [])
    (hsubtype : (root'.coreAt ns).map BlockInfo.subtype =
      (root.coreAt ns).map BlockInfo.subtype) :
    root'.identityAt? ns = root.identityAt? ns := by
  rw [identityAt?_eq h' hne, identityAt?_eq h hne, hsubtype]

/-- The names that lead to an identity are segments. -/
theorem isSegment_of_identityAt? (h : Grounded root) (hi : root.identityAt? ns = some i) :
    ∀ n ∈ ns, Path.IsSegment n := by
  obtain ⟨b, hb, -⟩ := Option.map_eq_some_iff.mp hi
  exact isSegment_of_descend? h.tree hb

/-- Where there is no block there is no identity. -/
theorem identityAt?_eq_none : root.identityAt? ns = none ↔ root.coreAt ns = none := by
  rw [identityAt?, coreAt, Option.map_eq_none_iff, Option.map_eq_none_iff]

/-! ### Documents without colons -/

/-- The paths of a document have no colons if its names have none. -/
theorem not_mem_path (h : Grounded root) (hp : root.Plain) (hb : b ∈ root.inside) :
    ':' ∉ b.path := by
  obtain ⟨ns, hne, hns⟩ := (mem_inside_iff h).mp hb
  rw [path_of_descend? h hns hne, Path.ofSegments, List.mem_flatMap]
  rintro ⟨n, hn, hcolon⟩
  obtain ⟨c, hc, rfl⟩ := exists_name_of_descend? hns n hn
  rcases List.mem_cons.mp hcolon with heq | hcolon
  · exact absurd heq (by decide)
  · exact hp c hc hcolon

/-- **Blocks with one identity** have one path, in two documents without colons, too. -/
theorem path_eq_of_identity (h : Grounded root) (h' : Grounded root') (hp : root.Plain)
    (hp' : root'.Plain) (hb : b ∈ root.inside) (hc : c ∈ root'.inside)
    (heq : Identity.ofBlock b = Identity.ofBlock c) : b.path = c.path := by
  have hpath := congrArg Identity.path heq
  rwa [Identity.ofBlock, Identity.ofBlock, Identity.path_of (not_mem_path h hp hb),
    Identity.path_of (not_mem_path h' hp' hc)] at hpath

/-- Identities are different at different names. -/
theorem identityAt?_injective (h : Grounded root) (hp : root.Plain) {ms : List Text}
    (hns : ns ≠ []) (hms : ms ≠ []) (hi : root.identityAt? ns = some i)
    (hj : root.identityAt? ms = some i) : ns = ms := by
  obtain ⟨b, hb, rfl⟩ := Option.map_eq_some_iff.mp hi
  obtain ⟨c, hc, heq⟩ := Option.map_eq_some_iff.mp hj
  have hpath := path_eq_of_identity h h hp hp ((mem_inside_iff h).mpr ⟨ns, hns, hb⟩)
    ((mem_inside_iff h).mpr ⟨ms, hms, hc⟩) heq.symm
  rw [path_of_descend? h hb hns, path_of_descend? h hc hms] at hpath
  exact Path.ofSegments_inj (isSegment_of_descend? h.tree hb) (isSegment_of_descend? h.tree hc)
    hpath

end Block

/-! ### The table of a document -/

namespace IdentityTable

variable {root root' : Block} {t : IdentityTable}

/-- In a grounded tree the blocks below the root are those with an identity. -/
theorem addressable_eq (h : Grounded root) : addressable root = root.inside := by
  have hinside : ∀ b ∈ root.inside, (!b.isRoot) = true := by
    intro b hb
    obtain ⟨ns, hne, hns⟩ := (Block.mem_inside_iff h).mp hb
    rw [Bool.not_eq_true', Block.isRoot, beq_eq_false_iff_ne, Block.path_of_descend? h hns hne]
    intro heq
    have hsegments := Path.segments_ofSegments (Block.isSegment_of_descend? h.tree hns)
    rw [heq] at hsegments
    exact hne hsegments.symm
  rw [addressable, Block.descendants_eq_cons, List.filter_cons, if_neg ?_]
  · exact List.filter_eq_self.mpr hinside
  · rw [Block.isRoot, h.path]
    decide

/-- Blocks with different paths have different identities when there are no colons. -/
theorem nodup_identities (h : Grounded root) (hp : root.Plain) {bs : List Block}
    (hbs : ∀ b ∈ bs, b ∈ root.inside) (hn : (bs.map Block.path).Nodup) :
    (bs.map Identity.ofBlock).Nodup :=
  List.pairwise_map.mpr ((List.pairwise_map.mp hn).imp_of_mem fun hb hc hne heq =>
    hne (Block.path_eq_of_identity h h hp hp (hbs _ hb) (hbs _ hc) heq))

/-- **The table of a document** has the paths and identities of its blocks. -/
theorem lists_ofTree (h : Grounded root) (hp : root.Plain) :
    (ofTree root).Lists root.HasIdentity := by
  have hnodup := Block.nodup_paths h.tree
  rw [Block.descendants_eq_cons, List.map_cons, List.nodup_cons] at hnodup
  rw [ofTree, addressable_eq h]
  refine (lists_foldl_insert lists_empty hnodup.2 (nodup_identities h hp (fun _ hb => hb) hnodup.2)
    fun _ _ _ _ hfalse => hfalse.elim).congr fun p i => ?_
  rw [false_or]
  rfl

/-! ### The table after an edit -/

variable {e : Edit} {top oldPath newPath p : Text} {os ns k ms : List Text} {i : Identity}

/-- What a document has at a path is the identity at the names that spell it. -/
theorem hasIdentity_spelled (h : Grounded root) (hp : Path.SpelledBy p ms) :
    root.HasIdentity p i ↔ root.identityAt? ms = some i := by
  rw [Block.hasIdentity_iff h]
  constructor
  · rintro ⟨ks, hks, hi⟩
    rwa [Path.ofSegments_inj hp.segment hks.segment (hp.eq.symm.trans hks.eq)]
  · exact fun hi => ⟨ms, hp, hi⟩

/-- The names behind those that spell the top spell what stands behind it. -/
theorem behind_spelled (ht : Path.SpelledBy top os) (hp : Path.SpelledBy p (os ++ k)) :
    behind top p = Path.ofSegments k := by
  rw [behind, ht.eq, hp.eq, Path.dropBytes_ofSegments]

/-- A path that is spelled by names is within another exactly when its names start with those of the
other. -/
theorem isWithin_spelled (ht : Path.SpelledBy top os) (hp : Path.SpelledBy p ms) :
    Path.isWithin top p = true ↔ os <+: ms := by
  rw [ht.eq, hp.eq, Path.isWithin_ofSegments ht.segment hp.segment]

/-- The pairs of a document below a path, by the names behind those that spell it. -/
theorem exists_within_iff (h : Grounded root) (ht : Path.SpelledBy top os) {Q : Text → Prop} :
    (∃ p, root.HasIdentity p i ∧ Path.isWithin top p = true ∧ Q (behind top p)) ↔
      ∃ k, (∀ n ∈ k, Path.IsSegment n) ∧ root.identityAt? (os ++ k) = some i ∧
        Q (Path.ofSegments k) := by
  constructor
  · rintro ⟨p, hpi, hw, hQ⟩
    obtain ⟨ms, hms, hi⟩ := (Block.hasIdentity_iff h).mp hpi
    obtain ⟨k, rfl⟩ := (isWithin_spelled ht hms).mp hw
    rw [behind_spelled ht hms] at hQ
    exact ⟨k, fun n hn => hms.segment n (List.mem_append_right _ hn), hi, hQ⟩
  · rintro ⟨k, hk, hi, hQ⟩
    have hp : Path.SpelledBy (Path.ofSegments (os ++ k)) (os ++ k) :=
      ⟨fun hnil => ht.below (List.append_eq_nil_iff.mp hnil).1,
        fun n hn => (List.mem_append.mp hn).elim (ht.segment n) (hk n), rfl⟩
    refine ⟨_, (hasIdentity_spelled h hp).mpr hi,
      (isWithin_spelled ht hp).mpr (List.prefix_append os k), ?_⟩
    rwa [behind_spelled ht hp]

/-- The pair of a document with the given rest of the path behind the top. -/
theorem exists_behind_iff (h : Grounded root) (ht : Path.SpelledBy top os)
    (hk : ∀ n ∈ k, Path.IsSegment n) :
    (∃ p, root.HasIdentity p i ∧ Path.isWithin top p = true ∧ behind top p = Path.ofSegments k) ↔
      root.identityAt? (os ++ k) = some i := by
  rw [exists_within_iff h ht (Q := fun rest => rest = Path.ofSegments k)]
  constructor
  · rintro ⟨k', hk', hi, heq⟩
    rwa [← Path.ofSegments_inj hk' hk heq]
  · exact fun hi => ⟨k, hk, hi, rfl⟩

/-- The blocks at and below a path. -/
def blocksWithin (root : Block) (top : Text) : List Block :=
  (root.find? top).elim [] Block.descendants

/-- The blocks within a path are those to which names lead that start with the names of the path. -/
theorem mem_blocksWithin (h : Grounded root) (ht : Path.SpelledBy top ns) {b : Block} :
    b ∈ blocksWithin root top ↔
      ∃ k, root.descend? (ns ++ k) = some b ∧ Path.SpelledBy b.path (ns ++ k) := by
  have hspelled : ∀ k, root.descend? (ns ++ k) = some b → Path.SpelledBy b.path (ns ++ k) := by
    intro k hk
    have hne : ns ++ k ≠ [] := fun hnil => ht.below (List.append_eq_nil_iff.mp hnil).1
    exact ⟨hne, Block.isSegment_of_descend? h.tree hk, Block.path_of_descend? h hk hne⟩
  rw [exists_congr fun k => and_iff_left_of_imp (hspelled k), blocksWithin, Block.find?, ht.eq,
    Path.segments_ofSegments ht.segment]
  simp only [Block.descend?_append]
  rcases htop : root.descend? ns with _ | b
  · simp
  · have hsound := h.tree.descendant (Block.mem_descendants_of_descend? ns htop)
    simp only [Option.bind_some, Option.elim_some]
    constructor
    · intro hb
      obtain ⟨k, hk, -⟩ := Block.exists_descend? hsound hb
      exact ⟨k, hk⟩
    · rintro ⟨k, hk⟩
      exact Block.mem_descendants_of_descend? k hk

/-- The blocks within a path lie below the root. -/
theorem mem_inside_of_mem_blocksWithin (h : Grounded root) (ht : Path.SpelledBy top ns) {b : Block}
    (hb : b ∈ blocksWithin root top) : b ∈ root.inside := by
  obtain ⟨k, hk, hspelled⟩ := (mem_blocksWithin h ht).mp hb
  exact (Block.mem_inside_iff h).mpr ⟨_, hspelled.below, hk⟩

/-- No two blocks within a path share their own. -/
theorem nodup_paths_blocksWithin (h : Grounded root) (top : Text) :
    ((blocksWithin root top).map Block.path).Nodup := by
  rw [blocksWithin]
  rcases htop : root.find? top with _ | b
  · exact List.nodup_nil
  · exact Block.nodup_paths (Block.all_sound_of_find? h.tree htop)

/-- The identity of a block below a path, by the names behind those that spell it. -/
theorem exists_mem_blocksWithin (h : Grounded root) (ht : Path.SpelledBy top ns)
    (hk : ∀ n ∈ k, Path.IsSegment n) :
    (∃ b ∈ blocksWithin root top, behind top b.path = Path.ofSegments k ∧
      Identity.ofBlock b = i) ↔ root.identityAt? (ns ++ k) = some i := by
  constructor
  · rintro ⟨b, hb, hbehind, rfl⟩
    obtain ⟨k', hk', hspelled⟩ := (mem_blocksWithin h ht).mp hb
    rw [behind_spelled ht hspelled] at hbehind
    rw [← Path.ofSegments_inj (fun n hn => hspelled.segment n (List.mem_append_right _ hn)) hk
      hbehind, Block.identityAt?, hk', Option.map_some]
  · intro hi
    obtain ⟨b, hb, rfl⟩ := Option.map_eq_some_iff.mp hi
    have hne : ns ++ k ≠ [] := fun hnil => ht.below (List.append_eq_nil_iff.mp hnil).1
    have hspelled : Path.SpelledBy b.path (ns ++ k) :=
      ⟨hne, Block.isSegment_of_descend? h.tree hb, Block.path_of_descend? h hb hne⟩
    exact ⟨b, (mem_blocksWithin h ht).mpr ⟨k, hb, hspelled⟩, behind_spelled ht hspelled, rfl⟩

end IdentityTable

namespace Edit.Reaches

variable {e : Edit} {root root' : Block} {oldPath newPath : Text} {os ns ms : List Text}

/-- An identity outside of what an edit reaches stays. -/
theorem identityAt?_stay (hr : e.Reaches root root' oldPath newPath os ns) (h : Grounded root)
    (h' : Grounded root') (hne : ms ≠ []) (hos : ¬ os <+: ms) (hns : ¬ ns <+: ms) :
    root'.identityAt? ms = root.identityAt? ms :=
  Block.identityAt?_congr h h' hne (congrArg _ (hr.shift.stay ms hos hns))

/-- No identity is left at the old place. -/
theorem identityAt?_gone (hr : e.Reaches root root' oldPath newPath os ns) (hos : os <+: ms)
    (hns : ¬ ns <+: ms) : root'.identityAt? ms = none :=
  Block.identityAt?_eq_none.mpr (hr.shift.gone ms hos hns)

/-- There was no identity at the new place. -/
theorem identityAt?_fresh (hr : e.Reaches root root' oldPath newPath os ns) (hns : ns <+: ms)
    (hos : ¬ os <+: ms) : root.identityAt? ms = none :=
  Block.identityAt?_eq_none.mpr (hr.shift.fresh ms hns hos)

/-- **The changes of an edit** are exact when they are those at and below its two places. -/
theorem exact (hr : e.Reaches root root' oldPath newPath os ns) (h : Grounded root)
    (h' : Grounded root') {c : IdentityChanges}
    (hremapped : ∀ old new, (old, new) ∈ c.remapped ↔ old ≠ new ∧ ∃ k,
      root.identityAt? (os ++ k) = some old ∧ root'.identityAt? (ns ++ k) = some new)
    (hadded : ∀ new, new ∈ c.added ↔ ∃ k,
      root'.identityAt? (ns ++ k) = some new ∧ root.identityAt? (os ++ k) = none)
    (hremoved : ∀ old, old ∈ c.removed ↔ ∃ k,
      root.identityAt? (os ++ k) = some old ∧ root'.identityAt? (ns ++ k) = none) :
    c.Exact e.moves root root' := by
  have hos : ∀ k, os ++ k ≠ [] := fun k hnil => hr.old.below (List.append_eq_nil_iff.mp hnil).1
  have hns : ∀ k, ns ++ k ≠ [] := fun k hnil => hr.new.below (List.append_eq_nil_iff.mp hnil).1
  -- An identity that is not at the old place is at the same names before and after.
  have houtside : ∀ ms ≠ [], ¬ os <+: ms → ∀ i, root.identityAt? ms = some i →
      root'.identityAt? (e.moves ms) = some i := by
    intro ms hms hpre i hi
    rw [hr.stays ms hpre, hr.identityAt?_stay h h' hms hpre fun hnew => ?_]
    · exact hi
    · rw [hr.identityAt?_fresh hnew hpre] at hi
      cases hi
  constructor
  case remapped =>
    intro old new
    rw [hremapped]
    refine and_congr_right fun hne => ⟨?_, ?_⟩
    · rintro ⟨k, hold, hnew⟩
      exact ⟨os ++ k, hos k, hold, (hr.moved k).symm ▸ hnew⟩
    · rintro ⟨ms, hms, hold, hnew⟩
      by_cases hpre : os <+: ms
      · obtain ⟨k, rfl⟩ := hpre
        exact ⟨k, hold, hr.moved k ▸ hnew⟩
      · rw [houtside ms hms hpre old hold] at hnew
        exact absurd (Option.some.inj hnew) hne
  case added =>
    intro new
    rw [hadded]
    constructor
    · rintro ⟨k, hnew, hnone⟩
      refine ⟨ns ++ k, hns k, hnew, fun ms _ hms => ?_⟩
      by_cases hpre : os <+: ms
      · obtain ⟨k', rfl⟩ := hpre
        rw [hr.moved, List.append_right_inj] at hms
        rwa [hms]
      · rw [hr.stays ms hpre] at hms
        exact hr.identityAt?_fresh (hms ▸ List.prefix_append ns k) hpre
    · rintro ⟨ms, hms, hnew, hnone⟩
      by_cases hpre : ns <+: ms
      · obtain ⟨k, rfl⟩ := hpre
        exact ⟨k, hnew, hnone _ (hos k) (hr.moved k)⟩
      · by_cases hold : os <+: ms
        · rw [hr.identityAt?_gone hold hpre] at hnew
          cases hnew
        · have hsame := hr.identityAt?_stay h h' hms hold hpre
          rw [hnew, hnone ms hms (hr.stays ms hold)] at hsame
          cases hsame
  case removed =>
    intro old
    rw [hremoved]
    constructor
    · rintro ⟨k, hold, hnone⟩
      exact ⟨os ++ k, hos k, hold, (hr.moved k).symm ▸ hnone⟩
    · rintro ⟨ms, hms, hold, hnone⟩
      by_cases hpre : os <+: ms
      · obtain ⟨k, rfl⟩ := hpre
        exact ⟨k, hold, hr.moved k ▸ hnone⟩
      · rw [houtside ms hms hpre old hold] at hnone
        cases hnone

end Edit.Reaches

namespace IdentityTable

variable {e : Edit} {root root' : Block} {oldPath newPath : Text} {os ns : List Text}

/-- The pairs of the document after an edit of blocks. -/
theorem hasIdentity_of_reaches (hr : e.Reaches root root' oldPath newPath os ns)
    (h : Grounded root) (h' : Grounded root') {p : Text} {i : Identity} :
    (root.HasIdentity p i ∧ Path.isWithin oldPath p = false ∨
        ∃ b ∈ blocksWithin root' newPath, b.path = p ∧ Identity.ofBlock b = i) ↔
      root'.HasIdentity p i := by
  constructor
  · rintro (⟨hpi, hw⟩ | ⟨b, hb, rfl, rfl⟩)
    · obtain ⟨ms, hms, hi⟩ := (Block.hasIdentity_iff h).mp hpi
      have hos : ¬ os <+: ms := fun hpre =>
        Bool.false_ne_true (hw.symm.trans ((isWithin_spelled hr.old hms).mpr hpre))
      have hns : ¬ ns <+: ms := by
        intro hpre
        rw [hr.identityAt?_fresh hpre hos] at hi
        cases hi
      rw [hasIdentity_spelled h' hms, hr.identityAt?_stay h h' hms.below hos hns, hi]
    · obtain ⟨k, hk, hspelled⟩ := (mem_blocksWithin h' hr.new).mp hb
      exact ⟨b, (Block.mem_inside_iff h').mpr ⟨_, hspelled.below, hk⟩, rfl, rfl⟩
  · intro hpi
    obtain ⟨ms, hms, hi⟩ := (Block.hasIdentity_iff h').mp hpi
    by_cases hns : ns <+: ms
    · obtain ⟨k, rfl⟩ := hns
      obtain ⟨b, hb, rfl⟩ := Option.map_eq_some_iff.mp hi
      have hpath := Block.path_of_descend? h' hb hms.below
      have hspelled : Path.SpelledBy b.path (ns ++ k) := ⟨hms.below, hms.segment, hpath⟩
      exact Or.inr ⟨b, (mem_blocksWithin h' hr.new).mpr ⟨k, hb, hspelled⟩,
        hpath.trans hms.eq.symm, rfl⟩
    · have hos : ¬ os <+: ms := by
        intro hpre
        rw [hr.identityAt?_gone hpre hns] at hi
        cases hi
      refine Or.inl ⟨(hasIdentity_spelled h hms).mpr ?_, Bool.eq_false_iff.mpr fun hw => ?_⟩
      · rw [← hr.identityAt?_stay h h' hms.below hos hns, hi]
      · exact hos ((isWithin_spelled hr.old hms).mp hw)

/-- **After an edit of blocks** the table of the document before has the paths and identities of
the document after, and the changes are exact. -/
theorem subtreeChanged_of_reaches {t : IdentityTable} (ht : t.Lists root.HasIdentity)
    (hr : e.Reaches root root' oldPath newPath os ns) (h : Grounded root) (h' : Grounded root')
    (hp : root.Plain) (hp' : root'.Plain) :
    (t.subtreeChanged root' oldPath newPath).1.Lists root'.HasIdentity ∧
      (t.subtreeChanged root' oldPath newPath).2.Exact e.moves root root' := by
  have hinside : ∀ b ∈ blocksWithin root' newPath, b ∈ root'.inside := fun _ =>
    mem_inside_of_mem_blocksWithin h' hr.new
  have hpaths := nodup_paths_blocksWithin h' newPath
  have hwithin : ∀ b ∈ blocksWithin root' newPath, Path.isWithin newPath b.path = true := by
    intro b hb
    obtain ⟨k, -, hspelled⟩ := (mem_blocksWithin h' hr.new).mp hb
    exact (isWithin_spelled hr.new hspelled).mpr (List.prefix_append ns k)
  -- What is kept cannot get in the way of what comes in.
  have hfresh : ∀ b ∈ blocksWithin root' newPath, ∀ p i, root.HasIdentity p i →
      Path.isWithin oldPath p = false → p ≠ b.path ∧ i ≠ Identity.ofBlock b := by
    rintro b hb p i hpi hw
    have hne : p ≠ b.path := by
      rintro rfl
      obtain ⟨k, -, hspelled⟩ := (mem_blocksWithin h' hr.new).mp hb
      have hi := (hasIdentity_spelled h hspelled).mp hpi
      rw [hr.identityAt?_fresh (List.prefix_append ns k) fun hpre => ?_] at hi
      · cases hi
      · rw [(isWithin_spelled hr.old hspelled).mpr hpre] at hw
        cases hw
    refine ⟨hne, fun heq => hne ?_⟩
    obtain ⟨c, hc, rfl, rfl⟩ := hpi
    exact Block.path_eq_of_identity h h' hp hp' hc (hinside b hb) heq
  obtain ⟨hlists, hremapped, hadded, hremoved⟩ := subtreeChanged_spec ht
    (show _ = blocksWithin root' newPath from rfl) hpaths
    (nodup_identities h' hp' hinside hpaths) hwithin hfresh
  refine ⟨hlists.congr fun p i => hasIdentity_of_reaches hr h h',
    hr.exact h h' (fun old new => ?_) (fun new => ?_) fun old => ?_⟩
  · rw [hremapped, exists_within_iff h hr.old (Q := fun rest =>
      ∃ b ∈ blocksWithin root' newPath, behind newPath b.path = rest ∧ Identity.ofBlock b = new)]
    refine and_congr_right fun _ => exists_congr fun k => ?_
    constructor
    · rintro ⟨hk, hold, hnew⟩
      exact ⟨hold, (exists_mem_blocksWithin h' hr.new hk).mp hnew⟩
    · rintro ⟨hold, hnew⟩
      have hk := fun n hn => Block.isSegment_of_identityAt? h hold n (List.mem_append_right _ hn)
      exact ⟨hk, hold, (exists_mem_blocksWithin h' hr.new hk).mpr hnew⟩
  · rw [hadded]
    constructor
    · rintro ⟨b, hb, hall, rfl⟩
      obtain ⟨k, hk, hspelled⟩ := (mem_blocksWithin h' hr.new).mp hb
      have hsegments := fun n hn => hspelled.segment n (List.mem_append_right ns hn)
      refine ⟨k, by rw [Block.identityAt?, hk, Option.map_some],
        Option.eq_none_iff_forall_ne_some.mpr fun i hi => ?_⟩
      obtain ⟨p, hpi, hw, hbehind⟩ := (exists_behind_iff h hr.old hsegments).mpr hi
      exact hall p i hpi hw ((behind_spelled hr.new hspelled).trans hbehind.symm)
    · rintro ⟨k, hnew, hnone⟩
      have hk := fun n hn => Block.isSegment_of_identityAt? h' hnew n (List.mem_append_right _ hn)
      obtain ⟨b, hb, hbehind, rfl⟩ := (exists_mem_blocksWithin h' hr.new hk).mpr hnew
      refine ⟨b, hb, fun p i hpi hw heq => ?_, rfl⟩
      have hi := (exists_behind_iff h hr.old hk).mp ⟨p, hpi, hw, heq.symm.trans hbehind⟩
      rw [hnone] at hi
      cases hi
  · rw [hremoved, exists_within_iff h hr.old (Q := fun rest =>
      ∀ b ∈ blocksWithin root' newPath, behind newPath b.path ≠ rest)]
    refine exists_congr fun k => ?_
    constructor
    · rintro ⟨hk, hold, hall⟩
      refine ⟨hold, Option.eq_none_iff_forall_ne_some.mpr fun i hi => ?_⟩
      obtain ⟨b, hb, hbehind, -⟩ := (exists_mem_blocksWithin h' hr.new hk).mpr hi
      exact hall b hb hbehind
    · rintro ⟨hold, hnone⟩
      have hk := fun n hn => Block.isSegment_of_identityAt? h hold n (List.mem_append_right _ hn)
      refine ⟨hk, hold, fun b hb hbehind => ?_⟩
      rw [(exists_mem_blocksWithin h' hr.new hk).mp ⟨b, hb, hbehind, rfl⟩] at hnone
      cases hnone

end IdentityTable

end BlockEdit
