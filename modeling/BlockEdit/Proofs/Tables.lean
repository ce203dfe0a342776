import BlockEdit.Proofs.SortedMaps
import BlockEdit.Proofs.Subpaths

/-!
# Tables of identities

A table of identities holds pairs of a path and an identity, in one map each way. When a subtree
changes, the table gives up the pairs at and below the old path, takes the blocks at and below the
new one, and compares the two by what stands behind these paths.

What a table holds is told by `IdentityTable.Lists`, and two tables that hold the same are the same.

Main statements:

* **`IdentityTable.Lists.eq`**: a table is known by what it holds.
* **`IdentityTable.subtreeChanged_spec`**: what a table holds after a subtree has changed, and which
  changes of identities it reports.
-/

namespace BlockEdit.IdentityTable

open SortedMap (Increasing)

/-- The table holds just the pairs of a path and an identity for which `S` holds. -/
structure Lists (t : IdentityTable) (S : Text → Identity → Prop) : Prop where
  /-- The map by paths is in order. -/
  paths : Increasing t.byPath.entries
  /-- The map by identities is in order. -/
  ids : Increasing t.byIdentity.entries
  /-- The identity at a path. -/
  path : ∀ p i, t.byPath.find? p = some i ↔ S p i
  /-- The path of an identity. -/
  identity : ∀ p i, t.byIdentity.find? i = some p ↔ S p i

variable {t t' : IdentityTable} {S : Text → Identity → Prop}

namespace Lists

/-- A table holds the same pairs however they are told. -/
theorem congr {S' : Text → Identity → Prop} (h : t.Lists S) (hS : ∀ p i, S p i ↔ S' p i) :
    t.Lists S' :=
  ⟨h.paths, h.ids, fun p i => (h.path p i).trans (hS p i),
    fun p i => (h.identity p i).trans (hS p i)⟩

/-- **A table is known** by what it holds. -/
theorem eq (h : t.Lists S) (h' : t'.Lists S) : t = t' := by
  have hpath : t.byPath = t'.byPath :=
    SortedMap.eq_of_find? h.paths h'.paths fun p i => (h.path p i).trans (h'.path p i).symm
  have hids : t.byIdentity = t'.byIdentity :=
    SortedMap.eq_of_find? h.ids h'.ids fun i p => (h.identity p i).trans (h'.identity p i).symm
  cases t
  cases t'
  cases hpath
  cases hids
  rfl

/-- A path has one identity. -/
theorem eq_identity (h : t.Lists S) {p : Text} {i j : Identity} (hi : S p i) (hj : S p j) :
    i = j :=
  Option.some.inj (((h.path p i).mpr hi).symm.trans ((h.path p j).mpr hj))

/-- An identity has one path. -/
theorem eq_path (h : t.Lists S) {p q : Text} {i : Identity} (hp : S p i) (hq : S q i) : p = q :=
  Option.some.inj (((h.identity p i).mpr hp).symm.trans ((h.identity q i).mpr hq))

/-- The identities of a table are those of its pairs. -/
theorem mem_identities (h : t.Lists S) {i : Identity} : i ∈ t.identities ↔ ∃ p, S p i := by
  rw [identities, SortedMap.mem_keys_iff h.ids]
  exact exists_congr fun p => h.identity p i

/-- The entries of a table are its pairs. -/
theorem mem_entries (h : t.Lists S) {p : Text} {i : Identity} :
    (p, i) ∈ t.byPath.entries ↔ S p i := by
  rw [SortedMap.mem_entries_iff h.paths, h.path]

/-- A block with a path and an identity that the table does not have joins it. -/
theorem insert (h : t.Lists S) {b : Block}
    (hnew : ∀ p i, S p i → p ≠ b.path ∧ i ≠ Identity.ofBlock b) :
    (t.insert b).Lists fun p i => S p i ∨ b.path = p ∧ Identity.ofBlock b = i := by
  refine ⟨SortedMap.increasing_insert h.paths _ _, SortedMap.increasing_insert h.ids _ _,
    fun p i => ?_, fun p i => ?_⟩
  · show (t.byPath.insert b.path (Identity.ofBlock b)).find? p = some i ↔ _
    rw [SortedMap.find?_insert_eq_some, h.path]
    constructor
    · rintro (⟨rfl, rfl⟩ | ⟨-, hp⟩)
      · exact Or.inr ⟨rfl, rfl⟩
      · exact Or.inl hp
    · rintro (hp | ⟨rfl, rfl⟩)
      · exact Or.inr ⟨(hnew p i hp).1, hp⟩
      · exact Or.inl ⟨rfl, rfl⟩
  · show (t.byIdentity.insert (Identity.ofBlock b) b.path).find? i = some p ↔ _
    rw [SortedMap.find?_insert_eq_some, h.identity]
    constructor
    · rintro (⟨rfl, rfl⟩ | ⟨-, hp⟩)
      · exact Or.inr ⟨rfl, rfl⟩
      · exact Or.inl hp
    · rintro (hp | ⟨rfl, rfl⟩)
      · exact Or.inr ⟨(hnew p i hp).2, hp⟩
      · exact Or.inl ⟨rfl, rfl⟩

/-- A pair of the table leaves it. -/
theorem delete (h : t.Lists S) {p : Text} {i : Identity} (hp : S p i) :
    Lists ⟨t.byIdentity.erase i, t.byPath.erase p⟩ fun q j => S q j ∧ q ≠ p := by
  refine ⟨SortedMap.increasing_erase h.paths p, SortedMap.increasing_erase h.ids i,
    fun q j => ?_, fun q j => ?_⟩
  · rw [SortedMap.find?_erase_eq_some, h.path, and_comm]
  · rw [SortedMap.find?_erase_eq_some, h.identity, and_comm]
    refine and_congr_right fun hq => not_congr ⟨?_, ?_⟩
    · rintro rfl
      exact h.eq_path hq hp
    · rintro rfl
      exact h.eq_identity hq hp

end Lists

/-- The empty table holds no pair. -/
theorem lists_empty : empty.Lists fun _ _ => False := by
  refine ⟨List.Pairwise.nil, List.Pairwise.nil, fun p i => ?_, fun p i => ?_⟩
  · exact ⟨fun h => (by cases h), False.elim⟩
  · exact ⟨fun h => (by cases h), False.elim⟩

/-- **Blocks with different paths and identities**, which the table does not have, join it. -/
theorem lists_foldl_insert : ∀ {bs : List Block} {t : IdentityTable} {S : Text → Identity → Prop},
    t.Lists S → (bs.map Block.path).Nodup → (bs.map Identity.ofBlock).Nodup →
      (∀ b ∈ bs, ∀ p i, S p i → p ≠ b.path ∧ i ≠ Identity.ofBlock b) →
        (bs.foldl insert t).Lists fun p i =>
          S p i ∨ ∃ b ∈ bs, b.path = p ∧ Identity.ofBlock b = i
  | [], t, S, h, _, _, _ => h.congr fun p i => by simp
  | b :: bs, t, S, h, hp, hi, hnew => by
    rw [List.map_cons, List.nodup_cons] at hp hi
    have hfirst := h.insert (hnew b List.mem_cons_self)
    refine (lists_foldl_insert hfirst hp.2 hi.2 ?_).congr fun p i => ?_
    · rintro c hc p i (hold | ⟨rfl, rfl⟩)
      · exact hnew c (List.mem_cons_of_mem _ hc) p i hold
      · exact ⟨fun heq => hp.1 (heq ▸ List.mem_map_of_mem hc),
          fun heq => hi.1 (heq ▸ List.mem_map_of_mem hc)⟩
    · rw [List.exists_mem_cons_iff, or_assoc]

/-! ### Giving up a subtree -/

/-- The rest of a path behind the path of the top. -/
def behind (top path : Text) : Text := Text.dropBytes (Text.byteSize top) path

/-- A path within another is that and what stands behind it. -/
theorem append_behind {top path : Text} (h : Path.isWithin top path = true) :
    top ++ behind top path = path := by
  obtain ⟨rest, rfl, -⟩ := Path.isWithin_iff.mp h
  rw [behind, Text.dropBytes_append]

/-- Paths below one top differ in what stands behind it. -/
theorem eq_of_behind {top p q : Text} (hp : Path.isWithin top p = true)
    (hq : Path.isWithin top q = true) (h : behind top p = behind top q) : p = q := by
  rw [← append_behind hp, h, append_behind hq]

/-- One pair of the table goes over to the identities that are left from before. -/
def detachOne (top : Text) (state : IdentityTable × SortedMap Identity)
    (entry : Text × Identity) : IdentityTable × SortedMap Identity :=
  (⟨state.1.byIdentity.erase entry.2, state.1.byPath.erase entry.1⟩,
    state.2.insert (behind top entry.1) entry.2)

/-- What is taken out of a table are its pairs within a path, one by one. -/
theorem detach_eq (t : IdentityTable) (top : Text) :
    t.detach top = (t.byPath.entries.filter fun entry => Path.isWithin top entry.1).foldl
      (detachOne top) (t, .empty) := rfl

/-- Pairs of the table, one after the other, go over to what is left from before. -/
theorem foldl_detachOne (top : Text) : ∀ {entries : List (Text × Identity)} {t : IdentityTable}
    (previous : SortedMap Identity) {S : Text → Identity → Prop}, t.Lists S →
      (∀ e ∈ entries, S e.1 e.2) → (entries.map Prod.fst).Nodup →
        (entries.foldl (detachOne top) (t, previous)).1.Lists
            (fun p i => S p i ∧ p ∉ entries.map Prod.fst) ∧
          (entries.foldl (detachOne top) (t, previous)).2 =
            (entries.map fun e => (behind top e.1, e.2)).foldl
              (fun m e => m.insert e.1 e.2) previous
  | [], t, previous, S, h, _, _ => ⟨h.congr fun p i => by simp, rfl⟩
  | e :: entries, t, previous, S, h, hS, hn => by
    rw [List.map_cons, List.nodup_cons] at hn
    have hfirst := h.delete (hS e List.mem_cons_self)
    obtain ⟨hlists, hprevious⟩ := foldl_detachOne top (previous.insert (behind top e.1) e.2) hfirst
      (fun f hf => ⟨hS f (List.mem_cons_of_mem _ hf),
        fun heq => hn.1 (heq ▸ List.mem_map_of_mem hf)⟩) hn.2
    refine ⟨hlists.congr fun p i => ?_, hprevious⟩
    rw [List.map_cons, List.mem_cons, not_or, and_assoc]

/-- **The table without a subtree**, and what is left from before by the rest of the path. -/
theorem detach_spec (h : t.Lists S) (top : Text) :
    (t.detach top).1.Lists (fun p i => S p i ∧ Path.isWithin top p = false) ∧
      Increasing (t.detach top).2.entries ∧
        ∀ r i, (t.detach top).2.find? r = some i ↔
          ∃ p, S p i ∧ Path.isWithin top p = true ∧ behind top p = r := by
  rw [detach_eq]
  generalize hentries : t.byPath.entries.filter (fun e => Path.isWithin top e.1) = entries
  have hmem : ∀ p i, (p, i) ∈ entries ↔ S p i ∧ Path.isWithin top p = true := by
    intro p i
    rw [← hentries, List.mem_filter, h.mem_entries]
  have hnodup : (entries.map Prod.fst).Nodup := by
    rw [← hentries]
    exact (SortedMap.nodup_keys h.paths).sublist (List.filter_sublist.map _)
  obtain ⟨hlists, hprevious⟩ := foldl_detachOne top .empty h
    (fun e he => ((hmem e.1 e.2).mp he).1) hnodup
  refine ⟨hlists.congr fun p i => and_congr_right fun hp => ?_, ?_⟩
  · rw [List.mem_map, ← Bool.not_eq_true, not_iff_not]
    constructor
    · rintro ⟨⟨q, j⟩, he, rfl⟩
      exact ((hmem q j).mp he).2
    · exact fun hw => ⟨(p, i), (hmem p i).mpr ⟨hp, hw⟩, rfl⟩
  · have hofList : (entries.foldl (detachOne top) (t, .empty)).2 =
        SortedMap.ofList (entries.map fun e => (behind top e.1, e.2)) := hprevious
    rw [hofList]
    -- Within the top, what stands behind it tells paths apart.
    have hkeys : ((entries.map fun e => (behind top e.1, e.2)).map Prod.fst).Nodup := by
      rw [List.map_map]
      refine List.Nodup.map_on (fun e he f hf heq => ?_) hnodup.of_map
      obtain ⟨hSe, hwe⟩ := (hmem e.1 e.2).mp he
      obtain ⟨hSf, hwf⟩ := (hmem f.1 f.2).mp hf
      have hpath := eq_of_behind hwe hwf heq
      exact Prod.ext hpath (h.eq_identity hSe (hpath ▸ hSf))
    refine ⟨SortedMap.increasing_ofList _, fun r i => ?_⟩
    rw [← SortedMap.mem_entries_iff (SortedMap.increasing_ofList _),
      (SortedMap.entries_ofList_perm hkeys).mem_iff, List.mem_map]
    constructor
    · rintro ⟨⟨p, j⟩, he, heq⟩
      cases heq
      exact ⟨p, ((hmem p _).mp he).1, ((hmem p _).mp he).2, rfl⟩
    · rintro ⟨p, hp, hw, rfl⟩
      exact ⟨(p, i), (hmem p i).mpr ⟨hp, hw⟩, rfl⟩

/-! ### Taking a subtree in -/

/-- How the identity of a block moved, when one is left from before that was another one. -/
def moved? (newTop : Text) (previous : SortedMap Identity) (b : Block) :
    Option (Identity × Identity) :=
  (previous.find? (behind newTop b.path)).bind fun old =>
    if old = Identity.ofBlock b then none else some (old, Identity.ofBlock b)

/-- The identity of a block, when none is left from before. -/
def new? (newTop : Text) (previous : SortedMap Identity) (b : Block) : Option Identity :=
  if (previous.find? (behind newTop b.path)).isSome then none else some (Identity.ofBlock b)

/-- A block that is put into the table takes over the identity that is left from before at its
place, or else it is a new one. -/
theorem attach_eq (newTop : Text) (t : IdentityTable) (c : IdentityChanges)
    (previous : SortedMap Identity) (b : Block) :
    attach newTop (t, c, previous) b =
      (t.insert b,
        { c with
          remapped := c.remapped ++ (moved? newTop previous b).toList
          added := c.added ++ (new? newTop previous b).toList },
        previous.erase (behind newTop b.path)) := by
  rw [attach]
  split
  · next old hold =>
    have hfind : previous.find? (behind newTop b.path) = some old := hold
    rw [moved?, new?, hfind]
    by_cases h : old = Identity.ofBlock b
    · simp [h]
      rfl
    · simp [h]
      rfl
  · next hnone =>
    have hfind : previous.find? (behind newTop b.path) = none := hnone
    rw [moved?, new?, hfind, SortedMap.erase_of_find? hfind]
    simp

/-- The blocks of a subtree, one after the other, each behind the top in its own way. -/
theorem foldl_attach {newTop : Text} : ∀ {bs : List Block} {t : IdentityTable}
    {c : IdentityChanges} {previous : SortedMap Identity},
    (bs.map fun b => behind newTop b.path).Nodup →
      bs.foldl (attach newTop) (t, c, previous) =
        (bs.foldl insert t,
          { c with
            remapped := c.remapped ++ bs.filterMap (moved? newTop previous)
            added := c.added ++ bs.filterMap (new? newTop previous) },
          bs.foldl (fun m b => m.erase (behind newTop b.path)) previous)
  | [], t, c, previous, _ => by simp
  | b :: bs, t, c, previous, hn => by
    rw [List.map_cons, List.nodup_cons] at hn
    have hsame : ∀ d ∈ bs, (previous.erase (behind newTop b.path)).find? (behind newTop d.path) =
        previous.find? (behind newTop d.path) := fun d hd =>
      SortedMap.find?_erase_of_ne fun heq =>
        hn.1 (heq ▸ List.mem_map_of_mem (f := fun b => behind newTop b.path) hd)
    have hmoved : bs.filterMap (moved? newTop (previous.erase (behind newTop b.path))) =
        bs.filterMap (moved? newTop previous) :=
      List.filterMap_congr fun d hd => by rw [moved?, moved?, hsame d hd]
    have hnew : bs.filterMap (new? newTop (previous.erase (behind newTop b.path))) =
        bs.filterMap (new? newTop previous) :=
      List.filterMap_congr fun d hd => by rw [new?, new?, hsame d hd]
    rw [List.foldl_cons, attach_eq, foldl_attach hn.2, hmoved, hnew, List.foldl_cons,
      List.foldl_cons]
    dsimp only
    simp only [List.filterMap_eq_flatMap_toList, List.flatMap_cons, List.append_assoc]

/-- What is left from before is found where no block has taken it over. -/
theorem find?_foldl_erase {newTop : Text} {r : Text} {i : Identity} : ∀ {bs : List Block}
    {previous : SortedMap Identity},
    (bs.foldl (fun m b => m.erase (behind newTop b.path)) previous).find? r = some i ↔
      previous.find? r = some i ∧ ∀ b ∈ bs, behind newTop b.path ≠ r
  | [], previous => by simp
  | b :: bs, previous => by
    rw [List.foldl_cons, find?_foldl_erase, SortedMap.find?_erase_eq_some, List.forall_mem_cons]
    constructor
    · rintro ⟨⟨hne, hi⟩, hrest⟩
      exact ⟨hi, hne.symm, hrest⟩
    · rintro ⟨hi, hne, hrest⟩
      exact ⟨⟨hne.symm, hi⟩, hrest⟩

/-- What is left from before stays in order as blocks take from it. -/
theorem increasing_foldl_erase {newTop : Text} :
    ∀ (bs : List Block) {previous : SortedMap Identity}, Increasing previous.entries →
      Increasing (bs.foldl (fun m b => m.erase (behind newTop b.path)) previous).entries
  | [], _, h => h
  | _ :: bs, _, h => increasing_foldl_erase bs (SortedMap.increasing_erase h _)

/-- **After a subtree has changed** the table holds what was not below the old path and the blocks
at and below the new one, and the changes say for each identity where it went. -/
theorem subtreeChanged_spec (h : t.Lists S) {root : Block} {oldTop newTop : Text} {bs : List Block}
    (hbs : (root.find? newTop).elim [] Block.descendants = bs)
    (hpaths : (bs.map Block.path).Nodup) (hids : (bs.map Identity.ofBlock).Nodup)
    (hwithin : ∀ b ∈ bs, Path.isWithin newTop b.path = true)
    (hfresh : ∀ b ∈ bs, ∀ p i, S p i → Path.isWithin oldTop p = false →
      p ≠ b.path ∧ i ≠ Identity.ofBlock b) :
    (t.subtreeChanged root oldTop newTop).1.Lists (fun p i =>
        S p i ∧ Path.isWithin oldTop p = false ∨ ∃ b ∈ bs, b.path = p ∧ Identity.ofBlock b = i) ∧
      (∀ old new, (old, new) ∈ (t.subtreeChanged root oldTop newTop).2.remapped ↔
        old ≠ new ∧ ∃ p, S p old ∧ Path.isWithin oldTop p = true ∧
          ∃ b ∈ bs, behind newTop b.path = behind oldTop p ∧ Identity.ofBlock b = new) ∧
      (∀ new, new ∈ (t.subtreeChanged root oldTop newTop).2.added ↔
        ∃ b ∈ bs, (∀ p i, S p i → Path.isWithin oldTop p = true →
          behind newTop b.path ≠ behind oldTop p) ∧ Identity.ofBlock b = new) ∧
      ∀ old, old ∈ (t.subtreeChanged root oldTop newTop).2.removed ↔
        ∃ p, S p old ∧ Path.isWithin oldTop p = true ∧
          ∀ b ∈ bs, behind newTop b.path ≠ behind oldTop p := by
  obtain ⟨hlists, hincreasing, hprevious⟩ := detach_spec h oldTop
  -- Blocks are matched by what stands behind the top, so this has to tell them apart as paths do.
  have hbehind : (bs.map fun b => behind newTop b.path).Nodup :=
    List.pairwise_map.mpr ((List.pairwise_map.mp hpaths).imp_of_mem fun hb hc hne heq =>
      hne (eq_of_behind (hwithin _ hb) (hwithin _ hc) heq))
  rw [subtreeChanged]
  generalize t.detach oldTop = detached at hlists hincreasing hprevious
  obtain ⟨t, previous⟩ := detached
  dsimp only at hlists hincreasing hprevious ⊢
  rw [hbs, foldl_attach hbehind]
  dsimp only [IdentityChanges.none]
  rw [List.nil_append, List.nil_append]
  refine ⟨?_, fun old new => ?_, fun new => ?_, fun old => ?_⟩
  · exact lists_foldl_insert hlists hpaths hids fun b hb p i hp => hfresh b hb p i hp.1 hp.2
  · rw [List.mem_filterMap]
    constructor
    · rintro ⟨b, hb, hmoved⟩
      obtain ⟨i, hi, hif⟩ := Option.bind_eq_some_iff.mp hmoved
      split at hif
      · cases hif
      · next hne =>
        cases hif
        obtain ⟨p, hp, hw, hr⟩ := (hprevious _ _).mp hi
        exact ⟨hne, p, hp, hw, b, hb, hr.symm, rfl⟩
    · rintro ⟨hne, p, hp, hw, b, hb, hr, rfl⟩
      refine ⟨b, hb, Option.bind_eq_some_iff.mpr ⟨old, ?_, if_neg hne⟩⟩
      exact (hprevious _ _).mpr ⟨p, hp, hw, hr.symm⟩
  · rw [List.mem_filterMap]
    refine exists_congr fun b => and_congr_right fun hb => ?_
    rw [new?]
    rcases hfind : previous.find? (behind newTop b.path) with _ | i
    · rw [Option.isSome_none, if_neg Bool.false_ne_true, Option.some.injEq]
      refine (and_iff_right fun p i hp hw hr => ?_).symm
      rw [(hprevious _ i).mpr ⟨p, hp, hw, hr.symm⟩] at hfind
      cases hfind
    · rw [Option.isSome_some, if_pos rfl]
      refine iff_of_false (fun hnone => by cases hnone) fun ⟨hall, _⟩ => ?_
      obtain ⟨p, hp, hw, hr⟩ := (hprevious _ _).mp hfind
      exact hall p i hp hw hr.symm
  · rw [SortedMap.mem_values_iff (increasing_foldl_erase bs hincreasing)]
    constructor
    · rintro ⟨r, hr⟩
      obtain ⟨hfind, hnot⟩ := find?_foldl_erase.mp hr
      obtain ⟨p, hp, hw, rfl⟩ := (hprevious _ _).mp hfind
      exact ⟨p, hp, hw, hnot⟩
    · rintro ⟨p, hp, hw, hnot⟩
      exact ⟨behind oldTop p, find?_foldl_erase.mpr ⟨(hprevious _ _).mpr ⟨p, hp, hw, rfl⟩, hnot⟩⟩

end BlockEdit.IdentityTable
