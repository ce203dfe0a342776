import BlockEdit.Proofs.Identities

/-!
# Identities in a run

A document starts with the table of its tree, and every edit and every text that it takes leave it
with the table of its new tree. Whoever shows the document follows the identities by the changes
that an edit reports: those that are gone and those that moved are no identities any more, and
those that are new and those that others moved to are.

Main statements:

* **`IdentityChanges.Exact.mem_identities`**: exact changes lead from the old identities to the new
  ones.
* **`Document.ReachedBy.identities_apply`**: after every edit of a run the table is the one of the
  document, and the changes are exact.
-/

namespace BlockEdit

open Block (Grounded)

/-! ### Changes between two documents -/

namespace IdentityTable

/-- The identities of a document are those at some names. -/
theorem mem_identities_ofTree {root : Block} (h : Grounded root) (hp : root.Plain) {i : Identity} :
    i ∈ (ofTree root).identities ↔ ∃ ns ≠ [], root.identityAt? ns = some i := by
  rw [(lists_ofTree h hp).mem_identities]
  constructor
  · rintro ⟨p, hpi⟩
    obtain ⟨ns, hns, hi⟩ := (Block.hasIdentity_iff h).mp hpi
    exact ⟨ns, hns.below, hi⟩
  · rintro ⟨ns, hne, hi⟩
    exact ⟨_, (Block.hasIdentity_iff h).mpr
      ⟨ns, ⟨hne, Block.isSegment_of_identityAt? h hi, rfl⟩, hi⟩⟩

end IdentityTable

/-- **Exact changes** lead from the identities of one document to those of the other: some are
gone, some are new, and some moved. -/
theorem IdentityChanges.Exact.mem_identities {c : IdentityChanges}
    {moves : List Text → List Text} {root root' : Block} (hc : c.Exact moves root root')
    (hmoves : ∀ ns ≠ [], moves ns ≠ []) (h : Grounded root) (h' : Grounded root')
    (hp : root.Plain) (hp' : root'.Plain) (i : Identity) :
    i ∈ (IdentityTable.ofTree root').identities ↔
      i ∈ (IdentityTable.ofTree root).identities ∧ i ∉ c.removed ∧ i ∉ c.remapped.map Prod.fst ∨
        i ∈ c.added ∨ i ∈ c.remapped.map Prod.snd := by
  have hsnd : ∀ i, i ∈ c.remapped.map Prod.snd ↔ ∃ old, (old, i) ∈ c.remapped := by simp
  have hfst : ∀ i, i ∈ c.remapped.map Prod.fst ↔ ∃ new, (i, new) ∈ c.remapped := by simp
  rw [IdentityTable.mem_identities_ofTree h' hp', IdentityTable.mem_identities_ofTree h hp, hfst,
    hsnd]
  constructor
  · rintro ⟨ms, hms, hi⟩
    by_cases hbefore : ∃ ns ≠ [], moves ns = ms ∧ ∃ old, root.identityAt? ns = some old
    · obtain ⟨ns, hns, rfl, old, hold⟩ := hbefore
      by_cases hsame : old = i
      · -- No other block has the identity, so it is neither gone nor moved.
        subst hsame
        refine Or.inl ⟨⟨ns, hns, hold⟩, fun hremoved => ?_, ?_⟩
        · obtain ⟨ns', hns', hold', hnone⟩ := (hc.removed old).mp hremoved
          rw [Block.identityAt?_injective h hp hns' hns hold' hold, hi] at hnone
          cases hnone
        · rintro ⟨new, hremapped⟩
          obtain ⟨hne, ns', hns', hold', hnew⟩ := (hc.remapped old new).mp hremapped
          rw [Block.identityAt?_injective h hp hns' hns hold' hold, hi] at hnew
          exact hne (Option.some.inj hnew)
      · exact Or.inr (Or.inr ⟨old, (hc.remapped old i).mpr ⟨hsame, ns, hns, hold, hi⟩⟩)
    · refine Or.inr (Or.inl ((hc.added i).mpr ⟨ms, hms, hi, fun ns hns hmoves => ?_⟩))
      exact Option.eq_none_iff_forall_ne_some.mpr fun old hold =>
        hbefore ⟨ns, hns, hmoves, old, hold⟩
  · rintro (⟨⟨ns, hns, hi⟩, hremoved, hremapped⟩ | hadded | ⟨old, hremapped⟩)
    · rcases hnew : root'.identityAt? (moves ns) with _ | new
      · exact absurd ((hc.removed i).mpr ⟨ns, hns, hi, hnew⟩) hremoved
      · by_cases hsame : i = new
        · exact ⟨moves ns, hmoves ns hns, hsame ▸ hnew⟩
        · exact absurd ⟨new, (hc.remapped i new).mpr ⟨hsame, ns, hns, hi, hnew⟩⟩ hremapped
    · obtain ⟨ms, hms, hi, -⟩ := (hc.added i).mp hadded
      exact ⟨ms, hms, hi⟩
    · obtain ⟨-, ns, hns, -, hi⟩ := (hc.remapped old i).mp hremapped
      exact ⟨moves ns, hmoves ns hns, hi⟩

namespace Edit.Keeps

variable {e : Edit} {root root' : Block}

/-- An edit that keeps the blocks keeps the table of the document. -/
theorem hasIdentity_iff (hk : e.Keeps root root') (h : Grounded root) (h' : Grounded root')
    {p : Text} {i : Identity} : root.HasIdentity p i ↔ root'.HasIdentity p i := by
  rw [Block.hasIdentity_iff h, Block.hasIdentity_iff h']
  refine exists_congr fun ns => and_congr_right fun hns => ?_
  rw [Block.identityAt?_congr h h' hns.below (hk.subtype ns)]

/-- **An edit that keeps the blocks** changes no identity. -/
theorem exact (hk : e.Keeps root root') (h : Grounded root) (h' : Grounded root') :
    IdentityChanges.none.Exact e.moves root root' := by
  have hsame : ∀ ns ≠ [], root'.identityAt? (e.moves ns) = root.identityAt? ns := by
    intro ns hns
    rw [hk.stays, Block.identityAt?_congr h h' hns (hk.subtype ns)]
  refine ⟨fun old new => ⟨fun hmem => (by cases hmem), ?_⟩,
    fun new => ⟨fun hmem => (by cases hmem), ?_⟩, fun old => ⟨fun hmem => (by cases hmem), ?_⟩⟩
  · rintro ⟨hne, ns, hns, hold, hnew⟩
    rw [hsame ns hns, hold] at hnew
    exact absurd (Option.some.inj hnew) hne
  · rintro ⟨ms, hms, hnew, hnone⟩
    rw [← hk.stays ms, hsame ms hms, hnone ms hms (hk.stays ms)] at hnew
    cases hnew
  · rintro ⟨ns, hns, hold, hnone⟩
    rw [hsame ns hns, hold] at hnone
    cases hnone

end Edit.Keeps

/-! ### Runs -/

namespace Document

variable {catalog : Catalog} {d d' : Document} {e : Edit} {r : EditResult}

/-- What an edit of a document does to the table and which changes it reports. -/
theorem identities_of_apply (h : d.apply e = .ok (d', r)) :
    ∃ landing, e.apply d.root d.catalog = .ok (d'.root, landing) ∧
      (landing.structural = true ∧
          d.identities.subtreeChanged d'.root landing.oldPath landing.path =
            (d'.identities, r.changes) ∨
        landing.structural = false ∧ d'.identities = d.identities ∧
          r.changes = IdentityChanges.none) := by
  unfold apply at h
  split at h
  · cases h
  · next root landing he =>
    split at h
    · next hstructural =>
      cases h
      exact ⟨landing, he, Or.inl ⟨hstructural, rfl⟩⟩
    · next hstructural =>
      cases h
      exact ⟨landing, he, Or.inr ⟨Bool.eq_false_iff.mpr hstructural, rfl, rfl⟩⟩

/-- **An edit with an exact target** keeps the table that of the document, and the changes that it
reports are exact. -/
theorem Reached.rebuilt_apply (h : Reached catalog d)
    (hids : d.identities = IdentityTable.ofTree d.root) (he : e.Exact d.root)
    (hp : d.root.Plain) (hp' : d'.root.Plain) (happly : d.apply e = .ok (d', r)) :
    d'.identities = IdentityTable.ofTree d'.root ∧ r.changes.Exact e.moves d.root d'.root ∧
      ∀ ns b b', d.root.descend? ns = some b → d'.root.descend? (e.moves ns) = some b' →
        b'.info.core = b.info.core ∨ Path.segments e.target = ns ∧ e.moves ns = ns := by
  have hroot := h.grounded
  have hroot' := (h.apply happly).grounded
  have hlists := hids ▸ IdentityTable.lists_ofTree hroot hp
  have hlists' := IdentityTable.lists_ofTree hroot' hp'
  obtain ⟨landing, hland, hchanges⟩ := identities_of_apply happly
  have heffect := Edit.effect_of_apply hroot.tree hland
  rcases heffect.reaches_or_keeps hroot h.schema_root he with
    ⟨hstructural, os, ns, hr⟩ | ⟨hkept, hk⟩
  · rcases hchanges with ⟨-, hchanged⟩ | ⟨hno, -⟩
    · obtain ⟨hnew, hexact⟩ :=
        IdentityTable.subtreeChanged_of_reaches hlists hr hroot hroot' hp hp'
      rw [hchanged] at hnew hexact
      exact ⟨hnew.eq hlists', hexact, fun ms b b' hb hb' => hr.core_eq hb hb'⟩
    · rw [hstructural] at hno
      cases hno
  · rcases hchanges with ⟨hyes, -⟩ | ⟨-, hsame, hnone⟩
    · rw [hkept] at hyes
      cases hyes
    · refine ⟨?_, hnone ▸ hk.exact hroot hroot', fun ms b b' hb hb' => hk.core_eq hb hb'⟩
      rw [hsame]
      exact (hlists.congr fun p i => hk.hasIdentity_iff hroot hroot').eq hlists'

/-- **The table of every document of a run** is the one of its tree, when all targets are exact and
no name ever has a colon. -/
theorem ReachedBy.identities_eq
    (h : ReachedBy (fun d e => e.Exact d.root) (fun d => d.root.Plain) catalog d) :
    d.identities = IdentityTable.ofTree d.root := by
  induction h with
  | new _ => rfl
  | ofText _ h =>
    unfold Document.ofText at h
    split at h
    · cases h
      rfl
    · cases h
  | apply before he ht h ih =>
    exact (before.reached.rebuilt_apply ih he before.goesThrough ht h).1
  | replaceText _ _ h _ =>
    unfold Document.replaceText at h
    split at h
    · cases h
    · cases h
      rfl

/-- The document is reached with names without colons, and its table is the one of its tree. -/
structure Tabled (catalog : Catalog) (d : Document) : Prop where
  /-- The document is reached. -/
  reached : Reached catalog d
  /-- No name has a colon. -/
  plain : d.root.Plain
  /-- The table is made from the tree. -/
  identities : d.identities = IdentityTable.ofTree d.root

/-- A run over names without colons ends in a document whose table is the one of its tree. -/
theorem ReachedBy.tabled
    (h : ReachedBy (fun d e => e.Exact d.root) (fun d => d.root.Plain) catalog d) :
    Tabled catalog d :=
  ⟨h.reached, h.goesThrough, h.identities_eq⟩

/-- The table has the paths and identities of the blocks. -/
theorem Tabled.lists (h : Tabled catalog d) : d.identities.Lists d.root.HasIdentity := by
  rw [h.identities]
  exact IdentityTable.lists_ofTree h.reached.grounded h.plain

/-- **An edit with an exact target** leaves a table of the tree when no name gets a colon. -/
theorem Tabled.apply (h : Tabled catalog d) (he : e.Exact d.root) (hp : d'.root.Plain)
    (happly : d.apply e = .ok (d', r)) : Tabled catalog d' :=
  ⟨h.reached.apply happly, hp, (h.reached.rebuilt_apply h.identities he h.plain hp happly).1⟩

/-- The changes that such an edit reports are exact. -/
theorem Tabled.exact (h : Tabled catalog d) (he : e.Exact d.root) (hp : d'.root.Plain)
    (happly : d.apply e = .ok (d', r)) : r.changes.Exact e.moves d.root d'.root :=
  (h.reached.rebuilt_apply h.identities he h.plain hp happly).2.1

/-- **After every edit of a run** the table is the one that is made anew from the tree: it has the
paths of the blocks below the root and their identities, each way. The changes that are reported
are exact: they lead from the identities before to those after, and the two identities of a block
that moved belong to one block, which knows what it knew unless it is the target and stays in
place. -/
theorem ReachedBy.identities_apply
    (h : ReachedBy (fun d e => e.Exact d.root) (fun d => d.root.Plain) catalog d)
    (he : e.Exact d.root) (hp : d'.root.Plain) (happly : d.apply e = .ok (d', r)) :
    d'.identities = IdentityTable.ofTree d'.root ∧
      (∀ path i, d'.identities.identityAt? path = some i ↔ d'.root.HasIdentity path i) ∧
      (∀ path i, d'.identities.pathOf? i = some path ↔ d'.root.HasIdentity path i) ∧
      (∀ i, i ∈ d'.identities.identities ↔
        i ∈ d.identities.identities ∧ i ∉ r.changes.removed ∧
            i ∉ r.changes.remapped.map Prod.fst ∨
          i ∈ r.changes.added ∨ i ∈ r.changes.remapped.map Prod.snd) ∧
      r.changes.Exact e.moves d.root d'.root ∧
      ∀ ns b b', d.root.descend? ns = some b → d'.root.descend? (e.moves ns) = some b' →
        b'.info.core = b.info.core ∨ Path.segments e.target = ns ∧ e.moves ns = ns := by
  have hroot := h.reached.grounded
  have hroot' := (h.reached.apply happly).grounded
  have hids := h.identities_eq
  obtain ⟨hids', hexact, hcores⟩ := h.reached.rebuilt_apply hids he h.goesThrough hp happly
  have hlists := IdentityTable.lists_ofTree hroot' hp
  refine ⟨hids', fun path i => ?_, fun path i => ?_, ?_, hexact, hcores⟩
  · rw [hids']
    exact hlists.path path i
  · rw [hids']
    exact hlists.identity path i
  · rw [hids', hids]
    exact hexact.mem_identities (fun _ hns => e.moves_ne_nil hns) hroot hroot' h.goesThrough hp

/-- A run that adds a block with another one inside and a block whose name starts with the same
letter, and then gives the first one another name. -/
theorem ReachedBy.identities_sample : ∃ d d' r, ReachedBy (fun d e => e.Exact d.root)
    (fun d => d.root.Plain) sampleCatalog d ∧
      d.apply (.rename "/b".toList "e".toList) = .ok (d', r) ∧
      r.changes.remapped = [("/b::".toList, "/e::".toList), ("/b/x::".toList, "/e/x::".toList)] ∧
      d'.identities = IdentityTable.ofTree d'.root := by
  let steps : List Edit := [.addChild "/".toList (some "A".toList) (some "s".toList),
    .addChild "/".toList (some "b".toList) none, .addChild "/b".toList (some "x".toList) none,
    .addChild "/".toList (some "bc".toList) none]
  let last : Edit := .rename "/b".toList "e".toList
  have hstart : (Document.new sampleCatalog).root.Plain := by decide +kernel
  have hfollows : Follows (fun d e => e.Exact d.root) (fun d => d.root.Plain)
      (Document.new sampleCatalog) steps := by decide +kernel
  have hrun : (((Document.new sampleCatalog).edits steps).toOption.bind fun d =>
      (d.apply last).toOption.map fun (d', r) =>
        decide (last.Exact d.root ∧ d'.root.Plain ∧ r.changes.remapped =
          [("/b::".toList, "/e::".toList), ("/b/x::".toList, "/e/x::".toList)])) = some true := by
    decide +kernel
  rcases hd : (Document.new sampleCatalog).edits steps with e | d
  · rw [hd] at hrun
    cases hrun
  · rw [hd, show (Except.ok d : Except DocumentError Document).toOption = some d from rfl,
      Option.bind_some] at hrun
    rcases happly : d.apply last with e | ⟨d', r⟩
    · rw [happly] at hrun
      cases hrun
    · rw [happly] at hrun
      obtain ⟨hexact, hplain, hremapped⟩ := of_decide_eq_true (Option.some.inj hrun)
      have hreached := ReachedBy.edits steps (.new hstart) hfollows hd
      exact ⟨d, d', r, hreached, happly, hremapped,
        (hreached.identities_apply hexact hplain happly).1⟩

end Document

end BlockEdit
