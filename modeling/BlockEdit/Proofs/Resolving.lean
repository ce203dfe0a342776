import BlockEdit.Proofs.Identities

/-!
# Finding a block again

A document that was read anew answers for an identity with the block at its path. Whoever made the
identity of a block that is still there gets this block back, as far as the identity tells the path:
the paths of two blocks can be put together with their subtypes in one and the same way, since
nothing in them is escaped.

Main statement:

* **`Block.findsAgain_iff`**: a block of a text is found again by its identity unless its path ends
  in a colon or has two of them in a row.
-/

namespace BlockEdit.Block

/-- The identity of the block leads back to it: it tells the two paths that it was made of, and the
document has this block there. -/
structure FindsAgain (root b : Block) : Prop where
  /-- The block is found where it is. -/
  exact : IdentityTable.resolveAnew root (Identity.ofBlock b) = .exact (Identity.ofBlock b)
  /-- The path is that of the block. -/
  path : Identity.path (Identity.ofBlock b) = b.path
  /-- The path of the subtype is that of the active one. -/
  subtypePath : Identity.subtypePath (Identity.ofBlock b) = b.subtypePath

instance (root b : Block) : Decidable (FindsAgain root b) :=
  decidable_of_iff
    (IdentityTable.resolveAnew root (Identity.ofBlock b) = .exact (Identity.ofBlock b) ∧
      Identity.path (Identity.ofBlock b) = b.path ∧
        Identity.subtypePath (Identity.ofBlock b) = b.subtypePath)
    ⟨fun h => ⟨h.1, h.2.1, h.2.2⟩, fun h => ⟨h.exact, h.path, h.subtypePath⟩⟩

variable {root b : Block}

/-- An identity that tells a path is resolved to the block there. -/
theorem resolveAnew_of_path (h : Grounded root) (hb : b ∈ root.inside) {i : Identity}
    (hi : Identity.path i = b.path) :
    IdentityTable.resolveAnew root i = .exact (Identity.ofBlock b) := by
  have hfound : root.find? b.path = some b :=
    find?_path h.tree h.path (mem_descendants_of_mem_inside hb)
  have hbelow : b ∈ IdentityTable.addressable root := IdentityTable.addressable_eq h ▸ hb
  have hroot : (!b.isRoot) = true := (List.mem_filter.mp hbelow).2
  rw [IdentityTable.resolveAnew, hi, hfound, Option.filter_some, if_pos hroot]

/-- The path of a subtype is never empty. -/
theorem subtypePath_ne_nil (b : Block) : b.subtypePath ≠ some [] := by
  intro h
  obtain ⟨subtype, -, hjoin⟩ := Option.map_eq_some_iff.mp h
  exact Path.join_ne_nil b.path subtype hjoin

/-- **A block of a sound document** is found again unless its path is blurred. -/
theorem Grounded.findsAgain_iff_not_blurs (h : Grounded root) (hb : b ∈ root.inside) :
    FindsAgain root b ↔ ¬ Identity.Blurs b.path := by
  constructor
  · exact fun hfinds => (Identity.path_of_iff b.path b.subtypePath).mp hfinds.path
  · intro hclear
    have hpath : Identity.path (Identity.ofBlock b) = b.path :=
      (Identity.path_of_iff b.path b.subtypePath).mpr hclear
    exact ⟨resolveAnew_of_path h hb hpath, hpath,
      Identity.subtypePath_of hclear (subtypePath_ne_nil b)⟩

/-- **A block of a text** is found again by its identity unless its path ends in a colon or has two
of them in a row. -/
theorem findsAgain_iff {catalog : Catalog} {source : Text} (h : parse catalog source = .ok root)
    (hb : b ∈ root.inside) : FindsAgain root b ↔ ¬ Identity.Blurs b.path :=
  (grounded_parse h).findsAgain_iff_not_blurs hb

/-- A text with a block whose name has two colons, and one whose name has one. -/
def colonsSource : Text := "[a::b]\n[]\n[a:b]\n[]\n".toList

/-- For instance, a block with two colons in its name is not found again, and one without is. -/
theorem findsAgain_iff_sample : ∃ root, parse .empty colonsSource = .ok root ∧
    ∃ b ∈ root.inside, ¬ FindsAgain root b ∧ ∃ c ∈ root.inside, FindsAgain root c := by
  have hrun : (parse .empty colonsSource).toOption.map (fun root =>
      decide (∃ b ∈ root.inside, Identity.Blurs b.path ∧
        ∃ c ∈ root.inside, ¬ Identity.Blurs c.path)) = some true := by decide +kernel
  rcases hroot : parse .empty colonsSource with fault | root
  · rw [hroot] at hrun
    cases hrun
  · rw [hroot] at hrun
    obtain ⟨b, hb, hblurs, c, hc, hclear⟩ := of_decide_eq_true (Option.some.inj hrun)
    exact ⟨root, rfl, b, hb, fun hfinds => (findsAgain_iff hroot hb).mp hfinds hblurs, c, hc,
      (findsAgain_iff hroot hc).mpr hclear⟩

/-- **Not every block of a text is found again**: the block `a::b` is looked for as `/a`, and is
only the nearest one. -/
theorem not_forall_findsAgain : ¬ ∀ (catalog : Catalog) (source : Text) (root : Block),
    parse catalog source = .ok root → ∀ b ∈ root.inside, FindsAgain root b := by
  intro hall
  have hrun : (parse .empty colonsSource).toOption.map (fun root =>
      decide (∃ b ∈ root.inside, IdentityTable.resolveAnew root (Identity.ofBlock b) ≠
        .exact (Identity.ofBlock b))) = some true := by decide +kernel
  rcases hroot : parse .empty colonsSource with fault | root
  · rw [hroot] at hrun
    cases hrun
  · rw [hroot] at hrun
    obtain ⟨b, hb, hother⟩ := of_decide_eq_true (Option.some.inj hrun)
    exact hother (hall _ _ _ hroot b hb).exact

end BlockEdit.Block
