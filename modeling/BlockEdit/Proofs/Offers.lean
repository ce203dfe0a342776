import BlockEdit.Proofs.Sections

/-!
# The blocks that a catalog offers

Nothing was bound to the blocks that a catalog offers, nor to a new block of the user's choice. For
a block with subtypes this needs that its `type` is a text. A schema that does not list the `type`
of such a block gets one; in a schema that does, this is a condition on the catalog.

Main statements:

* **`Block.pristine_described`**: nothing was bound to a block that the catalog describes.
* **`Block.all_pristine_placeholders`**: the same holds of all that the catalog offers at a path.
-/

namespace BlockEdit

/-- A schema with subtypes that lists the `type` gives it the type of a text. -/
def BlockSchema.TypeIsText (s : BlockSchema) : Prop :=
  s.subtypes ≠ [] → ∀ p ∈ s.parameters, p.name = Slot.typeName → p.valueType = ValueType.string

instance (s : BlockSchema) : Decidable s.TypeIsText :=
  inferInstanceAs (Decidable (s.subtypes ≠ [] → ∀ p ∈ s.parameters, p.name = Slot.typeName →
    p.valueType = ValueType.string))

/-- The `type` is a text in every schema of the catalog. -/
def Catalog.TypesAreTexts (c : Catalog) : Prop := ∀ entry ∈ c.entries, entry.2.TypeIsText

instance (c : Catalog) : Decidable c.TypesAreTexts :=
  inferInstanceAs (Decidable (∀ entry ∈ c.entries, entry.2.TypeIsText))

namespace Catalog

/-! ### Schemas come from the catalog -/

/-- What is left of a pattern that starts with a name comes from that pattern. -/
theorem mem_of_mem_below {name : Text} {rest : List Text} {schema : BlockSchema}
    {patterns : List (List Text × BlockSchema)} (h : (rest, schema) ∈ below name patterns) :
    (name :: rest, schema) ∈ patterns := by
  unfold below at h
  obtain ⟨⟨names, s⟩, hmem, hp⟩ := List.mem_filterMap.mp h
  dsimp only at hp
  split at hp
  · cases hp
  · split at hp
    · next hname =>
      cases hp
      rw [← hname]
      exact hmem
    · cases hp

/-- The best pattern is one of the patterns. -/
theorem exists_mem_of_best? : ∀ {names : List Text} {patterns : List (List Text × BlockSchema)}
    {schema : BlockSchema}, best? names patterns = some schema → ∃ ns, (ns, schema) ∈ patterns
  | [], patterns, schema, h => by
    rw [best?] at h
    obtain ⟨⟨ns, s⟩, hfind, rfl⟩ := Option.map_eq_some_iff.mp h
    exact ⟨ns, List.mem_of_find?_eq_some hfind⟩
  | name :: rest, patterns, schema, h => by
    rw [best?] at h
    split at h
    · cases h
    split at h
    · next found hfound =>
      cases h
      obtain ⟨ns, hmem⟩ := exists_mem_of_best? hfound
      exact ⟨name :: ns, mem_of_mem_below hmem⟩
    · split at h
      · cases h
      · obtain ⟨ns, hmem⟩ := exists_mem_of_best? h
        exact ⟨Path.wildcard :: ns, mem_of_mem_below hmem⟩

/-- **A schema that is looked up** is one of the catalog. -/
theorem exists_mem_of_lookup {c : Catalog} {path : Text} {schema : BlockSchema}
    (h : c.lookup path = some schema) : ∃ p, (p, schema) ∈ c.entries := by
  unfold lookup at h
  split at h
  · next p s hfind =>
    cases h
    exact ⟨p, Named.mem_of_find? hfind⟩
  · split at h
    · cases h
    · obtain ⟨ns, hmem⟩ := exists_mem_of_best? h
      obtain ⟨⟨p, s⟩, hentry, hp⟩ := List.mem_filterMap.mp hmem
      dsimp only at hp
      split at hp
      · cases hp
        exact ⟨p, hentry⟩
      · cases hp

end Catalog

namespace Block

/-! ### The parameters of a schema -/

/-- Names tell apart the parameters that a schema has, since each was put under its name. -/
theorem nodup_schemaSlots (schema : BlockSchema) : (Named.names (schemaSlots schema)).Nodup := by
  have hof := Named.nodup_ofList (schema.parameters.map Slot.ofSchema)
  unfold schemaSlots
  dsimp only
  split
  · next h =>
    rw [Bool.and_eq_true, Bool.not_eq_true', Bool.not_eq_true', Named.has_eq_false_iff] at h
    rw [Named.names_cons, List.nodup_cons]
    exact ⟨h.2, hof⟩
  · exact hof

/-- A parameter of a schema is the `type` that it needs, or it is listed. -/
theorem mem_schemaSlots {schema : BlockSchema} {s : Slot} (h : s ∈ schemaSlots schema) :
    s = typeSlot schema.subtypeNames ∨ ∃ p ∈ schema.parameters, Slot.ofSchema p = s := by
  unfold schemaSlots at h
  dsimp only at h
  split at h
  · rcases List.mem_cons.mp h with rfl | h
    · exact Or.inl rfl
    · exact Or.inr (List.mem_map.mp (Named.mem_ofList h))
  · exact Or.inr (List.mem_map.mp (Named.mem_ofList h))

/-- None of the parameters that a schema has is written. -/
theorem unwritten_of_mem_schemaSlots {schema : BlockSchema} {s : Slot}
    (h : s ∈ schemaSlots schema) : s.isWritten = false := by
  rcases mem_schemaSlots h with rfl | ⟨p, -, rfl⟩
  · exact isWritten_ofSchema _
  · exact isWritten_ofSchema p

/-- A block with subtypes has a `type`. -/
theorem type_mem_schemaSlots {schema : BlockSchema} (h : schema.subtypes ≠ []) :
    Slot.typeName ∈ Named.names (schemaSlots schema) := by
  unfold schemaSlots
  dsimp only
  split
  · exact List.mem_cons_self
  · next hno =>
    rw [Bool.and_eq_true, not_and, Bool.not_eq_true', List.isEmpty_eq_false_iff] at hno
    have hhas := hno h
    rw [Bool.not_eq_true', Bool.not_eq_false] at hhas
    exact Named.has_iff.mp hhas

/-- The `type` of a block with subtypes is a text. -/
theorem find?_type_schemaSlots {schema : BlockSchema} (ht : schema.TypeIsText)
    (h : schema.subtypes ≠ []) :
    ∃ s, Named.find? Slot.typeName (schemaSlots schema) = some s ∧ s.type = ValueType.string := by
  obtain ⟨s, hs⟩ := Named.exists_find? (type_mem_schemaSlots h)
  obtain ⟨hmem, hname⟩ := Named.find?_eq_some hs
  refine ⟨s, hs, ?_⟩
  rcases mem_schemaSlots hmem with rfl | ⟨p, hp, rfl⟩
  · rfl
  · exact ht h p hp hname

/-! ### New blocks -/

/-- To a new block nothing was bound; its type, if it has one, is a text. -/
theorem pristine_fresh (name path : Text) {schema : Option BlockSchema}
    (childSchema : Option BlockSchema) (hs : ∀ s ∈ schema, s.TypeIsText) :
    (fresh name path schema childSchema).Pristine := by
  rcases schema with _ | schema
  · refine ⟨rfl, rfl, rfl, List.nodup_nil, ?_, fun h => absurd rfl h⟩
    intro s hm
    cases hm
  · refine ⟨rfl, rfl, rfl, nodup_schemaSlots schema, ?_, fun h => ?_⟩
    · intro s hm
      exact unwritten_of_mem_schemaSlots hm
    · refine find?_type_schemaSlots (hs schema rfl) fun hnone => h ?_
      show schema.subtypeNames = []
      rw [BlockSchema.subtypeNames, hnone]
      rfl

/-- **Nothing was bound** to a block that the catalog describes. -/
theorem pristine_described {catalog : Catalog} (hc : catalog.TypesAreTexts) (path name : Text) :
    (described catalog path name).Pristine := by
  refine pristine_fresh name path _ fun s hs => ?_
  obtain ⟨p, hmem⟩ := Catalog.exists_mem_of_lookup (c := catalog) hs
  exact hc _ hmem

/-- A block is as it was described when only its place and its children are other ones. -/
theorem Pristine.of_info {b c : Block} (h : b.Pristine) (hs : c.info.schema = b.info.schema)
    (hp : c.info.parameters = b.info.parameters) (ht : c.info.subtype = b.info.subtype)
    (hl : c.info.subtypeParameters = b.info.subtypeParameters)
    (hst : c.info.stash = b.info.stash) : c.Pristine := by
  have hnames : c.subtypeNames = b.subtypeNames := by
    rw [subtypeNames, hs]
    rfl
  refine ⟨ht.trans h.subtype, hl.trans h.live, hst.trans h.stash, hp ▸ h.nodup, hp ▸ h.unwritten,
    ?_⟩
  rw [hnames, hp]
  exact h.type

/-- **Nothing was bound** to all that the catalog offers at a path. -/
theorem all_pristine_placeholders {catalog : Catalog} (hc : catalog.TypesAreTexts) :
    ∀ (levels : Nat) (path : Text), ∀ b ∈ placeholders catalog levels path, All Pristine b
  | 0, _, b, hb => by
    rw [placeholders] at hb
    cases hb
  | levels + 1, path, b, hb => by
    rw [placeholders] at hb
    obtain ⟨name, -, rfl⟩ := List.mem_map.mp hb
    have hdescribed := pristine_described hc (Path.join path name) name
    refine .node (hdescribed.of_info rfl rfl rfl rfl rfl) ?_ ?_
    · intro c hm
      cases hm
    · exact all_pristine_placeholders hc levels (Path.join path name)

/-- Nothing was bound to a block that is made from the catalog, nor to any inside of it. -/
theorem all_pristine_instantiate {catalog : Catalog} (hc : catalog.TypesAreTexts)
    (parent name : Text) : All Pristine (instantiate catalog parent name) := by
  refine .node ((pristine_described hc _ name).of_info rfl rfl rfl rfl rfl) ?_ ?_
  · intro c hm
    cases hm
  · exact all_pristine_placeholders hc catalog.height (Path.join parent name)

/-- No parameter of a new document is set. -/
theorem untouched_instantiateRoot (catalog : Catalog) : (instantiateRoot catalog).Untouched := by
  refine ⟨List.nodup_nil, ?_, List.not_mem_nil⟩
  intro s hm
  cases hm

end Block

end BlockEdit
