import BlockEdit.Proofs.JsonTexts
import BlockEdit.Proofs.Patterns
import BlockEdit.Proofs.Records

/-!
# Catalogs read back

A catalog is read by inserting what its text says, entry by entry, into the catalog without any. So
whether it comes back from its own text is up to its keys: each of them has to be a path that
`insert` takes, and that stays as it is.

Keys start with a slash and end in none, which is all that is asked for, with one exception. A path
is looked at before the slashes at its end go: the root is refused, but a path of two or more
slashes is taken and becomes the empty key. A catalog with that key is written but not read.

Main statements:

* **`BlockSchema.ofJson?_toJson`**, **`Catalog.entriesOfJson?_toJson`**: schemas and entries are
  read from what they are written as.
* **`Catalog.nil_mem_names_insert_iff`**: which paths make the empty key.
* **`Catalog.Built.survives_text`**: a catalog comes back from its text unless it has the empty key,
  for which it is refused.
-/

namespace BlockEdit

/-! ### Schemas -/

namespace ParameterSchema

/-- A parameter is read from its members in the order in which they are written; only the default
and the options can fail. -/
theorem ofJson?_members (name basicType cppType description group : Text) (required : Bool)
    (default options : Json) :
    ofJson? (.object [("name".toList, .text name), ("type".toList, .text basicType),
      ("cpp_type".toList, .text cppType), ("required".toList, .bool required),
      ("default".toList, default), ("options".toList, options),
      ("description".toList, .text description), ("group".toList, .text group)]) =
        (Json.nullable? Json.text? default).bind fun default =>
          (options? options).bind fun options =>
            some ⟨name, basicType, cppType, required, default, options, description, group⟩ := rfl

/-- **A parameter schema** is read from what it is written as. -/
theorem ofJson?_toJson (p : ParameterSchema) : ofJson? p.toJson = some p := by
  obtain ⟨name, basicType, cppType, required, default, options, description, group⟩ := p
  have hdefault : Json.nullable? Json.text? (default.elim .null .text) = some default := by
    cases default
    all_goals rfl
  have hoptions : options? (.list (options.map .text)) = some options :=
    Json.list?_map fun _ _ => rfl
  refine (ofJson?_members ..).trans ?_
  rw [hdefault, hoptions]
  rfl

/-- What is written for a parameter can be read as text. -/
theorem legible_toJson (p : ParameterSchema) : p.toJson.Legible := by
  have hdefault : (p.default.elim .null .text : Json).Legible := by
    cases p.default
    all_goals trivial
  have hoptions : (Json.list (p.options.map .text)).Legible := by
    refine Json.legible_list_iff.mpr fun j hj => ?_
    obtain ⟨option, -, rfl⟩ := List.mem_map.mp hj
    trivial
  exact ⟨trivial, trivial, trivial, trivial, hdefault, hoptions, trivial, trivial, trivial⟩

/-- What is written for a list of parameters can be read as text. -/
theorem legible_list_toJson (ps : List ParameterSchema) : (Json.list (ps.map toJson)).Legible := by
  refine Json.legible_list_iff.mpr fun j hj => ?_
  obtain ⟨p, -, rfl⟩ := List.mem_map.mp hj
  exact p.legible_toJson

end ParameterSchema

namespace SubtypeSchema

/-- A subtype is read from its description and its parameters. -/
theorem ofJson?_members (description : Text) (parameters : Json) :
    ofJson? (.object [("description".toList, .text description),
      ("parameters".toList, parameters)]) =
      (Json.list? ParameterSchema.ofJson? parameters).bind fun parameters =>
        some ⟨description, parameters⟩ := rfl

/-- **A subtype schema** is read from what it is written as. -/
theorem ofJson?_toJson (s : SubtypeSchema) : ofJson? s.toJson = some s := by
  refine (ofJson?_members ..).trans ?_
  rw [Json.list?_map fun p _ => p.ofJson?_toJson]
  rfl

/-- What is written for a subtype can be read as text. -/
theorem legible_toJson (s : SubtypeSchema) : s.toJson.Legible :=
  ⟨trivial, ParameterSchema.legible_list_toJson s.parameters, trivial⟩

end SubtypeSchema

namespace BlockSchema

variable {s : BlockSchema}

/-- No subtype is described twice, so that the subtypes are a map from their names. -/
def DistinctSubtypes (s : BlockSchema) : Prop := (Named.names s.subtypes).Nodup

/-- A schema is read from its description, its parameters and its subtypes. -/
theorem ofJson?_members (description : Text) (parameters subtypes : Json) :
    ofJson? (.object [("description".toList, .text description), ("parameters".toList, parameters),
      ("subtypes".toList, subtypes)]) =
        (Json.list? ParameterSchema.ofJson? parameters).bind fun parameters =>
          (Json.dictionary? SubtypeSchema.ofJson? subtypes).bind fun subtypes =>
            some ⟨description, parameters, subtypes⟩ := rfl

/-- **A block schema** is read from what it is written as. -/
theorem ofJson?_toJson (h : s.DistinctSubtypes) : ofJson? s.toJson = some s := by
  refine (ofJson?_members ..).trans ?_
  rw [Json.list?_map fun p _ => p.ofJson?_toJson,
    Json.dictionary?_map h fun entry _ => entry.2.ofJson?_toJson]
  rfl

/-- A block schema that is read describes no subtype twice. -/
theorem distinctSubtypes_of_ofJson? {j : Json} (h : ofJson? j = some s) : s.DistinctSubtypes := by
  simp only [ofJson?, Option.bind_eq_bind, Option.bind_eq_some_iff, Option.pure_def] at h
  obtain ⟨fs, -, description, -, parameters, -, subtypes, hsubtypes, he⟩ := h
  cases he
  rcases Json.Fields.eq_or_of_withDefault hsubtypes with rfl | ⟨j, hj⟩
  · exact List.nodup_nil
  · exact (Json.dictionary?_spec hj).1

/-- What is written for a schema can be read as text. -/
theorem legible_toJson (s : BlockSchema) : s.toJson.Legible := by
  have hsubtypes : (Json.object (s.subtypes.map fun entry => (entry.1, entry.2.toJson))).Legible := by
    refine Json.legible_object_iff.mpr fun member hmember => ?_
    obtain ⟨entry, -, rfl⟩ := List.mem_map.mp hmember
    exact entry.2.legible_toJson
  exact ⟨trivial, ParameterSchema.legible_list_toJson s.parameters, hsubtypes, trivial⟩

end BlockSchema

namespace Catalog

variable {c d : Catalog} {path key : Text} {schema : BlockSchema}

/-! ### Catalogs that can be built -/

/-- No schema of the catalog describes a subtype twice. -/
def DistinctSubtypes (c : Catalog) : Prop := ∀ entry ∈ c.entries, entry.2.DistinctSubtypes

/-- A catalog that is read from a text, or made by adding entries to one that was built. -/
inductive Built : Catalog → Prop
  | empty : Built empty
  | read {t : Text} {c : Catalog} (h : ofText t = .ok c) : Built c
  | insert {c d : Catalog} {path : Text} {schema : BlockSchema} (hc : Built c)
    (hschema : schema.DistinctSubtypes) (h : c.insert path schema = .ok d) : Built d

/-- A catalog into which a schema with distinct subtypes is put has distinct subtypes still. -/
theorem DistinctSubtypes.insert (hc : c.DistinctSubtypes) (hschema : schema.DistinctSubtypes)
    (h : c.insert path schema = .ok d) : d.DistinctSubtypes := by
  obtain ⟨-, rfl⟩ := insert_eq_ok h
  intro entry hentry
  rcases Named.mem_put hentry with rfl | hold
  · exact hschema
  · exact hc entry hold

/-- A catalog into which many schemas with distinct subtypes are put has distinct subtypes still. -/
theorem DistinctSubtypes.insertAll (hc : c.DistinctSubtypes) :
    ∀ {entries : List (Text × BlockSchema)}, (∀ entry ∈ entries, entry.2.DistinctSubtypes) →
      c.insertAll entries = .ok d → d.DistinctSubtypes := by
  intro entries
  induction entries generalizing c with
  | nil =>
    intro _ h
    cases h
    exact hc
  | cons entry entries ih =>
    intro hentries h
    obtain ⟨path, schema⟩ := entry
    rw [Catalog.insertAll] at h
    split at h
    · next hinsert =>
      exact ih (hc.insert (hentries _ List.mem_cons_self) hinsert)
        (fun entry hentry => hentries entry (List.mem_cons_of_mem _ hentry)) h
    · cases h

/-- A catalog that was read from a text has distinct subtypes, because they come out of a map. -/
theorem distinctSubtypes_of_ofText {t : Text} (h : ofText t = .ok c) : c.DistinctSubtypes := by
  rw [ofText] at h
  split at h
  · cases h
  rw [ofJson] at h
  split at h
  · cases h
  · next entries hentries =>
    refine DistinctSubtypes.insertAll (fun _ hentry => by cases hentry) (fun entry hentry => ?_) h
    simp only [entriesOfJson?, Option.bind_eq_bind, Option.bind_eq_some_iff] at hentries
    obtain ⟨fs, -, hread⟩ := hentries
    rcases Json.Fields.eq_or_of_withDefault hread with rfl | ⟨j, hj⟩
    · cases hentry
    · obtain ⟨j, hj⟩ := (Json.dictionary?_spec hj).2 entry hentry
      exact BlockSchema.distinctSubtypes_of_ofJson? hj

/-- A catalog that was built is one that was made by insertions. -/
theorem Built.made (h : Built c) : Made c := by
  induction h with
  | empty => exact .empty
  | read h => exact made_of_ofText h
  | insert hc hschema h ih => exact ih.insert h

/-- A catalog that was built has distinct subtypes. -/
theorem Built.distinctSubtypes (h : Built c) : c.DistinctSubtypes := by
  induction h with
  | empty => exact fun _ hentry => by cases hentry
  | read h => exact distinctSubtypes_of_ofText h
  | insert hc hschema h ih => exact ih.insert hschema h

/-! ### Keys -/

/-- Slashes at the ends are trimmed once. -/
theorem trimSlashes_trimSlashes (path : Text) :
    Path.trimSlashes (Path.trimSlashes path) = Path.trimSlashes path :=
  Text.dropEndWhile_eq_self (Text.not_endsIn_dropEndWhile Path.isSlash path)

/-- No key ends in a slash. -/
theorem Made.trimSlashes_key (h : Made c) (hkey : key ∈ Named.names c.entries) :
    Path.trimSlashes key = key := by
  induction h with
  | empty => cases hkey
  | @insert c d path schema hc h ih =>
    obtain ⟨-, rfl⟩ := insert_eq_ok h
    rcases Named.mem_names_put.mp hkey with rfl | hold
    · exact trimSlashes_trimSlashes path
    · exact ih hold

/-- Nothing is left of a path only when it is slashes throughout. -/
theorem trimSlashes_eq_nil_iff : Path.trimSlashes path = [] ↔ ∀ x ∈ path, x = '/' := by
  constructor
  · intro h x hx
    obtain ⟨u, hu, hslash⟩ := Text.exists_dropEndWhile Path.isSlash path
    rw [show Text.dropEndWhile Path.isSlash path = [] from h, List.nil_append] at hu
    exact beq_iff_eq.mp (hslash x (hu ▸ hx))
  · intro h
    exact Text.dropEndWhile_append_of_all [] fun x hx => beq_iff_eq.mpr (h x hx)

/-- **Which paths make the empty key**: those of slashes only. -/
theorem nil_mem_names_insert_iff (h : c.insert path schema = .ok d) :
    [] ∈ Named.names d.entries ↔ [] ∈ Named.names c.entries ∨ ∀ x ∈ path, x = '/' := by
  obtain ⟨-, rfl⟩ := insert_eq_ok h
  rw [Named.mem_names_put, or_comm, ← trimSlashes_eq_nil_iff]
  exact or_congr_right eq_comm

/-- The empty key is no path. -/
theorem insert_nil (c : Catalog) (schema : BlockSchema) :
    c.insert [] schema = .error (.invalidPath []) := rfl

/-- A new key is taken as it is. -/
theorem insert_key (hslash : ∃ t, key = '/' :: t) (hkey : Path.trimSlashes key = key)
    (hnew : key ∉ Named.names c.entries) :
    c.insert key schema = .ok ⟨c.entries ++ [(key, schema)]⟩ := by
  obtain ⟨t, rfl⟩ := hslash
  have hroot : '/' :: t ≠ Path.root := by
    intro hroot
    rw [hroot] at hkey
    cases hkey
  have hpath : ¬ (('/' :: t).head? ≠ some '/' ∨ '/' :: t = Path.root) := by
    rw [not_or, not_not]
    exact ⟨rfl, hroot⟩
  rw [Catalog.insert, if_neg hpath, hkey, Named.put_of_not_mem hnew]

/-- New keys are taken as they are, up to the first one that is empty. -/
theorem insertAll_keys : ∀ {entries : List (Text × BlockSchema)} {c : Catalog},
    (∀ key ∈ Named.names entries, (key ≠ [] → ∃ t, key = '/' :: t) ∧ Path.trimSlashes key = key) →
      (Named.names (c.entries ++ entries)).Nodup → c.insertAll entries =
        if [] ∈ Named.names entries then .error (.invalidPath []) else .ok ⟨c.entries ++ entries⟩
  | [], c, _, _ => by
    rw [Named.names_nil, if_neg List.not_mem_nil, List.append_nil]
    rfl
  | (key, schema) :: entries, c, hkeys, hn => by
    obtain ⟨hslash, htrim⟩ := hkeys key List.mem_cons_self
    rw [insertAll]
    by_cases hnil : key = []
    · subst hnil
      have hmem : [] ∈ Named.names (([], schema) :: entries) := List.mem_cons_self
      rw [insert_nil, if_pos hmem]
    · have hnew : key ∉ Named.names c.entries := by
        rw [Named.names_append, List.nodup_append] at hn
        exact fun hmem => hn.2.2 _ hmem _ List.mem_cons_self rfl
      have hiff : [] ∈ Named.names ((key, schema) :: entries) ↔ [] ∈ Named.names entries := by
        rw [Named.names_cons, List.mem_cons, or_iff_right fun h => hnil h.symm]
      rw [← List.singleton_append, ← List.append_assoc] at hn
      rw [insert_key (hslash hnil) htrim hnew, if_congr hiff rfl rfl]
      show insertAll ⟨c.entries ++ [(key, schema)]⟩ entries = _
      rw [insertAll_keys (fun key hkey => hkeys key (List.mem_cons_of_mem _ hkey)) hn,
        List.append_assoc, List.singleton_append]

/-! ### Texts -/

/-- The entries of a catalog are read from its one member. -/
theorem entriesOfJson?_members (blocks : Json) :
    entriesOfJson? (.object [("blocks".toList, blocks)]) =
      Json.dictionary? BlockSchema.ofJson? blocks := rfl

/-- **The entries of a catalog** are read from what they are written as. -/
theorem entriesOfJson?_toJson (hn : (Named.names c.entries).Nodup) (hc : c.DistinctSubtypes) :
    entriesOfJson? c.toJson = some c.entries :=
  (entriesOfJson?_members _).trans
    (Json.dictionary?_map hn fun entry hentry => BlockSchema.ofJson?_toJson (hc entry hentry))

/-- What is written for a catalog can be read as text. -/
theorem legible_toJson (c : Catalog) : c.toJson.Legible := by
  have hblocks : (Json.object (c.entries.map fun entry => (entry.1, entry.2.toJson))).Legible := by
    refine Json.legible_object_iff.mpr fun member hmember => ?_
    obtain ⟨entry, -, rfl⟩ := List.mem_map.mp hmember
    exact entry.2.legible_toJson
  exact ⟨hblocks, trivial⟩

/-- **Reading the text of a catalog** inserts its entries once more. -/
theorem ofText_text (hn : (Named.names c.entries).Nodup) (hc : c.DistinctSubtypes) :
    ofText c.text = empty.insertAll c.entries := by
  rw [ofText, text, Json.ofText?_pretty c.legible_toJson]
  show ofJson c.toJson = _
  rw [ofJson, entriesOfJson?_toJson hn hc]

/-- **A catalog comes back from its own text**, with the same entries in the same order, unless it
has the empty key, for which its text is refused. -/
theorem Built.survives_text (h : Built c) : ofText c.text =
    if [] ∈ Named.names c.entries then .error (.invalidPath []) else .ok c := by
  rw [ofText_text h.made.nodup h.distinctSubtypes]
  exact insertAll_keys
    (fun _ hkey => ⟨h.made.slash hkey, h.made.trimSlashes_key hkey⟩) h.made.nodup

/-- A block with a parameter that has all that one can have, and with a subtype. -/
def fullBlock : BlockSchema where
  description := ['"']
  parameters :=
    [⟨['n'], "Integer".toList, "int".toList, true, some ['1'], [['1'], ['2']], [], ['g']⟩]
  subtypes := [(['S'], { description := ['s'] }), ([], { parameters := [{ name := [] }] })]

/-- The catalog that `/A//` and `/A/*` were put into. -/
def twoBlocks : Catalog := ⟨[("/A".toList, fullBlock), ("/A/*".toList, {})]⟩

/-- For instance, a catalog of two blocks is given back. -/
theorem Built.survives_text_sample :
    Built twoBlocks ∧ ofText twoBlocks.text = .ok twoBlocks := by
  have hread : Built Catalog.empty :=
    .read (show ofText "\x7b\x7d".toList = .ok Catalog.empty from rfl)
  have hfirst : Built ⟨[("/A".toList, fullBlock)]⟩ :=
    .insert hread (show (Named.names fullBlock.subtypes).Nodup by decide)
      (show Catalog.empty.insert "/A//".toList fullBlock = _ from rfl)
  have hboth : Built twoBlocks :=
    .insert hfirst (show (Named.names ({} : BlockSchema).subtypes).Nodup by decide)
      (show (⟨[("/A".toList, fullBlock)]⟩ : Catalog).insert "/A/*".toList {} = _ from rfl)
  exact ⟨hboth, hboth.survives_text.trans (if_neg (by decide))⟩

/-- **Not every catalog comes back**: the path of two slashes is taken and makes the empty key. -/
theorem not_forall_survives_text : ¬ ∀ c, Built c → ofText c.text = .ok c := by
  intro h
  have hdistinct : (Named.names ({} : BlockSchema).subtypes).Nodup := List.nodup_nil
  have hbuilt : Built ⟨[([], {})]⟩ :=
    .insert .empty hdistinct (show empty.insert ['/', '/'] {} = _ from rfl)
  have hrefused : ofText (⟨[([], {})]⟩ : Catalog).text = .error (.invalidPath []) :=
    ofText_text hbuilt.made.nodup hbuilt.distinctSubtypes
  have hread := h _ hbuilt
  rw [hrefused] at hread
  cases hread

end Catalog

end BlockEdit
