import BlockEdit.Proofs.Edited
import BlockEdit.Proofs.Provided
import BlockEdit.Proofs.SetParameter
import BlockEdit.Proofs.Typing

/-!
# Line by line

A document that was made by edits is read back as itself exactly when each of its lines tells all
about its parameter: there is a value, its quotes give it back, the comment survives, and a `type`
names no subtype that is not active. What has no line is at its default, and the catalog provides it
again. This leaves out two kinds of edits, after which it takes more than the lines to tell: those
that shadow a parameter of a subtype, and those that move a block to other schemas.

Main statements:

* **`Block.Edited.same_readBack_iff`**: a block is read back as itself exactly when each of its
  lines tells all about its parameter.
* **`Document.reloads_iff_of_lines`**: so is a document that was made by edits.
-/

namespace BlockEdit

/-! ### Values that are the same -/

/-- It does not matter which of two scalars is compared to the other. -/
theorem Scalar.same_comm (s t : Scalar) : s.same t = t.same s := by
  cases s <;> cases t <;> simp [Scalar.same, Binary64.same, Bool.beq_comm, Bool.and_comm]

/-- It does not matter which of two lists is compared to the other. -/
theorem Value.sameItems_comm : ∀ ss ts : List Scalar, sameItems ss ts = sameItems ts ss
  | [], [] => rfl
  | [], _ :: _ => rfl
  | _ :: _, [] => rfl
  | s :: ss, t :: ts => by rw [sameItems, sameItems, Scalar.same_comm, sameItems_comm ss ts]

/-- It does not matter which of two values, or the lack of one, is compared to the other. -/
theorem Value.sameOption_comm (v w : Option Value) : sameOption v w = sameOption w v := by
  rcases v with _ | v <;> rcases w with _ | w
  · rfl
  · rfl
  · rfl
  · cases v <;> cases w <;> simp [sameOption, same, Scalar.same_comm, sameItems_comm]

/-- Maps that find something under the same names have the same names. -/
theorem SortedMap.keys_eq {β γ : Type} {m : SortedMap β} {k : SortedMap γ}
    (hm : Increasing m.entries) (hk : Increasing k.entries)
    (h : ∀ n, (∃ v, m.find? n = some v) ↔ ∃ w, k.find? n = some w) : m.keys = k.keys := by
  have hperm : m.keys.Perm k.keys := by
    refine (List.perm_ext_iff_of_nodup (nodup_keys hm) (nodup_keys hk)).mpr fun n => ?_
    show n ∈ m.keys ↔ n ∈ k.keys
    rw [mem_keys_iff hm, mem_keys_iff hk, h]
  have hsorted : m.keys.Pairwise (· < ·) := List.pairwise_map.mpr hm
  have hsorted' : k.keys.Pairwise (· < ·) := List.pairwise_map.mpr hk
  exact hperm.eq_of_pairwise (fun _ _ _ _ hab hba => absurd hba (List.lt_asymm hab)) hsorted
    hsorted'

namespace BlockSnapshot

/-- Parameters with the same values have the same names, in the same order. -/
theorem names_of_sameValues : ∀ {vs ws : List (Text × Option Value)},
    sameValues vs ws = true → vs.map Prod.fst = ws.map Prod.fst
  | [], [], _ => rfl
  | [], _ :: _, h => by cases h
  | _ :: _, [], h => by cases h
  | (n, v) :: vs, (m, w) :: ws, h => by
    simp only [sameValues, Bool.and_eq_true, beq_iff_eq] at h
    rw [List.map_cons, List.map_cons, names_of_sameValues h.2, h.1.1]

/-- Lists with the same names have the same values when each name has. -/
theorem sameValues_of_forall : ∀ {vs ws : List (Text × Option Value)},
    vs.map Prod.fst = ws.map Prod.fst →
      (∀ n v w, (n, v) ∈ vs → (n, w) ∈ ws → Value.sameOption v w = true) →
        sameValues vs ws = true
  | [], [], _, _ => rfl
  | (n, v) :: vs, (m, w) :: ws, hnames, h => by
    obtain ⟨rfl, hrest⟩ := List.cons.inj hnames
    simp only [sameValues, beq_self_eq_true, Bool.true_and, Bool.and_eq_true]
    exact ⟨h _ v w List.mem_cons_self List.mem_cons_self, sameValues_of_forall hrest
      fun k v w hv hw => h k v w (List.mem_cons_of_mem _ hv) (List.mem_cons_of_mem _ hw)⟩

/-- Two maps have the same values exactly when they do under each name. -/
theorem sameValues_iff {m k : SortedMap (Option Value)} (hm : SortedMap.Increasing m.entries)
    (hk : SortedMap.Increasing k.entries) : sameValues m.entries k.entries = true ↔
      ∀ n, Option.Rel (fun v w => Value.sameOption v w = true) (m.find? n) (k.find? n) := by
  constructor
  · intro h n
    have hkeys : n ∈ m.keys ↔ n ∈ k.keys := by
      rw [SortedMap.keys, SortedMap.keys, names_of_sameValues h]
    rcases hw : k.find? n with _ | w
    · rcases hv : m.find? n with _ | v
      · exact .none
      · obtain ⟨w, hw'⟩ := (SortedMap.mem_keys_iff hk).mp
          (hkeys.mp ((SortedMap.mem_keys_iff hm).mpr ⟨v, hv⟩))
        rw [hw] at hw'
        cases hw'
    · obtain ⟨v, hv, hsame⟩ := exists_of_sameValues h hw
      rw [show m.find? n = some v from hv]
      exact .some hsame
  · intro h
    refine sameValues_of_forall (SortedMap.keys_eq hm hk fun n => ?_) fun n v w hv hw => ?_
    · have hrel := h n
      generalize m.find? n = v at hrel ⊢
      generalize k.find? n = w at hrel ⊢
      cases hrel <;> simp
    · have hsame := h n
      rw [(SortedMap.mem_entries_iff hm).mp hv, (SortedMap.mem_entries_iff hk).mp hw] at hsame
      cases hsame with
      | some hsame => exact hsame

/-- **Two snapshots of blocks are the same** when they have the same subtype, and values that are
the same and the same comments under each name. -/
theorem same_iff {a b : BlockSnapshot} (ha : SortedMap.Increasing a.values.entries)
    (hb : SortedMap.Increasing b.values.entries) (hac : SortedMap.Increasing a.comments.entries)
    (hbc : SortedMap.Increasing b.comments.entries) : a.same b = true ↔
      a.subtype = b.subtype ∧ (∀ n, Option.Rel (fun v w => Value.sameOption v w = true)
        (a.values.find? n) (b.values.find? n)) ∧ ∀ n, a.comments.find? n = b.comments.find? n := by
  have hcomments : a.comments.entries = b.comments.entries ↔
      ∀ n, a.comments.find? n = b.comments.find? n :=
    ⟨fun h n => by rw [SortedMap.find?, SortedMap.find?, h],
      fun h => congrArg SortedMap.entries (SortedMap.ext_find? hac hbc h)⟩
  rw [same, Bool.and_eq_true, Bool.and_eq_true, beq_iff_eq, beq_iff_eq, sameValues_iff ha hb,
    hcomments, and_assoc]

end BlockSnapshot

namespace Slot

/-- The text of a parameter gives it the same value again exactly when it has one. -/
theorem sameOption_given_iff {s : Slot} (h : s.Fits) :
    Value.sameOption (s.type.given s.text) s.value = true ↔ s.value.isSome = true := by
  rcases hv : s.value with _ | v
  · obtain ⟨w, hw⟩ := ValueType.exists_given s.type s.text
    rw [hw]
    exact iff_of_false Bool.false_ne_true Bool.false_ne_true
  · have htext : s.text = v.text := by
      rw [text, hv]
      rfl
    rw [htext, ValueType.given_of_read (ValueType.read_text (hasType_of_fits h hv)),
      Value.sameOption_refl]
    exact iff_of_true rfl rfl

/-- Comments are the same exactly when those that are not empty are. -/
theorem comments_eq_iff {s t : Slot} :
    ((some s).filter fun s => !s.comments.isEmpty).map comments =
      ((some t).filter fun s => !s.comments.isEmpty).map comments ↔ s.comments = t.comments := by
  rcases hs : s.comments with _ | ⟨x, xs⟩ <;> rcases ht : t.comments with _ | ⟨y, ys⟩ <;>
    simp [Option.filter_some, hs, ht]

end Slot

namespace Block

open Layout (writtenSlots setting readComments)
open BlockInfo (Provided Mapped Chosen Typed)
open BlockSnapshot (ofBlock)

/-- What is written for a parameter tells all about it. -/
structure Tells (b : Block) (s : Slot) : Prop where
  /-- There is a value. -/
  value : s.value.isSome = true
  /-- The value is read again from its quotes. -/
  quotes : Token.IsQuotable s.text
  /-- The comment is read again from its lines. -/
  comments : readComments s.comments = s.comments
  /-- A `type` names no subtype when none is active. -/
  type : s.name = Slot.typeName → b.info.subtype = none → b.hasSubtype (Text.trim s.text) = false

instance (b : Block) (s : Slot) : Decidable (b.Tells s) :=
  decidable_of_iff (s.value.isSome = true ∧ Token.IsQuotable s.text ∧
    readComments s.comments = s.comments ∧ (s.name = Slot.typeName → b.info.subtype = none →
      b.hasSubtype (Text.trim s.text) = false))
    ⟨fun h => ⟨h.1, h.2.1, h.2.2.1, h.2.2.2⟩, fun h => ⟨h.1, h.2, h.3, h.4⟩⟩

/-- What is known of a block of a document that was made by edits. -/
structure Edited (catalog : Catalog) (b : Block) : Prop where
  /-- Its parameters fit. -/
  sound : b.info.Sound
  /-- They are in order. -/
  orderly : b.info.Orderly
  /-- They can be told apart by their names. -/
  mapped : b.info.Mapped
  /-- The `type` names the active subtype. -/
  chosen : b.info.Chosen
  /-- The parameters are those that the catalog provides, and those that a user added. -/
  provided : b.info.Provided
  /-- The block has the schema that the catalog has for its path. -/
  typed : b.info.Typed catalog
  /-- At the path of the root there is none. -/
  root : b.path = Path.root → b.info.schema = none

namespace Edited

variable {catalog : Catalog} {b : Block} (h : b.Edited catalog)

include h

/-- No name stands for two of all the parameters. -/
theorem nodup : (Named.names b.allParameters).Nodup :=
  nodup_allParameters_of_provided h.provided h.mapped

/-- A block with an active subtype has a `type` that names it. -/
theorem exists_type {subtype : Text} (hs : b.info.subtype = some subtype) :
    b.hasSubtype subtype = true ∧ Text.trim subtype = subtype ∧
      ∃ s, Named.find? Slot.typeName b.info.parameters = some s ∧
        s.Selects (some subtype) ∧ s.text = subtype := by
  rcases h.sound.subtype with ⟨hnone, -⟩ | ⟨schema, st, hschema, hst, hpart⟩
  · rw [hs] at hnone
    cases hnone
  · rw [hs] at hst
    cases hst
    obtain ⟨part, hpart⟩ := Option.isSome_iff_exists.mp hpart
    have hfound : b.subtypeSchema? subtype = some part := by
      rw [subtypeSchema?, hschema, Option.bind_some, hpart]
    have hne : schema.subtypes ≠ [] := by
      intro hnil
      rw [BlockSchema.subtype?, hnil] at hpart
      cases hpart
    obtain ⟨s, hfind, hselects⟩ := h.chosen schema hschema hne
    rw [hs] at hselects
    refine ⟨by rw [hasSubtype, hfound]; rfl, ?_, s, hfind, hselects, ?_⟩
    · exact Layout.trim_of_isHeaderName
        (Edit.isHeaderName_of_isName (isName_of_subtypeSchema? h.orderly hfound).1)
    · rw [Slot.text, (hselects.value subtype rfl).1]
      rfl

/-- No name is on two lines. -/
theorem distinct : b.Distinct := by
  refine nodup_writtenSlots h.nodup fun hlive => ?_
  rcases hs : b.info.subtype with _ | subtype
  · have hnone := h.provided.live
    rw [hs, Option.elim_none, List.map_eq_nil_iff] at hnone
    rw [hnone] at hlive
    cases hlive
  · obtain ⟨-, -, s, hfind, -⟩ := h.exists_type hs
    obtain ⟨hmem, hname⟩ := Named.find?_eq_some hfind
    exact h.provided.not_mem_live _ (Named.mem_names.mpr ⟨s, hmem, hname⟩) hlive

/-! ### What stands at the place of the block -/

/-- What stands at the place of a block has the schema of the block. -/
theorem schema_blank : (b.blank catalog).info.schema = b.info.schema := by
  by_cases hroot : b.path = Path.root
  · rw [blank_of_root hroot, h.root hroot]
    rfl
  · rw [blank_of_ne_root hroot]
    exact (h.typed hroot).schema.symm

/-- What stands at the place of a block has the parameters of its schema, and no others. -/
theorem parameters_blank :
    (b.blank catalog).info.parameters = b.info.bare.info.parameters := by
  by_cases hroot : b.path = Path.root
  · rw [blank_of_root hroot, BlockInfo.bare, h.root hroot]
    rfl
  · rw [blank_of_ne_root hroot, BlockInfo.bare, (h.typed hroot).schema]
    rfl

/-- What stands at the place of a block finds the schema of a subtype where the block finds it. -/
theorem subtypeSchema?_blank : (b.blank catalog).subtypeSchema? = b.subtypeSchema? := by
  funext subtype
  rw [subtypeSchema?, subtypeSchema?, h.schema_blank]

/-- What stands at the place of a block can have the subtypes that the block can have. -/
theorem hasSubtype_blank (subtype : Text) :
    (b.blank catalog).hasSubtype subtype = b.hasSubtype subtype := by
  rw [hasSubtype, hasSubtype, h.subtypeSchema?_blank]

/-- The parameters that the catalog gives a block with the subtype of this one are those of this one
at their defaults, but for those that a user added. -/
theorem declared_blank {given : List (Text × Text)}
    (hchosen : (b.blank catalog).chosen? given = b.info.subtype) :
    (b.blank catalog).declared given =
      (b.allParameters.map Slot.atDefault).filter fun s => !s.userAdded := by
  have hmaterialize : (b.blank catalog).materialize = b.info.bare.materialize := by
    funext part
    rw [materialize, materialize, h.parameters_blank]
  have hlive : (b.info.subtypeParameters.map Slot.atDefault).filter (fun s => !s.userAdded) =
      b.info.subtypeParameters.map Slot.atDefault := by
    refine List.filter_eq_self.mpr fun s hs => ?_
    obtain ⟨t, ht, rfl⟩ := List.mem_map.mp hs
    simp [Slot.atDefault, h.provided.userAdded_live ht]
  rw [allParameters, List.map_append, List.filter_append, h.provided.own, hlive, h.provided.live,
    declared, hchosen, h.parameters_blank, hmaterialize, h.subtypeSchema?_blank]
  rcases b.info.subtype with _ | subtype
  · rfl
  · rfl

/-- What the catalog gives under a name. -/
theorem find?_declared_blank {given : List (Text × Text)}
    (hchosen : (b.blank catalog).chosen? given = b.info.subtype) (n : Text) :
    Named.find? n ((b.blank catalog).declared given) =
      ((b.parameter? n).map Slot.atDefault).filter fun s => !s.userAdded := by
  have hnames : (Named.names (b.allParameters.map Slot.atDefault)).Nodup := by
    rw [Slot.names_map_atDefault]
    exact h.nodup
  rw [h.declared_blank hchosen, Named.find?_filter hnames,
    Named.find?_map (f := Slot.atDefault) fun _ => rfl, ← parameter?_eq_find?]

/-! ### What is read back -/

/-- What is read back is what the lines of the block settle on. -/
theorem settles_readBack :
    (b.blank catalog).Settles ((writtenSlots b).map setting) (b.readBack catalog) :=
  settles_bindSettings (atRest_blank catalog b) (nodup_settings_of_distinct h.distinct)

/-- What is written for a block chooses its subtype, when no `type` chooses one that is not
active. -/
theorem chosen?_blank_iff : (b.blank catalog).chosen?
    (((writtenSlots b).map setting).map Setting.written) = b.info.subtype ↔
      ∀ s ∈ writtenSlots b, s.name = Slot.typeName → b.info.subtype = none →
        b.hasSubtype (Text.trim s.text) = false := by
  have hfind : Named.find? Slot.typeName ((writtenSlots b).map setting) =
      (Named.find? Slot.typeName (writtenSlots b)).map setting := Named.find?_map name_setting _ _
  rcases hs : b.info.subtype with _ | subtype
  · rcases hw : Named.find? Slot.typeName (writtenSlots b) with _ | s
    · have hnone := Named.find?_eq_none_iff.mp hw
      rw [hw, Option.map_none] at hfind
      rw [chosen?_of_not_mem (Named.find?_eq_none_iff.mp hfind)]
      exact iff_of_true rfl fun s hm hn => absurd (Named.mem_names.mpr ⟨s, hm, hn⟩) hnone
    · obtain ⟨hmem, hname⟩ := Named.find?_eq_some hw
      rw [hw, Option.map_some] at hfind
      rw [chosen?_of_find? hfind, h.hasSubtype_blank]
      show (if b.hasSubtype (Text.trim s.text) = true then some (Text.trim s.text) else none) =
        none ↔ _
      constructor
      · intro hnone u hu hn _
        have hsame := Named.find?_of_mem h.distinct hu
        rw [show Named.name u = Slot.typeName from hn, hw] at hsame
        cases hsame
        simpa using hnone
      · intro hall
        simp [hall s hmem hname rfl]
  · obtain ⟨hhas, htrim, s, hown, hselects, htext⟩ := h.exists_type hs
    have hparameter : b.parameter? Slot.typeName = some s := by
      rw [parameter?, hown, Option.some_or]
    have hwritten : s.isWritten = true := by simp [Slot.isWritten, (hselects.value subtype rfl).2]
    rw [find?_writtenSlots h.nodup h.distinct, hparameter, Option.filter_some, if_pos hwritten,
      Option.map_some] at hfind
    rw [chosen?_of_find? hfind, h.hasSubtype_blank]
    refine iff_of_true ?_ fun _ _ _ hnone => by cases hnone
    show (if b.hasSubtype (Text.trim s.text) = true then some (Text.trim s.text) else none) = _
    rw [htext, htrim, if_pos hhas]

section chosen

variable (hchosen : (b.blank catalog).chosen?
  (((writtenSlots b).map setting).map Setting.written) = b.info.subtype) {n : Text} {s : Slot}

include hchosen

/-- What is read back under a name. -/
theorem parameter?_readBack (n : Text) : (b.readBack catalog).parameter? n =
    ((((b.parameter? n).map Slot.atDefault).filter fun s => !s.userAdded).map
      ((b.blank catalog).settle ((writtenSlots b).map setting))).or
        ((((b.parameter? n).filter Slot.isWritten).map setting).map (b.blank catalog).newSlot) := by
  rw [h.settles_readBack.parameter? n, h.find?_declared_blank hchosen,
    find?_settings h.nodup h.distinct]

/-- A parameter that is written is read back with what its type makes of its text. -/
theorem exists_parameter?_of_written (hs : b.parameter? n = some s) (hw : s.isWritten = true) :
    ∃ t, (b.readBack catalog).parameter? n = some t ∧ t.value = s.type.given s.text ∧
      t.comments = readComments s.comments := by
  have hback := h.parameter?_readBack hchosen n
  have hx := find?_settings h.nodup h.distinct n
  obtain ⟨hmem, rfl⟩ := mem_of_parameter? hs
  rw [hs, Option.filter_some, if_pos hw, Option.map_some] at hx
  simp only [hs, hw, Option.map_some, Option.filter_some, if_true] at hback
  rcases ha : s.userAdded with _ | _
  · simp only [show s.atDefault.userAdded = false from ha, Bool.not_false, if_true,
      Option.map_some, Option.some_or] at hback
    refine ⟨_, hback, ?_⟩
    by_cases htype : s.name = Slot.typeName ∧ b.info.subtype ≠ none
    · obtain ⟨hname, hactive⟩ := htype
      obtain ⟨subtype, hsubtype⟩ := Option.ne_none_iff_exists'.mp hactive
      obtain ⟨hhas, htrim, u, hown, hselects, htext⟩ := h.exists_type hsubtype
      -- The `type` is the one that names the active subtype.
      rw [hname, parameter?, hown, Option.some_or] at hs
      cases hs
      have htrimmed : Text.trim (setting s).value = subtype :=
        (congrArg Text.trim htext).trans htrim
      have hhas' : (b.blank catalog).hasSubtype (Text.trim (setting s).value) = true := by
        rw [htrimmed, h.hasSubtype_blank, hhas]
      have hset : (b.blank catalog).settle ((writtenSlots b).map setting) s.atDefault =
          { selectType subtype s.atDefault with comments := readComments s.comments } := by
        rw [← htrimmed, settle, show Named.find? Slot.typeName _ = some (setting s) from hname ▸ hx]
        exact if_pos ⟨hhas', hname⟩
      rw [hset, selectType_eq (show s.atDefault.type = _ from hselects.type), hselects.type, htext]
      exact ⟨rfl, rfl⟩
    · rw [settle_of_find? (o := s.atDefault) hx fun hn => hchosen.trans
        (Decidable.by_contra fun hne => htype ⟨hn, hne⟩)]
      exact ⟨Slot.value_take _ _, Slot.comments_take _ _⟩
  · simp only [show s.atDefault.userAdded = true from ha, Bool.not_true, Bool.false_eq_true,
      if_false, Option.map_none, Option.none_or] at hback
    refine ⟨_, hback, ?_⟩
    have hown : s ∈ b.info.parameters := by
      refine (List.mem_append.mp hmem).resolve_right fun hlive => ?_
      rw [h.provided.userAdded_live hlive] at ha
      cases ha
    rw [(h.provided.added s hown ha).1, newSlot]
    split
    · exact ⟨rfl, rfl⟩
    · exact ⟨rfl, rfl⟩

/-- A parameter that is not written is read back at its default. -/
theorem parameter?_of_not_written (hs : b.parameter? n = some s) (hw : s.isWritten = false) :
    (b.readBack catalog).parameter? n = some s.atDefault := by
  have hback := h.parameter?_readBack hchosen n
  have hx := find?_settings h.nodup h.distinct n
  obtain ⟨-, rfl⟩ := mem_of_parameter? hs
  have ha : s.atDefault.userAdded = false := by
    simp only [Slot.isWritten, Bool.or_eq_false_iff] at hw
    exact hw.1.2
  rw [hs, Option.filter_some, hw] at hx
  simp only [hs, hw, ha, Option.map_some, Option.filter_some, Bool.not_false, if_true,
    Option.some_or] at hback
  rw [hback, settle_of_not_mem (o := s.atDefault) (Named.find?_eq_none_iff.mp hx)]

/-- What is read back under a name is the same exactly when the line of the parameter, if it has
one, has a value and a comment that survives. -/
theorem same_parameter?_iff (n : Text) :
    Option.Rel (fun v w => Value.sameOption v w = true)
        ((ofBlock (b.readBack catalog)).values.find? n) ((ofBlock b).values.find? n) ∧
      (ofBlock (b.readBack catalog)).comments.find? n = (ofBlock b).comments.find? n ↔
      ∀ s, b.parameter? n = some s → s.isWritten = true →
        s.value.isSome = true ∧ readComments s.comments = s.comments := by
  have hback := h.settles_readBack.nodup
  rw [find?_values_of_apart hback, find?_values_of_apart h.nodup, find?_comments_of_apart hback,
    find?_comments_of_apart h.nodup]
  rcases hs : b.parameter? n with _ | s
  · have hnone : (b.readBack catalog).parameter? n = none := by
      rw [h.parameter?_readBack hchosen, hs]
      rfl
    rw [hnone]
    exact iff_of_true ⟨.none, rfl⟩ fun s hs => by cases hs
  · have hfits := fits_of_parameter? h.sound hs
    rcases hw : s.isWritten with _ | _
    · rw [h.parameter?_of_not_written hchosen hs hw]
      simp only [Slot.isWritten, Slot.hasChanged, Bool.or_eq_false_iff, Bool.not_eq_false'] at hw
      refine iff_of_true ⟨.some ?_, ?_⟩ fun t ht htrue => ?_
      · rw [Value.sameOption_comm]
        exact hw.2.1
      · exact Slot.comments_eq_iff.mpr (List.isEmpty_iff.mp hw.2.2).symm
      · cases ht
        simp [Slot.isWritten, Slot.hasChanged, hw] at htrue
    · obtain ⟨t, ht, hvalue, hcomments⟩ := h.exists_parameter?_of_written hchosen hs hw
      rw [ht, Option.map_some, Option.map_some, Slot.comments_eq_iff, Option.rel_some_some, hvalue,
        hcomments, Slot.sameOption_given_iff hfits]
      constructor
      · rintro ⟨hsome, hsame⟩ u hu -
        cases hu
        exact ⟨hsome, hsame⟩
      · exact fun hall => hall s rfl hw

end chosen

/-- **A block is read back as itself** exactly when each of its lines tells all about its
parameter. -/
theorem same_readBack_iff :
    (b.Quotable ∧ b.Distinct ∧ (ofBlock (b.readBack catalog)).same (ofBlock b) = true) ↔
      ∀ s ∈ writtenSlots b, b.Tells s := by
  have hsubtype : (ofBlock (b.readBack catalog)).subtype = (b.blank catalog).chosen?
      (((writtenSlots b).map setting).map Setting.written) := h.settles_readBack.subtype
  rw [BlockSnapshot.same_iff (increasing_values _) (increasing_values _) (increasing_comments _)
    (increasing_comments _), hsubtype]
  constructor
  · rintro ⟨hquotable, -, hchosen, hvalues, hcomments⟩ s hs
    obtain ⟨hmem, hw⟩ := (mem_writtenSlots h.nodup).mp hs
    have hfound : b.parameter? s.name = some s := by
      rw [parameter?_eq_find?]
      exact Named.find?_of_mem h.nodup hmem
    obtain ⟨hvalue, hcomment⟩ := (h.same_parameter?_iff hchosen s.name).mp
      ⟨hvalues _, hcomments _⟩ s hfound hw
    exact ⟨hvalue, hquotable s hs, hcomment, h.chosen?_blank_iff.mp hchosen s hs⟩
  · intro hall
    have hchosen := h.chosen?_blank_iff.mpr fun s hs => (hall s hs).type
    have hsame := fun n => (h.same_parameter?_iff hchosen n).mpr fun s hs hw => by
      have htells := hall s ((mem_writtenSlots h.nodup).mpr ⟨(mem_of_parameter? hs).1, hw⟩)
      exact ⟨htells.value, htells.comments⟩
    exact ⟨fun s hs => (hall s hs).quotes, h.distinct, hchosen, fun n => (hsame n).1,
      fun n => (hsame n).2⟩

end Edited

end Block

/-! ### Runs of edits -/

namespace Document

variable {catalog : Catalog} {es : List Edit} {d : Document}

/-- What is known of the blocks of a document that was made by edits. -/
theorem edited_of_edits (ht : catalog.TypesAreTexts) (hn : catalog.NamesAreWords)
    (hf : Follows (fun d e => ¬ e.Mistypes catalog d.root ∧ ¬ e.Shadows d.root) (fun _ => True)
      (.new catalog) es) (hd : (Document.new catalog).edits es = .ok d) :
    ∀ b ∈ d.root.descendants, b.Edited catalog := by
  have hreached := Reached.edits es .new hd
  have hground := hreached.grounded
  have htidy := (all_tidy_edits hn es .new rfl (Block.all_tidy_instantiateRoot hn) hd).2
  have htyped := (ReachedBy.edits es (.new trivial) (hf.imp fun _ _ h => h.1) hd).typed
  have hprovided := throughout_provided_edits ht es .new
    (Block.throughout_provided_instantiateRoot ht) (hf.imp fun _ _ h => h.2) hd
  intro b hb
  refine ⟨(hground.tree.descendant hb).here.info, (htidy.descendant hb).here.info,
    (hreached.mapped.descendant hb).here, ((hreached.chosen ht).descendant hb).here,
    (hprovided.descendant hb).here, (htyped.descendant hb).here, fun hpath => ?_⟩
  have hfound := Block.find?_path hground.tree hground.path hb
  rw [hpath] at hfound
  obtain rfl : d.root = b := Option.some.inj hfound
  exact hreached.schema_root

/-- **A document that was made by edits** is read back as itself exactly when each of its lines
tells all about its parameter. No edit of the run shadowed a parameter of a subtype, and none moved
a block to other schemas. -/
theorem reloads_iff_of_lines (ht : catalog.TypesAreTexts) (hn : catalog.NamesAreWords)
    (hf : Follows (fun d e => ¬ e.Mistypes catalog d.root ∧ ¬ e.Shadows d.root) (fun _ => True)
      (.new catalog) es) (hd : (Document.new catalog).edits es = .ok d) :
    Block.Reloads catalog Layout.defaultIndent d.root ↔
      ∀ b ∈ d.root.descendants, ∀ s ∈ Layout.writtenSlots b, b.Tells s := by
  have hground := (Reached.edits es .new hd).grounded
  have htidy := (all_tidy_edits hn es .new rfl (Block.all_tidy_instantiateRoot hn) hd).2
  have hhere : ∀ b ∈ d.root.descendants, b.Tidy := fun b hb => (htidy.descendant hb).here
  have hedited := edited_of_edits ht hn hf hd
  rw [Block.reloads_iff_quotable ht (List.all_eq_true.mp rfl) hground.tree hground.path
    (fun b hb => (hhere b hb).spelled) fun b hb s hs hq => (hhere b hb).effective hs hq]
  exact forall₂_congr fun b hb => (hedited b hb).same_readBack_iff

/-- A run that adds a block and gives its number a value and a comment: each line tells all about
its parameter. -/
theorem reloads_iff_of_lines_sample : ∃ es d, (Document.new numberCatalog).edits es = .ok d ∧
    Follows (fun d e => ¬ e.Mistypes numberCatalog d.root ∧ ¬ e.Shadows d.root) (fun _ => True)
      (.new numberCatalog) es ∧ d.root.descendants.length = 2 ∧
        Block.Reloads numberCatalog Layout.defaultIndent d.root := by
  let es : List Edit := [.addChild "/".toList (some "A".toList) none,
    .setText "/A".toList "x".toList "5".toList, .setComment "/A".toList "x".toList "note".toList]
  have hrun : ((Document.new numberCatalog).edits es).toOption.map (fun d =>
      decide (d.root.descendants.length = 2 ∧
        ∀ b ∈ d.root.descendants, ∀ s ∈ Layout.writtenSlots b, b.Tells s)) = some true := by
    decide +kernel
  have hfollows : Follows (fun d e => ¬ e.Mistypes numberCatalog d.root ∧ ¬ e.Shadows d.root)
      (fun _ => True) (.new numberCatalog) es := by decide +kernel
  obtain ⟨d, hd, hlines⟩ := Option.map_eq_some_iff.mp hrun
  obtain ⟨hlength, hlines⟩ := of_decide_eq_true hlines
  have hd := eq_ok_of_toOption hd
  exact ⟨es, d, hd, hfollows, hlength,
    (reloads_iff_of_lines (by decide) namesAreWords_numberCatalog hfollows hd).mpr hlines⟩

/-- The line of a number without a value that has a comment does not tell that there is no value. -/
example :
    let es : List Edit := [.addChild "/".toList (some "A".toList) none,
      .setComment "/A".toList "x".toList "note".toList]
    ((Document.new numberCatalog).edits es).toOption.map (fun d => decide
      (∀ b ∈ d.root.descendants, ∀ s ∈ Layout.writtenSlots b, b.Tells s)) = some false := by
  decide +kernel

end Document

end BlockEdit
