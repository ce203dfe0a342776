import BlockEdit.Proofs.Lookup

/-!
# Changes to what a block knows

Most operations leave a block where it is with the children it has, and change what it knows:
values, the subtype, the stash, warnings. Such an operation retouches the block. It keeps a tree
sound when it keeps this one block's `BlockInfo` sound.

Main statements:

* **`Block.Retouch.all_sound`**: a retouched block at the top of a sound tree leaves it sound.
* **`Block.retouch_switchSubtype`**, **`Block.retouch_bindSettings`** and their companions: each
  operation on subtypes and parameters retouches the block.
-/

namespace BlockEdit.Block

/-- The block `c` is `b` with other parameters, another subtype or other warnings, and it is sound
if `b` was. -/
structure Retouch (b c : Block) : Prop where
  /-- The block stands where it was. -/
  place : SamePlace b c
  /-- It has the same children. -/
  children : c.children = b.children
  /-- It has the same unused children. -/
  unused : c.unused = b.unused
  /-- It has the same schema. -/
  schema : c.info.schema = b.info.schema
  /-- It is the user's choice if it was. -/
  userAdded : c.info.userAdded = b.info.userAdded
  /-- It has the same comment behind its header. -/
  comments : c.info.comments = b.info.comments
  /-- What it knows stays sound. -/
  sound : b.info.Sound → c.info.Sound

namespace Retouch

/-- A block is a retouched form of itself. -/
theorem refl (b : Block) : Retouch b b := ⟨.refl b, rfl, rfl, rfl, rfl, rfl, id⟩

/-- Blocks are retouched step by step. -/
theorem trans {a b c : Block} (hab : Retouch a b) (hbc : Retouch b c) : Retouch a c where
  place := hab.place.trans hbc.place
  children := hbc.children.trans hab.children
  unused := hbc.unused.trans hab.unused
  schema := hbc.schema.trans hab.schema
  userAdded := hbc.userAdded.trans hab.userAdded
  comments := hbc.comments.trans hab.comments
  sound := hbc.sound ∘ hab.sound

/-- **A retouched block** at the top of a sound tree leaves it sound. -/
theorem all_sound {b c : Block} (h : Retouch b c) (hb : All Sound b) : All Sound c := by
  have hc : c = { b with info := c.info } := by
    have h1 := h.children
    have h2 := h.unused
    cases c
    cases h1
    cases h2
    rfl
  rw [hc]
  exact all_sound_with_info hb (h.sound hb.here.info) h.place.path

end Retouch

variable {b : Block}

/-! ### Parameters -/

/-- A warning retouches a block. -/
theorem retouch_warn (b : Block) (w : Warning) : Retouch b (b.warn w) :=
  ⟨⟨rfl, rfl, rfl⟩, rfl, rfl, rfl, rfl, rfl, fun h => ⟨h.subtype, h.own, h.live, h.stashed⟩⟩

/-- **A change of a parameter** retouches the block, when the new value fits. -/
theorem retouch_updateParameter {n : Text} {f : Slot → Slot}
    (hf : b.info.Sound → ∀ s, b.parameter? n = some s → (f s).Fits) :
    Retouch b (b.updateParameter n f) := by
  rw [updateParameter]
  split
  · next hhas =>
    refine ⟨⟨rfl, rfl, rfl⟩, rfl, rfl, rfl, rfl, rfl, fun h => ⟨h.subtype, ?_, h.live, h.stashed⟩⟩
    intro s hs
    rcases Named.mem_update hs with hs | ⟨t, ht, rfl⟩
    · exact h.own s hs
    · refine hf h t ?_
      rw [parameter?, ht, Option.some_or]
  · next hhas =>
    refine ⟨⟨rfl, rfl, rfl⟩, rfl, rfl, rfl, rfl, rfl, fun h => ⟨?_, h.own, ?_, h.stashed⟩⟩
    · rcases h.subtype with ⟨hsub, hlive⟩ | h
      · exact Or.inl ⟨hsub, by rw [hlive]; rfl⟩
      · exact Or.inr h
    · intro s hs
      rcases Named.mem_update hs with hs | ⟨t, ht, rfl⟩
      · exact h.live s hs
      · have hnone : Named.find? n b.info.parameters = none := by
          rwa [Named.has, Bool.not_eq_true, Option.isSome_eq_false_iff, Option.isNone_iff_eq_none]
            at hhas
        refine hf h t ?_
        rw [parameter?, hnone, Option.none_or, ht]

/-- A parameter of a sound block has a value that fits. -/
theorem fits_of_parameter? {n : Text} {s : Slot} (h : b.info.Sound)
    (hs : b.parameter? n = some s) : s.Fits := by
  rw [parameter?] at hs
  rcases Option.or_eq_some_iff.mp hs with hs | ⟨-, hs⟩
  · exact h.own s (Named.mem_of_find? hs)
  · exact h.live s (Named.mem_of_find? hs)

/-- A new parameter whose value fits retouches a block. -/
theorem retouch_addParameter {s : Slot} (hs : s.Fits) : Retouch b (b.addParameter s) := by
  refine ⟨⟨rfl, rfl, rfl⟩, rfl, rfl, rfl, rfl, rfl, fun h => ⟨h.subtype, ?_, h.live, h.stashed⟩⟩
  intro t ht
  rcases Named.mem_put ht with rfl | ht
  · exact hs
  · exact h.own t ht

/-! ### Subtypes -/

/-- The parameters that a subtype adds have values that fit. -/
theorem fits_of_mem_materialize {schema : SubtypeSchema} {s : Slot}
    (h : s ∈ b.materialize schema) : s.Fits := by
  obtain ⟨p, -, rfl⟩ := List.mem_map.mp (Named.mem_ofList h)
  exact Slot.fits_ofSchema p

/-- Values that are carried over fit. -/
theorem fits_of_mem_carryOver {old slots : List Slot} (ho : ∀ s ∈ old, s.Fits)
    (hs : ∀ s ∈ slots, s.Fits) : ∀ s ∈ carryOver old slots, s.Fits := by
  intro s h
  obtain ⟨t, ht, rfl⟩ := List.mem_map.mp h
  split
  · next o hfind =>
    split
    · next htype => exact Slot.fits_copyState htype (ho o (Named.mem_of_find? hfind))
    · exact hs t ht
  · exact hs t ht

/-- The parameter that names the subtype has a value that fits. -/
theorem fits_selectType (subtype : Text) (s : Slot) : (selectType subtype s).Fits := by
  rw [selectType]
  split
  · next t ht => exact Slot.fits_setValue ht
  · exact Slot.fits_relaxTo s subtype

/-- The stash of a sound block, with the active subtype added, holds values that fit. -/
theorem fits_of_mem_stashed {i : BlockInfo} (hl : ∀ s ∈ i.subtypeParameters, s.Fits)
    (hs : ∀ entry ∈ i.stash, ∀ s ∈ entry.2, s.Fits) :
    ∀ entry ∈ stashed i, ∀ s ∈ entry.2, s.Fits := by
  intro entry h
  rw [stashed] at h
  split at h
  · rcases Named.mem_put h with rfl | h
    · exact hl
    · exact hs entry h
  · exact hs entry h

/-- What comes out of the stash fits, and so does what stays in it. -/
theorem fits_unstash (h : b.info.Sound) (subtype : Text) (schema : SubtypeSchema) :
    (∀ s ∈ (b.unstash subtype schema).1, s.Fits) ∧
      ∀ entry ∈ (b.unstash subtype schema).2, ∀ s ∈ entry.2, s.Fits := by
  rw [unstash]
  split
  · next slots hfind =>
    exact ⟨h.stashed _ (Named.mem_of_find? hfind),
      fun entry he => h.stashed entry (Named.mem_of_mem_remove he)⟩
  · exact ⟨fun s hs => fits_of_mem_materialize hs, h.stashed⟩

/-- **Switching the subtype** retouches the block. -/
theorem retouch_switchSubtype? {c : Block} {subtype : Text}
    (hc : b.switchSubtype? subtype = some c) : Retouch b c := by
  rw [switchSubtype?] at hc
  obtain ⟨st, hst, rfl⟩ := Option.map_eq_some_iff.mp hc
  rw [subtypeSchema?] at hst
  obtain ⟨schema, hschema, hfound⟩ := Option.bind_eq_some_iff.mp hst
  dsimp only
  split
  · exact .refl b
  · refine ⟨⟨rfl, rfl, rfl⟩, rfl, rfl, rfl, rfl, rfl, fun h => ⟨?_, ?_, ?_, ?_⟩⟩
    · exact Or.inr ⟨schema, subtype, hschema, rfl, by rw [hfound]; rfl⟩
    · intro s hs
      rcases Named.mem_update hs with hs | ⟨t, -, rfl⟩
      · exact h.own s hs
      · exact fits_selectType subtype t
    · exact fits_of_mem_carryOver h.live (fits_unstash h subtype st).1
    · exact fits_of_mem_stashed h.live (fits_unstash h subtype st).2

/-- A switch of the subtype retouches a block. -/
theorem retouch_switchSubtype (b : Block) (subtype : Text) :
    Retouch b (b.switchSubtype subtype) := by
  rw [switchSubtype]
  rcases hc : b.switchSubtype? subtype with _ | c
  · exact .refl b
  · exact retouch_switchSubtype? hc

/-- Giving the subtype up retouches a block. -/
theorem retouch_clearSubtype (b : Block) : Retouch b b.clearSubtype := by
  rw [clearSubtype]
  split
  · refine ⟨⟨rfl, rfl, rfl⟩, rfl, rfl, rfl, rfl, rfl, fun h => ⟨Or.inl ⟨rfl, rfl⟩, h.own, ?_, ?_⟩⟩
    · intro s hs
      cases hs
    · exact fits_of_mem_stashed h.live h.stashed
  · exact .refl b

/-! ### Settings -/

/-- A parameter that a setting makes has a value that fits. -/
theorem fits_newSlot (b : Block) (s : Setting) : (b.newSlot s).Fits := by
  rw [newSlot]
  split
  · exact Slot.fits_comments (Slot.fits_user s.key s.value) s.comments
  · exact Slot.fits_comments (Slot.fits_untyped s.key s.value) s.comments

/-- **A setting** retouches the block. -/
theorem retouch_bindSetting (b : Block) (s : Setting) : Retouch b (b.bindSetting s) := by
  rw [bindSetting]
  split
  · exact retouch_addParameter (fits_newSlot b s)
  · dsimp only
    split
    · next t ht => exact retouch_updateParameter fun _ _ _ => Slot.fits_setText ht
    · exact (retouch_updateParameter fun _ _ _ => Slot.fits_relaxTo _ _).trans (retouch_warn _ _)

/-- The setting that chooses the subtype retouches a block. -/
theorem retouch_bindType (b : Block) (s : Setting) : Retouch b (b.bindType s) := by
  rw [bindType]
  split
  · exact retouch_bindSetting b s
  · split
    · next c hc =>
      refine (retouch_switchSubtype? hc).trans (retouch_updateParameter fun h t ht => ?_)
      exact Slot.fits_comments (fits_of_parameter? h ht) s.comments
    · exact ((retouch_clearSubtype b).trans (retouch_warn _ _)).trans (retouch_bindSetting _ s)

/-- Settings that are read one after the other retouch a block. -/
theorem retouch_foldl_bindSetting (settings : List Setting) : ∀ b : Block,
    Retouch b (settings.foldl bindSetting b) := by
  induction settings with
  | nil => exact .refl
  | cons s settings ih =>
    intro b
    exact (retouch_bindSetting b s).trans (ih (b.bindSetting s))

/-- **All the settings of a section** retouch the block. -/
theorem retouch_bindSettings (b : Block) (settings : List Setting) :
    Retouch b (b.bindSettings settings) := by
  show Retouch b ((splitType settings).2.foldl bindSetting
    ((splitType settings).1.elim b b.bindType))
  refine .trans ?_ (retouch_foldl_bindSetting _ _)
  rcases (splitType settings).1 with _ | s
  · exact .refl b
  · exact retouch_bindType b s

end BlockEdit.Block
