import BlockEdit.Proofs.Settings
import BlockEdit.Proofs.SortedMaps
import BlockEdit.Proofs.WrittenOutline

/-!
# Binding what was written

A block that settings were bound to is written, and what is written is bound again to the block as
it was before. The parameters come out the same: what a slot took from a setting is written as a
setting from which it takes the same. Only the order of new parameters and of warnings can change,
because the `type` is written first.

Main statements:

* **`Slot.take_setting_take`**: a slot takes the same from what it is written as.
* **`Block.alike_bound`**: a block with settings and the block with what is written for it are
  alike.
-/

namespace BlockEdit

open Layout (writtenSlots setting readComments)

/-- A comment whose lines do not end in carriage returns is read as it is. -/
theorem Layout.readComments_eq_self {comments : Text}
    (h : ∀ line ∈ Text.pieces (· == '\n') comments, Outline.IsCommentLine line) :
    readComments comments = comments := by
  have hmap : (Text.pieces (· == '\n') comments).map (Text.dropEndWhile (· == '\r')) =
      Text.pieces (· == '\n') comments :=
    (List.map_congr_left fun line hline => Text.dropEndWhile_eq_self (h line hline)).trans
      (List.map_id _)
  rw [readComments, hmap, Text.intercalate_pieces]

namespace Slot

variable {s : Slot} {given : Setting}

/-- What a slot took is text that its type reads just as the text of the setting. -/
theorem read_text_take (s : Slot) (given : Setting) :
    s.type.read (s.take given).text = s.type.read given.value := by
  rcases hr : s.type.read given.value with e | v
  · obtain ⟨w, hw⟩ := ValueType.exists_read_relaxed s.type given.value
    rw [take_of_error hr, relaxTo, hw, ← hr]
    exact ValueType.read_text_relaxed hw
  · rw [take_of_ok hr]
    exact ValueType.read_text (ValueType.hasType_of_read hr)

/-- What a slot took is written and can be bound again. -/
theorem setting_take (hc : ∀ line ∈ Text.pieces (· == '\n') given.comments,
    Outline.IsCommentLine line) :
    setting (s.take given) = ⟨s.name, (s.take given).text, given.comments⟩ := by
  have hcomments : (s.take given).comments = given.comments := by
    rcases hr : s.type.read given.value with e | v
    · rw [take_of_error hr]
      rfl
    · rw [take_of_ok hr]
      rfl
  rw [setting, name_take, hcomments, Layout.readComments_eq_self hc]

/-- **A slot takes the same** from what it is written as. -/
theorem take_setting_take (hc : ∀ line ∈ Text.pieces (· == '\n') given.comments,
    Outline.IsCommentLine line) : s.take (setting (s.take given)) = s.take given := by
  have hread := read_text_take s given
  rw [setting_take hc]
  rcases hr : s.type.read given.value with e | v
  · rw [hr] at hread
    obtain ⟨w, hw⟩ := ValueType.exists_read_relaxed s.type given.value
    have htext : (s.take given).text = w.text := by
      rw [take_of_error hr, relaxTo, hw]
      rfl
    have hagain : s.type.relaxed.read w.text = .ok w :=
      ValueType.read_text (ValueType.hasType_of_read hw)
    rw [htext] at hread ⊢
    have htake : s.take ⟨s.name, w.text, given.comments⟩ =
        ({ s with comments := given.comments } : Slot).relaxTo w.text := take_of_error hread
    rw [htake, take_of_error hr, relaxTo, relaxTo, hagain, hw]
  · rw [hr] at hread
    rw [take_of_ok hread, take_of_ok hr]

/-- What was odd about a setting is odd about what is written for it. -/
theorem complaints_setting_take (hk : given.key = s.name)
    (hc : ∀ line ∈ Text.pieces (· == '\n') given.comments, Outline.IsCommentLine line)
    (path : Text) : s.complaints path (setting (s.take given)) = s.complaints path given := by
  rw [setting_take hc, complaints, complaints, hk, read_text_take]

/-- A parameter that took a setting is written. -/
theorem isWritten_take (s : Slot) (given : Setting) : (s.take given).isWritten = true := by
  have hexplicit : (s.take given).explicit = true := by
    rcases hr : s.type.read given.value with e | v
    · rw [take_of_error hr]
      rfl
    · rw [take_of_ok hr]
      rfl
  rw [isWritten, hexplicit]
  rfl

end Slot

namespace Block

open Slot

/-- The block `c` says the same as `b`, apart from the order of parameters and warnings. -/
structure Alike (b c : Block) : Prop where
  /-- The name is the same. -/
  name : c.name = b.name
  /-- The path is the same. -/
  path : c.path = b.path
  /-- The comment behind the header is the same. -/
  comments : c.info.comments = b.info.comments
  /-- Both are the user's choice or both are not. -/
  userAdded : c.info.userAdded = b.info.userAdded
  /-- The subtype, the values and the comments of the parameters are the same. -/
  snapshot : BlockSnapshot.ofBlock c = BlockSnapshot.ofBlock b
  /-- The same parameters are written. -/
  written : writtenSlots c = writtenSlots b
  /-- The warnings are the same. -/
  warnings : c.info.warnings.Perm b.info.warnings

/-- The order of the parameters does not matter to a snapshot. -/
theorem snapshot_eq_of_perm {b c : Block} (hs : c.info.subtype = b.info.subtype)
    (hp : c.allParameters.Perm b.allParameters) (hn : (Named.names b.allParameters).Nodup) :
    BlockSnapshot.ofBlock c = BlockSnapshot.ofBlock b := by
  have hn' : (Named.names c.allParameters).Nodup := (hp.map _).nodup_iff.mpr hn
  have hvalues : ((c.allParameters.map fun s => (s.name, s.value)).map Prod.fst).Nodup := by
    rw [List.map_map]
    exact hn'
  have hcomments : (((c.allParameters.filter fun s => !s.comments.isEmpty).map
      fun s => (s.name, s.comments)).map Prod.fst).Nodup := by
    rw [List.map_map]
    exact hn'.sublist ((List.filter_sublist).map _)
  rw [BlockSnapshot.ofBlock, BlockSnapshot.ofBlock, hs,
    SortedMap.ofList_perm (hp.map _) hvalues,
    SortedMap.ofList_perm ((hp.filter _).map _) hcomments]

/-- No parameter of the block has been set. -/
structure Untouched (b : Block) : Prop where
  /-- No two parameters share a name. -/
  nodup : (Named.names b.allParameters).Nodup
  /-- No parameter is written. -/
  unwritten : ∀ s ∈ b.allParameters, s.isWritten = false
  /-- The `type` is not a parameter of the subtype. -/
  type : Slot.typeName ∉ Named.names b.info.subtypeParameters

variable {b : Block} {settings : List Setting}

/-! ### What is written -/

/-- What is written for a block is one of its parameters, and one that has something to write. -/
theorem mem_allParameters_of_written {s : Slot} (h : s ∈ writtenSlots b) :
    s ∈ b.allParameters ∧ s.isWritten = true := by
  rw [writtenSlots, List.mem_filter] at h
  refine ⟨?_, h.2⟩
  rcases List.mem_append.mp h.1 with hm | hm
  · rcases List.mem_append.mp hm with hm | hm
    · rw [Option.mem_toList, parameter?_eq_find?] at hm
      exact Named.mem_of_find? hm
    · exact List.mem_append_left _ (List.mem_of_mem_filter hm)
  · exact List.mem_append_right _ hm

/-- The parameters that are written are those of the block that are worth a line. -/
theorem mem_writtenSlots {s : Slot} (hn : (Named.names b.allParameters).Nodup) :
    s ∈ writtenSlots b ↔ s ∈ b.allParameters ∧ s.isWritten = true := by
  refine ⟨mem_allParameters_of_written, fun ⟨hm, hw⟩ => ?_⟩
  rw [writtenSlots, List.mem_filter]
  refine ⟨?_, hw⟩
  by_cases hname : s.name = Slot.typeName
  · have hfind : b.parameter? Slot.typeName = some s := by
      rw [parameter?_eq_find?, ← hname]
      exact Named.find?_of_mem hn hm
    rw [hfind]
    exact List.mem_append_left _ (List.mem_append_left _ (List.mem_singleton_self s))
  · rcases List.mem_append.mp hm with hm | hm
    · refine List.mem_append_left _ (List.mem_append_right _ (List.mem_filter.mpr ⟨hm, ?_⟩))
      exact decide_eq_true hname
    · exact List.mem_append_right _ hm

/-- No name is written twice. -/
theorem nodup_writtenSlots (hn : (Named.names b.allParameters).Nodup)
    (ht : Slot.typeName ∉ Named.names b.info.subtypeParameters) :
    (Named.names (writtenSlots b)).Nodup := by
  have hall := hn
  rw [allParameters, Named.names_append, List.nodup_append] at hall
  obtain ⟨hown, hsub, hdisjoint⟩ := hall
  refine List.Nodup.sublist ((List.filter_sublist).map Named.name) ?_
  rw [List.map_append, List.map_append]
  have htype : ∀ n ∈ (b.parameter? Slot.typeName).toList.map Named.name, n = Slot.typeName := by
    intro n hm
    obtain ⟨s, hs, rfl⟩ := List.mem_map.mp hm
    rw [Option.mem_toList, parameter?_eq_find?] at hs
    exact Named.name_of_find? hs
  have hothers : ∀ n ∈ (b.info.parameters.filter (·.name ≠ Slot.typeName)).map Named.name,
      n ≠ Slot.typeName ∧ n ∈ Named.names b.info.parameters := by
    intro n hm
    obtain ⟨s, hs, rfl⟩ := List.mem_map.mp hm
    exact ⟨of_decide_eq_true (List.mem_filter.mp hs).2,
      Named.name_mem_names (List.mem_filter.mp hs).1⟩
  refine List.nodup_append.mpr ⟨List.nodup_append.mpr ⟨?_, ?_, ?_⟩, hsub, ?_⟩
  · rcases b.parameter? Slot.typeName with _ | s
    · exact List.nodup_nil
    · exact List.nodup_singleton _
  · exact hown.sublist ((List.filter_sublist).map Named.name)
  · intro n hn m hm
    rw [htype n hn]
    exact (hothers m hm).1.symm
  · intro n hn m hm
    rcases List.mem_append.mp hn with hn | hn
    · rw [htype n hn]
      rintro rfl
      exact ht hm
    · exact hdisjoint n (hothers n hn).2 m hm

/-! ### Binding again -/

/-- What is written for the slot that a setting was bound to. -/
def reset (b : Block) (given : Setting) : Setting :=
  setting ((b.parameter? given.key).elim (b.newSlot given) (·.take given))

/-- What is written for a parameter that took a setting has the name of the setting. -/
theorem key_reset (b : Block) (given : Setting) : (b.reset given).key = given.key := by
  rw [reset]
  rcases hs : b.parameter? given.key with _ | s
  · exact name_newSlot b given
  · rw [parameter?_eq_find?] at hs
    exact (name_take s given).trans (Named.name_of_find? hs)

/-- The names of the parameters after settings were bound. -/
theorem names_bound (b : Block) (settings : List Setting) :
    (Named.names (b.bound settings).allParameters).Perm
      (Named.names (b.newSettings settings) ++ Named.names b.allParameters) := by
  have hall : Named.names (b.bound settings).allParameters =
      Named.names b.info.parameters ++ Named.names (b.newSettings settings) ++
        Named.names b.info.subtypeParameters := by
    rw [allParameters, bound]
    dsimp only
    rw [Named.names_append, Named.names_append, names_map_touch, names_map_touch, names_newSlots]
  rw [hall, allParameters, Named.names_append, ← List.append_assoc]
  exact List.perm_append_comm.append_right _

/-- A setting is new when no parameter of the block has its name. -/
theorem mem_newSettings {given : Setting} : given ∈ b.newSettings settings ↔
    given ∈ settings ∧ given.key ∉ Named.names b.allParameters := by
  rw [newSettings, List.mem_filter, Bool.not_eq_true', Named.has_eq_false_iff]

/-- Settings with names of their own leave a block whose parameters have names of their own. -/
theorem nodup_bound (hb : (Named.names b.allParameters).Nodup)
    (hs : (Named.names settings).Nodup) :
    (Named.names (b.bound settings).allParameters).Nodup := by
  refine (names_bound b settings).nodup_iff.mpr (List.nodup_append.mpr ⟨?_, hb, ?_⟩)
  · exact hs.sublist ((List.filter_sublist).map Named.name)
  · intro n hn m hm
    obtain ⟨given, hgiven, rfl⟩ := Named.mem_names.mp hn
    rintro rfl
    exact (mem_newSettings.mp hgiven).2 hm

/-- The parameters after settings were bound: the old ones with their settings, and new ones. -/
theorem mem_allParameters_bound {s : Slot} : s ∈ (b.bound settings).allParameters ↔
    (∃ t ∈ b.allParameters, t.touch settings = s) ∨
      ∃ given ∈ b.newSettings settings, b.newSlot given = s := by
  have hall : (b.bound settings).allParameters =
      b.info.parameters.map (touch settings) ++ (b.newSettings settings).map b.newSlot ++
        b.info.subtypeParameters.map (touch settings) := rfl
  rw [hall, allParameters, List.mem_append, List.mem_append, List.mem_map, List.mem_map,
    List.mem_map]
  constructor
  · rintro ((⟨t, ht, rfl⟩ | h) | ⟨t, ht, rfl⟩)
    · exact Or.inl ⟨t, List.mem_append_left _ ht, rfl⟩
    · exact Or.inr h
    · exact Or.inl ⟨t, List.mem_append_right _ ht, rfl⟩
  · rintro (⟨t, ht, rfl⟩ | h)
    · rcases List.mem_append.mp ht with ht | ht
      · exact Or.inl (Or.inl ⟨t, ht, rfl⟩)
      · exact Or.inr ⟨t, ht, rfl⟩
    · exact Or.inl (Or.inr h)

/-- A parameter that a setting makes is written. -/
theorem isWritten_newSlot (b : Block) (given : Setting) : (b.newSlot given).isWritten = true := by
  rw [newSlot]
  split
  · rfl
  · rfl

/-- The parameter that a setting of a block with names of its own is for. -/
theorem parameter?_of_mem {s : Slot} (hb : (Named.names b.allParameters).Nodup)
    (hs : s ∈ b.allParameters) : b.parameter? s.name = some s := by
  rw [parameter?_eq_find?]
  exact Named.find?_of_mem hb hs

/-- What is written for settings with names of their own has names of its own. -/
theorem nodup_reset (hs : (Named.names settings).Nodup) :
    (Named.names (settings.map b.reset)).Nodup := by
  rw [Named.names_map fun given _ => key_reset b given]
  exact hs

/-- The subtype of an untouched block has no `type`, whatever is bound. -/
theorem type_not_mem_bound (hb : b.Untouched) (settings : List Setting) :
    Slot.typeName ∉ Named.names (b.bound settings).info.subtypeParameters := by
  have hnames : Named.names (b.bound settings).info.subtypeParameters =
      Named.names b.info.subtypeParameters := names_map_touch settings b.info.subtypeParameters
  rw [hnames]
  exact hb.type

/-- What is written after settings were bound, as settings. -/
def rewritten (b : Block) (settings : List Setting) : List Setting :=
  (writtenSlots (b.bound settings)).map setting

/-- A new slot is made anew from what is written for it. -/
theorem newSlot_reset {given : Setting}
    (hc : ∀ line ∈ Text.pieces (· == '\n') given.comments, Outline.IsCommentLine line)
    (hnew : given.key ∉ Named.names b.allParameters) :
    b.newSlot (b.reset given) = b.newSlot given ∧ setting (b.newSlot given) = b.reset given := by
  have hreset : b.reset given = setting (b.newSlot given) := by
    rw [reset, parameter?_eq_find?, Named.find?_eq_none hnew]
    rfl
  have hcomments : (b.newSlot given).comments = given.comments := by
    rw [newSlot]
  have htext : (b.newSlot given).text = given.value := by
    rw [newSlot]
    split
    · rfl
    · rfl
  refine ⟨?_, hreset.symm⟩
  rw [hreset, setting, name_newSlot, htext, hcomments, Layout.readComments_eq_self hc]

section rebinding

variable (hb : b.Untouched) (hs : (Named.names settings).Nodup)

include hb hs

/-- The parameters that are written after settings were bound are just those with settings. -/
theorem mem_writtenSlots_bound {s : Slot} : s ∈ writtenSlots (b.bound settings) ↔
    ∃ given ∈ settings, (b.parameter? given.key).elim (b.newSlot given) (·.take given) = s := by
  rw [mem_writtenSlots (nodup_bound hb.nodup hs), mem_allParameters_bound]
  constructor
  · rintro ⟨⟨t, ht, rfl⟩ | ⟨given, hgiven, rfl⟩, hw⟩
    · rcases hfind : Named.find? t.name settings with _ | given
      · rw [touch, hfind, Option.elim_none, hb.unwritten t ht] at hw
        cases hw
      · obtain ⟨hmem, hname⟩ := Named.find?_eq_some hfind
        refine ⟨given, hmem, ?_⟩
        rw [show given.key = t.name from hname, parameter?_of_mem hb.nodup ht, touch, hfind]
        rfl
    · obtain ⟨hmem, hnone⟩ := mem_newSettings.mp hgiven
      refine ⟨given, hmem, ?_⟩
      rw [parameter?_eq_find?, Named.find?_eq_none hnone]
      rfl
  · rintro ⟨given, hgiven, rfl⟩
    rcases hfind : b.parameter? given.key with _ | t
    · rw [parameter?_eq_find?] at hfind
      exact ⟨Or.inr ⟨given, mem_newSettings.mpr ⟨hgiven, Named.find?_eq_none_iff.mp hfind⟩, rfl⟩,
        isWritten_newSlot b given⟩
    · rw [parameter?_eq_find?] at hfind
      obtain ⟨hmem, hname⟩ := Named.find?_eq_some hfind
      refine ⟨Or.inl ⟨t, hmem, ?_⟩, isWritten_take t given⟩
      have hgiven' : Named.find? t.name settings = some given := by
        rw [show t.name = given.key from hname]
        exact Named.find?_of_mem hs hgiven
      rw [touch, hgiven']
      rfl

/-- No name is written twice after settings were bound. -/
theorem nodup_rewritten : (Named.names (b.rewritten settings)).Nodup := by
  have hnames : Named.names (b.rewritten settings) =
      Named.names (writtenSlots (b.bound settings)) := by
    rw [rewritten, Named.names, List.map_map]
    rfl
  rw [hnames]
  exact nodup_writtenSlots (nodup_bound hb.nodup hs) (type_not_mem_bound hb settings)

/-- **What is written** after settings were bound are these settings, as the slots took them. -/
theorem rewritten_perm : (b.rewritten settings).Perm (settings.map b.reset) := by
  refine (List.perm_ext_iff_of_nodup (List.Nodup.of_map _ (nodup_rewritten hb hs))
    (List.Nodup.of_map _ (nodup_reset hs))).mpr fun t => ?_
  rw [rewritten, List.mem_map, List.mem_map]
  constructor
  · rintro ⟨s, hw, rfl⟩
    obtain ⟨given, hgiven, rfl⟩ := (mem_writtenSlots_bound hb hs).mp hw
    exact ⟨given, hgiven, rfl⟩
  · rintro ⟨given, hgiven, rfl⟩
    exact ⟨_, (mem_writtenSlots_bound hb hs).mpr ⟨given, hgiven, rfl⟩, rfl⟩

/-- A name that is written is the name of a setting. -/
theorem key_of_mem_writtenSlots_bound {s : Slot} (h : s ∈ writtenSlots (b.bound settings)) :
    ∃ given ∈ settings, given.key = s.name := by
  have hmem := (rewritten_perm hb hs).mem_iff.mp (List.mem_map_of_mem (f := setting) h)
  obtain ⟨given, hgiven, heq⟩ := List.mem_map.mp hmem
  exact ⟨given, hgiven, (key_reset b given).symm.trans (congrArg Setting.key heq)⟩

variable (hc : ∀ given ∈ settings, ∀ line ∈ Text.pieces (· == '\n') given.comments,
  Outline.IsCommentLine line)

include hc

/-- **A slot takes from what is written** what it took from the settings. -/
theorem touch_rewritten {t : Slot} (ht : t ∈ b.allParameters) :
    t.touch (b.rewritten settings) = t.touch settings := by
  have hperm := (rewritten_perm hb hs).symm
  rw [touch, touch, Named.find?_perm hperm (nodup_reset hs)]
  rcases hfind : Named.find? t.name settings with _ | given
  · have hnone : t.name ∉ Named.names (settings.map b.reset) := by
      rw [Named.names_map fun given _ => key_reset b given]
      exact Named.find?_eq_none_iff.mp hfind
    rw [Named.find?_eq_none hnone]
  · obtain ⟨hmem, hname⟩ := Named.find?_eq_some hfind
    have hreset : b.reset given = setting (t.take given) := by
      rw [reset, show given.key = t.name from hname, parameter?_of_mem hb.nodup ht]
      rfl
    have hfound : Named.find? t.name (settings.map b.reset) = some (b.reset given) := by
      have := Named.find?_of_mem (nodup_reset hs) (List.mem_map_of_mem (f := b.reset) hmem)
      rwa [show Named.name (b.reset given) = given.key from key_reset b given,
        show given.key = t.name from hname] at this
    rw [hfound, Option.elim_some, Option.elim_some, hreset, take_setting_take (hc given hmem)]

/-- The new slots that are made again are those that are written. -/
theorem newSlots_rewritten :
    (b.newSettings (b.rewritten settings)).map b.newSlot =
      (writtenSlots (b.bound settings)).filter fun s => !Named.has s.name b.allParameters := by
  rw [newSettings, rewritten, List.filter_map, List.map_map]
  conv => rhs; rw [← List.map_id (List.filter _ _)]
  refine List.map_congr_left fun s hmem => ?_
  obtain ⟨hw, hnew⟩ := List.mem_filter.mp hmem
  obtain ⟨given, hgiven, rfl⟩ := (mem_writtenSlots_bound hb hs).mp hw
  rcases hfind : b.parameter? given.key with _ | t
  · rw [parameter?_eq_find?] at hfind
    obtain ⟨hsame, hsetting⟩ :=
      newSlot_reset (hc given hgiven) (Named.find?_eq_none_iff.mp hfind)
    rw [Function.comp_apply, Option.elim_none, hsetting, hsame]
    rfl
  · exfalso
    have hkey : (setting (t.take given)).key = t.name := name_take t given
    rw [hfind, Option.elim_some, Function.comp_apply, hkey, Bool.not_eq_true',
      Named.has_eq_false_iff] at hnew
    rw [parameter?_eq_find?] at hfind
    exact hnew (Named.name_mem_names (Named.mem_of_find? hfind))

/-- The new slots are the same, in an order that can differ. -/
theorem newSlots_rewritten_perm :
    ((b.newSettings (b.rewritten settings)).map b.newSlot).Perm
      ((b.newSettings settings).map b.newSlot) := by
  rw [newSlots_rewritten hb hs hc]
  have hwritten := nodup_writtenSlots (nodup_bound hb.nodup hs) (type_not_mem_bound hb settings)
  have hnew : (Named.names ((b.newSettings settings).map b.newSlot)).Nodup := by
    rw [names_newSlots]
    exact hs.sublist ((List.filter_sublist).map Named.name)
  refine (List.perm_ext_iff_of_nodup ((List.Nodup.of_map _ hwritten).filter _)
    (List.Nodup.of_map _ hnew)).mpr fun s => ?_
  rw [List.mem_filter, mem_writtenSlots_bound hb hs, List.mem_map]
  constructor
  · rintro ⟨⟨given, hgiven, rfl⟩, hno⟩
    rw [Bool.not_eq_true', Named.has_eq_false_iff] at hno
    rcases hfind : b.parameter? given.key with _ | t
    · rw [parameter?_eq_find?] at hfind
      exact ⟨given, mem_newSettings.mpr ⟨hgiven, Named.find?_eq_none_iff.mp hfind⟩, rfl⟩
    · rw [hfind, Option.elim_some, name_take] at hno
      rw [parameter?_eq_find?] at hfind
      exact absurd (Named.name_mem_names (Named.mem_of_find? hfind)) hno
  · rintro ⟨given, hgiven, rfl⟩
    obtain ⟨hmem, hnone⟩ := mem_newSettings.mp hgiven
    refine ⟨⟨given, hmem, ?_⟩, ?_⟩
    · rw [parameter?_eq_find?, Named.find?_eq_none hnone]
      rfl
    · rw [name_newSlot, Bool.not_eq_true', Named.has_eq_false_iff]
      exact hnone

/-- Apart from the `type`, the new slots are made again in their order. -/
theorem filter_newSlots_rewritten :
    ((b.newSettings (b.rewritten settings)).map b.newSlot).filter (·.name ≠ Slot.typeName) =
      ((b.newSettings settings).map b.newSlot).filter (·.name ≠ Slot.typeName) := by
  rw [newSlots_rewritten hb hs hc, writtenSlots, List.filter_filter, List.filter_filter,
    List.filter_append, List.filter_append]
  generalize hp : (fun s : Slot => decide (s.name ≠ Slot.typeName) &&
    !Named.has s.name b.allParameters && s.isWritten) = p
  have hspec : ∀ s, p s = (decide (s.name ≠ Slot.typeName) &&
      !Named.has s.name b.allParameters && s.isWritten) := fun s => hp ▸ rfl
  have htype : ((b.bound settings).parameter? Slot.typeName).toList.filter p = [] := by
    refine List.filter_eq_nil_iff.mpr fun s hm => ?_
    rw [Option.mem_toList, parameter?_eq_find?] at hm
    rw [hspec, show s.name = Slot.typeName from Named.name_of_find? hm]
    simp
  have hold : ∀ slots : List Slot, (∀ s ∈ slots, s ∈ b.allParameters) →
      (slots.map (touch settings)).filter p = [] := by
    intro slots hmem
    refine List.filter_eq_nil_iff.mpr fun s hm => ?_
    obtain ⟨t, ht, rfl⟩ := List.mem_map.mp hm
    have hhas : Named.has t.name b.allParameters = true :=
      Named.has_iff.mpr (Named.name_mem_names (hmem t ht))
    rw [hspec, name_touch, hhas]
    simp
  have hnew : ((b.newSettings settings).map b.newSlot).filter p =
      ((b.newSettings settings).map b.newSlot).filter (·.name ≠ Slot.typeName) := by
    refine List.filter_congr fun s hm => ?_
    obtain ⟨given, hgiven, rfl⟩ := List.mem_map.mp hm
    rw [hspec, isWritten_newSlot, name_newSlot,
      Named.has_eq_false_iff.mpr (mem_newSettings.mp hgiven).2]
    simp
  have hown : ((b.bound settings).info.parameters.filter (·.name ≠ Slot.typeName)).filter p =
      ((b.newSettings settings).map b.newSlot).filter (·.name ≠ Slot.typeName) := by
    have hfields : (b.bound settings).info.parameters = b.info.parameters.map (touch settings) ++
        (b.newSettings settings).map b.newSlot := rfl
    rw [List.filter_comm, hfields, List.filter_append,
      hold _ fun s hm => List.mem_append_left _ hm, List.nil_append, hnew, List.filter_filter]
    simp
  have hsub : (b.bound settings).info.subtypeParameters.filter p = [] :=
    hold _ fun s hm => List.mem_append_right _ hm
  rw [htype, hown, hsub, List.nil_append, List.append_nil]

/-- What was odd about the settings is odd about what is written for them. -/
theorem complaints_rewritten_perm :
    ((b.rewritten settings).flatMap b.complaints).Perm (settings.flatMap b.complaints) := by
  refine ((rewritten_perm hb hs).flatMap_right _).trans (.of_eq ?_)
  rw [List.flatMap_map, List.flatMap_def, List.flatMap_def]
  refine congrArg List.flatten (List.map_congr_left fun given hgiven => ?_)
  rw [complaints, complaints, key_reset]
  rcases hfind : b.parameter? given.key with _ | t
  · rfl
  · have hname := hfind
    rw [parameter?_eq_find?] at hname
    rw [Option.elim_some, Option.elim_some, reset, hfind, Option.elim_some]
    exact complaints_setting_take (Named.name_of_find? hname).symm (hc given hgiven) b.path

/-- **A block with settings** and the block with what is written for it are alike. -/
theorem alike_bound : Alike (b.bound settings) (b.bound (b.rewritten settings)) := by
  have hown : (b.bound (b.rewritten settings)).info.parameters =
      b.info.parameters.map (touch settings) ++
        (b.newSettings (b.rewritten settings)).map b.newSlot := by
    rw [bound]
    dsimp only
    rw [List.map_congr_left fun s hm => touch_rewritten hb hs hc (List.mem_append_left _ hm)]
  have hsub : (b.bound (b.rewritten settings)).info.subtypeParameters =
      (b.bound settings).info.subtypeParameters :=
    List.map_congr_left fun s hm => touch_rewritten hb hs hc (List.mem_append_right _ hm)
  have hperm : (b.bound (b.rewritten settings)).allParameters.Perm
      (b.bound settings).allParameters := by
    rw [allParameters, hown, hsub]
    exact ((newSlots_rewritten_perm hb hs hc).append_left _).append_right _
  have hnodup := nodup_bound hb.nodup hs
  have hfilter : (b.bound (b.rewritten settings)).info.parameters.filter
      (·.name ≠ Slot.typeName) =
        (b.bound settings).info.parameters.filter (·.name ≠ Slot.typeName) := by
    rw [hown, List.filter_append, filter_newSlots_rewritten hb hs hc, ← List.filter_append]
    rfl
  refine ⟨rfl, rfl, rfl, rfl, snapshot_eq_of_perm rfl hperm hnodup, ?_, ?_⟩
  · rw [writtenSlots, writtenSlots, hfilter, hsub, parameter?_eq_find?, parameter?_eq_find?,
      Named.find?_perm hperm.symm hnodup]
  · exact (complaints_rewritten_perm hb hs hc).append_left _

end rebinding

end Block

end BlockEdit
