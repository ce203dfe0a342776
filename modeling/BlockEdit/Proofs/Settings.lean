import BlockEdit.Proofs.Retouch

/-!
# All the settings of a block at once

Settings are bound to a block one after the other. When no two of them have the same name, the
order does not matter to the parameters that the block has: each takes the setting of its name, and
the settings without a parameter make new ones. `Block.bound` says this in one step.

Main statement:

* **`Block.foldl_bindSetting_eq_bound`**: binding settings one by one is binding them at once.
-/

namespace BlockEdit

instance : Named Setting := ⟨Setting.key⟩

namespace Slot

/-- The slot with the value and the comment of a setting. -/
def take (s : Slot) (given : Setting) : Slot :=
  match ({ s with comments := given.comments } : Slot).setText given.value with
  | .ok t => t
  | .error _ => ({ s with comments := given.comments } : Slot).relaxTo given.value

/-- What is odd about the value of a setting for the slot. -/
def complaints (s : Slot) (path : Text) (given : Setting) : List Warning :=
  match s.type.read given.value with
  | .ok _ => []
  | .error e => [.invalidValue path given.key e.message]

/-- The slot with the setting of its name, if there is one. -/
def touch (settings : List Setting) (s : Slot) : Slot :=
  (Named.find? s.name settings).elim s s.take

variable {s : Slot} {given : Setting} {settings : List Setting}

/-- A parameter takes a text that reads as its type. -/
theorem take_of_ok {v : Value} (h : s.type.read given.value = .ok v) :
    s.take given = ({ s with comments := given.comments } : Slot).give (some v) := by
  rw [take, setText, h]
  rfl

/-- A parameter that is given any other text relaxes its type. -/
theorem take_of_error {e : ValueError} (h : s.type.read given.value = .error e) :
    s.take given = ({ s with comments := given.comments } : Slot).relaxTo given.value := by
  rw [take, setText, h]
  rfl

/-- A parameter keeps its name when it takes a setting. -/
@[simp] theorem name_take (s : Slot) (given : Setting) : (s.take given).name = s.name := by
  rcases h : s.type.read given.value with e | v
  · rw [take_of_error h]
    rfl
  · rw [take_of_ok h]
    rfl

/-- A parameter keeps its name among settings. -/
@[simp] theorem name_touch (settings : List Setting) (s : Slot) :
    (s.touch settings).name = s.name := by
  rw [touch]
  rcases Named.find? s.name settings with _ | given
  · rfl
  · exact name_take s given

/-- Settings of other names leave a parameter alone. -/
theorem touch_of_not_mem (h : s.name ∉ Named.names settings) : s.touch settings = s := by
  rw [touch, Named.find?_eq_none h]
  rfl

/-- Without settings a parameter stays as it is. -/
theorem touch_nil (s : Slot) : s.touch [] = s := rfl

/-- A slot takes the first setting of its name. -/
theorem touch_cons (given : Setting) (settings : List Setting) (s : Slot) :
    s.touch (given :: settings) =
      if given.key = s.name then s.take given else s.touch settings := by
  rw [touch, Named.find?]
  split
  · next h => rw [if_pos (show given.key = s.name from h)]; rfl
  · next h => rw [if_neg (show ¬given.key = s.name from h)]; rfl

/-- When the settings behind the first have other names, a slot takes them one after the other. -/
theorem touch_touch (h : given.key ∉ Named.names settings) (s : Slot) :
    (s.touch [given]).touch settings = s.touch (given :: settings) := by
  rw [touch_cons, touch_cons]
  split
  · next hk => rw [touch_of_not_mem (by rwa [name_take, ← hk])]
  · rw [touch_nil]

end Slot

namespace Block

open Slot

/-- The names of the parameters of the block, its own and those of its subtype. -/
theorem parameter?_eq_find? (b : Block) (n : Text) :
    b.parameter? n = Named.find? n b.allParameters := by
  rw [parameter?, allParameters, Named.find?_append]

/-- What is odd about a setting for the block. -/
def complaints (b : Block) (given : Setting) : List Warning :=
  (b.parameter? given.key).elim [] fun s => s.complaints b.path given

/-- The settings that no parameter of the block has the name of. -/
def newSettings (b : Block) (settings : List Setting) : List Setting :=
  settings.filter fun given => !Named.has given.key b.allParameters

/-- The block with all the settings. -/
def bound (b : Block) (settings : List Setting) : Block :=
  { b with
    info :=
      { b.info with
        parameters := b.info.parameters.map (touch settings) ++
          (b.newSettings settings).map b.newSlot
        subtypeParameters := b.info.subtypeParameters.map (touch settings)
        warnings := b.info.warnings ++ settings.flatMap b.complaints } }

/-- The block with more warnings. -/
def warnAll (b : Block) (ws : List Warning) : Block :=
  { b with info := { b.info with warnings := b.info.warnings ++ ws } }

/-- Without warnings a block stays as it is. -/
theorem warnAll_nil (b : Block) : b.warnAll [] = b := by
  rw [warnAll, List.append_nil]
  cases b
  rfl

variable {b : Block} {given : Setting} {settings : List Setting}

/-- A parameter that a setting makes has the name of the setting. -/
@[simp] theorem name_newSlot (b : Block) (given : Setting) :
    (b.newSlot given).name = given.key := by
  rw [newSlot]
  split
  · rfl
  · rfl

/-- A setting of another name leaves all parameters alone. -/
theorem map_touch_of_not_mem {slots : List Slot} (h : given.key ∉ Named.names slots) :
    slots.map (touch [given]) = slots := by
  conv => rhs; rw [← List.map_id slots]
  refine List.map_congr_left fun s hs => touch_of_not_mem ?_
  intro hm
  have hname : s.name = given.key := List.mem_singleton.mp hm
  exact h (hname ▸ Named.name_mem_names hs)

/-- Parameters keep their names among settings. -/
theorem names_map_touch (settings : List Setting) (slots : List Slot) :
    Named.names (slots.map (touch settings)) = Named.names slots :=
  Named.names_map fun s _ => name_touch settings s

/-- Parameters that settings make have the names of the settings. -/
theorem names_newSlots (b : Block) (settings : List Setting) :
    Named.names (settings.map b.newSlot) = Named.names settings := by
  rw [Named.names, List.map_map]
  exact List.map_congr_left fun given _ => name_newSlot b given

/-- The one slot of its name takes a setting. -/
theorem update_take {slots : List Slot} {s : Slot} (hn : (Named.names slots).Nodup)
    (hs : Named.find? given.key slots = some s) :
    Named.update given.key (fun _ => s.take given) slots = slots.map (touch [given]) := by
  have hcongr : Named.update given.key (fun _ => s.take given) slots =
      Named.update given.key (fun t => t.take given) slots := Named.update_congr hs rfl
  rw [hcongr, Named.update_eq_map hn]
  refine List.map_congr_left fun t _ => ?_
  rw [touch_cons, touch_nil]
  exact if_congr eq_comm rfl rfl

/-- A setting for a parameter of the block gives it a value, and the block what is odd about it. -/
theorem bindSetting_of_some {s : Slot} (hs : b.parameter? given.key = some s) :
    b.bindSetting given = (b.updateParameter given.key fun _ => s.take given).warnAll
      (s.complaints b.path given) := by
  rw [bindSetting, hs]
  rcases hr : s.type.read given.value with e | v
  · have hset : ({ s with comments := given.comments } : Slot).setText given.value = .error e := by
      rw [setText, hr]
      rfl
    simp only [hset, take_of_error hr, Slot.complaints, hr]
    rfl
  · have hset : ({ s with comments := given.comments } : Slot).setText given.value =
        .ok (s.take given) := by
      rw [take_of_ok hr, setText, hr]
      rfl
    simp only [hset, Slot.complaints, hr]
    exact (warnAll_nil _).symm

/-- **Binding one setting** is binding the list of it. -/
theorem bindSetting_eq_bound (hn : (Named.names b.allParameters).Nodup) (given : Setting) :
    b.bindSetting given = b.bound [given] := by
  have hnames := hn
  rw [allParameters, Named.names_append, List.nodup_append] at hnames
  obtain ⟨hown, hsub, hdisjoint⟩ := hnames
  -- A parameter that is there is the block's own or one of its subtype, and never both.
  rcases hs : b.parameter? given.key with _ | s
  · have hnone : given.key ∉ Named.names b.allParameters := by
      rw [parameter?_eq_find?] at hs
      exact Named.find?_eq_none_iff.mp hs
    have hall := hnone
    rw [allParameters, Named.names_append, List.mem_append, not_or] at hall
    have hnew : b.newSettings [given] = [given] := by
      rw [newSettings, List.filter_singleton, Named.has_eq_false_iff.mpr hnone]
      rfl
    have hcomplaints : [given].flatMap b.complaints = [] := by
      rw [List.flatMap_singleton, complaints, hs]
      rfl
    have hname : Named.name (b.newSlot given) = given.key := name_newSlot b given
    have hput : Named.put (b.newSlot given) b.info.parameters =
        b.info.parameters ++ [b.newSlot given] := by
      refine Named.put_of_not_mem ?_
      rw [hname]
      exact hall.1
    rw [bindSetting, hs, bound, hnew, hcomplaints, map_touch_of_not_mem hall.1,
      map_touch_of_not_mem hall.2, List.append_nil]
    dsimp only
    rw [addParameter, hput]
    rfl
  · have hmem : given.key ∈ Named.names b.allParameters := by
      rw [parameter?_eq_find?] at hs
      obtain ⟨hmem, hname⟩ := Named.find?_eq_some hs
      exact hname ▸ Named.name_mem_names hmem
    have hnew : b.newSettings [given] = [] := by
      rw [newSettings, List.filter_singleton, Named.has_iff.mpr hmem]
      rfl
    have hcomplaints : [given].flatMap b.complaints = s.complaints b.path given := by
      rw [List.flatMap_singleton, complaints, hs]
      rfl
    rw [bindSetting_of_some hs, bound, hnew, hcomplaints, List.map_nil, List.append_nil,
      updateParameter]
    rw [parameter?] at hs
    split
    · next hhas =>
      obtain ⟨t, ht⟩ := Named.exists_find? (Named.has_iff.mp hhas)
      rw [ht, Option.some_or, Option.some.injEq] at hs
      subst hs
      have hother : given.key ∉ Named.names b.info.subtypeParameters :=
        fun hm => hdisjoint _ (Named.has_iff.mp hhas) _ hm rfl
      rw [update_take hown ht, map_touch_of_not_mem hother]
      rfl
    · next hhas =>
      have hother := Named.has_eq_false_iff.mp (Bool.not_eq_true _ ▸ hhas)
      rw [Named.find?_eq_none hother, Option.none_or] at hs
      rw [update_take hsub hs, map_touch_of_not_mem hother]
      rfl

/-- A setting changes nothing about the parameters of other names. -/
theorem parameter?_bound_singleton {n : Text} (h : n ≠ given.key) :
    (b.bound [given]).parameter? n = b.parameter? n := by
  have hid : ∀ slots : List Slot, (Named.find? n slots).map (touch [given]) =
      Named.find? n slots := by
    intro slots
    rcases hs : Named.find? n slots with _ | s
    · rfl
    · rw [Option.map_some, touch_of_not_mem]
      intro hm
      have hname : s.name = given.key := List.mem_singleton.mp hm
      exact h ((Named.name_of_find? hs).symm.trans hname)
  have hnew : Named.find? n ((b.newSettings [given]).map b.newSlot) = none := by
    refine Named.find?_eq_none fun hm => ?_
    rw [names_newSlots] at hm
    obtain ⟨t, ht, rfl⟩ := Named.mem_names.mp hm
    exact h (congrArg Setting.key (List.mem_singleton.mp (List.mem_of_mem_filter ht)))
  have hmap : ∀ slots : List Slot, Named.find? n (slots.map (touch [given])) =
      (Named.find? n slots).map (touch [given]) :=
    fun slots => Named.find?_map (fun s => name_touch [given] s) n slots
  rw [parameter?, bound]
  dsimp only
  rw [Named.find?_append, hnew, Option.or_none, hmap, hmap, hid, hid, parameter?]

/-- Whether a setting is new does not depend on the others. -/
theorem newSettings_cons (b : Block) (given : Setting) (settings : List Setting) :
    b.newSettings (given :: settings) = b.newSettings [given] ++ b.newSettings settings := by
  rw [newSettings, newSettings, newSettings, ← List.filter_append, List.singleton_append]

/-- A block has a parameter of a name when one is found under it. -/
theorem has_allParameters (b : Block) (n : Text) :
    Named.has n b.allParameters = (b.parameter? n).isSome := by
  rw [parameter?_eq_find?, Named.has]

/-- **Settings with other names** can be bound behind the first one. -/
theorem bound_bound (h : given.key ∉ Named.names settings) :
    (b.bound [given]).bound settings = b.bound (given :: settings) := by
  have hne : ∀ t ∈ settings, t.key ≠ given.key :=
    fun t ht he => h (he ▸ Named.name_mem_names ht)
  have hnew : (b.bound [given]).newSettings settings = b.newSettings settings := by
    refine List.filter_congr fun t ht => ?_
    rw [has_allParameters, has_allParameters, parameter?_bound_singleton (hne t ht)]
  have hcomplaints : settings.flatMap (b.bound [given]).complaints =
      settings.flatMap b.complaints := by
    rw [List.flatMap_def, List.flatMap_def]
    refine congrArg List.flatten (List.map_congr_left fun t ht => ?_)
    rw [complaints, complaints, parameter?_bound_singleton (hne t ht)]
    rfl
  have hslots : ∀ slots : List Slot, (slots.map (touch [given])).map (touch settings) =
      slots.map (touch (given :: settings)) := by
    intro slots
    rw [List.map_map]
    exact List.map_congr_left fun s _ => touch_touch h s
  -- The parameter that the first setting makes is not set by the others.
  have hnewSlots : ((b.newSettings [given]).map b.newSlot).map (touch settings) =
      (b.newSettings [given]).map b.newSlot := by
    rw [List.map_map]
    refine List.map_congr_left fun t ht => touch_of_not_mem ?_
    rw [name_newSlot, List.mem_singleton.mp (List.mem_of_mem_filter ht)]
    exact h
  have hown : (b.bound [given]).info.parameters.map (touch settings) ++
      ((b.bound [given]).newSettings settings).map (b.bound [given]).newSlot =
        b.info.parameters.map (touch (given :: settings)) ++
          (b.newSettings (given :: settings)).map b.newSlot := by
    rw [hnew, newSettings_cons, List.map_append, ← List.append_assoc, bound]
    dsimp only
    rw [List.map_append, hslots, hnewSlots]
    rfl
  have hwarnings : (b.bound [given]).info.warnings ++
      settings.flatMap (b.bound [given]).complaints =
        b.info.warnings ++ (given :: settings).flatMap b.complaints := by
    rw [hcomplaints, List.flatMap_cons, ← List.append_assoc, bound]
    dsimp only
    rw [List.flatMap_singleton]
  rw [bound, hown, hwarnings]
  rw [bound]
  dsimp only
  rw [hslots, bound]

/-- The names of the parameters after one setting. -/
theorem nodup_bound_singleton (hn : (Named.names b.allParameters).Nodup) :
    (Named.names (b.bound [given]).allParameters).Nodup := by
  have hall : Named.names (b.bound [given]).allParameters =
      Named.names b.info.parameters ++ Named.names (b.newSettings [given]) ++
        Named.names b.info.subtypeParameters := by
    rw [allParameters, bound]
    dsimp only
    rw [Named.names_append, Named.names_append, names_map_touch, names_map_touch, names_newSlots]
  rw [hall]
  rw [allParameters, Named.names_append] at hn
  rcases hs : b.parameter? given.key with _ | s
  · have hnone : given.key ∉ Named.names b.allParameters := by
      rw [parameter?_eq_find?] at hs
      exact Named.find?_eq_none_iff.mp hs
    have hnew : b.newSettings [given] = [given] := by
      rw [newSettings, List.filter_singleton, Named.has_eq_false_iff.mpr hnone]
      rfl
    rw [allParameters, Named.names_append] at hnone
    rw [hnew]
    refine ((List.perm_append_comm.append_right _).trans ?_).nodup_iff.mpr
      (List.nodup_cons.mpr ⟨hnone, hn⟩)
    rfl
  · have hnew : b.newSettings [given] = [] := by
      rw [newSettings, List.filter_singleton, has_allParameters, hs]
      rfl
    rw [hnew, Named.names_nil, List.append_nil]
    exact hn

/-- **Binding settings one by one** is binding them at once, when no name is used twice. -/
theorem foldl_bindSetting_eq_bound : {settings : List Setting} →
    (Named.names settings).Nodup → {b : Block} → (Named.names b.allParameters).Nodup →
      settings.foldl bindSetting b = b.bound settings
  | [], _, b, _ => by
    have htouch : ∀ slots : List Slot, slots.map (touch []) = slots :=
      fun slots => (List.map_congr_left fun s _ => touch_nil s).trans (List.map_id slots)
    rw [List.foldl_nil, bound, htouch, htouch, newSettings, List.filter_nil, List.map_nil,
      List.append_nil, List.flatMap_nil, List.append_nil]
    cases b
    rfl
  | given :: settings, hs, b, hb => by
    rw [Named.names_cons, List.nodup_cons] at hs
    rw [List.foldl_cons, bindSetting_eq_bound hb,
      foldl_bindSetting_eq_bound hs.2 (nodup_bound_singleton hb), bound_bound hs.1]

end Block

end BlockEdit
