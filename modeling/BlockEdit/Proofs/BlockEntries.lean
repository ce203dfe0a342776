import BlockEdit.Proofs.Apart
import BlockEdit.Proofs.SortedMaps

/-!
# What a snapshot holds of a block

A snapshot has the values and the comments of all parameters of a block by name. When no name stands
for two parameters, it finds what the block finds, and a change of one parameter is a change at one
name. A name that stands for two parameters finds the one of the subtype: it masks the other.

Main statements:

* **`Block.snapshot_updateParameter`**, **`Block.snapshot_addParameter`**: a parameter that is
  changed or added, in the snapshot of its block.
* **`Block.value_switchSubtype?`**: the value of a parameter in the snapshot of its block changes in
  a switch exactly when a parameter from the stash masks it with another value.
-/

namespace BlockEdit

namespace BlockSnapshot

/-- The snapshot of a block with a value at a name. -/
def setValue (name : Text) (value : Option Value) (s : BlockSnapshot) : BlockSnapshot :=
  { s with values := s.values.insert name value }

/-- The snapshot of a block with a comment at a name; there is none when it is empty. -/
def setComment (name comment : Text) (s : BlockSnapshot) : BlockSnapshot :=
  { s with
    comments :=
      if comment.isEmpty then s.comments.erase name else s.comments.insert name comment }

variable {s : BlockSnapshot}

/-- The comments stay in the order of their names when one of them is set. -/
theorem increasing_setComment (h : SortedMap.Increasing s.comments.entries) (name comment : Text) :
    SortedMap.Increasing (s.setComment name comment).comments.entries := by
  rw [setComment]
  dsimp only
  split
  · exact SortedMap.increasing_erase h _
  · exact SortedMap.increasing_insert h _ _

/-- A comment that is set is found under its name, unless it is empty, and no other one is
changed. -/
theorem find?_setComment (s : BlockSnapshot) (name comment n : Text) :
    (s.setComment name comment).comments.find? n =
      if n = name then if comment.isEmpty then none else some comment
      else s.comments.find? n := by
  rw [setComment]
  dsimp only
  split
  · next hempty =>
    split
    · next hn => rw [hn, SortedMap.find?_erase]
    · next hn => rw [SortedMap.find?_erase_of_ne hn]
  · next hsome =>
    split
    · next hn => rw [hn, SortedMap.find?_insert]
    · next hn => rw [SortedMap.find?_insert_of_ne hn]

end BlockSnapshot

namespace Block

open BlockInfo (Mapped)
open BlockSnapshot (ofBlock)

variable {b c : Block} {n : Text} {s : Slot}

/-! ### Look-ups by name -/

/-- A name stands for the parameter of the subtype, or else for that of the block. -/
theorem find?_values (h : b.info.Mapped) (n : Text) :
    (ofBlock b).values.find? n = ((Named.find? n b.info.subtypeParameters).or
      (Named.find? n b.info.parameters)).map Slot.value :=
  SortedMap.find?_ofList_names_append Slot.value h.own h.live n

/-- **Where no name stands for two parameters**, the values are those that the block has. -/
theorem find?_values_of_apart (h : (Named.names b.allParameters).Nodup) (n : Text) :
    (ofBlock b).values.find? n = (b.parameter? n).map Slot.value := by
  rw [parameter?_eq_find?]
  exact SortedMap.find?_ofList_names Slot.value h n

/-- **Where no name stands for two parameters**, the comments are those that the block has. -/
theorem find?_comments_of_apart (h : (Named.names b.allParameters).Nodup) (n : Text) :
    (ofBlock b).comments.find? n =
      ((b.parameter? n).filter fun s => !s.comments.isEmpty).map Slot.comments := by
  rw [parameter?_eq_find?, ← Named.find?_filter h]
  exact SortedMap.find?_ofList_names Slot.comments (Named.nodup_filter h) n

/-- What a block finds after a change of a parameter that keeps its name. -/
theorem parameter?_updateParameter {f : Slot → Slot} (hs : b.parameter? n = some s)
    (hf : (f s).name = n) (m : Text) :
    (b.updateParameter n f).parameter? m = if m = n then some (f s) else b.parameter? m := by
  -- The change is made in the list in which the parameter is found.
  rw [parameter?] at hs
  rw [updateParameter]
  split
  · next hhas =>
    obtain ⟨t, ht⟩ := Named.exists_find? (Named.has_iff.mp hhas)
    rw [ht, Option.some_or] at hs
    cases hs
    rw [parameter?, Named.find?_update_of_find? ht hf]
    split
    · rw [Option.some_or]
    · rfl
  · next hhas =>
    have hnone : Named.find? n b.info.parameters = none :=
      Named.find?_eq_none fun hm => hhas (Named.has_iff.mpr hm)
    rw [hnone, Option.none_or] at hs
    rw [parameter?, Named.find?_update_of_find? hs hf]
    split
    · next hm => rw [hm, hnone, Option.none_or]
    · rfl

/-- What a block finds after a parameter was added. -/
theorem parameter?_addParameter (b : Block) (s : Slot) (m : Text) :
    (b.addParameter s).parameter? m = if m = s.name then some s else b.parameter? m := by
  rw [parameter?, addParameter]
  split
  · next hm => rw [hm, show s.name = Named.name s from rfl, Named.find?_put, Option.some_or]
  · next hm => rw [Named.find?_put_of_ne (show Named.name s ≠ m from Ne.symm hm)]; rfl

/-! ### Changes of one parameter -/

/-- The values of a block are in the order of their names. -/
theorem increasing_values (b : Block) : SortedMap.Increasing (ofBlock b).values.entries :=
  SortedMap.increasing_ofList _

/-- The comments of a block are in the order of their names. -/
theorem increasing_comments (b : Block) : SortedMap.Increasing (ofBlock b).comments.entries :=
  SortedMap.increasing_ofList _

/-- A change of a parameter that keeps its name gives no name to two parameters. -/
theorem nodup_updateParameter {f : Slot → Slot} (h : (Named.names b.allParameters).Nodup)
    (hs : b.parameter? n = some s) (hf : (f s).name = n) :
    (Named.names (b.updateParameter n f).allParameters).Nodup := by
  have hname : ∀ t, b.parameter? n = some t → (f t).name = t.name := by
    intro t ht
    rw [hs] at ht
    cases ht
    rw [parameter?_eq_find?] at hs
    exact hf.trans (Named.name_of_find? hs).symm
  obtain ⟨hown, hlive⟩ := names_updateParameter hname
  rw [allParameters, Named.names_append, hown, hlive, ← Named.names_append]
  exact h

/-- A change of a parameter changes its one value, where names tell parameters apart. -/
theorem values_updateParameter {f : Slot → Slot} (h : (Named.names b.allParameters).Nodup)
    (hs : b.parameter? n = some s) (hf : (f s).name = n) :
    (ofBlock (b.updateParameter n f)).values = (ofBlock b).values.insert n (f s).value := by
  refine SortedMap.ext_find? (increasing_values _)
    (SortedMap.increasing_insert (increasing_values b) _ _) fun m => ?_
  rw [find?_values_of_apart (nodup_updateParameter h hs hf),
    parameter?_updateParameter hs hf]
  split
  · next hm => rw [hm, SortedMap.find?_insert, Option.map_some]
  · next hm => rw [SortedMap.find?_insert_of_ne hm, find?_values_of_apart h]

/-- What a snapshot has as the comment of a parameter. -/
theorem map_comments (s : Slot) :
    ((some s).filter fun s => !s.comments.isEmpty).map Slot.comments =
      if s.comments.isEmpty then none else some s.comments := by
  rw [Option.filter_some]
  cases s.comments.isEmpty
  · rfl
  · rfl

/-- A change of a parameter changes its one comment, where names tell parameters apart. -/
theorem comments_updateParameter {f : Slot → Slot} (h : (Named.names b.allParameters).Nodup)
    (hs : b.parameter? n = some s) (hf : (f s).name = n) :
    (ofBlock (b.updateParameter n f)).comments =
      ((ofBlock b).setComment n (f s).comments).comments := by
  refine SortedMap.ext_find? (increasing_comments _)
    (BlockSnapshot.increasing_setComment (increasing_comments b) _ _) fun m => ?_
  rw [find?_comments_of_apart (nodup_updateParameter h hs hf),
    parameter?_updateParameter hs hf, BlockSnapshot.find?_setComment]
  split
  · exact map_comments _
  · exact (find?_comments_of_apart h m).symm

/-- **A parameter that is changed** is changed at its name, and nothing else is. -/
theorem snapshot_updateParameter {f : Slot → Slot} (h : (Named.names b.allParameters).Nodup)
    (hs : b.parameter? n = some s) (hf : (f s).name = n) :
    ofBlock (b.updateParameter n f) =
      ((ofBlock b).setComment n (f s).comments).setValue n (f s).value := by
  have hsubtype : (b.updateParameter n f).info.subtype = b.info.subtype := by
    rw [updateParameter]
    split
    · rfl
    · rfl
  exact congr (congr (congrArg BlockSnapshot.mk hsubtype) (values_updateParameter h hs hf))
    (comments_updateParameter h hs hf)

/-- What is there already can be set again. -/
theorem setComment_of_parameter? (h : (Named.names b.allParameters).Nodup)
    (hs : b.parameter? n = some s) : (ofBlock b).setComment n s.comments = ofBlock b := by
  have hsame : ((ofBlock b).setComment n s.comments).comments = (ofBlock b).comments := by
    refine SortedMap.ext_find? (BlockSnapshot.increasing_setComment (increasing_comments b) _ _)
      (increasing_comments b) fun m => ?_
    rw [BlockSnapshot.find?_setComment]
    split
    · next hm => rw [hm, find?_comments_of_apart h, hs, map_comments]
    · rfl
  exact congrArg (BlockSnapshot.mk _ _) hsame

/-- Setting a parameter to the value that it has changes nothing. -/
theorem setValue_of_parameter? (h : (Named.names b.allParameters).Nodup)
    (hs : b.parameter? n = some s) : (ofBlock b).values.insert n s.value = (ofBlock b).values := by
  refine SortedMap.insert_of_find? (increasing_values b) ?_
  rw [find?_values_of_apart h, hs, Option.map_some]

/-- **A value that is set** is the only thing that changes. -/
theorem snapshot_setValue {t : Slot} (h : (Named.names b.allParameters).Nodup)
    (hs : b.parameter? n = some s) (hname : t.name = s.name) (hcomments : t.comments = s.comments) :
    ofBlock (b.updateParameter n fun _ => t) = (ofBlock b).setValue n t.value := by
  have hn : s.name = n := by
    rw [parameter?_eq_find?] at hs
    exact Named.name_of_find? hs
  rw [snapshot_updateParameter h hs (hname.trans hn), hcomments, setComment_of_parameter? h hs]

/-- **A comment that is set** is the only thing that changes. -/
theorem snapshot_setComment (h : (Named.names b.allParameters).Nodup)
    (hs : b.parameter? n = some s) (comment : Text) :
    ofBlock (b.updateParameter n fun s => { s with comments := comment }) =
      (ofBlock b).setComment n comment := by
  have hn : s.name = n := by
    rw [parameter?_eq_find?] at hs
    exact Named.name_of_find? hs
  rw [snapshot_updateParameter (f := fun s => { s with comments := comment }) h hs hn]
  show (⟨_, (ofBlock b).values.insert n s.value, _⟩ : BlockSnapshot) = _
  rw [setValue_of_parameter? h hs]
  rfl

/-- **A parameter of a new name** without a comment adds its value, and changes nothing else. -/
theorem snapshot_addParameter (h : (Named.names b.allParameters).Nodup)
    (hfree : b.parameter? s.name = none) (hcomments : s.comments = []) :
    ofBlock (b.addParameter s) = (ofBlock b).setValue s.name s.value := by
  have hnot : s.name ∉ Named.names b.allParameters := by
    rw [parameter?_eq_find?] at hfree
    exact Named.find?_eq_none_iff.mp hfree
  have hnodup : (Named.names (b.addParameter s).allParameters).Nodup := by
    rw [allParameters, Named.names_append, List.mem_append, not_or] at hnot
    rw [allParameters, Named.names_append, List.nodup_append] at h ⊢
    refine ⟨Named.nodup_put h.1, h.2.1, fun m hm k hk hmk => ?_⟩
    rcases Named.mem_names_put.mp hm with rfl | hm
    · exact hnot.2 (show Named.name s ∈ _ from hmk.symm ▸ hk)
    · exact h.2.2 m hm k hk hmk
  have hvalues : (ofBlock (b.addParameter s)).values =
      (ofBlock b).values.insert s.name s.value := by
    refine SortedMap.ext_find? (increasing_values _)
      (SortedMap.increasing_insert (increasing_values b) _ _) fun m => ?_
    rw [find?_values_of_apart hnodup, parameter?_addParameter]
    split
    · next hm => rw [hm, SortedMap.find?_insert, Option.map_some]
    · next hm => rw [SortedMap.find?_insert_of_ne hm, find?_values_of_apart h]
  have hsame : (ofBlock (b.addParameter s)).comments = (ofBlock b).comments := by
    refine SortedMap.ext_find? (increasing_comments _) (increasing_comments b) fun m => ?_
    rw [find?_comments_of_apart hnodup, parameter?_addParameter, find?_comments_of_apart h]
    split
    · next hm =>
      rw [hm, hfree, Option.filter_some, hcomments]
      rfl
    · rfl
  exact congr (congr (congrArg BlockSnapshot.mk rfl) hvalues) hsame

/-! ### Switches -/

/-- A parameter of the new subtype whose name the old one did not have stays as it is. -/
theorem find?_carryOver {old slots : List Slot} (h : n ∉ Named.names old) :
    Named.find? n (carryOver old slots) = Named.find? n slots := by
  rw [carryOver_eq_map, Named.find?_map (name_carried old)]
  rcases hs : Named.find? n slots with _ | s
  · rfl
  · obtain rfl := Named.name_of_find? hs
    rw [Option.map_some, carried, show Named.find? s.name old = none from Named.find?_eq_none h]

/-- The parameter that a switch brings back from the stash under a name. -/
def brought? (b : Block) (subtype n : Text) : Option Slot :=
  (Named.find? subtype b.info.stash).bind fun entry => Named.find? n entry.2

/-- **The value of a parameter after a switch**, in the snapshot of its block: that of a parameter
from the stash, if one has its name, and otherwise its own. -/
theorem find?_values_switchSubtype? {subtype : Text} (h : b.info.Mapped) (ha : b.Apart)
    (hc : b.switchSubtype? subtype = some c) (hne : b.info.subtype ≠ some subtype)
    (hs : Named.find? n b.info.parameters = some s) (hn : n ≠ Slot.typeName) :
    (ofBlock c).values.find? n = (((b.brought? subtype n).or (some s)).map Slot.value) := by
  have hmem : n ∈ Named.names b.info.parameters :=
    Decidable.by_contra fun hnot => by rw [Named.find?_eq_none hnot] at hs; cases hs
  rw [find?_values (mapped_switchSubtype? h hc)]
  rw [switchSubtype?] at hc
  obtain ⟨schema, -, rfl⟩ := Option.map_eq_some_iff.mp hc
  rw [if_neg hne]
  dsimp only
  have hown : Named.find? n (Named.update Slot.typeName (selectType subtype) b.info.parameters) =
      some s := by
    rw [Named.find?_update_of_ne hn fun t ht => ?_, hs]
    exact (name_selectType subtype t).trans (Named.name_of_find? ht)
  rw [hown, find?_carryOver (ha n hmem)]
  congr 2
  -- What a new subtype brings has no name of the block.
  rw [unstash, brought?]
  split
  · next entry slots hfind => rw [hfind]; rfl
  · next hfind =>
    rw [hfind, Option.bind_none]
    exact Named.find?_eq_none fun hm => not_mem_of_mem_materialize hm hmem

/-- The subtype is another one than the active one, and it has a parameter in the stash that comes
back under the name of a parameter of the block, other than its `type`, with another value. -/
def Masks (b : Block) (subtype : Text) : Prop :=
  b.info.subtype ≠ some subtype ∧ ∃ s ∈ b.info.parameters, s.name ≠ Slot.typeName ∧
    ∃ t ∈ b.brought? subtype s.name, t.value ≠ s.value

instance (b : Block) (subtype : Text) : Decidable (b.Masks subtype) :=
  inferInstanceAs (Decidable (b.info.subtype ≠ some subtype ∧ ∃ s ∈ b.info.parameters,
    s.name ≠ Slot.typeName ∧ ∃ t ∈ b.brought? subtype s.name, t.value ≠ s.value))

/-- **A switch keeps the values of the parameters of the block**, other than its `type`, in its
snapshot unless it masks one. -/
theorem value_switchSubtype? {subtype : Text} (h : b.info.Mapped) (ha : b.Apart)
    (hc : b.switchSubtype? subtype = some c) :
    (∀ n ∈ Named.names b.info.parameters, n ≠ Slot.typeName →
      (ofBlock c).values.find? n = (ofBlock b).values.find? n) ↔ ¬ b.Masks subtype := by
  by_cases hsame : b.info.subtype = some subtype
  · rw [eq_of_switchSubtype? hc hsame]
    exact iff_of_true (fun _ _ _ => rfl) fun hm => hm.1 hsame
  have hbefore : ∀ s ∈ b.info.parameters, (ofBlock b).values.find? s.name = some s.value := by
    intro s hs
    have hfind : Named.find? s.name b.info.parameters = some s := Named.find?_of_mem h.own hs
    have hnone : Named.find? s.name b.info.subtypeParameters = none :=
      Named.find?_eq_none (ha _ (Named.name_mem_names hs))
    rw [find?_values h, hfind, hnone, Option.none_or, Option.map_some]
  have hafter : ∀ s ∈ b.info.parameters, s.name ≠ Slot.typeName →
      (ofBlock c).values.find? s.name =
        ((b.brought? subtype s.name).or (some s)).map Slot.value :=
    fun s hs hn => find?_values_switchSubtype? h ha hc hsame (Named.find?_of_mem h.own hs) hn
  constructor
  · rintro hkeeps ⟨-, s, hs, hn, t, ht, hvalue⟩
    have hkept := hkeeps s.name (Named.name_mem_names hs) hn
    rw [hafter s hs hn, hbefore s hs, show b.brought? subtype s.name = some t from ht,
      Option.some_or, Option.map_some] at hkept
    exact hvalue (Option.some.inj hkept)
  · intro hnot n hmem hn
    obtain ⟨s, hs, rfl⟩ := Named.mem_names.mp hmem
    change s.name ≠ Slot.typeName at hn
    show (ofBlock c).values.find? s.name = (ofBlock b).values.find? s.name
    rw [hafter s hs hn, hbefore s hs]
    rcases ht : b.brought? subtype s.name with _ | t
    · rfl
    · have hvalue : t.value = s.value :=
        Decidable.by_contra fun hne => hnot ⟨hsame, s, hs, hn, t, ht, hne⟩
      rw [Option.some_or, Option.map_some, hvalue]

end Block

end BlockEdit
