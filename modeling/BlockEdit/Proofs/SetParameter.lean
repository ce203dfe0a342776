import BlockEdit.Command.Run
import BlockEdit.Proofs.Atomicity
import BlockEdit.Proofs.BlockEntries
import BlockEdit.Proofs.Engine
import BlockEdit.Proofs.Meaning

/-!
# Setting one parameter of a text

`set` reads a document, gives one parameter another text and writes the document anew. What it
writes reads back as the old document with one value changed. No other value, no comment and no
block is lost, though every line is written again.

Main statements:

* **`ValueType.given_text`**: the text that is written for a value is read as the catalog would have
  read the text that the user gave, also when the parameter is one of texts only because an earlier
  text did not read.
* **`Block.snapshot_bindSettings_of_agree`**: two blocks of the same settings but for one parameter
  have the same entries but for its value.
* **`Command.exists_parse_editText`**: the document that is read back.
-/

namespace BlockEdit

open Layout (writtenSlots setting readComments)

/-! ### Texts and the values that they stand for -/

namespace ValueType

/-- The value that a document gives a parameter of this type with a text. A text that does not read
as the type is kept as a text, or as the texts of a list. -/
def given (type : ValueType) (t : Text) : Option Value :=
  match type.read t with
  | .ok v => some v
  | .error _ => (type.relaxed.read t).toOption

variable {type live : ValueType} {t : Text} {v : Value}

/-- A text that reads as the type gives what it reads as. -/
theorem given_of_read (h : type.read t = .ok v) : type.given t = some v := by
  simp only [given, h]

/-- Every text gives a parameter of whatever type a value. -/
theorem exists_given (type : ValueType) (t : Text) : ∃ v, type.given t = some v := by
  unfold given
  rcases type.read t with e | v
  · obtain ⟨w, hw⟩ := exists_read_relaxed type t
    exact ⟨w, by rw [hw]; rfl⟩
  · exact ⟨v, rfl⟩

/-- **The text of a value** that was read stands for the same value as the text it was read from.
The parameter that took the text has the type of the catalog, or the one that takes every text. -/
theorem given_text (hlive : live = type ∨ live = type.relaxed) (h : live.read t = .ok v) :
    type.given v.text = type.given t := by
  rcases hlive with rfl | rfl
  · rw [given_of_read h, given_of_read (read_text (hasType_of_read h))]
  · have hback : type.relaxed.read v.text = .ok v := read_text (hasType_of_read h)
    unfold given
    rw [read_text_relaxed h]
    rcases type.read t with e | w
    · simp only [hback, h]
    · rfl

end ValueType

/-- What a text makes of a slot is what its type reads, and it can be written. -/
theorem Slot.read_of_checkText {s : Slot} {t : Text} {v : Value} (h : s.checkText t = .ok v) :
    s.type.read t = .ok v ∧ v.checkWritable = .ok () := by
  obtain ⟨u, hu, hv⟩ := Except.exists_of_bind_eq_ok h
  obtain ⟨hconform, hwritable⟩ := checkValue_eq_ok.mp hv
  rw [Value.conform_of_hasType (ValueType.hasType_of_read hu)] at hconform
  cases hconform
  exact ⟨hu, hwritable⟩

/-- A parameter that takes a setting has the value that its type gives for the text. -/
theorem Slot.value_take (o : Slot) (x : Setting) : (o.take x).value = o.type.given x.value := by
  unfold ValueType.given
  rcases h : o.type.read x.value with e | v
  · rw [take_of_error h]
    rfl
  · rw [take_of_ok h]
    rfl

/-- A parameter that takes a setting has its comment. -/
theorem Slot.comments_take (o : Slot) (x : Setting) : (o.take x).comments = x.comments := by
  rcases h : o.type.read x.value with e | v
  · rw [take_of_error h]
    rfl
  · rw [take_of_ok h]
    rfl

namespace Block

/-! ### What the catalog says about a parameter -/

/-- The parameters that the catalog gives a block of this subtype, at their defaults. -/
def offered (catalog : Catalog) (b : Block) : List Slot :=
  (b.blank catalog).info.parameters ++
    (b.info.subtype.bind (b.blank catalog).subtypeSchema?).elim [] (b.blank catalog).materialize

/-- The type that the catalog gives a parameter. One that it does not know is a text. -/
def typeOf (catalog : Catalog) (b : Block) (n : Text) : ValueType :=
  (Named.find? n (b.offered catalog)).elim ValueType.string Slot.type

variable {catalog : Catalog} {start b c : Block} {n : Text} {s : Slot}

/-- Nothing was written in a block to which nothing was bound. -/
theorem atRest_blank (catalog : Catalog) (b : Block) : (b.blank catalog).AtRest := by
  unfold blank
  split
  · exact atRest_fresh _ _ _ _
  · exact atRest_fresh _ _ _ _

/-- The parameters that the catalog gives a block are those that its settings leave to it. -/
theorem Means.offered_eq {given : List (Text × Text)} (h : (b.blank catalog).Means given b) :
    b.offered catalog = (b.blank catalog).declared given := by
  rw [offered, declared, h.subtype]

/-- Where there are no subtypes, none is chosen. -/
theorem chosen?_of_subtypeNames (h : start.subtypeNames = []) (given : List (Text × Text)) :
    start.chosen? given = none := by
  have hnone : ∀ t, start.hasSubtype t = false := by
    intro t
    unfold hasSubtype subtypeSchema?
    unfold subtypeNames at h
    rcases hs : start.info.schema with _ | schema
    · rfl
    · rw [hs] at h
      have hnil : schema.subtypes = [] := List.map_eq_nil_iff.mp h
      simp [BlockSchema.subtype?, hnil, Named.find?]
  simp [chosen?, hnone]

/-- A parameter that does not choose the subtype is no `type`, or there are no subtypes. -/
theorem Means.subtypeNames_eq_nil {given : List (Text × Text)}
    (h : (b.blank catalog).Means given b) (hselects : Edit.selectsSubtype b n = false)
    (hn : n = Slot.typeName) : (b.blank catalog).subtypeNames = [] := by
  subst hn
  unfold subtypeNames
  rw [← h.schema]
  simpa [Edit.selectsSubtype, subtypeNames] using hselects

/-- **A parameter of a document** has the type of the catalog, or the one that takes every text. -/
theorem Means.type_eq_or {given : List (Text × Text)} (h : (b.blank catalog).Means given b)
    (hs : s ∈ b.allParameters) (hselects : Edit.selectsSubtype b s.name = false) :
    s.type = b.typeOf catalog s.name ∨ s.type = (b.typeOf catalog s.name).relaxed := by
  unfold typeOf
  rw [h.offered_eq]
  have hnodup := (atRest_blank catalog b).nodup_declared given
  have hchosen : s.name = Slot.typeName → (b.blank catalog).chosen? given = none :=
    fun hn => chosen?_of_subtypeNames (h.subtypeNames_eq_nil hselects hn) given
  by_cases hname : s.name ∈ Named.names ((b.blank catalog).declared given)
  · obtain ⟨o, ho⟩ := Named.exists_find? hname
    obtain ⟨hmem, hon⟩ := Named.find?_eq_some ho
    rw [ho, Option.elim_some]
    by_cases hgiven : s.name ∈ Named.names given
    · obtain ⟨⟨m, t⟩, ht, rfl⟩ := Named.mem_names.mp hgiven
      have hreads := h.written s hs o hmem t hon ht hchosen
      unfold Slot.Reads at hreads
      split at hreads
      · exact Or.inl hreads.1
      · exact Or.inr hreads.1
    · have hsame := Named.find?_of_mem hnodup (h.unwritten s hs hgiven).1
      rw [show Named.name s = s.name from rfl, ho] at hsame
      cases hsame
      exact Or.inl rfl
  · rw [Named.find?_eq_none hname, Option.elim_none]
    obtain ⟨⟨m, t⟩, ht, rfl⟩ := Named.mem_names.mp (((h.names s.name).mp
      (Named.name_mem_names hs)).resolve_left hname)
    exact Or.inl (h.unknown s hs t ht hname).1

/-! ### Settings that agree but for one key -/

/-- Two lists of settings that differ at one key at most, which does not choose the subtype. -/
structure AgreeBut (start : Block) (n : Text) (settings others : List Setting) : Prop where
  /-- No key is written twice in the one list, -/
  nodup : (Named.names settings).Nodup
  /-- or in the other. -/
  nodup' : (Named.names others).Nodup
  /-- The key does not choose the subtype. -/
  unchosen : n = Slot.typeName → start.subtypeNames = []
  /-- Every other key has the same setting. -/
  other : ∀ m ≠ n, Named.find? m others = Named.find? m settings

namespace AgreeBut

variable {settings others : List Setting}

/-- Settings that agree but for one key choose the same subtype. -/
theorem chosen?_eq (h : start.AgreeBut n settings others) :
    start.chosen? (others.map Setting.written) = start.chosen? (settings.map Setting.written) := by
  by_cases ht : n = Slot.typeName
  · rw [chosen?_of_subtypeNames (h.unchosen ht), chosen?_of_subtypeNames (h.unchosen ht)]
  · simp only [chosen?, find?_written, h.other _ (Ne.symm ht)]

/-- Settings that agree but for one key leave the same parameters to the block. -/
theorem declared_eq (h : start.AgreeBut n settings others) :
    start.declared (others.map Setting.written) =
      start.declared (settings.map Setting.written) := by
  rw [declared, declared, h.chosen?_eq]

/-- Settings that agree but for one key make the same of every parameter of another name. -/
theorem settle_eq (h : start.AgreeBut n settings others) {o : Slot} (ho : o.name ≠ n) :
    start.settle others o = start.settle settings o := by
  have htouch : o.touch others = o.touch settings := by
    unfold Slot.touch
    rw [h.other _ ho]
  by_cases ht : n = Slot.typeName
  · have hnone := chosen?_of_subtypeNames (h.unchosen ht)
    rw [settle_of_none (hnone _), settle_of_none (hnone _), htouch]
  · unfold settle
    rw [h.other _ (Ne.symm ht), htouch]

/-- The parameters of every other name are the same. -/
theorem parameter?_eq (h : start.AgreeBut n settings others) (hb : start.AtRest) {m : Text}
    (hm : m ≠ n) : (start.bindSettings others).parameter? m =
      (start.bindSettings settings).parameter? m := by
  rw [(settles_bindSettings hb h.nodup').parameter? m,
    (settles_bindSettings hb h.nodup).parameter? m, h.declared_eq, h.other m hm]
  rcases ho : Named.find? m (start.declared (settings.map Setting.written)) with _ | o
  · rfl
  · have hname : o.name = m := (Named.find?_eq_some ho).2
    rw [← hname] at hm
    rw [Option.map_some, Option.map_some, h.settle_eq hm]

end AgreeBut

/-- The comment of a parameter in the list of settings. -/
theorem exists_parameter?_of_find? {settings : List Setting} (hb : start.AtRest)
    (hn : (Named.names settings).Nodup) {x : Setting} (hx : Named.find? n settings = some x)
    (hchosen : n = Slot.typeName → start.chosen? (settings.map Setting.written) = none) :
    ∃ s, (start.bindSettings settings).parameter? n = some s ∧ s.comments = x.comments ∧
      s.value = ((Named.find? n (start.declared (settings.map Setting.written))).elim
        ValueType.string Slot.type).given x.value := by
  rw [(settles_bindSettings hb hn).parameter? n, hx]
  rcases ho : Named.find? n (start.declared (settings.map Setting.written)) with _ | o
  · refine ⟨start.newSlot x, rfl, rfl, ?_⟩
    unfold newSlot
    split <;> rfl
  · have hname : o.name = n := (Named.find?_eq_some ho).2
    rw [Option.map_some, Option.some_or, settle_of_find? (hname ▸ hx) (hname ▸ hchosen)]
    exact ⟨o.take x, rfl, Slot.comments_take o x, Slot.value_take o x⟩

/-- The comment that a settled block has under a name is the one that is written. -/
theorem find?_comments_bindSettings {settings : List Setting} (hb : start.AtRest)
    (hn : (Named.names settings).Nodup)
    (hchosen : n = Slot.typeName → start.chosen? (settings.map Setting.written) = none) :
    (BlockSnapshot.ofBlock (start.bindSettings settings)).comments.find? n =
      ((Named.find? n settings).map Setting.comments).filter fun comment => !comment.isEmpty := by
  have hsettles := settles_bindSettings hb hn
  rw [find?_comments_of_apart hsettles.nodup]
  rcases hx : Named.find? n settings with _ | x
  · rw [hsettles.parameter? n, hx]
    rcases ho : Named.find? n (start.declared (settings.map Setting.written)) with _ | o
    · rfl
    · obtain ⟨hmem, rfl⟩ := Named.find?_eq_some ho
      obtain ⟨p, rfl⟩ := hb.exists_of_mem_declared hmem
      rw [Option.map_some, Option.some_or, settle_of_not_mem (Named.find?_eq_none_iff.mp hx)]
      rfl
  · obtain ⟨s, hs, hcomments, -⟩ := exists_parameter?_of_find? hb hn hx hchosen
    rw [hs, map_comments, hcomments]
    rcases hempty : x.comments.isEmpty with _ | _
    · rw [if_neg (by simp), Option.map_some, Option.filter_some, hempty]
      rfl
    · rw [if_pos rfl, Option.map_some, Option.filter_some, hempty]
      rfl

/-- **Two blocks of the same settings but for one parameter**, where that has the same comment, have
the same entries but for its value. -/
theorem snapshot_bindSettings_of_agree {settings others : List Setting} (hb : start.AtRest)
    (h : start.AgreeBut n settings others) {x : Setting} (hx : Named.find? n others = some x)
    (hcomments : (Named.find? n settings).elim [] Setting.comments = x.comments) :
    BlockSnapshot.ofBlock (start.bindSettings others) =
      (BlockSnapshot.ofBlock (start.bindSettings settings)).setValue n
        (((Named.find? n (start.declared (settings.map Setting.written))).elim ValueType.string
          Slot.type).given x.value) := by
  have hsettles := settles_bindSettings hb h.nodup
  have hsettles' := settles_bindSettings hb h.nodup'
  have hnone : n = Slot.typeName → ∀ given, start.chosen? given = none :=
    fun hn => chosen?_of_subtypeNames (h.unchosen hn)
  have hsubtype : (start.bindSettings others).info.subtype =
      (start.bindSettings settings).info.subtype := by
    rw [hsettles'.subtype, hsettles.subtype, h.chosen?_eq]
  -- Under every other name both lists of settings leave the same parameter.
  have hvalues : (BlockSnapshot.ofBlock (start.bindSettings others)).values =
      (BlockSnapshot.ofBlock (start.bindSettings settings)).values.insert n
        (((Named.find? n (start.declared (settings.map Setting.written))).elim ValueType.string
          Slot.type).given x.value) := by
    refine SortedMap.ext_find? (increasing_values _)
      (SortedMap.increasing_insert (increasing_values _) _ _) fun m => ?_
    rw [find?_values_of_apart hsettles'.nodup]
    by_cases hm : m = n
    · subst hm
      obtain ⟨s, hs, -, hvalue⟩ := exists_parameter?_of_find? hb h.nodup' hx fun hn => hnone hn _
      rw [hs, SortedMap.find?_insert, Option.map_some, hvalue, h.declared_eq]
    · rw [SortedMap.find?_insert_of_ne hm, find?_values_of_apart hsettles.nodup,
        h.parameter?_eq hb hm]
  have hsame : (BlockSnapshot.ofBlock (start.bindSettings others)).comments =
      (BlockSnapshot.ofBlock (start.bindSettings settings)).comments := by
    refine SortedMap.ext_find? (increasing_comments _) (increasing_comments _) fun m => ?_
    by_cases hm : m = n
    · subst hm
      rw [find?_comments_bindSettings hb h.nodup' fun hn => hnone hn _,
        find?_comments_bindSettings hb h.nodup fun hn => hnone hn _, hx]
      rcases hy : Named.find? m settings with _ | y
      · rw [hy, Option.elim_none] at hcomments
        simp [← hcomments]
      · rw [hy, Option.elim_some] at hcomments
        simp [hcomments]
    · rw [find?_comments_of_apart hsettles'.nodup, find?_comments_of_apart hsettles.nodup,
        h.parameter?_eq hb hm]
  unfold BlockSnapshot.setValue
  rw [← hvalues, ← hsame]
  show BlockSnapshot.mk _ _ _ = _
  rw [hsubtype]
  rfl

/-! ### One block of a tree -/

/-- How a block of a tree goes over into the one at its place when one block of the tree is
changed. -/
structure Becomes (old new d k : Block) : Prop where
  /-- It has children of the same names. -/
  names : Named.names k.children = Named.names d.children
  /-- It is the same otherwise, unless it is the block that is changed. -/
  info : k.info = d.info ∨ d = old ∧ k = new

/-- A block goes over into itself. -/
theorem becomes_refl (old new d : Block) : Becomes old new d d := ⟨rfl, Or.inl rfl⟩

/-- Blocks go over into themselves one by one. -/
theorem forall₂_becomes_refl (old new : Block) (ds : List Block) :
    List.Forall₂ (Becomes old new) ds ds :=
  List.forall₂_same.mpr fun d _ => becomes_refl old new d

/-- When a child goes over into its update with all inside of it, so do the children. -/
theorem becomes_update {old new child : Block} {n : Text} {f : Block → Block}
    (h : List.Forall₂ (Becomes old new) child.descendants (f child).descendants) :
    ∀ {cs : List Block}, Named.find? n cs = some child →
      List.Forall₂ (Becomes old new) (allDescendants cs) (allDescendants (Named.update n f cs))
  | d :: cs, hd => by
    rw [Named.find?] at hd
    rw [Named.update]
    split at hd
    · next hname =>
      cases hd
      rw [if_pos hname, allDescendants, allDescendants]
      exact List.rel_append h (forall₂_becomes_refl old new _)
    · next hname =>
      rw [if_neg hname, allDescendants, allDescendants]
      exact List.rel_append (forall₂_becomes_refl old new _) (becomes_update h hd)

/-- **When one block is retouched**, every other block of the tree stays, and so does its place. -/
theorem becomes_replaceAt {old new : Block} (h : old.Retouch new) : ∀ (ns : List Text) {b : Block},
    b.descend? ns = some old →
      List.Forall₂ (Becomes old new) b.descendants (b.replaceAt ns new).descendants
  | [], b, hb => by
    cases hb
    rw [replaceAt, descendants_eq_cons, descendants_eq_cons, inside, inside, h.children]
    exact .cons ⟨congrArg Named.names h.children, Or.inr ⟨rfl, rfl⟩⟩ (forall₂_becomes_refl _ _ _)
  | n :: ns, b, hb => by
    obtain ⟨child, hchild, hrest⟩ := Option.bind_eq_some_iff.mp hb
    have hbelow := becomes_replaceAt h ns hrest
    have hnames : Named.names (Named.update n (fun child => child.replaceAt ns new) b.children) =
        Named.names b.children :=
      Named.names_update_of_find? hchild <| by
        rw [show Named.name (child.replaceAt ns new) = (child.replaceAt ns new).name from rfl,
          (descend?_replaceAt h.place.name ns hrest).2]
        exact (Named.find?_eq_some hchild).2
    rw [replaceAt, descendants_eq_cons, descendants_eq_cons]
    exact .cons ⟨hnames, Or.inl rfl⟩ (becomes_update hbelow hchild)

/-! ### What is written and read back -/

/-- What is written for a block depends only on what it knows. -/
theorem writtenSlots_congr {d k : Block} (h : k.info = d.info) :
    writtenSlots k = writtenSlots d := by
  obtain ⟨info, children, unused⟩ := d
  obtain ⟨info', children', unused'⟩ := k
  cases h
  rfl

/-- What is read back for a block depends only on what it knows. -/
theorem readBack_congr {d k : Block} (h : k.info = d.info) :
    k.readBack catalog = d.readBack catalog := by
  obtain ⟨info, children, unused⟩ := d
  obtain ⟨info', children', unused'⟩ := k
  cases h
  rfl

/-- What is found under a name is a parameter of the block and has the name. -/
theorem mem_of_parameter? (hs : b.parameter? n = some s) : s ∈ b.allParameters ∧ s.name = n := by
  rw [parameter?_eq_find?] at hs
  exact Named.find?_eq_some hs

/-- **What is written under a name** is the parameter of that name, if it is written at all. -/
theorem find?_writtenSlots (hn : (Named.names b.allParameters).Nodup) (hd : b.Distinct)
    (m : Text) : Named.find? m (writtenSlots b) = (b.parameter? m).filter Slot.isWritten := by
  rw [parameter?_eq_find?]
  rcases hs : Named.find? m b.allParameters with _ | s
  · refine Named.find?_eq_none fun hm => ?_
    obtain ⟨u, hu, rfl⟩ := Named.mem_names.mp hm
    rw [Named.find?_of_mem hn (mem_allParameters_of_written hu).1] at hs
    cases hs
  · obtain ⟨hmem, rfl⟩ := Named.find?_eq_some hs
    rw [Option.filter_some]
    split
    · next hw => exact Named.find?_of_mem hd ((mem_writtenSlots hn).mpr ⟨hmem, hw⟩)
    · next hw =>
      refine Named.find?_eq_none fun hm => ?_
      obtain ⟨u, hu, hname⟩ := Named.mem_names.mp hm
      obtain ⟨hall, hwritten⟩ := mem_allParameters_of_written hu
      rw [← hname, Named.find?_of_mem hn hall] at hs
      cases hs
      exact hw hwritten

/-- What is written for a parameter has its name. -/
theorem name_setting (s : Slot) : Named.name (setting s) = Named.name s := rfl

/-- What is written for a block has at most one setting of a name: that of its parameter, if it has
something to write. -/
theorem find?_settings (hn : (Named.names b.allParameters).Nodup) (hd : b.Distinct) (m : Text) :
    Named.find? m ((writtenSlots b).map setting) =
      ((b.parameter? m).filter Slot.isWritten).map setting := by
  rw [Named.find?_map name_setting, find?_writtenSlots hn hd]

section edited

variable {v : Value} (hn : (Named.names b.allParameters).Nodup) (hs : b.parameter? n = some s)

include hn hs

/-- What is written of the block with one parameter set is that parameter or written before. -/
theorem eq_or_mem_of_written_give {u : Slot}
    (hu : u ∈ writtenSlots (b.updateParameter n fun _ => s.give (some v))) :
    u = s.give (some v) ∨ u ∈ writtenSlots b := by
  have hname : (s.give (some v)).name = n := (mem_of_parameter? hs).2
  obtain ⟨hall, hwritten⟩ := mem_allParameters_of_written hu
  have hfound := parameter?_of_mem (nodup_updateParameter hn hs hname) hall
  rw [parameter?_updateParameter hs hname] at hfound
  split at hfound
  · cases hfound
    exact Or.inl rfl
  · exact Or.inr ((mem_writtenSlots hn).mpr ⟨(mem_of_parameter? hfound).1, hwritten⟩)

variable (hd : b.Distinct) (hd' : (b.updateParameter n fun _ => s.give (some v)).Distinct)

include hd hd'

/-- **A block and the block with one more parameter set** are written with the same settings but for
that one. -/
theorem agreeBut_give (hunchosen : n = Slot.typeName → start.subtypeNames = []) :
    start.AgreeBut n ((writtenSlots b).map setting)
      ((writtenSlots (b.updateParameter n fun _ => s.give (some v))).map setting) where
  nodup := by
    rw [Named.names_map fun s _ => name_setting s]
    exact hd
  nodup' := by
    rw [Named.names_map fun s _ => name_setting s]
    exact hd'
  unchosen := hunchosen
  other m hm := by
    have hname : (s.give (some v)).name = n := (mem_of_parameter? hs).2
    rw [find?_settings (nodup_updateParameter hn hs hname) hd', find?_settings hn hd,
      parameter?_updateParameter hs hname, if_neg hm]

/-- **A block with one parameter set is read back** as the block is, but for the value, which is
what the catalog makes of the text of the value. -/
theorem snapshot_readBack_give {given : List (Text × Text)}
    (hmeans : (b.blank catalog).Means given b)
    (hback : BlockSnapshot.ofBlock (b.readBack catalog) = BlockSnapshot.ofBlock b)
    (hselects : Edit.selectsSubtype b n = false) :
    BlockSnapshot.ofBlock ((b.updateParameter n fun _ => s.give (some v)).readBack catalog) =
      (BlockSnapshot.ofBlock b).setValue n ((b.typeOf catalog n).given v.text) := by
  have hname : (s.give (some v)).name = n := (mem_of_parameter? hs).2
  have hblank : (b.updateParameter n fun _ => s.give (some v)).blank catalog =
      b.blank catalog := by
    unfold updateParameter
    split <;> rfl
  have hagree := agreeBut_give hn hs hd hd' (hmeans.subtypeNames_eq_nil hselects)
  have hsetting : Named.find? n
      ((writtenSlots (b.updateParameter n fun _ => s.give (some v))).map setting) =
        some (setting (s.give (some v))) := by
    rw [find?_settings (nodup_updateParameter hn hs hname) hd', parameter?_updateParameter hs hname,
      if_pos rfl]
    rfl
  -- A parameter that was not written has no comment that could get lost.
  have hcomments : (Named.find? n ((writtenSlots b).map setting)).elim [] Setting.comments =
      (setting (s.give (some v))).comments := by
    rw [find?_settings hn hd, hs, Option.filter_some]
    rcases hw : s.isWritten with _ | _
    · have hempty : s.comments = [] := by
        simp only [Slot.isWritten, Slot.hasChanged, Bool.or_eq_false_iff] at hw
        simpa using hw.2.2
      show [] = readComments s.comments
      rw [hempty]
      rfl
    · rfl
  have hsame := snapshot_bindSettings_of_agree (atRest_blank catalog b) hagree hsetting hcomments
  have hsubtype := (settles_bindSettings (atRest_blank catalog b) hagree.nodup).subtype
  -- The settings choose the subtype that the block has, because it reads back as itself.
  have hoffered : (b.blank catalog).declared (((writtenSlots b).map setting).map Setting.written) =
      b.offered catalog := by
    have hback := congrArg BlockSnapshot.subtype hback
    rw [declared, offered, ← hsubtype]
    exact congrArg (fun subtype : Option Text => (b.blank catalog).info.parameters ++
      (subtype.bind (b.blank catalog).subtypeSchema?).elim [] (b.blank catalog).materialize) hback
  rw [hoffered] at hsame
  unfold readBack at hback ⊢
  rw [hblank, hsame, hback]
  rfl

end edited

/-! ### The document that is written -/

/-- What can be written in a block and read again. -/
structure Legible (b : Block) : Prop where
  /-- The names can be read. -/
  spelled : b.Spelled
  /-- No two lines set the same parameter. -/
  distinct : b.Distinct
  /-- The values can be read again from their quotes. -/
  quotable : b.Quotable

/-- **A document that can be read again** is read back block by block. -/
theorem exists_readsAs_of_legible (hc : catalog.TypesAreTexts) {indent : Text}
    (hi : ∀ c ∈ indent, Token.isFiller c = true) {root : Block} (h : All Sound root)
    (hp : root.path = Path.root) (hl : ∀ d ∈ root.descendants, d.Legible) :
    ∃ again, parse catalog (root.serialize indent) = .ok again ∧
      List.Forall₂ (ReadsAs catalog) root.descendants again.descendants := by
  have hreadable := readable_of_spelled h (fun d hd => (hl d hd).spelled)
    fun d hd => (hl d hd).quotable
  have hread := (Layout.ofText_serialize_eq_ok_iff hi hreadable).mpr
    ⟨fun d hd => (hl d hd).distinct, rfl⟩
  exact ⟨_, parse_eq_growRoot catalog hread,
    readBack_growRoot hc h hp fun d hd => (hl d hd).distinct⟩

/-- In the tree of a text that can be written, everything can be read again. -/
theorem legible_of_parse (hc : catalog.TypesAreTexts) {source : Text} {root : Block}
    (h : parse catalog source = .ok root) (hw : root.Writable) :
    ∀ d ∈ root.descendants, d.Legible := by
  obtain ⟨outline, houtline, rfl⟩ := exists_outline_of_parse h
  have hspelled := spelled_growRoot hc (Outline.regular_of_ofText houtline)
  exact fun d hd => ⟨(hspelled d hd).1, (hspelled d hd).2, quotable_of_writable hw d hd⟩

/-- **A document that was read** is read back block by block as it is. -/
theorem snapshot_readBack_of_parse (hc : catalog.TypesAreTexts) {source : Text} {root : Block}
    (h : parse catalog source = .ok root) : ∀ b ∈ root.descendants,
      BlockSnapshot.ofBlock (b.readBack catalog) = BlockSnapshot.ofBlock b := by
  have hgrounded := grounded_parse h
  obtain ⟨outline, houtline, rfl⟩ := exists_outline_of_parse h
  have hregular := Outline.regular_of_ofText houtline
  obtain ⟨hroot, hinside⟩ := twin_growRoot hc hregular
  have halike := map_eq_of_forall₂ (hroot.descendants hinside) fun _ _ h => h.snapshot
  have hback := map_eq_of_forall₂ (readBack_growRoot hc hgrounded.tree hgrounded.path
    fun d hd => (spelled_growRoot hc hregular d hd).2) fun _ _ h => h.snapshot
  exact List.map_inj_left.mp (hback.symm.trans halike)

/-- A block that goes over into another one stays legible when the one that is changed does. -/
theorem Legible.of_becomes {old new d k : Block} (h : d.Legible) (hk : Becomes old new d k)
    (hd : new.Distinct) (hlines : old.Legible → ∀ u ∈ writtenSlots new, Token.IsWord u.name ∧
      Token.IsQuotable u.text) : k.Legible := by
  have hheaders : ∀ c ∈ k.children, Outline.IsHeaderName c.name := by
    intro c hc
    have hname : c.name ∈ Named.names d.children := hk.names ▸ Named.name_mem_names hc
    obtain ⟨c', hc', hsame⟩ := Named.mem_names.mp hname
    exact hsame ▸ h.spelled.headers c' hc'
  rcases hk.info with hinfo | ⟨rfl, rfl⟩
  · have hwritten := writtenSlots_congr hinfo
    refine ⟨⟨?_, hheaders⟩, ?_, ?_⟩
    · rw [hwritten]
      exact h.spelled.words
    · rw [Distinct, hwritten]
      exact h.distinct
    · rw [Quotable, hwritten]
      exact h.quotable
  · exact ⟨⟨fun u hu => (hlines h u hu).1, hheaders⟩, hd, fun u hu => (hlines h u hu).2⟩

/-- **When one block of a document is retouched**, the document is read back as it was but for the
entry of that block. -/
theorem snapshot_of_readsAs_set {root again : Block} (h : All Sound root) {path : Text}
    (hb : root.find? path = some b)
    (hretouch : b.Retouch c)
    (hagain : List.Forall₂ (ReadsAs catalog) (root.set path c).descendants again.descendants)
    (hback : ∀ d ∈ root.descendants,
      BlockSnapshot.ofBlock (d.readBack catalog) = BlockSnapshot.ofBlock d) :
    Snapshot.ofBlock again = (Snapshot.ofBlock root).insert b.path
      (BlockSnapshot.ofBlock (c.readBack catalog)) := by
  obtain ⟨hset, hplace⟩ := all_sound_set h hb
    (hretouch.all_sound (all_sound_of_find? h hb)) hretouch.place
  -- The block at the path of the one that is retouched is the new one.
  have hchanged : ∀ k ∈ (root.set path c).descendants, k.path = b.path → k = c := by
    intro k hk hpath
    have hc : c ∈ (root.set path c).descendants :=
      mem_descendants_of_descend? _ (find?_set hb hretouch.place.name)
    exact List.inj_on_of_nodup_map (nodup_paths hset) hk hc (hpath.trans hretouch.place.path.symm)
  let entry (d : Block) : BlockSnapshot :=
    if d.path = b.path then BlockSnapshot.ofBlock (c.readBack catalog)
    else BlockSnapshot.ofBlock (d.readBack catalog)
  have hentries : again.descendants.map (fun k => (k.path, BlockSnapshot.ofBlock k)) =
      root.descendants.map fun d => (d.path, entry d) :=
    calc again.descendants.map (fun k => (k.path, BlockSnapshot.ofBlock k))
        = (root.set path c).descendants.map
            (fun k => (k.path, BlockSnapshot.ofBlock (k.readBack catalog))) :=
          map_eq_of_forall₂ hagain fun _ _ h => by rw [h.path, h.snapshot]
      _ = (root.set path c).descendants.map (fun k => (k.path, entry k)) := by
          refine List.map_congr_left fun k hk => ?_
          dsimp only [entry]
          split
          · next hpath => rw [hchanged k hk hpath]
          · rfl
      _ = root.descendants.map (fun d => (d.path, entry d)) := by
          refine map_eq_of_forall₂ (becomes_replaceAt hretouch _ hb) fun d k hk => ?_
          rcases hk.info with hinfo | ⟨rfl, rfl⟩
          · have hpath : k.path = d.path := congrArg BlockInfo.path hinfo
            dsimp only [entry]
            rw [hpath, readBack_congr hinfo]
          · have hpath : k.path = d.path := hretouch.place.path
            dsimp only [entry]
            rw [hpath, if_pos rfl, if_pos rfl]
  have hsame := @SortedMap.ofList_map_eq_insert _ _ Block.path BlockSnapshot.ofBlock entry _ _
    (nodup_paths h) (mem_descendants_of_descend? _ hb) fun d hd hne => by
      have hpath : d.path ≠ b.path := fun hpath => hne
        (List.inj_on_of_nodup_map (nodup_paths h) hd (mem_descendants_of_descend? _ hb) hpath)
      dsimp only [entry]
      rw [if_neg hpath, hback d hd]
  dsimp only [entry] at hsame hentries
  rw [if_pos rfl] at hsame
  unfold Snapshot.ofBlock
  rw [hentries, hsame]

/-- **A document that was read, with one parameter set,** is written so that it reads back as it was
but for the value, which is what the catalog makes of the text of the value. -/
theorem exists_parse_serialize_give (hc : catalog.TypesAreTexts) {indent : Text}
    (hi : ∀ c ∈ indent, Token.isFiller c = true) {source : Text} {root : Block}
    (h : parse catalog source = .ok root) (hw : root.Writable) {path : Text}
    (hb : root.find? path = some b) (hname : Edit.isName n = true)
    (hselects : Edit.selectsSubtype b n = false) (hs : b.parameter? n = some s) {v : Value}
    (hv : v.HasType s.type) (hwritable : v.checkWritable = .ok ()) :
    ∃ again, parse catalog ((root.set path
        (b.updateParameter n fun _ => s.give (some v))).serialize indent) = .ok again ∧
      Snapshot.ofBlock again = (Snapshot.ofBlock root).insert b.path
        ((BlockSnapshot.ofBlock b).setValue n ((b.typeOf catalog n).given v.text)) := by
  have hgrounded := grounded_parse h
  have hmem := mem_descendants_of_descend? _ hb
  have hsname : (s.give (some v)).name = n := (mem_of_parameter? hs).2
  have hretouch : b.Retouch (b.updateParameter n fun _ => s.give (some v)) :=
    retouch_updateParameter fun _ _ _ => Slot.fits_of_hasType rfl hv
  have hsound := all_sound_of_find? hgrounded.tree hb
  obtain ⟨hset, hplace⟩ :=
    all_sound_set hgrounded.tree hb (hretouch.all_sound hsound) hretouch.place
  have hkeyed : b.info.Keyed := ((throughout_keyed_parse h).of_find? hb).here
  have hnodup := nodup_allParameters hkeyed.mapped hkeyed.apart
  have hdistinct := distinct_of_keyed hsound.here.info hkeyed
  have hdistinct' : (b.updateParameter n fun _ => s.give (some v)).Distinct := by
    refine distinct_of_keyed (hretouch.sound hsound.here.info) (keyed_updateParameter hkeyed ?_)
    intro u hu
    rw [hsname, (mem_of_parameter? hu).2]
  have hlegible : ∀ d ∈ (root.set path (b.updateParameter n fun _ => s.give (some v))).descendants,
      d.Legible := by
    refine forall_of_forall₂ (becomes_replaceAt hretouch _ hb) (legible_of_parse hc h hw)
      fun d k hk hd => hd.of_becomes hk hdistinct' fun hold u hu => ?_
    rcases eq_or_mem_of_written_give hnodup hs hu with rfl | hu
    · rw [hsname]
      exact ⟨Edit.isWord_of_isName hname,
        Token.isQuotable_of_needsBothQuotes ((Value.writable_iff v).mp hwritable)⟩
    · exact ⟨hold.spelled.words u hu, hold.quotable u hu⟩
  obtain ⟨again, hagain, hreads⟩ :=
    exists_readsAs_of_legible hc hi hset (hplace.path.trans hgrounded.path) hlegible
  obtain ⟨_, hmeans⟩ := exists_means_of_parse h b hmem
  have hback := snapshot_readBack_of_parse hc h
  refine ⟨again, hagain, ?_⟩
  rw [snapshot_of_readsAs_set hgrounded.tree hb hretouch hreads hback,
    snapshot_readBack_give hnodup hs hdistinct hdistinct' hmeans (hback b hmem) hselects]

end Block

/-! ### The command -/

/-- **An engine that has just started** answers an edit that the document takes, and has the text of
the document afterwards when everything is done that is due. -/
theorem Engine.applyEdit_flush {d d' : Document} (source : Text) (config : SyncConfig) {e : Edit}
    {r : EditResult} (h : d.apply e = .ok (d', r)) :
    ((ofDocument d source config).applyEdit e).answer = .ok r ∧
      ((ofDocument d source config).applyEdit e).engine.flush.engine.text =
        d'.text config.indent := by
  have hstep : (ofDocument d source config).applyEdit e =
      ⟨.ok r, { ofDocument d' source config with
        serializeTask := Debouncer.idle.schedule config.serializeDelay () },
        [.modelChanged r.touched]⟩ := by
    unfold applyEdit
    rw [show (ofDocument d source config).document = d from rfl, h]
    rfl
  rw [hstep]
  refine ⟨rfl, ?_⟩
  show (runSerialize (ofDocument d' source config)).1.text = _
  rw [runSerialize_eq rfl]
  rfl

/-- **A document takes the text** of a parameter that does not choose a subtype, when the parameter
is there and its type reads the text as a value that can be written. -/
theorem Document.exists_apply_setText {d : Document} {path parameter text : Text} {b : Block}
    (hb : d.root.find? path = some b) (hselects : Edit.selectsSubtype b parameter = false)
    (hcheck : (Edit.setText path parameter text).check d.root = .ok ()) :
    ∃ s v d' r, b.parameter? parameter = some s ∧ s.type.read text = .ok v ∧
      v.checkWritable = .ok () ∧ d.apply (.setText path parameter text) = .ok (d', r) ∧
      d'.root = d.root.set path (b.updateParameter parameter fun _ => s.give (some v)) := by
  obtain ⟨root, landing, d', r, hedit, -, happly, -, hroot, -, -⟩ := apply_of_check_ok hcheck
  obtain ⟨⟨⟩, -, hcarry⟩ := Except.exists_of_bind_eq_ok hedit
  have hblock : Edit.block d.root path = .ok b := by
    rw [Edit.block, hb]
  obtain ⟨s, v, t, hs, hv, hset, rfl, -⟩ :=
    Edit.exists_of_applySet hblock (by simp [hselects]) hcarry
  rw [Slot.setValue_of_checkText hv] at hset
  cases hset
  obtain ⟨hread, hwritable⟩ := Slot.read_of_checkText hv
  exact ⟨s, v, d', r, hs, hread, hwritable, happly, hroot⟩

namespace Command

/-- **Setting a parameter changes one value and nothing else.** The catalog reads the `type` of
every block with subtypes as a text, the written values of the document can be written, and the
document takes the edit of a parameter whose name is a word and which does not choose a subtype.
Then the text afterwards is a document with the entries of the old one but for the value of the
parameter, which is the one that the user's text would have given it in the file. -/
theorem exists_parse_editText {w : Workspace} (hc : w.catalog.TypesAreTexts)
    (hi : ∀ c ∈ w.config.indent, c = ' ' ∨ c = '\t') {source : Text} {root : Block}
    (h : Block.parse w.catalog source = .ok root) (hw : root.Writable)
    {path parameter text : Text} {b : Block} (hb : root.find? path = some b)
    (hname : Edit.isName parameter = true) (hselects : Edit.selectsSubtype b parameter = false)
    (hcheck : (Edit.setText path parameter text).check root = .ok ()) :
    ∃ result written again value,
      editText w source (.setText path parameter text) = .ok (result, written) ∧
        Block.parse w.catalog written = .ok again ∧
        (b.typeOf w.catalog parameter).given text = some value ∧
        Snapshot.ofBlock again = (Snapshot.ofBlock root).insert b.path
          ((BlockSnapshot.ofBlock b).setValue parameter (some value)) := by
  obtain ⟨s, v, d', r, hs, hread, hwritable, happly, hroot⟩ :=
    Document.exists_apply_setText (d := .ofRoot .memory w.catalog root) hb hselects hcheck
  obtain ⟨hanswer, htext⟩ := Engine.applyEdit_flush source w.config.sync happly
  have hedit : editText w source (.setText path parameter text) =
      .ok (r, d'.text w.config.indent) := by
    unfold editText Engine.ofText Document.ofText
    rw [h]
    show ((Engine.applyEdit _ _).answer.bind fun r => .ok (r, _)) = _
    rw [hanswer]
    exact congrArg (fun written => Except.ok (r, written)) htext
  have hfiller : ∀ c ∈ w.config.indent, Token.isFiller c = true := by
    intro c hm
    rcases hi c hm with rfl | rfl
    · rfl
    · rfl
  obtain ⟨again, hagain, hsame⟩ := Block.exists_parse_serialize_give hc hfiller h hw hb hname
    hselects hs (ValueType.hasType_of_read hread) hwritable
  -- What is written for the value stands for what the user's text stands for.
  obtain ⟨_, hmeans⟩ :=
    Block.exists_means_of_parse h b (Block.mem_descendants_of_descend? _ hb)
  obtain ⟨hall, rfl⟩ := Block.mem_of_parameter? hs
  have hlive := hmeans.type_eq_or hall hselects
  rw [ValueType.given_text hlive hread] at hsame
  obtain ⟨value, hvalue⟩ := ValueType.exists_given (b.typeOf w.catalog s.name) text
  refine ⟨r, _, again, value, hedit, ?_, hvalue, hvalue ▸ hsame⟩
  rw [Document.text, hroot]
  exact hagain

/-- The directory has no configuration of its own. -/
def sampleWorkspace : Workspace := ⟨{}, Document.sampleCatalog⟩

/-- A whole number whose line did not read takes the text `007`, which is then written as it is and
read as the number 7. -/
theorem exists_parse_editText_sample : ∃ root b result written again,
    Block.parse Document.sampleCatalog Block.sampleSource = .ok root ∧
      root.find? "/A".toList = some b ∧
      editText sampleWorkspace Block.sampleSource
        (.setText "/A".toList "x".toList "007".toList) = .ok (result, written) ∧
      Block.parse Document.sampleCatalog written = .ok again ∧
      Snapshot.ofBlock again = (Snapshot.ofBlock root).insert b.path
        ((BlockSnapshot.ofBlock b).setValue "x".toList (some (.scalar (.int 7)))) := by
  have hrun : (Block.parse Document.sampleCatalog Block.sampleSource).toOption.map (fun root =>
      (decide root.Writable, (root.find? "/A".toList).map fun b =>
        (Edit.selectsSubtype b "x".toList,
          (b.typeOf Document.sampleCatalog "x".toList).given "007".toList),
        decide ((Edit.setText "/A".toList "x".toList "007".toList).check root = .ok ()))) =
      some (true, some (false, some (.scalar (.int 7))), true) := by decide +kernel
  rcases h : Block.parse Document.sampleCatalog Block.sampleSource with fault | root
  · rw [h] at hrun
    cases hrun
  rw [h] at hrun
  have hpair := Prod.mk.inj (Option.some.inj hrun)
  obtain ⟨hfound, hcheck⟩ := Prod.mk.inj hpair.2
  rcases hb : root.find? "/A".toList with _ | b
  · rw [hb] at hfound
    cases hfound
  rw [hb] at hfound
  obtain ⟨hselects, hseven⟩ := Prod.mk.inj (Option.some.inj hfound)
  have hindent : ∀ c ∈ sampleWorkspace.config.indent, c = ' ' ∨ c = '\t' := by
    show ∀ c ∈ [' ', ' '], c = ' ' ∨ c = '\t'
    simp
  obtain ⟨result, written, again, value, hedit, hagain, hvalue, hsame⟩ :=
    exists_parse_editText (w := sampleWorkspace) (by decide) hindent h
      (of_decide_eq_true hpair.1) hb (by decide) hselects (of_decide_eq_true hcheck)
  have hnumber : value = .scalar (.int 7) := Option.some.inj (hvalue.symm.trans hseven)
  exact ⟨root, b, result, written, again, rfl, hb, hedit, hagain, hnumber ▸ hsame⟩

end Command

end BlockEdit
