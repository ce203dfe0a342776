import BlockEdit.Edit.Apply
import BlockEdit.Proofs.Decimals
import BlockEdit.Proofs.Names
import BlockEdit.Proofs.Retouch
import Mathlib.Data.List.Perm.Subperm

/-!
# What an edit does

An edit that a document accepts does one of a few things at one block: a child comes, goes or gets
another name, or the block itself is retouched. `Edit.Effect` says which, once and for all, so that
an invariant of documents is a matter of one case for each.

Main statements:

* **`Path.segments_parent?`**: a path has the segments of the path of its parent and one more.
* **`Edit.hasChild_freshName`**: the name that is made up for a new child is free.
* **`Edit.effect_of_apply`**: an edit that is accepted has one of the effects.
-/

namespace BlockEdit

/-! ### Paths of parents -/

namespace Path

/-- A slash between two texts ends a segment. -/
theorem segments_append_slash (a b : Text) :
    segments (a ++ '/' :: b) = segments a ++ segments b := by
  rw [segments, pieces_append_mark (show isSlash '/' = true from rfl), List.filter_append, segments,
    segments]

/-- Slashes at the end of a path have no segments. -/
theorem segments_append_slashes (t : Text) : ∀ {u : Text}, (∀ c ∈ u, isSlash c = true) →
    segments (t ++ u) = segments t
  | [], _ => by rw [List.append_nil]
  | c :: u, h => by
    obtain rfl : c = '/' := beq_iff_eq.mp (h c List.mem_cons_self)
    have hrest := segments_append_slashes [] fun d hd => h d (List.mem_cons_of_mem _ hd)
    rw [List.nil_append] at hrest
    rw [segments_append_slash, hrest]
    exact List.append_nil _

/-- Slashes at the ends do not matter to the segments. -/
theorem segments_trimSlashes (path : Text) : segments (trimSlashes path) = segments path := by
  obtain ⟨u, hu, hall⟩ := Text.exists_dropEndWhile isSlash path
  conv => rhs; rw [hu]
  exact (segments_append_slashes _ hall).symm

/-- A text without slashes at its end is what stands before its last slash, and a segment. -/
theorem exists_last_segment {t : Text} (ht : ¬ Text.EndsIn isSlash t) (hne : t ≠ []) :
    ∃ last, IsSegment last ∧
      t = (t.reverse.dropWhile (!isSlash ·)).reverse ++ last := by
  refine ⟨(t.reverse.takeWhile (!isSlash ·)).reverse, ⟨fun hnil => ?_, fun c hc => ?_⟩, ?_⟩
  · obtain ⟨u, c, rfl⟩ := List.eq_nil_or_concat t |>.resolve_left hne
    rw [List.concat_eq_append, List.reverse_append, List.reverse_singleton, List.singleton_append,
      List.reverse_eq_nil_iff] at hnil
    refine ht ⟨c, by rw [List.concat_eq_append, List.getLast?_concat], ?_⟩
    rcases hc : isSlash c with _ | _
    · rw [List.takeWhile_cons_of_pos (by rw [hc]; rfl)] at hnil
      cases hnil
    · rfl
  · have := List.all_eq_true.mp List.all_takeWhile c (List.mem_reverse.mp hc)
    simpa using this
  · rw [← List.reverse_append, List.takeWhile_append_dropWhile, List.reverse_reverse]

/-- **A path** has the segments of the path of its parent and one more. -/
theorem segments_parent? {path parent name : Text} (hp : parent? path = some parent)
    (hn : (segments path).getLast? = some name) : segments path = segments parent ++ [name] := by
  rw [parent?] at hp
  split at hp
  · cases hp
  rw [← segments_trimSlashes] at hn ⊢
  have hne : trimSlashes path ≠ [] := by
    intro hnil
    rw [hnil] at hn
    cases hn
  obtain ⟨last, hlast, hsplit⟩ :=
    exists_last_segment (Text.not_endsIn_dropEndWhile isSlash path) hne
  have hbefore := List.head?_dropWhile_not (!isSlash ·) (trimSlashes path).reverse
  change trimSlashes path = ((trimSlashes path).reverse.dropWhile _).reverse ++ last at hsplit
  generalize (trimSlashes path).reverse.dropWhile (!isSlash ·) = before at hp hsplit hbefore
  have hsegments : segments (trimSlashes path) = segments parent ++ [last] := by
    rw [hsplit]
    rcases before with _ | ⟨c, rest⟩
    · cases hp
      exact segments_of_isSegment hlast
    · obtain rfl : c = '/' := by simpa [isSlash] using hbefore
      have hparent : segments rest.reverse = segments parent := by
        rcases rest with _ | ⟨d, rest⟩
        · cases hp
          rfl
        · cases hp
          rfl
      rw [List.reverse_cons, List.append_assoc, List.singleton_append, segments_append_slash,
        hparent, segments_of_isSegment hlast]
  rw [hsegments, List.getLast?_concat] at hn
  cases hn
  exact hsegments

end Path

namespace Edit

/-! ### What an edit finds -/

/-- A block that is asked for is one that is found. -/
theorem find?_of_block {root b : Block} {path : Text} (h : block root path = .ok b) :
    root.find? path = some b := by
  rw [block] at h
  split at h
  · next b' hb => cases h; exact hb
  · cases h

/-- A block that is asked for as a parent is one that is found. -/
theorem find?_of_parentBlock {root b : Block} {path : Text} (h : parentBlock root path = .ok b) :
    root.find? path = some b := by
  rw [parentBlock] at h
  split at h
  · next b' hb => cases h; exact hb
  · cases h

/-- A parameter that is asked for is one that is found. -/
theorem parameter?_of_slot {b : Block} {path parameter : Text} {s : Slot}
    (h : slot b path parameter = .ok s) : b.parameter? parameter = some s := by
  rw [slot] at h
  split at h
  · next t ht => cases h; exact ht
  · cases h

/-- A path that is split has the segments of its parent and then its name. -/
theorem segments_of_splitPath {path parent name : Text} (h : splitPath path = .ok (parent, name)) :
    Path.segments path = Path.segments parent ++ [name] := by
  unfold splitPath at h
  split at h
  · next n p hn hp =>
    cases h
    exact Path.segments_parent? hp hn
  · cases h

/-! ### Names that are made up -/

/-- Names with different numbers are different. -/
theorem numbered_injective (base : Text) {i j : Nat} (h : numbered base i = numbered base j) :
    i = j := by
  have hdigits : Text.ofNat i = Text.ofNat j := (List.cons.inj (List.append_cancel_left h)).2
  rw [← Text.foldl_ofNat i, hdigits, Text.foldl_ofNat]

/-- A block has a child of a name when one is part of the document or could be. -/
theorem mem_names_of_hasChild {b : Block} {n : Text} :
    b.hasChild n = true ↔ n ∈ Named.names b.children ++ Named.names b.unused := by
  rw [Block.hasChild, Bool.or_eq_true, Named.has_iff, Named.has_iff, List.mem_append]

/-- Names that differ from each other and are all taken are not more than the children. -/
theorem le_of_hasChild {parent : Block} {names : Nat → Text} (hinj : Function.Injective names)
    {count : Nat} (h : ∀ i < count, parent.hasChild (names i) = true) :
    count ≤ parent.children.length + parent.unused.length := by
  have hnodup : ((List.range count).map names).Nodup := List.nodup_range.map hinj
  have hsub : (List.range count).map names ⊆
      Named.names parent.children ++ Named.names parent.unused := by
    intro n hn
    obtain ⟨i, hi, rfl⟩ := List.mem_map.mp hn
    exact mem_names_of_hasChild.mp (h i (List.mem_range.mp hi))
  have hlength := (List.subperm_of_subset hnodup hsub).length_le
  simpa only [Named.names, List.length_map, List.length_range, List.length_append] using hlength

/-- **A numbered name** is free when as many were looked at as there are children. -/
theorem hasChild_freshFrom (parent : Block) (base : Text) (index : Nat) :
    parent.hasChild (freshFrom parent base (parent.children.length + parent.unused.length) index) =
      false := by
  obtain ⟨stop, hname, -, hbefore, hlast⟩ := freshFrom_spec parent base
    (parent.children.length + parent.unused.length) index
  rw [hname, ← Bool.not_eq_true]
  intro htaken
  have hstop := hlast htaken
  have hinj : Function.Injective fun i => numbered base (index + i) :=
    fun i j hij => Nat.add_left_cancel (numbered_injective base hij)
  -- All the names up to this one would be names of children, and there is one too many.
  have hall : ∀ i < parent.children.length + parent.unused.length + 1,
      parent.hasChild (numbered base (index + i)) = true := by
    intro i hi
    rcases Nat.eq_or_lt_of_le (Nat.le_of_lt_succ hi) with rfl | hlt
    · rwa [← hstop]
    · exact hbefore _ (by omega) (by omega)
  have hle := le_of_hasChild hinj hall
  omega

/-- **The name of a new child** is free. -/
theorem hasChild_freshName (parent : Block) (asked : Option Text) :
    parent.hasChild (freshName parent asked) = false := by
  unfold freshName
  dsimp only
  split
  · split
    · exact hasChild_freshFrom parent _ 0
    · next h => exact Bool.eq_false_iff.mpr h
  · exact hasChild_freshFrom parent _ 0

/-- The subtype that an edit selects in a block, if it selects one. -/
def selected? (b : Block) : Edit → Option Text
  | setSubtype _ subtype => some subtype
  | setValue _ parameter value =>
    if selectsSubtype b parameter then some (value.string?.getD []) else none
  | setText _ parameter text =>
    if selectsSubtype b parameter then some (Text.trim text) else none
  | _ => none

/-- The parameter that an edit changes where it is, if it changes one. -/
def changed? : Edit → Option Text
  | setValue _ parameter _ => some parameter
  | setText _ parameter _ => some parameter
  | setComment _ parameter _ => some parameter
  | _ => none

/-- The parameter that an edit adds, if it adds one. -/
def added? : Edit → Option Slot
  | addParameter _ name value => some (Slot.user name value)
  | _ => none

end Edit

/-- A parameter changes where it is: the value is the one it had, or it can be written. -/
structure Slot.Keeps (s t : Slot) : Prop where
  /-- It keeps the name. -/
  name : t.name = s.name
  /-- It is the user's choice if it was. -/
  userAdded : t.userAdded = s.userAdded
  /-- A new value can be written. -/
  value : ∀ v ∈ t.value, v ∈ s.value ∨ v.checkWritable = .ok ()

/-- A parameter that is set keeps its name, and gets a value that can be written. -/
theorem Slot.keeps_setValue {s t : Slot} {v : Value} (h : s.setValue v = .ok t) : s.Keeps t := by
  obtain ⟨w, hw, rfl⟩ := value_setValue h
  refine ⟨rfl, rfl, fun u hu => Or.inr ?_⟩
  cases hu
  exact (checkValue_eq_ok.mp hw).2

/-- **What is read of a text** for a parameter is set as it is. -/
theorem Slot.setValue_of_checkText {s : Slot} {t : Text} {v : Value} (h : s.checkText t = .ok v) :
    s.setValue v = .ok (s.give (some v)) := by
  obtain ⟨u, -, hv⟩ := Except.exists_of_bind_eq_ok h
  obtain ⟨hconform, hwritable⟩ := checkValue_eq_ok.mp hv
  have hself := Value.conform_of_hasType (Value.hasType_of_conform hconform)
  rw [setValue, checkValue_eq_ok.mpr ⟨hself, hwritable⟩]
  rfl

namespace Block

/-- Names that lead from a block on are followed one list after the other. -/
theorem descend?_append : ∀ (ns ms : List Text) (b : Block),
    b.descend? (ns ++ ms) = (b.descend? ns).bind fun c => c.descend? ms
  | [], ms, b => rfl
  | n :: ns, ms, b => by
    rw [List.cons_append, descend?, descend?, Option.bind_assoc]
    exact congrArg _ (funext fun c => descend?_append ns ms c)

/-- Marking a block as what it is changes nothing. -/
theorem mark_eq_self {b : Block} {included : Bool} (h : b.info.included = included) :
    b.mark included = b := by
  subst h
  cases b
  rfl

/-- The block with one more child of the document at the end. -/
def attach (b c : Block) : Block :=
  { b with children := b.children ++ [c], unused := Named.remove c.name b.unused }

/-- The block without a child; what the catalog declares is offered again. -/
def withdraw (catalog : Catalog) (b : Block) (n : Text) : Block :=
  { b with
    children := Named.remove n b.children
    unused := b.unused ++
      if n ∈ catalog.childrenOf b.path then [(instantiate catalog b.path n).mark false] else [] }

/-- A new block of the user's choice, of the subtype that was asked for. -/
def added (catalog : Catalog) (parent n : Text) (subtype : Option Text) : Block :=
  let c := subtype.elim (instantiate catalog parent n) (instantiate catalog parent n).switchSubtype
  { c with info := { c.info with userAdded := true } }

end Block

namespace Edit

open Block (All Sound Retouch)

/-- What an edit does to a document: the tree after it, and where it lands. -/
inductive Effect (root : Block) (catalog : Catalog) : Edit → Block → Landing → Prop
  /-- A block that the catalog offers becomes part of the document. -/
  | included {path n : Text} {subtype : Option Text} {b c : Block} (hb : root.find? path = some b)
      (hn : isName n = true) (hc : b.unused? n = some c) :
      Effect root catalog (.addChild path (some n) subtype)
        (root.set path (b.attach (subtype.elim (c.mark true) (c.mark true).switchSubtype)))
        (.ofBlock c.path c.path)
  /-- A new block of the user's choice comes under a free name. -/
  | added {path n : Text} {name subtype : Option Text} {b : Block} (hb : root.find? path = some b)
      (hn : isName n = true) (hfree : b.hasChild n = false) :
      Effect root catalog (.addChild path name subtype)
        (root.set path (b.attach (Block.added catalog b.path n subtype)))
        (.ofBlock (Path.join b.path n) (Path.join b.path n))
  /-- A block of the document goes. -/
  | removed {path parent n : Text} {b c : Block} (hpath : splitPath path = .ok (parent, n))
      (hb : root.find? parent = some b) (hc : b.child? n = some c) :
      Effect root catalog (.remove path) (root.set parent (b.withdraw catalog n))
        (.ofBlock path path)
  /-- A block that the catalog offers goes. -/
  | dropped {path parent n : Text} {b c : Block} (hpath : splitPath path = .ok (parent, n))
      (hb : root.find? parent = some b) (hc : b.unused? n = some c) :
      Effect root catalog (.remove path)
        (root.set parent { b with unused := Named.remove n b.unused }) (.ofBlock path path)
  /-- A block of the document gets another name. -/
  | renamed {path parent n newName : Text} {b b' : Block}
      (hpath : splitPath path = .ok (parent, n)) (hb : root.find? parent = some b)
      (hn : isName newName = true) (hfree : newName = n ∨ b.hasChild newName = false)
      (hb' : b.renameChild? n newName = some b') :
      Effect root catalog (.rename path newName) (root.set parent b')
        (.ofBlock path (Path.join parent newName))
  /-- A block gets another subtype. -/
  | switched {e : Edit} {subtype : Text} {b c : Block} (hb : root.find? e.target = some b)
      (hselected : e.selected? b = some subtype) (hc : b.switchSubtype? subtype = some c) :
      Effect root catalog e (root.set e.target c) (.ofBlock e.target e.target)
  /-- A parameter changes where it is. -/
  | updated {e : Edit} {n : Text} {f : Slot → Slot} {b : Block} (hb : root.find? e.target = some b)
      (hchanged : e.changed? = some n) (hselected : e.selected? b = none)
      (hkeeps : ∀ s, b.parameter? n = some s → s.Keeps (f s))
      (hfits : Retouch b (b.updateParameter n f)) :
      Effect root catalog e (root.set e.target (b.updateParameter n f)) (.ofParameters e.target)
  /-- A block gets a parameter of the user's choice. -/
  | extended {path name value : Text} {b : Block} (hb : root.find? path = some b)
      (hn : isName name = true) (hvalue : (Value.ofText value).checkWritable = .ok ())
      (hfree : b.parameter? name = none) :
      Effect root catalog (.addParameter path name value)
        (root.set path (b.addParameter (Slot.user name value))) (.ofParameters path)

variable {root root' : Block} {catalog : Catalog} {landing : Landing}

/-- A switch to a subtype that was asked for retouches a block. -/
theorem retouch_elim_switchSubtype (c : Block) (subtype : Option Text) :
    c.Retouch (subtype.elim c c.switchSubtype) := by
  rcases subtype with _ | st
  · exact .refl c
  · exact Block.retouch_switchSubtype c st

/-- A child that is added has the name that it was to get. -/
theorem name_added (catalog : Catalog) (parent n : Text) (subtype : Option Text) :
    (Block.added catalog parent n subtype).name = n :=
  (retouch_elim_switchSubtype (Block.instantiate catalog parent n) subtype).place.name

/-- A new block of the user's choice is a sound tree in its place. -/
theorem added_spec (catalog : Catalog) (parent : Text) {n : Text} (subtype : Option Text)
    (hn : Path.IsSegment n) : All Sound (Block.added catalog parent n subtype) ∧
      Block.Placed parent true (Block.added catalog parent n subtype) := by
  have hretouch := retouch_elim_switchSubtype (Block.instantiate catalog parent n) subtype
  have hinst := hretouch.all_sound (Block.all_sound_instantiate catalog parent n)
  have hplaced : Block.Placed parent true (Block.instantiate catalog parent n) := ⟨rfl, rfl, hn⟩
  refine ⟨Block.all_sound_with_info hinst ⟨hinst.here.info.subtype, hinst.here.info.own,
    hinst.here.info.live, hinst.here.info.stashed⟩ rfl, ?_⟩
  exact hplaced.of_samePlace ⟨hretouch.place.name, hretouch.place.path, hretouch.place.included⟩

/-- **Adding a child** includes the block that is offered under the name that was asked for, and
adds a new one when none is. -/
theorem applyAddChild_cases {path : Text} {name subtype : Option Text} (h : All Sound root)
    (hcheck : checkAddChild root path name subtype = .ok ())
    (happly : applyAddChild root catalog path name subtype = .ok (root', landing)) :
    ∃ b, root.find? path = some b ∧
      ((∃ n c, name = some n ∧ isName n = true ∧ b.unused? n = some c ∧
        root' = root.set path (b.attach (subtype.elim (c.mark true) (c.mark true).switchSubtype)) ∧
          landing = .ofBlock c.path c.path) ∨
        (∀ m ∈ name, b.unused? m = none) ∧ ∃ n, isName n = true ∧ b.hasChild n = false ∧
          root' = root.set path (b.attach (Block.added catalog b.path n subtype)) ∧
            landing = .ofBlock (Path.join b.path n) (Path.join b.path n)) := by
  have hasked := isName_of_checkAddChild hcheck
  obtain ⟨b, hb, happly⟩ := Except.exists_of_bind_eq_ok happly
  have hfind := find?_of_parentBlock hb
  have hsound := Block.all_sound_of_find? h hfind
  refine ⟨b, hfind, ?_⟩
  split at happly
  · next n b₁ hincluded =>
    obtain ⟨m, rfl, hm⟩ := Option.bind_eq_some_iff.mp hincluded
    obtain ⟨b₂, hb₂, he⟩ := Option.map_eq_some_iff.mp hm
    cases he
    obtain ⟨c, hc, rfl⟩ := Option.map_eq_some_iff.mp hb₂
    obtain ⟨hmem, hname⟩ := Named.find?_eq_some hc
    have hmark : Named.name (c.mark true) = n := hname
    -- No child of the document has the name yet, so the new one is the last.
    have hfree : n ∉ Named.names b.children :=
      hname ▸ Block.not_mem_children_of_mem_unused hsound.here hmem
    have hchild : Named.find? n (b.children ++ [c.mark true]) = some (c.mark true) := by
      rw [Named.find?_append, Named.find?_eq_none hfree, Option.none_or, Named.find?, if_pos hmark]
    rw [Named.put_of_not_mem (hmark.symm ▸ hfree)] at happly
    dsimp only [Block.child?] at happly
    rw [hchild] at happly
    dsimp only at happly
    rw [Named.update_append_of_not_mem hfree, Named.update, if_pos hmark] at happly
    cases happly
    have hplace := (retouch_elim_switchSubtype (c.mark true) subtype).place
    refine Or.inl ⟨n, c, rfl, hasked n rfl, hc, ?_, ?_⟩
    · rw [Block.attach, hplace.name, show (c.mark true).name = n from hname]
    · rw [show _ = c.path from hplace.path]
  · next hnone =>
    cases happly
    have hname := @isName_freshName b name hasked
    have hfree := hasChild_freshName b name
    generalize freshName b name = n at hname hfree ⊢
    obtain ⟨hadded, hplaced⟩ := added_spec catalog b.path subtype
      (isHeaderName_of_isName hname).isSegment
    have hname' := name_added catalog b.path n subtype
    have hpath : (Block.added catalog b.path n subtype).path = Path.join b.path n := by
      rw [hplaced.path, hname']
    have hmark : (Block.added catalog b.path n subtype).mark true =
        Block.added catalog b.path n subtype := Block.mark_eq_self hplaced.included
    have hnew : (Block.added catalog b.path n subtype).name ∉ Named.names b.children := by
      rw [hname']
      exact (Block.hasChild_eq_false_iff.mp hfree).1
    have hinsert := Block.insertChild_of_new hadded hplaced.path hnew
    rw [hmark] at hinsert
    refine Or.inr ⟨fun m hm => ?_, n, hname, hfree, ?_, ?_⟩
    · obtain rfl := Option.mem_def.mp hm
      exact Option.map_eq_none_iff.mp (Option.map_eq_none_iff.mp hnone)
    · rw [Block.attach, ← hinsert]
      rfl
    · rw [← hpath]
      rfl

/-- **Adding a child** includes a block that is offered or adds a new one. -/
theorem effect_of_applyAddChild {path : Text} {name subtype : Option Text} (h : All Sound root)
    (hcheck : checkAddChild root path name subtype = .ok ())
    (happly : applyAddChild root catalog path name subtype = .ok (root', landing)) :
    Effect root catalog (.addChild path name subtype) root' landing := by
  obtain ⟨b, hb, ⟨n, c, rfl, hn, hc, rfl, rfl⟩ | ⟨-, n, hn, hfree, rfl, rfl⟩⟩ :=
    applyAddChild_cases h hcheck happly
  · exact .included hb hn hc
  · exact .added hb hn hfree

/-- **Removing a block** takes it out of the document, or out of what is offered. -/
theorem effect_of_applyRemove {path : Text} (h : All Sound root)
    (happly : applyRemove root catalog path = .ok (root', landing)) :
    Effect root catalog (.remove path) root' landing := by
  obtain ⟨⟨parent, n⟩, hpath, happly⟩ := Except.exists_of_bind_eq_ok happly
  obtain ⟨b, hb, happly⟩ := Except.exists_of_bind_eq_ok happly
  have hfind := find?_of_parentBlock hb
  have hsound := Block.all_sound_of_find? h hfind
  dsimp only at happly
  rw [Block.takeChild?] at happly
  rcases hc : b.child? n with _ | c
  · rw [hc] at happly
    dsimp only at happly
    rcases hu : b.unused? n with _ | c
    · rw [hu] at happly
      cases happly
    · rw [hu] at happly
      have hunused := (hsound.here.unused c (Named.mem_of_find? hu)).included
      dsimp only [Option.map_some] at happly
      rw [hunused, Bool.false_and, if_neg Bool.false_ne_true] at happly
      cases happly
      exact .dropped hpath hfind hu
  · rw [hc] at happly
    obtain ⟨hmem, hname⟩ := Named.find?_eq_some hc
    have hincluded := (hsound.here.child c hmem).included
    dsimp only at happly
    rw [hincluded, Bool.true_and] at happly
    have hnew : n ∉ Named.names b.unused :=
      Block.not_mem_unused_of_mem_children hsound.here (hname ▸ Named.name_mem_names hmem)
    have heffect : Effect root catalog (.remove path) (root.set parent (b.withdraw catalog n))
        (.ofBlock path path) := .removed hpath hfind hc
    cases happly
    convert heffect using 2
    rw [Block.withdraw]
    by_cases hdeclared : n ∈ catalog.childrenOf b.path
    · have hstay : ((Block.instantiate catalog b.path n).mark false).rebase b.path =
          (Block.instantiate catalog b.path n).mark false :=
        Block.rebase_eq_self (Block.all_sound_mark (Block.all_sound_instantiate catalog b.path n)
          false) rfl
      rw [if_pos hdeclared, if_pos (List.contains_iff_mem.mpr hdeclared), Block.insertUnused]
      dsimp only
      rw [hstay]
      exact congrArg _ (Named.put_of_not_mem hnew)
    · rw [if_neg hdeclared, if_neg (fun hm => hdeclared (List.contains_iff_mem.mp hm)),
        List.append_nil]

/-- **Renaming a block** gives a child of the document a name that is free. -/
theorem effect_of_applyRename {path newName : Text}
    (hcheck : checkRename root path newName = .ok ())
    (happly : applyRename root path newName = .ok (root', landing)) :
    Effect root catalog (.rename path newName) root' landing := by
  obtain ⟨⟨parent, n⟩, hpath, happly⟩ := Except.exists_of_bind_eq_ok happly
  obtain ⟨b, hb, happly⟩ := Except.exists_of_bind_eq_ok happly
  have hfind := find?_of_parentBlock hb
  obtain ⟨⟨parent', n'⟩, hpath', hcheck⟩ := Except.exists_of_bind_eq_ok hcheck
  rw [hpath] at hpath'
  cases hpath'
  obtain ⟨target, htarget, hcheck⟩ := Except.exists_of_bind_eq_ok hcheck
  -- The block at the path is the child of the parent.
  have hchild : b.child? n = some target := by
    have hdescend := find?_of_block htarget
    rw [Block.find?, segments_of_splitPath hpath, Block.descend?_append] at hdescend
    rw [Block.find?] at hfind
    rw [hfind, Option.bind_some, Block.descend?] at hdescend
    obtain ⟨c, hc, hd⟩ := Option.bind_eq_some_iff.mp hdescend
    cases hd
    exact hc
  cases happly
  split at hcheck
  · cases hcheck
  · obtain ⟨_, hname, hcheck⟩ := Except.exists_of_bind_eq_ok hcheck
    have hfree : newName = n ∨ b.hasChild newName = false := by
      split at hcheck
      · next heq => exact Or.inl heq
      · obtain ⟨p, hp, hcheck⟩ := Except.exists_of_bind_eq_ok hcheck
        rw [hb] at hp
        cases hp
        split at hcheck
        · cases hcheck
        · next hcollision => exact Or.inr (Bool.eq_false_iff.mpr hcollision)
    obtain ⟨b', hb'⟩ : ∃ b', b.renameChild? n newName = some b' := by
      rw [Block.renameChild?, hchild]
      exact ⟨_, rfl⟩
    rw [hb', Option.getD_some]
    exact .renamed hpath hfind (isName_of_checkName hname) hfree hb'

/-- **A switch** of the subtype that was checked carries it out. -/
theorem effect_of_applySwitch {e : Edit} {b : Block} {subtype : Text}
    (hb : block root e.target = .ok b) (hselected : e.selected? b = some subtype)
    (hcheck : checkSubtype b subtype = .ok ())
    (happly : applySwitch root e.target subtype = .ok (root', landing)) :
    Effect root catalog e root' landing := by
  obtain ⟨b₁, hb₁, happly⟩ := Except.exists_of_bind_eq_ok happly
  rw [hb] at hb₁
  cases hb₁
  cases happly
  have hhas : b.hasSubtype subtype = true := by
    unfold checkSubtype at hcheck
    split at hcheck
    · next hhas => exact hhas
    · cases hcheck
  rw [← Block.switchSubtype?_isSome_iff, Option.isSome_iff_exists] at hhas
  obtain ⟨c, hc⟩ := hhas
  rw [Block.switchSubtype, hc, Option.getD_some]
  exact .switched (find?_of_block hb) hselected hc

/-- What is set is the parameter that is found, where it is, unless it selects the subtype. -/
theorem exists_of_applySet {path parameter subtype : Text} {read : Slot → Except ValueError Value}
    {b : Block} (hb : block root path = .ok b) (hselects : ¬ selectsSubtype b parameter = true)
    (happly : applySet root path parameter subtype read = .ok (root', landing)) :
    ∃ s v t, b.parameter? parameter = some s ∧ read s = .ok v ∧ s.setValue v = .ok t ∧
      root' = root.set path (b.updateParameter parameter fun _ => t) ∧
      landing = .ofParameters path := by
  obtain ⟨b₁, hb₁, happly⟩ := Except.exists_of_bind_eq_ok happly
  rw [hb] at hb₁
  cases hb₁
  rw [if_neg hselects] at happly
  obtain ⟨s, hs, happly⟩ := Except.exists_of_bind_eq_ok happly
  split at happly
  · cases happly
  · next t ht =>
    cases happly
    obtain ⟨v, hv, hset⟩ := Except.exists_of_bind_eq_ok (x := read s) ht
    exact ⟨s, v, t, parameter?_of_slot hs, hv, hset, rfl, rfl⟩

/-- **Setting a parameter** switches the subtype or changes the parameter where it is. -/
theorem effect_of_applySet {e : Edit} {parameter subtype : Text}
    {readCheck read : Slot → Except ValueError Value} (hchanged : e.changed? = some parameter)
    (hselected : ∀ b, e.selected? b = if selectsSubtype b parameter then some subtype else none)
    (hcheck : checkSet root e.target parameter subtype readCheck = .ok ())
    (happly : applySet root e.target parameter subtype read = .ok (root', landing)) :
    Effect root catalog e root' landing := by
  obtain ⟨b, hb, hcheck⟩ := Except.exists_of_bind_eq_ok hcheck
  by_cases hselects : selectsSubtype b parameter = true
  · obtain ⟨b₁, hb₁, happly⟩ := Except.exists_of_bind_eq_ok happly
    rw [hb] at hb₁
    cases hb₁
    rw [if_pos hselects] at happly hcheck
    exact effect_of_applySwitch hb ((hselected b).trans (if_pos hselects)) hcheck happly
  · obtain ⟨s, v, t, hs, -, hset, rfl, rfl⟩ := exists_of_applySet hb hselects happly
    refine .updated (find?_of_block hb) hchanged ((hselected b).trans (if_neg hselects))
      (fun u hu => ?_) (Block.retouch_updateParameter fun _ _ _ => Slot.fits_setValue hset)
    rw [hs] at hu
    cases hu
    exact Slot.keeps_setValue hset

/-- **An edit that is accepted** has one of the effects. -/
theorem effect_of_apply {e : Edit} (h : All Sound root)
    (happly : e.apply root catalog = .ok (root', landing)) :
    Effect root catalog e root' landing := by
  obtain ⟨_, hcheck, happly⟩ := Except.exists_of_bind_eq_ok happly
  cases e with
  | addChild path name subtype => exact effect_of_applyAddChild h hcheck happly
  | remove path => exact effect_of_applyRemove h happly
  | rename path newName => exact effect_of_applyRename hcheck happly
  | setSubtype path subtype =>
    obtain ⟨b, hb, hcheck⟩ := Except.exists_of_bind_eq_ok hcheck
    exact effect_of_applySwitch hb rfl hcheck happly
  | setValue path parameter value => exact effect_of_applySet rfl (fun _ => rfl) hcheck happly
  | setText path parameter text => exact effect_of_applySet rfl (fun _ => rfl) hcheck happly
  | addParameter path name value =>
    obtain ⟨b, hb, happly⟩ := Except.exists_of_bind_eq_ok happly
    obtain ⟨b₁, hb₁, hcheck⟩ := Except.exists_of_bind_eq_ok hcheck
    rw [hb] at hb₁
    cases hb₁
    obtain ⟨_, hname, hcheck⟩ := Except.exists_of_bind_eq_ok hcheck
    cases happly
    split at hcheck
    · cases hcheck
    · next hnone =>
      split at hcheck
      · next hvalue =>
        exact .extended (find?_of_block hb) (isName_of_checkName hname) hvalue
          (by simpa using hnone)
      · cases hcheck
  | setComment path parameter comment =>
    obtain ⟨b, hb, happly⟩ := Except.exists_of_bind_eq_ok happly
    obtain ⟨s, -, happly⟩ := Except.exists_of_bind_eq_ok happly
    cases happly
    refine .updated (find?_of_block hb) rfl rfl (fun _ _ => ⟨rfl, rfl, fun _ hv => Or.inl hv⟩)
      (Block.retouch_updateParameter fun hi t ht => ?_)
    exact Slot.fits_comments (Block.fits_of_parameter? hi ht) comment

/-- An edit that selects a subtype has carried out the switch. -/
theorem Effect.exists_switchSubtype? {e : Edit} {b : Block} {subtype : Text}
    (he : Effect root catalog e root' landing) (hb : root.find? e.target = some b)
    (hselected : e.selected? b = some subtype) :
    ∃ c, b.switchSubtype? subtype = some c ∧ root' = root.set e.target c := by
  cases he with
  | included => cases hselected
  | added => cases hselected
  | removed => cases hselected
  | dropped => cases hselected
  | renamed => cases hselected
  | extended => cases hselected
  | updated hb' hchanged hnone =>
    rw [hb] at hb'
    cases hb'
    rw [hnone] at hselected
    cases hselected
  | switched hb' hselected' hc =>
    rw [hb] at hb'
    cases hb'
    rw [hselected] at hselected'
    cases hselected'
    exact ⟨_, hc, rfl⟩

/-! ### One block at a time -/

/-- **Every edit** puts another block into the place of one. -/
theorem Effect.exists_set {e : Edit} (he : Effect root catalog e root' landing) :
    ∃ path b c, root.find? path = some b ∧ root' = root.set path c ∧ Block.SamePlace b c ∧
      c.info.schema = b.info.schema := by
  cases he with
  | included hb hn hc => exact ⟨_, _, _, hb, rfl, .of_info rfl, rfl⟩
  | added hb hn hfree => exact ⟨_, _, _, hb, rfl, .of_info rfl, rfl⟩
  | removed hpath hb hc => exact ⟨_, _, _, hb, rfl, .of_info rfl, rfl⟩
  | dropped hpath hb hc => exact ⟨_, _, _, hb, rfl, .of_info rfl, rfl⟩
  | renamed hpath hb hn hfree hb' =>
    have hinfo := Block.info_renameChild? hb'
    exact ⟨_, _, _, hb, rfl, .of_info hinfo, congrArg BlockInfo.schema hinfo⟩
  | switched hb hselected hc =>
    have hr := Block.retouch_switchSubtype? hc
    exact ⟨_, _, _, hb, rfl, hr.place, hr.schema⟩
  | updated hb hchanged hselected hkeeps hfits =>
    exact ⟨_, _, _, hb, rfl, hfits.place, hfits.schema⟩
  | extended hb hn hvalue hfree => exact ⟨_, _, _, hb, rfl, ⟨rfl, rfl, rfl⟩, rfl⟩

/-- The root of a document stays without a schema. -/
theorem Effect.schema_root {e : Edit} (he : Effect root catalog e root' landing) :
    root'.info.schema = root.info.schema := by
  obtain ⟨path, b, c, hb, rfl, -, hschema⟩ := he.exists_set
  exact Block.congr_info_set BlockInfo.schema hb hschema

end Edit

end BlockEdit
