import BlockEdit.Proofs.Atomicity
import BlockEdit.Proofs.Typing

/-!
# Children with a subtype

A block takes a new child with a subtype when the schema that the block keeps for such children has
the subtype. The child then gets the schema that the catalog has for its path, and the subtype only
if this one has it, too. Where both come from the same place in the catalog, what is accepted is
what is done. They differ below the root, which keeps no schema for new children, and under a name
that the catalog declares while the block does not offer it any more.

Main statements:

* **`Edit.applyAddChild_typed`**: which subtype a child that is added has in the end.
* **`Document.Reached.addChild_typed`**: when a child with a subtype is accepted and when it has it.
-/

namespace BlockEdit

/-- There is a schema and it has the subtype. -/
def Declares (schema : Option BlockSchema) (subtype : Text) : Prop :=
  ∃ s ∈ schema, (s.subtype? subtype).isSome = true

instance (schema : Option BlockSchema) (subtype : Text) : Decidable (Declares schema subtype) :=
  inferInstanceAs (Decidable (∃ s ∈ schema, (s.subtype? subtype).isSome = true))

/-- Where there is no schema, no subtype is declared. -/
theorem not_declares_none (subtype : Text) : ¬ Declares none subtype := by
  rintro ⟨_, hnone, -⟩
  cases hnone

/-- A schema is asked for a subtype by its name, and has it exactly when it declares it. -/
theorem isSome_bind_subtype?_iff {schema : Option BlockSchema} {subtype : Text} :
    (schema.bind fun s => s.subtype? subtype).isSome = true ↔ Declares schema subtype := by
  cases schema <;> simp [Declares]

namespace Block

variable {root b c : Block}

/-- A block offers the subtypes that its schema declares, and no others. -/
theorem hasSubtype_iff {subtype : Text} :
    b.hasSubtype subtype = true ↔ Declares b.info.schema subtype := by
  rw [hasSubtype, subtypeSchema?, isSome_bind_subtype?_iff]

/-- **A switch leaves the subtype that was asked for** exactly when the schema has it. -/
theorem subtype_switchSubtype_eq_some_iff (h : b.info.Sound) {subtype : Text} :
    (b.switchSubtype subtype).info.subtype = some subtype ↔ Declares b.info.schema subtype := by
  rw [switchSubtype, ← hasSubtype_iff, ← switchSubtype?_isSome_iff]
  rcases hc : b.switchSubtype? subtype with _ | c
  · refine iff_of_false (fun hactive => ?_) Bool.false_ne_true
    have hactive : b.info.subtype = some subtype := hactive
    rcases h.subtype with ⟨hnone, -⟩ | ⟨schema, st, hschema, hst, hdeclared⟩
    · rw [hnone] at hactive
      cases hactive
    · have hsame : st = subtype := Option.some.inj (hst.symm.trans hactive)
      have hhas : b.hasSubtype subtype = true :=
        hasSubtype_iff.mpr ⟨schema, hschema, hsame ▸ hdeclared⟩
      rw [← switchSubtype?_isSome_iff, hc] at hhas
      cases hhas
  · exact iff_of_true (subtype_of_switchSubtype? hc) rfl

/-- A child that is attached to a block of a document is found at its path. -/
theorem find?_set_attach {path : Text} (h : Grounded root) (hb : root.find? path = some b)
    (hfree : c.name ∉ Named.names b.children) (hsegment : Path.IsSegment c.name) :
    (root.set path (b.attach c)).find? (Path.join b.path c.name) = some c := by
  have hset : (root.set path (b.attach c)).find? path = some (b.attach c) := find?_set hb rfl
  rw [find?] at hset ⊢
  rw [Path.segments_join_segment _ hsegment, Edit.segments_path h hb, descend?_append, hset,
    Option.bind_some, descend?, attach, Named.find?_append, Named.find?_eq_none hfree,
    Option.none_or, Named.find?, if_pos (show Named.name c = c.name from rfl)]
  rfl

/-- **A child that the catalog does not declare** has the schema that it has for new children. -/
theorem lookup_join_eq_wildcardFor {catalog : Catalog} {path n : Text} (h : Grounded root)
    (hb : root.find? path = some b) (hn : Path.IsSegment n) (hnot : n ∉ catalog.childrenOf b.path) :
    catalog.lookup (Path.join b.path n) = catalog.wildcardFor b.path := by
  rw [Catalog.wildcardFor, join_of_descend? h _ hb, join_of_descend? h _ hb]
  exact Catalog.lookup_of_not_mem_childrenOf (isSegment_of_descend? h.tree hb)
    (Edit.segments_path h hb) hn hnot

end Block

namespace Edit

open Block (All Sound Grounded Throughout)
open BlockInfo (Typed)

variable {root root' : Block} {catalog : Catalog} {landing : Landing}

/-- A child of a subtype may be added exactly where the schema of new children declares the
subtype. -/
theorem checkAdded_eq_ok_iff {b : Block} {path subtype : Text} :
    checkAdded b path (some subtype) = .ok () ↔ Declares b.info.childSchema subtype := by
  rw [checkAdded, ← isSome_bind_subtype?_iff]
  cases b.info.childSchema with
  | none => cases b.isKnown <;> simp
  | some schema =>
    rw [if_neg (by simp)]
    split
    · next h => exact iff_of_true rfl h
    · next h => exact iff_of_false (fun hok => by cases hok) h

/-- A subtype that passes its check is one that the schema of the block declares. -/
theorem declares_of_checkSubtype {b : Block} {subtype : Text}
    (h : checkSubtype b subtype = .ok ()) : Declares b.info.schema subtype := by
  rw [checkSubtype] at h
  split at h
  · next hhas => exact Block.hasSubtype_iff.mp hhas
  · cases h

/-- **A child with a subtype and no name** is accepted exactly when the schema that the block keeps
for new children has the subtype. -/
theorem checkAddChild_eq_ok_iff {path subtype : Text} {b : Block} (hb : root.find? path = some b) :
    checkAddChild root path none (some subtype) = .ok () ↔ Declares b.info.childSchema subtype := by
  rw [checkAddChild, parentBlock_of_find? hb]
  exact checkAdded_eq_ok_iff

/-- **A child with a subtype** is accepted only if the block that is offered under its name has the
subtype, or else the schema for new children. -/
theorem declares_of_checkAddChild {path subtype : Text} {name : Option Text} {b : Block}
    (hb : root.find? path = some b) (h : checkAddChild root path name (some subtype) = .ok ()) :
    (∀ n ∈ name, ∀ c ∈ b.unused? n, Declares c.info.schema subtype) ∧
      ((∀ n ∈ name, b.unused? n = none) → Declares b.info.childSchema subtype) := by
  cases name with
  | none => exact ⟨nofun, fun _ => (checkAddChild_eq_ok_iff hb).mp h⟩
  | some n =>
    obtain ⟨b₁, hb₁, h⟩ := Except.exists_of_bind_eq_ok h
    rw [parentBlock_of_find? hb] at hb₁
    cases hb₁
    obtain ⟨_, -, h⟩ := Except.exists_of_bind_eq_ok h
    constructor
    · intro m hm c hc
      cases hm
      rw [Option.mem_def.mp hc] at h
      exact declares_of_checkSubtype h
    · intro hnone
      rw [hnone n rfl] at h
      exact checkAdded_eq_ok_iff.mp h

/-- **A child that was added with a subtype** has it when the block was offered, and otherwise when
the schema that the catalog has for its path has it. A child that was not offered was accepted for
the schema that its parent keeps. -/
theorem applyAddChild_typed {path subtype : Text} {name : Option Text} (h : Grounded root)
    (happly : (addChild path name (some subtype)).apply root catalog = .ok (root', landing)) :
    ∃ p c, root.find? path = some p ∧ root'.find? landing.path = some c ∧ c.info.included = true ∧
      (c.info.subtype = some subtype ↔
        (∃ n ∈ name, (p.unused? n).isSome = true) ∨
          Declares (catalog.lookup landing.path) subtype) ∧
      ((∀ n ∈ name, p.unused? n = none) →
        Declares p.info.childSchema subtype ∧ Path.IsSegment c.name ∧
          landing.path = Path.join p.path c.name) := by
  obtain ⟨_, hcheck, hcarry⟩ := Except.exists_of_bind_eq_ok happly
  obtain ⟨p, hp, hcases⟩ := applyAddChild_cases h.tree hcheck hcarry
  have htree := Block.all_sound_of_find? h.tree hp
  obtain ⟨hoffered, hkept⟩ := declares_of_checkAddChild hp hcheck
  rcases hcases with ⟨n, c, rfl, hn, hc, rfl, rfl⟩ | ⟨hnone, n, hn, hfree, rfl, rfl⟩
  · obtain ⟨hmem, -⟩ := Named.find?_eq_some hc
    have hplaced := htree.here.unused c hmem
    have hplace := (Block.retouch_switchSubtype (c.mark true) subtype).place
    have hname : ((c.mark true).switchSubtype subtype).name = c.name := hplace.name
    have hfree := Block.not_mem_children_of_mem_unused htree.here hmem
    have hfind := Block.find?_set_attach h hp (hname.symm ▸ hfree) (hname.symm ▸ hplaced.segment)
    rw [hname, ← hplaced.path] at hfind
    -- The check looked at the schema of the offered block itself, so the switch goes through.
    have hactive := (Block.subtype_switchSubtype_eq_some_iff
      (Block.all_sound_mark (htree.unused c hmem) true).here.info).mpr (hoffered n rfl c hc)
    refine ⟨p, _, hp, hfind, hplace.included, ?_, fun hnone => ?_⟩
    · exact iff_of_true hactive (Or.inl ⟨n, rfl, hc ▸ rfl⟩)
    · rw [hnone n rfl] at hc
      cases hc
  · have hsegment := (isHeaderName_of_isName hn).isSegment
    obtain ⟨-, hplaced⟩ := added_spec catalog p.path (some subtype) hsegment
    have hname := name_added catalog p.path n (some subtype)
    have hnew := (Block.hasChild_eq_false_iff.mp hfree).1
    have hfind := Block.find?_set_attach h hp (hname.symm ▸ hnew) hplaced.segment
    rw [hname] at hfind
    -- The check looked at the schema that the parent keeps, the switch at that of the new path.
    have hsubtype : (Block.added catalog p.path n (some subtype)).info.subtype = some subtype ↔
        Declares (catalog.lookup (Path.join p.path n)) subtype :=
      Block.subtype_switchSubtype_eq_some_iff
        (Block.all_sound_instantiate catalog p.path n).here.info
    refine ⟨p, _, hp, hfind, hplaced.included, hsubtype.trans ?_,
      fun _ => ⟨hkept hnone, hplaced.segment, ?_⟩⟩
    · refine (or_iff_right ?_).symm
      rintro ⟨m, hm, hoffer⟩
      rw [hnone m hm] at hoffer
      cases hoffer
    · rw [hname]
      rfl

/-- **The root of a document** keeps the schema that it has for new children. -/
theorem Effect.childSchema_root {e : Edit} (he : Effect root catalog e root' landing) :
    root'.info.childSchema = root.info.childSchema := by
  cases he with
  | included hb hn hc => exact Block.congr_info_set BlockInfo.childSchema hb rfl
  | added hb hn hfree => exact Block.congr_info_set BlockInfo.childSchema hb rfl
  | removed hpath hb hc => exact Block.congr_info_set BlockInfo.childSchema hb rfl
  | dropped hpath hb hc => exact Block.congr_info_set BlockInfo.childSchema hb rfl
  | renamed hpath hb hn hfree hb' =>
    exact Block.congr_info_set BlockInfo.childSchema hb
      (congrArg BlockInfo.childSchema (Block.info_renameChild? hb'))
  | switched hb hselected hc =>
    exact Block.congr_info_set BlockInfo.childSchema hb (Block.childSchema_switchSubtype? hc)
  | updated hb hchanged hselected hkeeps hfits =>
    exact Block.congr_info_set BlockInfo.childSchema hb (Block.childSchema_updateParameter _ _ _)
  | extended hb hn hvalue hfree => exact Block.congr_info_set BlockInfo.childSchema hb rfl

end Edit

/-- The root of the tree of a text keeps no schema for new children. -/
theorem Block.childSchema_parse {catalog : Catalog} {source : Text} {root : Block}
    (h : parse catalog source = .ok root) : root.info.childSchema = none := by
  obtain ⟨outline, -, rfl⟩ := exists_outline_of_parse h
  exact childSchema_foldl_bindSetting outline.settings (instantiateRoot catalog)

namespace Document

open Block (Throughout)
open BlockInfo (Typed)

variable {catalog : Catalog} {d d' : Document}

/-- **The root of every document of a run** keeps no schema for new children. -/
theorem Reached.childSchema_root (h : Reached catalog d) : d.root.info.childSchema = none := by
  induction h with
  | new => rfl
  | ofText h => exact Block.childSchema_parse (root_of_ofText h).1
  | apply before h ih =>
    obtain ⟨landing, he, -⟩ := root_of_apply h
    exact (Edit.effect_of_apply before.grounded.tree he).childSchema_root.trans ih
  | replaceText before h ih => exact Block.childSchema_parse (before.parse_of_replaceText h)

/-- **In a run that moves no block to other schemas** every block below the root keeps the schema
for new children that the catalog has for it. -/
theorem ReachedBy.childSchema_eq {through : Document → Prop}
    (h : ReachedBy (fun d e => ¬ e.Mistypes catalog d.root) through catalog d) {p : Block}
    (hp : p ∈ d.root.descendants) : p.info.childSchema =
      if p.path = Path.root then none else catalog.wildcardFor p.path := by
  have hground := h.reached.grounded
  split
  · next hroot =>
    have hfind := Block.find?_path hground.tree hground.path hp
    rw [hroot] at hfind
    cases hfind
    exact h.reached.childSchema_root
  · next hroot => exact ((Block.All.descendant h.typed hp).here hroot).childSchema

/-- **Adding a child with a subtype.** In every run, a child that is added with a subtype is part of
the document. It has the subtype when its block was offered, and otherwise exactly when the schema
that the catalog has for its path has the subtype. In a run that moves no block to other schemas it
has it under every name that the catalog does not declare; and without a name such a child is
accepted exactly below a block, other than the root, for whose children the catalog has a schema
with the subtype. -/
theorem Reached.addChild_typed (h : Reached catalog d) :
    (∀ {path subtype : Text} {name : Option Text} {d' : Document} {r : EditResult},
      d.apply (.addChild path name (some subtype)) = .ok (d', r) →
        ∃ p c, d.root.find? path = some p ∧ d'.root.find? r.path = some c ∧
          c.info.included = true ∧
          (c.info.subtype = some subtype ↔ (∃ n ∈ name, (p.unused? n).isSome = true) ∨
            Declares (catalog.lookup r.path) subtype) ∧
          (ReachedBy (fun d e => ¬ e.Mistypes catalog d.root) (fun _ => True) catalog d →
            c.name ∉ catalog.childrenOf p.path → c.info.subtype = some subtype)) ∧
      (ReachedBy (fun d e => ¬ e.Mistypes catalog d.root) (fun _ => True) catalog d →
        ∀ p ∈ d.root.descendants, ∀ subtype,
          (∃ d' r, d.apply (.addChild p.path none (some subtype)) = .ok (d', r)) ↔
            p.path ≠ Path.root ∧ Declares (catalog.wildcardFor p.path) subtype) := by
  have hground := h.grounded
  constructor
  · intro path subtype name d' r happly
    obtain ⟨landing, he, -, hpath⟩ := root_of_apply happly
    rw [h.catalog_eq] at he
    obtain ⟨p, c, hp, hc, hincluded, hiff, hkept⟩ := Edit.applyAddChild_typed hground he
    rw [hpath]
    refine ⟨p, c, hp, hc, hincluded, hiff, fun hrun hname => hiff.mpr ?_⟩
    by_cases hoffered : ∃ n ∈ name, (p.unused? n).isSome = true
    · exact Or.inl hoffered
    · obtain ⟨hdeclares, hsegment, hlanding⟩ := hkept fun n hn =>
        Option.not_isSome_iff_eq_none.mp fun hsome => hoffered ⟨n, hn, hsome⟩
      -- Both schemas come from the `*` of the parent when the catalog does not declare the name.
      rw [hrun.childSchema_eq (Block.mem_descendants_of_descend? _ hp)] at hdeclares
      split at hdeclares
      · exact absurd hdeclares (not_declares_none subtype)
      · rw [hlanding, Block.lookup_join_eq_wildcardFor hground hp hsegment hname]
        exact Or.inr hdeclares
  · intro hrun p hp subtype
    have hfind := Block.find?_path hground.tree hground.path hp
    have haccepted : (∃ d' r, d.apply (.addChild p.path none (some subtype)) = .ok (d', r)) ↔
        Declares p.info.childSchema subtype := by
      rw [← Edit.checkAddChild_eq_ok_iff hfind]
      constructor
      · rintro ⟨d', r, happly⟩
        obtain ⟨landing, he, -⟩ := root_of_apply happly
        obtain ⟨_, hcheck, -⟩ := Except.exists_of_bind_eq_ok he
        exact hcheck
      · intro hcheck
        obtain ⟨-, -, d', r, -, -, happly, -⟩ :=
          apply_of_check_ok (e := .addChild p.path none (some subtype)) hcheck
        exact ⟨d', r, happly⟩
    rw [haccepted, hrun.childSchema_eq hp]
    split
    · next hroot => exact iff_of_false (not_declares_none subtype) fun hboth => hboth.1 hroot
    · next hroot => exact (and_iff_right hroot).symm

/-- A catalog with a block `/A` in which a user may add blocks of the subtype `s`. -/
def openCatalog : Catalog where
  entries := [("/A".toList, {}), ("/A/*".toList, { subtypes := [("s".toList, {})] })]

/-- A block of the subtype `s` is accepted in `/A`, and that is what is added. -/
theorem Reached.addChild_typed_sample : ∃ d p d' r c, Reached openCatalog d ∧
    p ∈ d.root.descendants ∧ d.apply (.addChild p.path none (some "s".toList)) = .ok (d', r) ∧
      d'.root.find? r.path = some c ∧ c.info.included = true ∧
        c.info.subtype = some "s".toList := by
  have hrun : ((Document.ofText openCatalog "[A]\n[]\n".toList .memory).toOption.bind fun d =>
      (d.root.find? "/A".toList).map fun p => decide (p.path ≠ Path.root ∧
        Declares (openCatalog.wildcardFor p.path) "s".toList ∧
          openCatalog.childrenOf p.path = [])) = some true := by
    decide +kernel
  obtain ⟨d, hd, hrun⟩ := Option.bind_eq_some_iff.mp hrun
  obtain ⟨p, hp, hrun⟩ := Option.map_eq_some_iff.mp hrun
  obtain ⟨hroot, hdeclares, hnone⟩ := of_decide_eq_true hrun
  have hd := eq_ok_of_toOption hd
  have hreached : Reached openCatalog d := .ofText hd
  have hmem := Block.mem_descendants_of_descend? _ hp
  obtain ⟨hadds, haccepts⟩ := hreached.addChild_typed
  obtain ⟨d', r, happly⟩ :=
    (haccepts (.ofText trivial hd) p hmem "s".toList).mpr ⟨hroot, hdeclares⟩
  obtain ⟨p', c, hp', hc, hincluded, -, hactive⟩ := hadds happly
  rw [Block.find?_path hreached.grounded.tree hreached.grounded.path hmem] at hp'
  cases hp'
  refine ⟨d, p, d', r, c, hreached, hmem, happly, hc, hincluded, hactive (.ofText trivial hd) ?_⟩
  rw [hnone]
  exact List.not_mem_nil

/-- The root takes no child with a subtype, whatever the catalog has for its children; and a child
comes without the subtype that it was accepted with, when its name is one that the catalog declares
and that was dropped from what the block offers. -/
theorem not_forall_addChild_typed :
    (¬ ∀ (catalog : Catalog) (d : Document), Reached catalog d → ∀ p ∈ d.root.descendants,
      ∀ subtype, (∃ d' r, d.apply (.addChild p.path none (some subtype)) = .ok (d', r)) ↔
        Declares (catalog.wildcardFor p.path) subtype) ∧
    ¬ ∀ (catalog : Catalog) (d d' : Document) (path subtype : Text) (name : Option Text)
      (r : EditResult), Reached catalog d →
        d.apply (.addChild path name (some subtype)) = .ok (d', r) →
          ∃ c, d'.root.find? r.path = some c ∧ c.info.included = true ∧
            c.info.subtype = some subtype := by
  constructor
  · intro hall
    let catalog : Catalog := ⟨[("/*".toList, { subtypes := [("s".toList, {})] })]⟩
    have hrefused : ((Document.new catalog).apply
        (.addChild Path.root none (some "s".toList))).toOption.isSome = false := by decide +kernel
    obtain ⟨d', r, happly⟩ := (hall catalog (.new catalog) .new _
      (Block.mem_descendants_self _) "s".toList).mpr (by decide +kernel)
    rw [show (Document.new catalog).root.path = Path.root from rfl] at happly
    rw [happly] at hrefused
    cases hrefused
  · intro hall
    let catalog : Catalog := ⟨[("/A".toList, {}),
      ("/A/*".toList, { subtypes := [("s".toList, {})] }), ("/A/New_0".toList, {})]⟩
    have hrun : ((ofText catalog "[A]\n[]\n".toList .memory).toOption.bind fun start =>
        (start.edits [.remove "/A/New_0".toList]).toOption.bind fun d =>
          (d.apply (.addChild "/A".toList none (some "s".toList))).toOption.map fun (d', r) =>
            (d'.root.find? r.path).map fun c => c.info.subtype) = some (some none) := by
      decide +kernel
    obtain ⟨start, hstart, hrun⟩ := Option.bind_eq_some_iff.mp hrun
    obtain ⟨d, hd, hrun⟩ := Option.bind_eq_some_iff.mp hrun
    obtain ⟨⟨d', r⟩, happly, hsubtype⟩ := Option.map_eq_some_iff.mp hrun
    have hreached := Reached.edits _ (.ofText (eq_ok_of_toOption hstart)) (eq_ok_of_toOption hd)
    obtain ⟨c, hc, -, hactive⟩ := hall catalog d d' _ _ _ r hreached (eq_ok_of_toOption happly)
    dsimp only at hsubtype
    rw [hc, Option.map_some, hactive] at hsubtype
    cases hsubtype

end Document

end BlockEdit
