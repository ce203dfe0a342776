import BlockEdit.InPlace
import BlockEdit.Proofs.Effects

/-!
# All or nothing

`Edit.check` and `Edit.carryOut` look at a tree in ways of their own: the check reads, and carrying
out changes what it finds, step by step. That no step fails after the check has to be proved for
each kind of edit. From it follows that an edit made where the tree stands is made as a whole or not
at all, although nothing undoes the steps before one that fails.

Main statements:

* **`Edit.exists_carryOut`**: an edit that is checked can be carried out.
* **`Edit.carryOutInPlace_of_ok`**: carrying out an edit where the tree stands leaves the tree that
  `Edit.carryOut` gives.
* **`Document.changes_atomically`**: edits and texts change a document as a whole or not at all.
-/

namespace BlockEdit

/-! ### Work that succeeds -/

namespace Work

/-- Work that looks at what is there goes on with it. -/
theorem get_bind {ε σ β : Type} (f : σ → EStateM ε σ β) (s : σ) :
    ((get : EStateM ε σ σ) >>= f) s = f s s := rfl

/-- Work goes on with what the work before it has left behind. -/
theorem bind_of_ok {ε σ α β : Type} {x : EStateM ε σ α} {f : α → EStateM ε σ β} {s s' : σ} {a : α}
    (h : x s = .ok a s') : (x >>= f) s = f a s' := by
  show EStateM.bind x f s = f a s'
  rw [EStateM.bind, h]

variable {α : Type}

/-- A look that finds something gives it, and leaves the tree as it was. -/
theorem look_of_ok {f : Block → Except EditError α} {b : Block} {a : α} (h : f b = .ok a) :
    look f b = .ok a b := by
  rw [look, h]

/-- Work within a block that is found gives what it gives on the block, and only the block is put in
its place. -/
theorem within_of_find? {path : Text} {missing : EditError} {work : Work α} {root b b' : Block}
    {a : α} (hb : root.find? path = some b) (hwork : work b = .ok a b') :
    within path missing work root = .ok a (root.set path b') := by
  rw [within, hb]
  dsimp only
  rw [hwork]

/-- A change within a block that is found always succeeds. -/
theorem modify_within_of_find? {path : Text} {missing : EditError} {root b : Block}
    (hb : root.find? path = some b) (f : Block → Block) :
    within path missing (modify f) root = .ok () (root.set path (f b)) :=
  within_of_find? hb rfl

/-- A parameter that takes what it is given is changed where it is. -/
theorem withinSlot_of_ok {path parameter : Text} {work : Slot → Except ValueError Slot}
    {root b : Block} {s t : Slot} (hb : root.find? path = some b)
    (hs : Edit.slot b path parameter = .ok s) (ht : work s = .ok t) :
    withinSlot path parameter work root =
      .ok () (root.set path (b.updateParameter parameter fun _ => t)) := by
  refine within_of_find? hb ((bind_of_ok (look_of_ok hs)).trans ?_)
  rw [ht]
  rfl

end Work

/-! ### What is found again -/

/-- Only what an update makes of the parameter that it finds counts. -/
theorem Block.updateParameter_congr {b : Block} {n : Text} {s : Slot} {f g : Slot → Slot}
    (hs : b.parameter? n = some s) (hfg : f s = g s) :
    b.updateParameter n f = b.updateParameter n g := by
  rw [updateParameter, updateParameter]
  rcases hown : Named.find? n b.info.parameters with _ | t
  · rw [parameter?, hown, Option.none_or] at hs
    rw [Named.has, hown, if_neg (by simp), if_neg (by simp), Named.update_congr hs hfg]
  · rw [parameter?, hown, Option.some_or] at hs
    cases hs
    rw [Named.has, hown, Option.isSome_some, if_pos rfl, if_pos rfl, Named.update_congr hown hfg]

namespace Edit

open Work

variable {root root' : Block} {catalog : Catalog} {landing : Landing}

/-- The parent of a block that is found is found, and the block is its child. -/
theorem exists_parent_of_splitPath {path parent name : Text} {b : Block}
    (hpath : splitPath path = .ok (parent, name)) (hb : root.find? path = some b) :
    ∃ p, root.find? parent = some p ∧ p.child? name = some b := by
  rw [Block.find?, segments_of_splitPath hpath, Block.descend?_append] at hb
  obtain ⟨p, hp, hdescend⟩ := Option.bind_eq_some_iff.mp hb
  obtain ⟨c, hc, hself⟩ := Option.bind_eq_some_iff.mp hdescend
  cases hself
  exact ⟨p, hp, hc⟩

/-- A child that was just included is found. -/
theorem child?_of_includeChild? {b b' : Block} {n : Text} (h : b.includeChild? n = some b') :
    ∃ c, b'.child? n = some c := by
  obtain ⟨c, hc, rfl⟩ := Option.map_eq_some_iff.mp h
  obtain rfl : Named.name c = n := Named.name_of_find? hc
  exact ⟨c.mark true, Named.find?_put (c.mark true) b.children⟩

/-- A block that is found passes for a parent. -/
theorem parentBlock_of_find? {path : Text} {b : Block} (h : root.find? path = some b) :
    parentBlock root path = .ok b := by
  rw [parentBlock, h]

/-! ### What is checked can be carried out -/

/-- A child that may be added is added: a child is either included from what was not taken or made
anew. -/
theorem exists_applyAddChild {path : Text} {name subtype : Option Text}
    (h : checkAddChild root path name subtype = .ok ()) :
    ∃ r, applyAddChild root catalog path name subtype = .ok r := by
  obtain ⟨b, hb, -⟩ := Except.exists_of_bind_eq_ok h
  rw [applyAddChild, hb]
  dsimp only [bind, Except.bind]
  split
  · next n b' hincluded =>
    obtain ⟨m, -, hm⟩ := Option.bind_eq_some_iff.mp hincluded
    obtain ⟨b₁, hb₁, he⟩ := Option.map_eq_some_iff.mp hm
    cases he
    obtain ⟨c, hc⟩ := child?_of_includeChild? hb₁
    rw [hc]
    exact ⟨_, rfl⟩
  · exact ⟨_, rfl⟩

/-- A block that may be removed is removed. -/
theorem exists_applyRemove {path : Text} (h : checkRemove root path = .ok ()) :
    ∃ r, applyRemove root catalog path = .ok r := by
  obtain ⟨⟨parent, name⟩, hpath, h⟩ := Except.exists_of_bind_eq_ok h
  obtain ⟨b, hb, hchild⟩ := Except.exists_of_bind_eq_ok h
  rw [applyRemove, hpath]
  dsimp only [bind, Except.bind]
  rw [hb]
  dsimp only
  have hhas : b.hasChild name = true := by
    split at hchild
    · next hhas => exact hhas
    · cases hchild
  obtain ⟨r, hr⟩ : ∃ r, b.takeChild? name = some r := by
    rw [Block.hasChild, Bool.or_eq_true] at hhas
    rw [Block.takeChild?, Block.child?]
    rcases hc : Named.find? name b.children with _ | c
    · rw [Named.has, hc] at hhas
      obtain ⟨u, hu⟩ := Option.isSome_iff_exists.mp (hhas.resolve_left Bool.false_ne_true)
      rw [Block.unused?, hu]
      exact ⟨_, rfl⟩
    · exact ⟨_, rfl⟩
  rw [hr]
  exact ⟨_, rfl⟩

/-- A block that may be renamed is renamed. -/
theorem exists_applyRename {path newName : Text} (h : checkRename root path newName = .ok ()) :
    ∃ r, applyRename root path newName = .ok r := by
  obtain ⟨⟨parent, name⟩, hpath, h⟩ := Except.exists_of_bind_eq_ok h
  obtain ⟨b, hb, -⟩ := Except.exists_of_bind_eq_ok h
  obtain ⟨p, hp, -⟩ := exists_parent_of_splitPath hpath (find?_of_block hb)
  rw [applyRename, hpath]
  dsimp only [bind, Except.bind]
  rw [parentBlock_of_find? hp]
  exact ⟨_, rfl⟩

/-- In a block that is found any subtype can be asked for; where the schema has none of that name
the block stays. -/
theorem exists_applySwitch {path subtype : Text} {b : Block} (h : block root path = .ok b) :
    ∃ r, applySwitch root path subtype = .ok r := by
  rw [applySwitch, h]
  exact ⟨_, rfl⟩

/-- A parameter is set when the value that is set fits whenever the one that was checked does. -/
theorem exists_applySet {path parameter subtype : Text}
    {readCheck read : Slot → Except ValueError Value}
    (hfits : ∀ s v, readCheck s = .ok v → ∃ w t, read s = .ok w ∧ s.setValue w = .ok t)
    (h : checkSet root path parameter subtype readCheck = .ok ()) :
    ∃ r, applySet root path parameter subtype read = .ok r := by
  obtain ⟨b, hb, h⟩ := Except.exists_of_bind_eq_ok h
  rw [applySet, hb]
  dsimp only [bind, Except.bind]
  by_cases hselects : selectsSubtype b parameter = true
  · rw [if_pos hselects]
    exact exists_applySwitch hb
  · rw [if_neg hselects] at h ⊢
    obtain ⟨s, hs, h⟩ := Except.exists_of_bind_eq_ok h
    rw [hs]
    dsimp only
    split at h
    · next v hv =>
      obtain ⟨w, t, hw, ht⟩ := hfits s v hv
      rw [hw]
      dsimp only
      rw [ht]
      exact ⟨_, rfl⟩
    · cases h

/-- **An edit that is checked** can be carried out. -/
theorem exists_carryOut {e : Edit} (h : e.check root = .ok ()) :
    ∃ r, e.carryOut root catalog = .ok r := by
  cases e with
  | addChild path name subtype => exact exists_applyAddChild h
  | remove path => exact exists_applyRemove h
  | rename path newName => exact exists_applyRename h
  | setSubtype path subtype =>
    obtain ⟨b, hb, -⟩ := Except.exists_of_bind_eq_ok h
    exact exists_applySwitch hb
  | setValue path parameter value =>
    refine exists_applySet (fun s v hv => ⟨value, s.give (some v), rfl, ?_⟩) h
    rw [Slot.setValue, hv]
    rfl
  | setText path parameter text =>
    exact exists_applySet (fun s v hv =>
      ⟨v, s.give (some v), hv, Slot.setValue_of_checkText hv⟩) h
  | addParameter path name value =>
    obtain ⟨b, hb, -⟩ := Except.exists_of_bind_eq_ok h
    rw [carryOut, applyAddParameter, hb]
    exact ⟨_, rfl⟩
  | setComment path parameter comment =>
    obtain ⟨b, hb, h⟩ := Except.exists_of_bind_eq_ok h
    obtain ⟨s, hs, -⟩ := Except.exists_of_bind_eq_ok h
    rw [carryOut, applySetComment, hb]
    dsimp only [bind, Except.bind]
    rw [hs]
    exact ⟨_, rfl⟩

/-- **An edit is accepted** exactly when it is checked, and is refused for the same reason. -/
theorem map_apply_eq_check (e : Edit) (root : Block) (catalog : Catalog) :
    (e.apply root catalog).map (fun _ => ()) = e.check root := by
  rcases hcheck : e.check root with reason | ⟨⟩
  · rw [apply, hcheck]
    rfl
  · obtain ⟨r, hr⟩ : ∃ r, e.carryOut root catalog = .ok r := exists_carryOut hcheck
    rw [apply, hcheck]
    show (e.carryOut root catalog).map _ = _
    rw [hr]
    rfl

/-! ### Carrying out where the tree stands -/

/-- Adding a child where the tree stands goes through the same trees: the child is there before its
subtype is chosen, and both ways end in the tree that the whole addition gives. -/
theorem addChildInPlace_of_ok {path : Text} {name subtype : Option Text}
    (h : applyAddChild root catalog path name subtype = .ok (root', landing)) :
    addChildInPlace catalog path name subtype root = .ok landing root' := by
  obtain ⟨b, hb, h⟩ := Except.exists_of_bind_eq_ok h
  have hfind := find?_of_parentBlock hb
  -- The child that is offered, when there is one, is found by both in the same way.
  have hoffered : ∀ {o : Option (Text × Block)},
      (name.bind fun n => (b.includeChild? n).map fun b => (n, b)) = o →
        name.filter (fun n => (b.unused? n).isSome) = o.map Prod.fst ∧
          ∀ n b', o = some (n, b') → (b.includeChild? n).getD b = b' := by
    rintro o rfl
    rcases name with _ | n
    · exact ⟨rfl, fun n b' h => by cases h⟩
    · rcases hu : b.unused? n with _ | c
      · simp [Block.includeChild?, hu, Option.filter]
      · simp [Block.includeChild?, hu, Option.filter]
  -- The child is one that the catalog offers, or it is made anew under a free name.
  split at h
  · next n b' hincluded =>
    obtain ⟨hname, hblock⟩ := hoffered hincluded
    rcases hc : b'.child? n with _ | c
    · rw [hc] at h
      cases h
    · rw [hc] at h
      cases h
      refine within_of_find? hfind ?_
      refine (get_bind _ b).trans ?_
      rw [hname]
      have hinclude : (modify fun b => (b.includeChild? n).getD b : Work Unit) b = .ok () b' :=
        congrArg (EStateM.Result.ok ()) (hblock n b' rfl)
      refine (bind_of_ok hinclude).trans ?_
      rw [withinChild, hc]
      rfl
  · next hnone =>
    obtain ⟨hname, -⟩ := hoffered hnone
    cases h
    refine within_of_find? hfind ?_
    refine (get_bind _ b).trans ?_
    rw [hname]
    rfl

/-- Removing a block where the tree stands leaves the tree that the whole removal gives. -/
theorem removeInPlace_of_ok {path : Text}
    (h : applyRemove root catalog path = .ok (root', landing)) :
    removeInPlace catalog path root = .ok landing root' := by
  obtain ⟨⟨parent, name⟩, hpath, h⟩ := Except.exists_of_bind_eq_ok h
  obtain ⟨b, hb, h⟩ := Except.exists_of_bind_eq_ok h
  dsimp only at h
  rcases htake : b.takeChild? name with _ | ⟨removed, b'⟩
  · rw [htake] at h
    cases h
  · rw [htake] at h
    cases h
    have htaken : takeChild name (.blockNotFound path) b = .ok removed b' := by
      rw [takeChild, htake]
    refine (bind_of_ok (look_of_ok hpath)).trans ?_
    refine (bind_of_ok (a := ()) (within_of_find? (find?_of_parentBlock hb)
      ((bind_of_ok htaken).trans ?_))).trans rfl
    show (if _ then _ else _ : Work _) b' = _
    split <;> rfl

/-- Renaming a block where the tree stands leaves the tree that the whole renaming gives. -/
theorem renameInPlace_of_ok {path newName : Text}
    (h : applyRename root path newName = .ok (root', landing)) :
    renameInPlace path newName root = .ok landing root' := by
  obtain ⟨⟨parent, name⟩, hpath, h⟩ := Except.exists_of_bind_eq_ok h
  obtain ⟨b, hb, h⟩ := Except.exists_of_bind_eq_ok h
  cases h
  refine (bind_of_ok (look_of_ok hpath)).trans ?_
  exact (bind_of_ok (modify_within_of_find? (find?_of_parentBlock hb) _)).trans rfl

/-- Switching the subtype where the tree stands leaves the tree that the whole switch gives. -/
theorem switchInPlace_of_ok {path subtype : Text}
    (h : applySwitch root path subtype = .ok (root', landing)) :
    switchInPlace path subtype root = .ok landing root' := by
  obtain ⟨b, hb, h⟩ := Except.exists_of_bind_eq_ok h
  cases h
  exact (bind_of_ok (modify_within_of_find? (find?_of_block hb) _)).trans rfl

/-- Setting a parameter where the tree stands, after its subtype was chosen, leaves the tree that
the whole setting gives. -/
theorem setInPlace_of_ok {path parameter subtype : Text} {read : Slot → Except ValueError Value}
    (h : applySet root path parameter subtype read = .ok (root', landing)) :
    setInPlace path parameter subtype read root = .ok landing root' := by
  obtain ⟨b, hb, h⟩ := Except.exists_of_bind_eq_ok h
  refine (bind_of_ok (look_of_ok hb)).trans ?_
  by_cases hselects : selectsSubtype b parameter = true
  · rw [if_pos hselects] at h ⊢
    exact switchInPlace_of_ok h
  · rw [if_neg hselects] at h ⊢
    obtain ⟨s, hs, h⟩ := Except.exists_of_bind_eq_ok h
    split at h
    · cases h
    · next t ht =>
      cases h
      exact (bind_of_ok (withinSlot_of_ok (find?_of_block hb) hs ht)).trans rfl

/-- Adding a parameter where the tree stands leaves the tree that the whole addition gives. -/
theorem addParameterInPlace_of_ok {path name value : Text}
    (h : applyAddParameter root path name value = .ok (root', landing)) :
    addParameterInPlace path name value root = .ok landing root' := by
  obtain ⟨b, hb, h⟩ := Except.exists_of_bind_eq_ok h
  cases h
  exact (bind_of_ok (modify_within_of_find? (find?_of_block hb) _)).trans rfl

/-- Writing a comment where the tree stands leaves the tree that the whole change gives. -/
theorem setCommentInPlace_of_ok {path parameter comment : Text}
    (h : applySetComment root path parameter comment = .ok (root', landing)) :
    setCommentInPlace path parameter comment root = .ok landing root' := by
  obtain ⟨b, hb, h⟩ := Except.exists_of_bind_eq_ok h
  obtain ⟨s, hs, h⟩ := Except.exists_of_bind_eq_ok h
  cases h
  have hwork : withinSlot path parameter (fun s => .ok { s with comments := comment }) root =
      .ok () _ := withinSlot_of_ok (find?_of_block hb) hs rfl
  refine (bind_of_ok hwork).trans ?_
  rw [Block.updateParameter_congr (parameter?_of_slot hs)
    (g := fun t => { t with comments := comment }) rfl]
  rfl

/-- **Carrying out an edit where the tree stands** leaves the tree that it gives. -/
theorem carryOutInPlace_of_ok {e : Edit} (h : e.carryOut root catalog = .ok (root', landing)) :
    e.carryOutInPlace catalog root = .ok landing root' := by
  cases e with
  | addChild path name subtype => exact addChildInPlace_of_ok h
  | remove path => exact removeInPlace_of_ok h
  | rename path newName => exact renameInPlace_of_ok h
  | setSubtype path subtype => exact switchInPlace_of_ok h
  | setValue path parameter value => exact setInPlace_of_ok h
  | setText path parameter text => exact setInPlace_of_ok h
  | addParameter path name value => exact addParameterInPlace_of_ok h
  | setComment path parameter comment => exact setCommentInPlace_of_ok h

/-- An edit that fails its check stops there: nothing has touched the tree yet. -/
theorem inPlace_of_check_error {e : Edit} {reason : EditError} (h : e.check root = .error reason) :
    e.inPlace catalog root = .error reason root := by
  have hlook : look (fun root => e.check root) root = .error reason root := by
    rw [look, h]
  show EStateM.bind (look _) _ root = _
  rw [EStateM.bind, hlook]

/-- **An edit made where the tree stands** leaves the tree that the edit gives. -/
theorem inPlace_of_ok {e : Edit} (h : e.apply root catalog = .ok (root', landing)) :
    e.inPlace catalog root = .ok landing root' := by
  obtain ⟨_, hcheck, hcarry⟩ := Except.exists_of_bind_eq_ok h
  exact (bind_of_ok (look_of_ok hcheck)).trans (carryOutInPlace_of_ok hcarry)

end Edit

/-! ### Documents -/

namespace Document

open Work

variable {d d' : Document}

/-- An edit that a document accepts leaves, step by step, the document that it gives. -/
theorem applyInPlace_of_ok {e : Edit} {r : EditResult} (h : d.apply e = .ok (d', r)) :
    applyInPlace e d = .ok r d' := by
  rw [apply] at h
  split at h
  · cases h
  · next root landing happly =>
    have htree : onTree (e.inPlace d.catalog) d = .ok landing { d with root } := by
      rw [onTree, Edit.inPlace_of_ok happly]
    refine (bind_of_ok htree).trans ?_
    show (if landing.structural = true then _ else _ : DocumentWork _)
      { d with root, version := d.version + 1, dirty := true } = _
    split at h
    · next hstructural =>
      cases h
      rw [if_pos hstructural]
      rfl
    · next hstructural =>
      cases h
      rw [if_neg hstructural]
      rfl

/-- A text that a document accepts leaves, step by step, the document that it gives. -/
theorem replaceInPlace_of_ok {source : Text} {ids : List Identity}
    (h : d.replaceText source = .ok (d', ids)) : replaceInPlace source d = .ok ids d' := by
  rw [replaceText] at h
  split at h
  · cases h
  · next parsed hparse =>
    cases h
    refine (get_bind _ d).trans ?_
    rw [hparse]
    rfl

/-- An edit that is not checked leaves the document as it was. -/
theorem apply_of_check_error {e : Edit} {reason : EditError} (h : e.check d.root = .error reason) :
    e.apply d.root d.catalog = .error reason ∧
      e.inPlace d.catalog d.root = .error reason d.root ∧
      d.apply e = .error (.edit reason) ∧ applyInPlace e d = .error (.edit reason) d := by
  have hrefused : e.apply d.root d.catalog = .error reason := by
    rw [Edit.apply, h]
    rfl
  have hinPlace : e.inPlace d.catalog d.root = .error reason d.root :=
    Edit.inPlace_of_check_error h
  have htree : onTree (e.inPlace d.catalog) d = .error (.edit reason) d := by
    rw [onTree, hinPlace]
  refine ⟨hrefused, hinPlace, by rw [apply, hrefused], ?_⟩
  show EStateM.bind (onTree _) _ d = _
  rw [EStateM.bind, htree]

/-- An edit that is checked is carried out. -/
theorem apply_of_check_ok {e : Edit} (h : e.check d.root = .ok ()) :
    ∃ root landing d' r, e.apply d.root d.catalog = .ok (root, landing) ∧
      e.inPlace d.catalog d.root = .ok landing root ∧
      d.apply e = .ok (d', r) ∧ applyInPlace e d = .ok r d' ∧
      d'.root = root ∧ d'.version = d.version + 1 ∧ d'.dirty = true := by
  have hsame := Edit.map_apply_eq_check e d.root d.catalog
  rcases happly : e.apply d.root d.catalog with reason | ⟨root, landing⟩
  · rw [happly, h] at hsame
    cases hsame
  · obtain ⟨d', r, haccepted, hroot⟩ : ∃ d' r, d.apply e = .ok (d', r) ∧ d'.root = root := by
      rw [apply, happly]
      dsimp only
      split
      · exact ⟨_, _, rfl, rfl⟩
      · exact ⟨_, _, rfl, rfl⟩
    obtain ⟨hversion, hdirty, -⟩ := version_apply haccepted
    exact ⟨root, landing, d', r, rfl, Edit.inPlace_of_ok happly, haccepted,
      applyInPlace_of_ok haccepted, hroot, hversion, hdirty⟩

/-- A text that does not parse leaves the document as it was. -/
theorem replaceText_of_parse_error {source : Text} {fault : Fault}
    (h : Block.parse d.catalog source = .error fault) :
    d.replaceText source = .error (.parse fault) ∧
      replaceInPlace source d = .error (.parse fault) d := by
  refine ⟨by rw [replaceText, h], (get_bind _ d).trans ?_⟩
  rw [h]
  rfl

/-- A text that parses takes the place of the tree. -/
theorem replaceText_of_parse_ok {source : Text} {parsed : Block}
    (h : Block.parse d.catalog source = .ok parsed) :
    ∃ d' ids, d.replaceText source = .ok (d', ids) ∧ replaceInPlace source d = .ok ids d' ∧
      d'.root = d.root.replaceContents parsed ∧ d'.version = d.version + 1 ∧ d'.dirty = true := by
  obtain ⟨d', ids, haccepted, hroot⟩ : ∃ d' ids, d.replaceText source = .ok (d', ids) ∧
      d'.root = d.root.replaceContents parsed := by
    rw [replaceText, h]
    exact ⟨_, _, rfl, rfl⟩
  obtain ⟨hversion, hdirty⟩ := version_replaceText haccepted
  exact ⟨d', ids, haccepted, replaceInPlace_of_ok haccepted, hroot, hversion, hdirty⟩

/-- **A document changes as a whole or not at all.** An edit is accepted exactly when it is checked,
and is refused for the same reason. What is refused leaves the document as it was, although the
steps of an edit change it where it stands; what is accepted leaves the document that the edit
gives, one version on and dirty. The same holds of a text that takes the place of the tree. -/
theorem changes_atomically (d : Document) :
    (∀ e : Edit, match e.check d.root with
      | .error reason =>
        e.apply d.root d.catalog = .error reason ∧
          e.inPlace d.catalog d.root = .error reason d.root ∧
          d.apply e = .error (.edit reason) ∧ applyInPlace e d = .error (.edit reason) d
      | .ok () => ∃ root landing d' r,
        e.apply d.root d.catalog = .ok (root, landing) ∧
          e.inPlace d.catalog d.root = .ok landing root ∧
          d.apply e = .ok (d', r) ∧ applyInPlace e d = .ok r d' ∧
          d'.root = root ∧ d'.version = d.version + 1 ∧ d'.dirty = true) ∧
    (∀ source : Text, match Block.parse d.catalog source with
      | .error fault =>
        d.replaceText source = .error (.parse fault) ∧
          replaceInPlace source d = .error (.parse fault) d
      | .ok parsed => ∃ d' ids,
        d.replaceText source = .ok (d', ids) ∧ replaceInPlace source d = .ok ids d' ∧
          d'.root = d.root.replaceContents parsed ∧
          d'.version = d.version + 1 ∧ d'.dirty = true) := by
  refine ⟨fun e => ?_, fun source => ?_⟩
  · rcases hcheck : e.check d.root with reason | ⟨⟩
    · exact apply_of_check_error hcheck
    · exact apply_of_check_ok hcheck
  · rcases hparse : Block.parse d.catalog source with fault | parsed
    · exact replaceText_of_parse_error hparse
    · exact replaceText_of_parse_ok hparse

end Document

end BlockEdit
