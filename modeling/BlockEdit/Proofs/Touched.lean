import BlockEdit.Proofs.FlatView
import BlockEdit.Proofs.Following

/-!
# What an edit tells those who show a document

Whoever shows a document keeps a card for each block: where it is, its subtype, values and comments,
and the names of its children. After an edit only the identities that were touched are looked at
again. So these have to be complete: what became of a block that is not among them can be told
without looking.

What a block shows of itself is its face. An edit changes at most one face, that of the block that
it works on, and `Edit.Marks` says how the edit tells of this block.

Main statements:

* **`Edit.Effect.faces`**: an edit changes at most the face of the block that it works on.
* **`Document.Tabled.touched_or_alike`**: a block that is still there after an edit is touched, or
  has the identity and shows what it showed.
* **`Document.ReachedBy.touched`**: the touched identities are complete, and whoever looks only at
  them shows the document.
-/

namespace BlockEdit

open Block (Grounded All Sound)

namespace Block

/-! ### Faces -/

/-- What a block shows of itself, apart from its place. -/
def face (b : Block) : BlockInfo × List Text := (b.info.core, Named.names b.children)

/-- The face of the block that the names lead to, if there is a block. -/
def faceAt (b : Block) (ns : List Text) : Option (BlockInfo × List Text) :=
  (b.descend? ns).map face

variable {root b b' c : Block} {ns ms : List Text}

/-- Names are followed from the child with the first one. -/
theorem faceAt_cons (b : Block) (n : Text) (ms : List Text) :
    b.faceAt (n :: ms) = (Named.find? n b.children).bind fun c => c.faceAt ms := by
  rw [faceAt, descend?, Option.map_bind]
  rfl

/-- Names can be followed in two steps. -/
theorem faceAt_append (h : b.descend? ns = some c) (ms : List Text) :
    b.faceAt (ns ++ ms) = c.faceAt ms := by
  rw [faceAt, descend?_append, h, Option.bind_some, faceAt]

/-- Paths do not matter to a face. -/
theorem faceAt_rebase : ∀ (ms : List Text) (b : Block) (parent : Text),
    (b.rebase parent).faceAt ms = b.faceAt ms
  | [], b, parent => by
    simp only [faceAt, descend?, Option.map_some, face, children_rebase, names_map_rebase]
    rw [rebase_mk]
    rfl
  | m :: ms, b, parent => by
    rw [faceAt_cons, faceAt_cons, children_rebase,
      Named.find?_map (f := rebase _) (fun d => name_rebase _ d), Option.bind_map]
    exact congrArg _ (funext fun d => faceAt_rebase ms d _)

/-- Another name does not matter to a face. -/
theorem faceAt_renamed (d : Block) (parent m : Text) (ms : List Text) :
    (d.renamed parent m).faceAt ms = d.faceAt ms := by
  rw [renamed, faceAt_rebase]
  cases ms with
  | nil => rfl
  | cons x ms => rw [faceAt_cons, faceAt_cons]

/-- A block that is replaced does not matter to the faces outside of it. -/
theorem faceAt_replaceAt {old new : Block} (hn : new.name = old.name) : ∀ (ps : List Text)
    {b : Block}, b.descend? ps = some old → ∀ ms, ¬ ps <+: ms →
      (b.replaceAt ps new).faceAt ms = b.faceAt ms
  | [], _, _, ms, hms => absurd List.nil_prefix hms
  | p :: ps, b, h, ms, hms => by
    rw [descend?] at h
    obtain ⟨c, hc, hold⟩ := Option.bind_eq_some_iff.mp h
    have hname : ∀ d, Named.find? p b.children = some d →
        Named.name (d.replaceAt ps new) = p := by
      intro d hd
      rw [hc] at hd
      cases hd
      exact (descend?_replaceAt hn ps hold).2.trans (Named.name_of_find? hc)
    rcases ms with _ | ⟨m, ms⟩
    · have hnames := Named.names_update_of_find? (f := fun d => d.replaceAt ps new) hc (hname c hc)
      simp only [faceAt, descend?, Option.map_some, face, replaceAt, hnames]
    · rw [replaceAt, faceAt_cons, faceAt_cons]
      by_cases hm : m = p
      · subst hm
        rw [Named.find?_update hname, hc, Option.map_some, Option.bind_some, Option.bind_some]
        exact faceAt_replaceAt hn ps hold ms fun hpre => hms (List.cons_prefix_cons.mpr ⟨rfl, hpre⟩)
      · rw [Named.find?_update_of_ne hm hname]

/-- What a block with this face has in a snapshot. -/
theorem entry_of_face (h : c.face = b.face) :
    BlockSnapshot.ofBlock c = BlockSnapshot.ofBlock b := by
  have hcore : c.coreAt [] = b.coreAt [] := congrArg some (congrArg Prod.fst h)
  exact Option.some.inj (entryAt_congr hcore)

/-! ### Faces below a block -/

/-- The faces below the block stay, but for what moved or was not there. -/
def FacesBelow (moves : List Text → List Text) (b c : Block) : Prop :=
  ∀ k ≠ [], ∀ f f', b.faceAt k = some f → c.faceAt (moves k) = some f' → f' = f

/-- Names that find what they found keep all faces below. -/
theorem facesBelow_of_children
    (h : ∀ n d d', Named.find? n b.children = some d → Named.find? n c.children = some d' →
      d' = d) : FacesBelow id b c := by
  rintro (_ | ⟨n, k⟩) hk f f' hf hf'
  · exact absurd rfl hk
  · rw [faceAt_cons] at hf
    rw [id, faceAt_cons] at hf'
    obtain ⟨d, hd, hf⟩ := Option.bind_eq_some_iff.mp hf
    obtain ⟨d', hd', hf'⟩ := Option.bind_eq_some_iff.mp hf'
    rw [h n d d' hd hd', hf] at hf'
    exact (Option.some.inj hf').symm

/-- A new child leaves the faces below as they were. -/
theorem facesBelow_attach (b c : Block) : FacesBelow id b (b.attach c) := by
  refine facesBelow_of_children fun n d d' hd hd' => ?_
  rw [attach, Named.find?_append, hd, Option.some_or] at hd'
  exact (Option.some.inj hd').symm

/-- Taking a child out leaves the faces below as they were. -/
theorem facesBelow_withdraw (catalog : Catalog) (hb : b.Sound) (n : Text) :
    FacesBelow id b (b.withdraw catalog n) := by
  refine facesBelow_of_children fun m d d' hd hd' => ?_
  rw [withdraw] at hd'
  by_cases hm : m = n
  · rw [hm, Named.find?_eq_none (Named.not_mem_names_remove (nodup_children hb))] at hd'
    cases hd'
  · rw [Named.find?_remove hm, hd] at hd'
    exact (Option.some.inj hd').symm

/-- What leaves the children alone leaves the faces below as they were. -/
theorem facesBelow_of_eq (h : c.children = b.children) : FacesBelow id b c := by
  refine facesBelow_of_children fun n d d' hd hd' => ?_
  rw [h, hd] at hd'
  exact (Option.some.inj hd').symm

/-- A child that gets another name takes the faces below it along. -/
theorem facesBelow_renameChild? {n m : Text} (hb : All Sound b) (hm : Path.IsSegment m)
    (h : b.renameChild? n m = some c) (hfree : m = n ∨ b.hasChild m = false) :
    FacesBelow (Path.movedNames [n] [m]) b c := by
  obtain ⟨d, hd, hfind⟩ := find?_renameChild? hb hm h hfree
  rintro (_ | ⟨x, k⟩) hk f f' hf hf'
  · exact absurd rfl hk
  · rw [faceAt_cons] at hf
    by_cases hx : x = n
    · subst hx
      rw [show x :: k = [x] ++ k from rfl, Path.movedNames_append, List.singleton_append,
        faceAt_cons, hfind, if_pos rfl, Option.bind_some, faceAt_renamed] at hf'
      rw [hd, Option.bind_some, hf'] at hf
      exact Option.some.inj hf
    · rw [Path.movedNames_outside (by simpa using Ne.symm hx), faceAt_cons, hfind] at hf'
      by_cases hxm : m = x
      · -- No child had the new name, unless it was the old one.
        subst hxm
        have hnot := hfree.resolve_left hx
        rw [Named.find?_eq_none (hasChild_eq_false_iff.mp hnot).1] at hf
        cases hf
      · rw [if_neg hxm, if_neg (Ne.symm hx), hf] at hf'
        exact (Option.some.inj hf').symm

end Block

namespace Edit

/-- What an edit makes of the block that it works on, and how it tells of this block. -/
inductive Marks (landing : Landing) (b c : Block) : Prop
  /-- The block shows what it showed. -/
  | alike (face : c.face = b.face)
  /-- Its children are others, and it is the parent of the block that the edit tells of. -/
  | listed (structural : landing.structural = true) (info : c.info = b.info)
      (parent : Path.parent? landing.path = some b.path)
  /-- It has another subtype. -/
  | retyped (structural : landing.structural = true) (subtype : c.info.subtype ≠ b.info.subtype)
  /-- It is the block that the edit tells of. -/
  | changed (structural : landing.structural = false) (path : landing.path = b.path)

variable {root root' : Block} {catalog : Catalog} {landing : Landing} {e : Edit}

/-- The edit works on one block, and only the face of this one can change. -/
structure Works (root root' : Block) (e : Edit) (landing : Landing) (ps : List Text)
    (b c : Block) : Prop where
  /-- This block is found under the names before the edit, -/
  before : root.descend? ps = some b
  /-- and after it, -/
  after : root'.descend? ps = some c
  /-- since it stays where it is. -/
  stays : e.moves ps = ps
  /-- The edit tells of it when its face changes. -/
  marks : Marks landing b c
  /-- Every other face stays. -/
  other : ∀ ns ≠ ps, ∀ f f', root.faceAt ns = some f → root'.faceAt (e.moves ns) = some f' →
    f' = f

/-- An edit that puts one block in its place works on this block, if it moves names only below
it. -/
theorem works_of_set {path : Text} {b c : Block} {moves : List Text → List Text}
    (hb : root.find? path = some b) (hc : c.name = b.name) (hmarks : Marks landing b c)
    (hbelow : b.FacesBelow moves c)
    (hmoves : ∀ k, e.moves (Path.segments path ++ k) = Path.segments path ++ moves k)
    (hnil : moves [] = []) (hstays : ∀ ns, ¬ Path.segments path <+: ns → e.moves ns = ns) :
    Works root (root.set path c) e landing (Path.segments path) b c := by
  have hnew := (Block.descend?_replaceAt hc _ hb).1
  refine ⟨hb, hnew, ?_, hmarks, fun ns hns f f' hf hf' => ?_⟩
  · simpa [hnil] using hmoves []
  · by_cases hps : Path.segments path <+: ns
    · obtain ⟨k, rfl⟩ := hps
      rw [Block.faceAt_append hb] at hf
      rw [hmoves, Block.set, Block.faceAt_append hnew] at hf'
      exact hbelow k (fun hk => hns (by rw [hk, List.append_nil])) f f' hf hf'
    · rw [hstays ns hps, Block.set, Block.faceAt_replaceAt hc _ hb ns hps, hf] at hf'
      exact (Option.some.inj hf').symm

/-- An edit that moves nothing works on the block that it sets. -/
theorem works_of_stays {path : Text} {b c : Block} (hb : root.find? path = some b)
    (hc : c.name = b.name) (hmarks : Marks landing b c) (hbelow : b.FacesBelow id c)
    (hstays : ∀ ns, e.moves ns = ns) :
    Works root (root.set path c) e landing (Path.segments path) b c :=
  works_of_set hb hc hmarks hbelow (fun _ => hstays _) rfl fun ns _ => hstays ns

/-- A block whose subtype is switched shows that, if it had another one. -/
theorem marks_switchSubtype? {b c : Block} {subtype : Text}
    (hc : b.switchSubtype? subtype = some c) (hstructural : landing.structural = true) :
    Marks landing b c := by
  by_cases hsame : b.info.subtype = some subtype
  · rw [Block.switchSubtype?] at hc
    obtain ⟨schema, -, rfl⟩ := Option.map_eq_some_iff.mp hc
    rw [if_pos hsame]
    exact .alike rfl
  · refine .retyped hstructural ?_
    rw [Block.subtype_of_switchSubtype? hc]
    exact Ne.symm hsame

/-- **An edit** changes at most the face of the block that it works on. -/
theorem Effect.faces (h : Grounded root) (hexact : e.Exact root)
    (he : Effect root catalog e root' landing) :
    ∃ ps b c, Works root root' e landing ps b c := by
  cases he with
  | @included path n subtype b c hb hn hc =>
    -- Each edit of a child works on the parent, whose list of children is part of its face.
    have hplaced := (Block.all_sound_of_find? h.tree hb).here.unused c (Named.find?_eq_some hc).1
    refine ⟨_, b, _, works_of_stays hb rfl (.listed rfl rfl ?_) (Block.facesBelow_attach _ _)
      fun _ => rfl⟩
    rw [show (Landing.ofBlock c.path c.path).path = _ from hplaced.path]
    exact Path.parent?_join (Block.path_ne_nil h (Block.mem_descendants_of_descend? _ hb))
      hplaced.segment
  | @added path n name subtype b hb hn hfree =>
    refine ⟨_, b, _, works_of_stays hb rfl (.listed rfl rfl ?_) (Block.facesBelow_attach _ _)
      fun _ => rfl⟩
    exact Path.parent?_join (Block.path_ne_nil h (Block.mem_descendants_of_descend? _ hb))
      (isHeaderName_of_isName hn).isSegment
  | @removed path parent n b c hpath hb hc =>
    obtain ⟨-, hn, htarget⟩ := hexact.eq_join h hpath hb
    obtain rfl : path = Path.join b.path n := htarget
    have hsound := (Block.all_sound_of_find? h.tree hb).here
    refine ⟨_, b, _, works_of_stays hb rfl (.listed rfl rfl ?_)
      (Block.facesBelow_withdraw catalog hsound n) fun _ => rfl⟩
    exact Path.parent?_join (Block.path_ne_nil h (Block.mem_descendants_of_descend? _ hb)) hn
  | @dropped path parent n b c hpath hb hc =>
    exact ⟨_, b, _, works_of_stays hb rfl (.alike rfl) (Block.facesBelow_of_eq rfl) fun _ => rfl⟩
  | @renamed path parent n newName b b' hpath hb hn hfree hb' =>
    obtain ⟨rfl, hsegment, htarget⟩ := hexact.eq_join h hpath hb
    obtain rfl : path = Path.join b.path n := htarget
    have hsound := Block.all_sound_of_find? h.tree hb
    have hnew := (isHeaderName_of_isName hn).isSegment
    have hinfo := Block.info_renameChild? hb'
    have hspelled := spelledBy_join h hb hsegment
    have hsegments : Path.segments (Path.join b.path n) = Path.segments b.path ++ [n] := by
      rw [hspelled.eq, Path.segments_ofSegments hspelled.segment]
    refine ⟨_, b, b', works_of_set hb (congrArg BlockInfo.name hinfo) (.listed rfl hinfo ?_)
      (Block.facesBelow_renameChild? hsound hnew hb' hfree) (fun k => ?_) rfl fun ns hns => ?_⟩
    · exact Path.parent?_join (Block.path_ne_nil h (Block.mem_descendants_of_descend? _ hb)) hnew
    · -- Below the parent only the names that start with the old name of the child move.
      rw [moves, hsegments]
      by_cases hk : [n] <+: k
      · obtain ⟨k, rfl⟩ := hk
        rw [if_pos (by simp), Path.movedNames_append]
        simp
      · rw [if_neg (by simpa using hk), Path.movedNames_outside hk]
    · rw [moves, hsegments, if_neg fun hpre => hns ((List.prefix_append _ _).trans hpre)]
  | @switched _ subtype b c hb hselected hc =>
    have hplace := (Block.retouch_switchSubtype? hc).place
    exact ⟨_, b, c, works_of_stays hb hplace.name (marks_switchSubtype? hc rfl)
      (Block.facesBelow_of_eq (Block.retouch_switchSubtype? hc).children)
      (moves_of_selected hselected)⟩
  | @updated _ n f b hb hchanged hselected hkeeps hfits =>
    exact ⟨_, b, _, works_of_stays hb hfits.place.name (.changed rfl (hexact.path_of_find? h hb))
      (Block.facesBelow_of_eq hfits.children) (moves_of_changed hchanged)⟩
  | extended hb hn hvalue hfree =>
    have hpath := hexact.path_of_find? h hb
    exact ⟨_, _, _, works_of_stays hb rfl (.changed rfl hpath) (Block.facesBelow_of_eq rfl)
      fun _ => rfl⟩

end Edit

/-! ### Identities that are touched -/

/-- The identities that changes affect are those that went over, on either side, those that are new
and those that are gone. -/
theorem IdentityChanges.mem_affected {c : IdentityChanges} {i : Identity} :
    i ∈ c.affected ↔ (∃ old new, (old, new) ∈ c.remapped ∧ (i = old ∨ i = new)) ∨
      i ∈ c.added ∨ i ∈ c.removed := by
  simp [affected]

/-- The identity of a block at a path tells its subtype. -/
theorem Block.subtype_eq_of_identity {b c : Block} (hpath : c.path = b.path)
    (h : Identity.ofBlock c = Identity.ofBlock b) : c.info.subtype = b.info.subtype := by
  have hjoin : ∀ s t : Text, Path.join b.path s = Path.join b.path t → s = t := by
    intro s t hst
    unfold Path.join at hst
    split at hst <;> simpa using hst
  have hne : ∀ s : Text, Path.join b.path s ≠ [] := by
    intro s
    unfold Path.join
    split <;> simp
  simp only [Identity.ofBlock, Identity.of, subtypePath, hpath, List.append_cancel_left_eq] at h
  rcases hc : c.info.subtype with _ | s <;> rcases hb : b.info.subtype with _ | t
  · rfl
  · rw [hb, hc] at h
    exact absurd h.symm (hne t)
  · rw [hb, hc] at h
    exact absurd h (hne s)
  · rw [hb, hc] at h
    exact congrArg some (hjoin s t h)

namespace Document

variable {catalog : Catalog} {d d' : Document} {e : Edit} {r : EditResult}

/-- Which identities an edit of a document touches. -/
theorem touched_of_apply (h : d.apply e = .ok (d', r)) :
    ∃ landing, e.apply d.root d.catalog = .ok (d'.root, landing) ∧
      (landing.structural = true ∧ r.touched = r.changes.affected ++
          (parentIdentity? d'.identities landing.path).toList ∨
        landing.structural = false ∧ r.changes = IdentityChanges.none ∧
          r.touched = (d.identities.identityAt? landing.path).toList) := by
  unfold apply at h
  split at h
  · cases h
  · next root landing he =>
    split at h
    · next hstructural =>
      cases h
      exact ⟨landing, he, Or.inl ⟨hstructural, rfl⟩⟩
    · next hstructural =>
      cases h
      exact ⟨landing, he, Or.inr ⟨Bool.eq_false_iff.mpr hstructural, rfl, rfl⟩⟩

/-- Identities that moved are touched. -/
theorem mem_touched_of_affected (h : d.apply e = .ok (d', r)) {i : Identity}
    (hi : i ∈ r.changes.affected) : i ∈ r.touched := by
  obtain ⟨landing, -, ⟨-, htouched⟩ | ⟨-, hnone, -⟩⟩ := touched_of_apply h
  · rw [htouched]
    exact List.mem_append_left _ hi
  · rw [hnone] at hi
    cases hi

/-- What someone who shows a document knows of one block. -/
structure Card where
  /-- The path of the block. -/
  path : Text
  /-- Its subtype, its values and their comments. -/
  entry : BlockSnapshot
  /-- The names of its children, in order. -/
  children : List Text
deriving DecidableEq

/-- What there is to know of a block. -/
def cardOf (b : Block) : Card := ⟨b.path, BlockSnapshot.ofBlock b, Named.names b.children⟩

/-- What there is to know of the block with an identity. -/
def card? (d : Document) (i : Identity) : Option Card :=
  (d.identities.pathOf? i).bind fun path => (d.root.find? path).map cardOf

section edit

variable {ns : List Text} {b b' : Block}

/-- In a document of such a run names lead to the identity that the block has. -/
theorem Tabled.hasIdentity (h : Tabled catalog d) (hns : ns ≠ [])
    (hb : d.root.descend? ns = some b) : d.root.HasIdentity b.path (Identity.ofBlock b) :=
  ⟨b, (Block.mem_inside_iff h.reached.grounded).mpr ⟨ns, hns, hb⟩, rfl, rfl⟩

/-- The card of a block of the document. -/
theorem Tabled.card?_eq (h : Tabled catalog d) (hns : ns ≠ [])
    (hb : d.root.descend? ns = some b) : d.card? (Identity.ofBlock b) = some (cardOf b) := by
  have hpath := (h.lists.identity _ _).mpr (h.hasIdentity hns hb)
  have hground := h.reached.grounded
  rw [card?, IdentityTable.pathOf?, hpath, Option.bind_some,
    Block.find?_path hground.tree hground.path (Block.mem_descendants_of_descend? ns hb),
    Option.map_some]

/-- Only blocks have cards. -/
theorem Tabled.exists_of_card? (h : Tabled catalog d) {i : Identity} (hi : (d.card? i).isSome) :
    ∃ ns ≠ [], ∃ b, d.root.descend? ns = some b ∧ Identity.ofBlock b = i := by
  obtain ⟨card, hcard⟩ := Option.isSome_iff_exists.mp hi
  obtain ⟨path, hpath, -⟩ := Option.bind_eq_some_iff.mp hcard
  obtain ⟨b, hb, -, hid⟩ := (h.lists.identity path i).mp hpath
  obtain ⟨ns, hns, hat⟩ := (Block.mem_inside_iff h.reached.grounded).mp hb
  exact ⟨ns, hns, b, hat, hid⟩

/-- **The block that an edit works on** is touched when it shows something else. -/
theorem Tabled.touched_of_marks (h : Tabled catalog d) (h' : Tabled catalog d')
    (happly : d.apply e = .ok (d', r)) {landing : Landing}
    (hland : e.apply d.root d.catalog = .ok (d'.root, landing)) (hmarks : Edit.Marks landing b b')
    (hns : ns ≠ []) (hb : d.root.descend? ns = some b) (hb' : d'.root.descend? ns = some b')
    (hid : Identity.ofBlock b' = Identity.ofBlock b) :
    Identity.ofBlock b' ∈ r.touched ∨ b'.face = b.face := by
  have hpath : b'.path = b.path := by
    rw [Block.path_of_descend? h.reached.grounded hb hns,
      Block.path_of_descend? h'.reached.grounded hb' hns]
  obtain ⟨landing', hland', htouched⟩ := touched_of_apply happly
  rw [hland] at hland'
  cases hland'
  cases hmarks with
  | alike face => exact Or.inr face
  | listed structural info parent =>
    rcases htouched with ⟨-, htouched⟩ | ⟨hno, -⟩
    · left
      have hat := (h'.lists.path _ _).mpr (h'.hasIdentity hns hb')
      rw [htouched, parentIdentity?, parent, Option.bind_some, ← hpath, IdentityTable.identityAt?,
        hat]
      simp
    · rw [structural] at hno
      cases hno
  | retyped structural subtype => exact absurd (Block.subtype_eq_of_identity hpath hid) subtype
  | changed structural path =>
    rcases htouched with ⟨hyes, -⟩ | ⟨-, -, htouched⟩
    · rw [structural] at hyes
      cases hyes
    · left
      have hat := (h.lists.path _ _).mpr (h.hasIdentity hns hb)
      rw [htouched, path, IdentityTable.identityAt?, hat, hid]
      simp

/-- **A block that is still there** is touched, or it has the identity and shows what it showed. -/
theorem Tabled.touched_or_alike (h : Tabled catalog d) (he : e.Exact d.root)
    (hp : d'.root.Plain) (happly : d.apply e = .ok (d', r)) (hns : ns ≠ [])
    (hb : d.root.descend? ns = some b) (hb' : d'.root.descend? (e.moves ns) = some b') :
    Identity.ofBlock b ∈ r.touched ∧ Identity.ofBlock b' ∈ r.touched ∨
      e.moves ns = ns ∧ Identity.ofBlock b' = Identity.ofBlock b ∧ cardOf b' = cardOf b := by
  have hexact := h.exact he hp happly
  have h' := h.apply he hp happly
  have hroot := h.reached.grounded
  have hroot' := h'.reached.grounded
  have hns' := e.moves_ne_nil hns
  -- A block that keeps its identity stays where it is, so only its face can change.
  by_cases hid : Identity.ofBlock b' = Identity.ofBlock b
  · have hpath : b.path = b'.path := Block.path_eq_of_identity hroot hroot' h.plain hp
      ((Block.mem_inside_iff hroot).mpr ⟨ns, hns, hb⟩)
      ((Block.mem_inside_iff hroot').mpr ⟨_, hns', hb'⟩) hid.symm
    have hmoves : e.moves ns = ns := by
      apply Path.ofSegments_inj (Block.isSegment_of_descend? hroot'.tree hb')
        (Block.isSegment_of_descend? hroot.tree hb)
      rw [← Block.path_of_descend? hroot hb hns, ← Block.path_of_descend? hroot' hb' hns', hpath]
    obtain ⟨landing, hland, -⟩ := touched_of_apply happly
    obtain ⟨ps, p, q, hworks⟩ := (Edit.effect_of_apply hroot.tree hland).faces hroot he
    have hface : Identity.ofBlock b' ∈ r.touched ∨ b'.face = b.face := by
      by_cases hps : ns = ps
      · subst hps
        obtain rfl : b = p := Option.some.inj (hb.symm.trans hworks.before)
        rw [hmoves] at hb'
        obtain rfl : b' = q := Option.some.inj (hb'.symm.trans hworks.after)
        exact h.touched_of_marks h' happly hland hworks.marks hns hb hb' hid
      · have hf : d.root.faceAt ns = some b.face := by rw [Block.faceAt, hb, Option.map_some]
        have hf' : d'.root.faceAt (e.moves ns) = some b'.face := by
          rw [Block.faceAt, hb', Option.map_some]
        exact Or.inr (hworks.other ns hps _ _ hf hf')
    rcases hface with htouched | hface
    · exact Or.inl ⟨hid ▸ htouched, htouched⟩
    · have hnames : Named.names b'.children = Named.names b.children := congrArg Prod.snd hface
      refine Or.inr ⟨hmoves, hid, ?_⟩
      rw [cardOf, cardOf, hpath, Block.entry_of_face hface, hnames]
  · have hremapped : (Identity.ofBlock b, Identity.ofBlock b') ∈ r.changes.remapped :=
      (hexact.remapped _ _).mpr ⟨Ne.symm hid, ns, hns, by rw [Block.identityAt?, hb, Option.map_some],
        by rw [Block.identityAt?, hb', Option.map_some]⟩
    exact Or.inl ⟨mem_touched_of_affected happly
        (IdentityChanges.mem_affected.mpr (Or.inl ⟨_, _, hremapped, Or.inl rfl⟩)),
      mem_touched_of_affected happly
        (IdentityChanges.mem_affected.mpr (Or.inl ⟨_, _, hremapped, Or.inr rfl⟩))⟩

/-- A block that is gone is touched. -/
theorem Tabled.touched_of_gone (h : Tabled catalog d) (he : e.Exact d.root)
    (hp : d'.root.Plain) (happly : d.apply e = .ok (d', r)) (hns : ns ≠ [])
    (hb : d.root.descend? ns = some b) (hgone : d'.root.descend? (e.moves ns) = none) :
    Identity.ofBlock b ∈ r.touched := by
  have hexact := h.exact he hp happly
  have hremoved := (hexact.removed (Identity.ofBlock b)).mpr ⟨ns, hns,
    by rw [Block.identityAt?, hb, Option.map_some], by rw [Block.identityAt?, hgone, Option.map_none]⟩
  exact mem_touched_of_affected happly (IdentityChanges.mem_affected.mpr (Or.inr (Or.inr hremoved)))

/-- A block that was not there is touched. -/
theorem Tabled.touched_of_new (h : Tabled catalog d) (he : e.Exact d.root)
    (hp : d'.root.Plain) (happly : d.apply e = .ok (d', r)) {ms : List Text} (hms : ms ≠ [])
    (hb' : d'.root.descend? ms = some b')
    (hnew : ∀ ns ≠ [], e.moves ns = ms → d.root.descend? ns = none) :
    Identity.ofBlock b' ∈ r.touched := by
  have hexact := h.exact he hp happly
  have hadded := (hexact.added (Identity.ofBlock b')).mpr ⟨ms, hms,
    by rw [Block.identityAt?, hb', Option.map_some],
    fun ns hns hmoves => by rw [Block.identityAt?, hnew ns hns hmoves, Option.map_none]⟩
  exact mem_touched_of_affected happly (IdentityChanges.mem_affected.mpr (Or.inr (Or.inl hadded)))

/-- **A block that is not touched** stays where it is and shows what it showed. -/
theorem Tabled.stays_of_not_touched (h : Tabled catalog d) (he : e.Exact d.root)
    (hp : d'.root.Plain) (happly : d.apply e = .ok (d', r)) (hns : ns ≠ [])
    (hb : d.root.descend? ns = some b) (hnot : Identity.ofBlock b ∉ r.touched) :
    ∃ b', d'.root.descend? ns = some b' ∧ Identity.ofBlock b' = Identity.ofBlock b ∧
      cardOf b' = cardOf b := by
  rcases hb' : d'.root.descend? (e.moves ns) with _ | b'
  · exact absurd (h.touched_of_gone he hp happly hns hb hb') hnot
  · rcases h.touched_or_alike he hp happly hns hb hb' with ⟨htouched, -⟩ | ⟨hmoves, hid, hcard⟩
    · exact absurd htouched hnot
    · exact ⟨b', hmoves ▸ hb', hid, hcard⟩

/-- **A block that is not touched** was where it is and shows what it showed. -/
theorem Tabled.stayed_of_not_touched (h : Tabled catalog d) (he : e.Exact d.root)
    (hp : d'.root.Plain) (happly : d.apply e = .ok (d', r)) (hns : ns ≠ [])
    (hb' : d'.root.descend? ns = some b') (hnot : Identity.ofBlock b' ∉ r.touched) :
    ∃ b, d.root.descend? ns = some b ∧ Identity.ofBlock b' = Identity.ofBlock b ∧
      cardOf b' = cardOf b := by
  by_cases hnew : ∀ ms ≠ [], e.moves ms = ns → d.root.descend? ms = none
  · exact absurd (h.touched_of_new he hp happly hns hb' hnew) hnot
  · push Not at hnew
    obtain ⟨ms, hms, rfl, hsome⟩ := hnew
    obtain ⟨b, hb⟩ := Option.ne_none_iff_exists'.mp hsome
    rcases h.touched_or_alike he hp happly hms hb hb' with ⟨-, htouched⟩ | ⟨hmoves, hid, hcard⟩
    · exact absurd htouched hnot
    · exact ⟨b, hmoves.symm ▸ hb, hid, hcard⟩

/-- **An identity that is not touched** shows what it showed. -/
theorem Tabled.card?_of_not_touched (h : Tabled catalog d) (he : e.Exact d.root)
    (hp : d'.root.Plain) (happly : d.apply e = .ok (d', r)) {i : Identity} (hi : i ∉ r.touched) :
    d'.card? i = d.card? i := by
  have h' := h.apply he hp happly
  by_cases hbefore : (d.card? i).isSome
  · obtain ⟨ns, hns, b, hb, rfl⟩ := h.exists_of_card? hbefore
    obtain ⟨b', hb', hid, hcard⟩ := h.stays_of_not_touched he hp happly hns hb hi
    rw [h.card?_eq hns hb, ← hid, h'.card?_eq hns hb', hcard]
  · by_cases hafter : (d'.card? i).isSome
    · obtain ⟨ns, hns, b', hb', rfl⟩ := h'.exists_of_card? hafter
      obtain ⟨b, hb, hid, hcard⟩ := h.stayed_of_not_touched he hp happly hns hb' hi
      rw [h'.card?_eq hns hb', hid, h.card?_eq hns hb, hcard]
    · rw [Option.not_isSome_iff_eq_none.mp hbefore, Option.not_isSome_iff_eq_none.mp hafter]

end edit

/-! ### Runs that are shown -/

/-- What is shown after the document was looked at again for some identities. -/
def refresh (d : Document) (ids : List Identity) (shown : Identity → Option Card) :
    Identity → Option Card :=
  fun i => if i ∈ ids then d.card? i else shown i

/-- The documents of a run and what is shown of them: after an edit only the identities that it
touched are looked at again, and after a text all that it gives are, in place of those before. -/
inductive ShownBy (catalog : Catalog) : Document → (Identity → Option Card) → Prop
  /-- A run can start with an empty document. -/
  | new (ht : (new catalog).root.Plain) : ShownBy catalog (new catalog) (new catalog).card?
  /-- A run can start with the document of a text. -/
  | ofText {source : Text} {storage : Storage} {d : Document} (ht : d.root.Plain)
      (h : ofText catalog source storage = .ok d) : ShownBy catalog d d.card?
  /-- A run goes on with an edit that has an exact target and is accepted. -/
  | apply {d d' : Document} {e : Edit} {r : EditResult} {shown : Identity → Option Card}
      (before : ShownBy catalog d shown) (he : e.Exact d.root) (ht : d'.root.Plain)
      (h : d.apply e = .ok (d', r)) : ShownBy catalog d' (d'.refresh r.touched shown)
  /-- A run goes on with a text that is accepted. -/
  | replaceText {d d' : Document} {source : Text} {ids : List Identity}
      {shown : Identity → Option Card} (before : ShownBy catalog d shown) (ht : d'.root.Plain)
      (h : d.replaceText source = .ok (d', ids)) :
      ShownBy catalog d' (d'.refresh ids fun _ => none)

/-- **One step**: what is shown after an edit is the document, if it was before. -/
theorem Tabled.refresh_apply (h : Tabled catalog d) (he : e.Exact d.root) (hp : d'.root.Plain)
    (happly : d.apply e = .ok (d', r)) : d'.refresh r.touched d.card? = d'.card? := by
  funext i
  unfold refresh
  split
  · rfl
  · next hi => exact (h.card?_of_not_touched he hp happly hi).symm

/-- The identities that a text gives are all of the document. -/
theorem Tabled.refresh_replaceText {source : Text} {ids : List Identity} (h : Tabled catalog d')
    (hread : d.replaceText source = .ok (d', ids)) :
    (d'.refresh ids fun _ => none) = d'.card? := by
  have hids : ids = d'.identities.identities := by
    unfold replaceText at hread
    split at hread
    · cases hread
    · cases hread
      rfl
  funext i
  unfold refresh
  split
  · rfl
  · next hi =>
    symm
    rw [← Option.not_isSome_iff_eq_none]
    intro hsome
    obtain ⟨ns, hns, b, hb, rfl⟩ := h.exists_of_card? hsome
    rw [hids, h.lists.mem_identities] at hi
    exact hi ⟨_, h.hasIdentity hns hb⟩

/-- What is shown belongs to a document that is reached. -/
theorem ShownBy.reachedBy {shown : Identity → Option Card} (h : ShownBy catalog d shown) :
    ReachedBy (fun d e => e.Exact d.root) (fun d => d.root.Plain) catalog d := by
  induction h with
  | new ht => exact .new ht
  | ofText ht h => exact .ofText ht h
  | apply _ he ht h ih => exact .apply ih he ht h
  | replaceText _ ht h ih => exact .replaceText ih ht h

/-- **In a whole run** what is shown is the document. -/
theorem ShownBy.eq {shown : Identity → Option Card} (h : ShownBy catalog d shown) :
    shown = d.card? := by
  induction h with
  | new | ofText => rfl
  | apply before he ht h ih =>
    rw [ih]
    exact before.reachedBy.tabled.refresh_apply he ht h
  | replaceText before ht h _ =>
    exact (ReachedBy.replaceText before.reachedBy ht h).tabled.refresh_replaceText h

/-- Every run can be shown. -/
theorem ReachedBy.shownBy
    (h : ReachedBy (fun d e => e.Exact d.root) (fun d => d.root.Plain) catalog d) :
    ShownBy catalog d d.card? := by
  induction h with
  | new ht => exact .new ht
  | ofText ht h => exact .ofText ht h
  | apply before he ht h ih =>
    have hshown := ShownBy.apply ih he ht h
    rwa [hshown.eq] at hshown
  | replaceText before ht h ih =>
    have hshown := ShownBy.replaceText ih ht h
    rwa [hshown.eq] at hshown

/-- **The touched identities are complete.** In every run, a block below the root that an edit adds
or takes away, to which it gives another identity, or of which it changes subtype, values or
comments, is touched under the identity before or the one after; so is a block that keeps its path
and has other children, in number, name or order; and whoever has shown the document and looks only
at the touched identities again shows the document after the edit. -/
theorem ReachedBy.touched
    (h : ReachedBy (fun d e => e.Exact d.root) (fun d => d.root.Plain) catalog d)
    (he : e.Exact d.root) (hp : d'.root.Plain) (happly : d.apply e = .ok (d', r)) :
    (∀ ns ≠ [], ∀ b, d.root.descend? ns = some b → Identity.ofBlock b ∈ r.touched ∨
      ∃ b', d'.root.descend? (e.moves ns) = some b' ∧ (Identity.ofBlock b' ∈ r.touched ∨
        Identity.ofBlock b' = Identity.ofBlock b ∧
          BlockSnapshot.ofBlock b' = BlockSnapshot.ofBlock b)) ∧
    (∀ ms ≠ [], ∀ b', d'.root.descend? ms = some b' →
      (∀ ns ≠ [], e.moves ns = ms → d.root.descend? ns = none) →
        Identity.ofBlock b' ∈ r.touched) ∧
    (∀ b ∈ d.root.inside, ∀ b' ∈ d'.root.inside, b'.path = b.path →
      Named.names b'.children ≠ Named.names b.children →
        Identity.ofBlock b ∈ r.touched ∧ Identity.ofBlock b' ∈ r.touched) ∧
    ShownBy catalog d d.card? ∧
    ∀ shown, ShownBy catalog d shown → d'.refresh r.touched shown = d'.card? := by
  have htabled := h.tabled
  have hroot := h.reached.grounded
  have hroot' := (h.reached.apply happly).grounded
  refine ⟨fun ns hns b hb => ?_, fun ms hms b' hb' hnew =>
    htabled.touched_of_new he hp happly hms hb' hnew, fun b hb b' hb' hpath hnames => ?_,
    h.shownBy, fun shown hshown => ?_⟩
  · rcases hb' : d'.root.descend? (e.moves ns) with _ | b'
    · exact Or.inl (htabled.touched_of_gone he hp happly hns hb hb')
    · rcases htabled.touched_or_alike he hp happly hns hb hb' with ⟨htouched, -⟩ | ⟨-, hid, hcard⟩
      · exact Or.inl htouched
      · exact Or.inr ⟨b', rfl, Or.inr ⟨hid, congrArg Card.entry hcard⟩⟩
  · obtain ⟨ns, hns, hat⟩ := (Block.mem_inside_iff hroot).mp hb
    obtain ⟨ms, hms, hat'⟩ := (Block.mem_inside_iff hroot').mp hb'
    -- The path tells the names, so the two blocks are found under the same ones.
    rw [Block.path_of_descend? hroot hat hns, Block.path_of_descend? hroot' hat' hms] at hpath
    obtain rfl : ms = ns := Path.ofSegments_inj (Block.isSegment_of_descend? hroot'.tree hat')
      (Block.isSegment_of_descend? hroot.tree hat) hpath
    constructor
    · by_contra hnot
      obtain ⟨c, hc, -, hcard⟩ := htabled.stays_of_not_touched he hp happly hms hat hnot
      rw [hat'] at hc
      cases hc
      exact hnames (congrArg Card.children hcard)
    · by_contra hnot
      obtain ⟨c, hc, -, hcard⟩ := htabled.stayed_of_not_touched he hp happly hms hat' hnot
      rw [hat] at hc
      cases hc
      exact hnames (congrArg Card.children hcard)
  · rw [hshown.eq]
    exact htabled.refresh_apply he hp happly

/-- A run that adds a block with another one inside and then removes the inner one: that one is
touched, and so is the outer one, which has lost a child. -/
theorem ReachedBy.touched_sample : ∃ d d' r, ReachedBy (fun d e => e.Exact d.root)
    (fun d => d.root.Plain) sampleCatalog d ∧ d.apply (.remove "/b/x".toList) = .ok (d', r) ∧
      r.touched = ["/b/x::".toList, "/b::".toList] ∧
      d'.root.descend? ["b".toList, "x".toList] = none ∧
      ShownBy sampleCatalog d d.card? ∧ d'.refresh r.touched d.card? = d'.card? := by
  let steps : List Edit := [.addChild "/".toList (some "A".toList) (some "s".toList),
    .addChild "/".toList (some "b".toList) none, .addChild "/b".toList (some "x".toList) none]
  let last : Edit := .remove "/b/x".toList
  have hstart : (Document.new sampleCatalog).root.Plain := by decide +kernel
  have hfollows : Follows (fun d e => e.Exact d.root) (fun d => d.root.Plain)
      (Document.new sampleCatalog) steps := by decide +kernel
  have hrun : (((Document.new sampleCatalog).edits steps).toOption.bind fun d =>
      (d.apply last).toOption.map fun (d', r) =>
        decide (last.Exact d.root ∧ d'.root.Plain ∧
          r.touched = ["/b/x::".toList, "/b::".toList] ∧
          (d'.root.descend? ["b".toList, "x".toList]).isNone = true)) = some true := by
    decide +kernel
  rcases hd : (Document.new sampleCatalog).edits steps with e | d
  · rw [hd] at hrun
    cases hrun
  · rw [hd, show (Except.ok d : Except DocumentError Document).toOption = some d from rfl,
      Option.bind_some] at hrun
    rcases happly : d.apply last with e | ⟨d', r⟩
    · rw [happly] at hrun
      cases hrun
    · rw [happly] at hrun
      obtain ⟨hexact, hplain, htouched, hgone⟩ := of_decide_eq_true (Option.some.inj hrun)
      have hreached := ReachedBy.edits steps (.new hstart) hfollows hd
      obtain ⟨-, -, -, hshown, hrefresh⟩ := hreached.touched hexact hplain happly
      exact ⟨d, d', r, hreached, happly, htouched, Option.isNone_iff_eq_none.mp hgone, hshown,
        hrefresh _ hshown⟩

end Document

end BlockEdit
