import BlockEdit.Proofs.Subpaths

/-!
# Trees that differ below one place

The names that lead to a block say its place, and what a block knows apart from its place is its
core. An operation on the children of a block shifts one subtree: what it leaves at one place may
come from another place, which is then empty, and every other block has the core that it had.

Main statements:

* **`Block.Shift.replaceAt`**: what an operation on one block reaches is below this block.
* **`Block.shift_attach`**, **`Block.shift_withdraw`**, **`Block.shift_renameChild?`**: where the
  operations on the children of a block reach.
* **`Block.coreAt_set_of_retouch`**: a block that is retouched is the only one that changes.
-/

namespace BlockEdit

/-- What a block knows apart from its place. -/
def BlockInfo.core (i : BlockInfo) : BlockInfo := { i with name := [], path := [] }

namespace Block

/-- What the block that the names lead to knows apart from its place, if there is a block. -/
def coreAt (b : Block) (ns : List Text) : Option BlockInfo :=
  (b.descend? ns).map fun c => c.info.core

/-- The trees differ only below the names: what stands below `ns` in the second one can come from
below `os` in the first one. -/
structure Shift (b b' : Block) (os ns : List Text) : Prop where
  /-- Everything else stays. -/
  stay : ∀ ms, ¬ os <+: ms → ¬ ns <+: ms → b'.coreAt ms = b.coreAt ms
  /-- Nothing is left at the old place. -/
  gone : ∀ ms, os <+: ms → ¬ ns <+: ms → b'.coreAt ms = none
  /-- There was nothing at the new place. -/
  fresh : ∀ ms, ns <+: ms → ¬ os <+: ms → b.coreAt ms = none
  /-- What is at the new place and was at the old one is the same, but for the block at the top. -/
  same : ∀ k c c', b.coreAt (os ++ k) = some c → b'.coreAt (ns ++ k) = some c' →
    c' = c ∨ k = [] ∧ ns = os

variable {b b' c : Block} {os ns : List Text}

/-! ### Cores -/

/-- Names are followed from the child with the first one. -/
theorem coreAt_cons (b : Block) (n : Text) (ms : List Text) :
    b.coreAt (n :: ms) = (Named.find? n b.children).bind fun c => c.coreAt ms := by
  rw [coreAt, descend?, Option.map_bind]
  rfl

/-- Names can be followed in two steps. -/
theorem coreAt_append (h : b.descend? ns = some c) (ms : List Text) :
    b.coreAt (ns ++ ms) = c.coreAt ms := by
  rw [coreAt, descend?_append, h, Option.bind_some, coreAt]

/-- Paths do not matter to a core. -/
theorem coreAt_rebase : ∀ (ms : List Text) (b : Block) (parent : Text),
    (b.rebase parent).coreAt ms = b.coreAt ms
  | [], b, parent => by
    rw [rebase_mk]
    rfl
  | m :: ms, b, parent => by
    rw [coreAt_cons, coreAt_cons, children_rebase,
      Named.find?_map (f := rebase _) (fun d => name_rebase _ d), Option.bind_map]
    exact congrArg _ (funext fun d => coreAt_rebase ms d _)

/-- A block that is replaced does not matter outside of it. -/
theorem coreAt_replaceAt {old new : Block} (hn : new.name = old.name) : ∀ (ps : List Text)
    {b : Block}, b.descend? ps = some old → ∀ ms, ¬ ps <+: ms →
      (b.replaceAt ps new).coreAt ms = b.coreAt ms
  | [], _, _, ms, hms => absurd List.nil_prefix hms
  | p :: ps, b, h, [], _ => rfl
  | p :: ps, b, h, m :: ms, hms => by
    rw [descend?] at h
    obtain ⟨c, hc, hold⟩ := Option.bind_eq_some_iff.mp h
    have hname : ∀ d, Named.find? p b.children = some d →
        Named.name (d.replaceAt ps new) = p := by
      intro d hd
      rw [hc] at hd
      cases hd
      exact (descend?_replaceAt hn ps hold).2.trans (Named.name_of_find? hc)
    rw [replaceAt, coreAt_cons, coreAt_cons]
    by_cases hm : m = p
    · subst hm
      rw [Named.find?_update hname, hc, Option.map_some, Option.bind_some, Option.bind_some]
      exact coreAt_replaceAt hn ps hold ms fun hpre => hms (List.cons_prefix_cons.mpr ⟨rfl, hpre⟩)
    · rw [Named.find?_update_of_ne hm hname]

/-! ### Shifts below a block -/

/-- **What an operation on one block reaches** is below this block. -/
theorem Shift.replaceAt {old new : Block} (h : Shift old new os ns) (hn : new.name = old.name)
    {ps : List Text} (hold : b.descend? ps = some old) :
    Shift b (b.replaceAt ps new) (ps ++ os) (ps ++ ns) := by
  have hnew := (descend?_replaceAt hn ps hold).1
  constructor
  case stay =>
    intro ms hos hns
    by_cases hps : ps <+: ms
    · obtain ⟨k, rfl⟩ := hps
      rw [List.prefix_append_right_inj] at hos hns
      rw [coreAt_append hnew, coreAt_append hold, h.stay k hos hns]
    · exact coreAt_replaceAt hn ps hold ms hps
  case gone =>
    rintro _ ⟨k, rfl⟩ hns
    rw [List.append_assoc, List.prefix_append_right_inj] at hns
    rw [List.append_assoc, coreAt_append hnew, h.gone _ (List.prefix_append os k) hns]
  case fresh =>
    rintro _ ⟨k, rfl⟩ hos
    rw [List.append_assoc, List.prefix_append_right_inj] at hos
    rw [List.append_assoc, coreAt_append hold, h.fresh _ (List.prefix_append ns k) hos]
  case same =>
    intro k c c' hc hc'
    rw [List.append_assoc, coreAt_append hold] at hc
    rw [List.append_assoc, coreAt_append hnew] at hc'
    exact (h.same k c c' hc hc').imp_right fun ⟨hk, heq⟩ => ⟨hk, heq ▸ rfl⟩

/-- An operation on a block that keeps what it knows reaches the children whose look-up changes. -/
theorem shift_of_children {n m : Text} (hinfo : b'.info.core = b.info.core)
    (hstay : ∀ k, k ≠ n → k ≠ m → Named.find? k b'.children = Named.find? k b.children)
    (hgone : n ≠ m → Named.find? n b'.children = none)
    (hfresh : n ≠ m → Named.find? m b.children = none)
    (hsame : ∀ d d', Named.find? n b.children = some d → Named.find? m b'.children = some d' →
      ∀ k, d'.coreAt k = d.coreAt k) : Shift b b' [n] [m] := by
  have hpre : ∀ {x y : Text} {ms : List Text}, [x] <+: y :: ms ↔ x = y := fun {x y ms} => by
    rw [List.cons_prefix_cons]
    exact and_iff_left List.nil_prefix
  constructor
  case stay =>
    intro ms hn hm
    rcases ms with _ | ⟨k, ms⟩
    · exact congrArg some hinfo
    · rw [hpre] at hn hm
      rw [coreAt_cons, coreAt_cons, hstay k (Ne.symm hn) (Ne.symm hm)]
  case gone =>
    rintro _ ⟨ms, rfl⟩ hm
    rw [List.singleton_append, hpre] at hm
    rw [List.singleton_append, coreAt_cons, hgone (Ne.symm hm), Option.bind_none]
  case fresh =>
    rintro _ ⟨ms, rfl⟩ hn
    rw [List.singleton_append, hpre] at hn
    rw [List.singleton_append, coreAt_cons, hfresh hn, Option.bind_none]
  case same =>
    intro k c c' hc hc'
    rw [List.singleton_append, coreAt_cons] at hc hc'
    obtain ⟨d, hd, hc⟩ := Option.bind_eq_some_iff.mp hc
    obtain ⟨d', hd', hc'⟩ := Option.bind_eq_some_iff.mp hc'
    rw [hsame d d' hd hd' k, hc] at hc'
    exact Or.inl (Option.some.inj hc').symm

/-- A child under a new name changes nothing but what stands below the name. -/
theorem shift_attach (hfree : c.name ∉ Named.names b.children) :
    Shift b (b.attach c) [c.name] [c.name] := by
  refine shift_of_children rfl (fun k hk _ => ?_) (fun h => absurd rfl h) (fun h => absurd rfl h)
    fun d d' hd _ => ?_
  · rw [attach, Named.find?_append, Named.find?, if_neg (show ¬ Named.name c = k from Ne.symm hk)]
    exact Option.or_none
  · rw [Named.find?_eq_none hfree] at hd
    cases hd

/-- Taking a child out changes nothing but what stands below its name. -/
theorem shift_withdraw (catalog : Catalog) {n : Text} (hb : b.Sound) :
    Shift b (b.withdraw catalog n) [n] [n] := by
  refine shift_of_children rfl (fun k hk _ => Named.find?_remove hk _) (fun h => absurd rfl h)
    (fun h => absurd rfl h) fun d d' _ hd' => ?_
  rw [withdraw, Named.find?_eq_none (Named.not_mem_names_remove (nodup_children hb))] at hd'
  cases hd'

/-- What is dropped from the offer of a block was not part of the document. -/
theorem shift_of_offer (unused : List Block) (n : Text) :
    Shift b { b with unused } [n] [n] := by
  refine shift_of_children rfl (fun _ _ _ => rfl) (fun h => absurd rfl h) (fun h => absurd rfl h)
    fun d d' hd hd' k => ?_
  rw [show Named.find? n b.children = some d' from hd'] at hd
  cases hd
  rfl

/-- Another name does not matter to a core. -/
theorem coreAt_renamed (d : Block) (parent m : Text) (ms : List Text) :
    (d.renamed parent m).coreAt ms = d.coreAt ms := by
  rw [renamed, coreAt_rebase]
  cases ms with
  | nil => rfl
  | cons x ms => rw [coreAt_cons, coreAt_cons]

/-- **The children after one of them got another name**: it is found under the new name, and every
other name finds what it found. -/
theorem find?_renameChild? {n m : Text} (hb : All Sound b) (hm : Path.IsSegment m)
    (h : b.renameChild? n m = some b') (hfree : m = n ∨ b.hasChild m = false) :
    ∃ d, Named.find? n b.children = some d ∧ ∀ k, Named.find? k b'.children =
      if m = k then some (d.renamed b.path m)
      else if n = k then none else Named.find? k b.children := by
  have hunused := not_mem_unused_of_rename hb.here h hfree
  have hchildren := nodup_children hb.here
  have hchildren' := nodup_children (all_sound_renameChild? hb h hm hunused).here
  obtain ⟨d, children, hd, rfl, hperm⟩ := exists_of_renameChild? h
  refine ⟨d, hd, fun k => ?_⟩
  -- The place of the child among the others does not matter to a look-up.
  rw [← Named.find?_perm hperm hchildren' k, Named.find?, name_renamed]
  split
  · rfl
  · next hkm =>
    rw [Named.find?_remove (Ne.symm hkm)]
    split
    · next hkn =>
      rw [← hkn]
      exact Named.find?_eq_none (Named.not_mem_names_remove hchildren)
    · next hkn => exact Named.find?_remove (Ne.symm hkn) _

/-- Renaming a child moves what stands below its name to the new one, if that one is free. -/
theorem shift_renameChild? {n m : Text} (hb : All Sound b) (hm : Path.IsSegment m)
    (h : b.renameChild? n m = some b') (hfree : m = n ∨ b.hasChild m = false) :
    Shift b b' [n] [m] := by
  obtain ⟨d, hd, hfind⟩ := find?_renameChild? hb hm h hfree
  refine shift_of_children (congrArg BlockInfo.core (info_renameChild? h)) (fun k hn hm => ?_) (fun hne => ?_)
    (fun hne => ?_) fun e e' he he' k => ?_
  · rw [hfind, if_neg (Ne.symm hm), if_neg (Ne.symm hn)]
  · rw [hfind, if_neg (Ne.symm hne), if_pos rfl]
  · have hnot := hfree.resolve_left (Ne.symm hne)
    exact Named.find?_eq_none (hasChild_eq_false_iff.mp hnot).1
  · rw [hfind, if_pos rfl] at he'
    rw [hd] at he
    cases he
    cases he'
    exact coreAt_renamed d b.path m k

/-- Below a block that is retouched nothing changes. -/
theorem coreAt_of_retouch (h : b.Retouch c) {ms : List Text} (hms : ms ≠ []) :
    c.coreAt ms = b.coreAt ms := by
  cases ms with
  | nil => exact absurd rfl hms
  | cons m ms => rw [coreAt_cons, coreAt_cons, h.children]

/-- **A block that is retouched** is the only one that changes. -/
theorem coreAt_set_of_retouch {root : Block} {path : Text} (hb : root.find? path = some b)
    (h : b.Retouch c) {ms : List Text} (hms : Path.segments path ≠ ms) :
    (root.set path c).coreAt ms = root.coreAt ms := by
  by_cases hps : Path.segments path <+: ms
  · obtain ⟨k, rfl⟩ := hps
    rw [set, coreAt_append (descend?_replaceAt h.place.name _ hb).1, coreAt_append hb]
    exact coreAt_of_retouch h fun hk => hms (hk ▸ (List.append_nil _).symm)
  · exact coreAt_replaceAt h.place.name _ hb ms hps

/-- Retouching a block changes only what it knows itself: with no names in front, all below is at
its old place. -/
theorem shift_of_retouch (h : b.Retouch c) : Shift b c [] [] := by
  refine ⟨fun ms hms _ => absurd List.nil_prefix hms, fun ms _ hms => absurd List.nil_prefix hms,
    fun ms _ hms => absurd List.nil_prefix hms, fun k d d' hd hd' => ?_⟩
  by_cases hk : k = []
  · exact Or.inr ⟨hk, rfl⟩
  · rw [List.nil_append] at hd hd'
    rw [coreAt_of_retouch h hk, hd] at hd'
    exact Or.inl (Option.some.inj hd').symm

end Block

end BlockEdit
