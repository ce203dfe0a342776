import BlockEdit.Proofs.Positions
import BlockEdit.Proofs.Runs
import Mathlib.Data.List.Induction

/-!
# Paths below a path

The path of a block below the root is written with a slash before each name, and it lies below the
path of another block exactly when the names that lead to the block start with those that lead to
the other one. What stands behind the path of the other one is written in the same way.

Main statements:

* **`Path.isWithin_ofSegments`**: a path lies below another one when its names start with those.
* **`Path.parent?_join`**: the parent of a path is what the last name was joined to.
* **`Block.path_of_descend?`**: the path of a block is written from the names that lead to it.
-/

namespace BlockEdit

namespace Path

/-- Names are written one after the other. -/
theorem ofSegments_append (ns ms : List Text) :
    ofSegments (ns ++ ms) = ofSegments ns ++ ofSegments ms :=
  List.flatMap_append

/-- A slash stands in front of the first name. -/
theorem ofSegments_cons (n : Text) (ns : List Text) :
    ofSegments (n :: ns) = '/' :: n ++ ofSegments ns :=
  List.flatMap_cons

/-- Where there is a name, something is written. -/
theorem ofSegments_ne_nil {ns : List Text} (h : ns ≠ []) : ofSegments ns ≠ [] := by
  cases ns with
  | nil => exact absurd rfl h
  | cons n ns =>
    rw [ofSegments_cons]
    exact List.cons_ne_nil _ _

/-- A slash in front does not matter to the segments. -/
theorem segments_slash (t : Text) : segments ('/' :: t) = segments t :=
  segments_append_slash [] t

/-- The names are read off the path that is written from them. -/
theorem segments_ofSegments : ∀ {ns : List Text}, (∀ n ∈ ns, IsSegment n) →
    segments (ofSegments ns) = ns
  | [], _ => rfl
  | n :: ns, h => by
    have hrest := segments_ofSegments fun m hm => h m (List.mem_cons_of_mem _ hm)
    have hn := segments_of_isSegment (h n List.mem_cons_self)
    rw [ofSegments_cons, List.cons_append, segments_slash]
    cases ns with
    | nil =>
      rw [show ofSegments [] = [] from rfl, List.append_nil]
      exact hn
    | cons m ns =>
      rw [ofSegments_cons, List.cons_append] at hrest ⊢
      rw [segments_append_slash, hn]
      rw [segments_slash] at hrest
      exact congrArg _ hrest

/-- Names are not written as the root is. -/
theorem ofSegments_ne_root {ns : List Text} (h : ∀ n ∈ ns, IsSegment n) (hne : ns ≠ []) :
    ofSegments ns ≠ root := by
  intro hroot
  have hsegments := segments_ofSegments h
  rw [hroot, segments_root] at hsegments
  exact hne hsegments.symm

/-- Different names are written differently. -/
theorem ofSegments_inj {ns ms : List Text} (hns : ∀ n ∈ ns, IsSegment n)
    (hms : ∀ n ∈ ms, IsSegment n) (h : ofSegments ns = ofSegments ms) : ns = ms := by
  rw [← segments_ofSegments hns, h, segments_ofSegments hms]

/-- A path is within another when it goes on from it, at a slash or not at all. -/
theorem isWithin_iff {top path : Text} :
    isWithin top path = true ↔ ∃ rest, path = top ++ rest ∧ (rest = [] ∨ ∃ t, rest = '/' :: t) := by
  rw [isWithin]
  rcases h : top.isPrefixOf? path with _ | rest
  · simp only [Bool.false_eq_true, false_iff, not_exists, not_and]
    rintro rest rfl
    rw [List.isPrefixOf?_eq_some_iff_append_eq.mpr rfl] at h
    cases h
  · obtain rfl := List.isPrefixOf?_eq_some_iff_append_eq.mp h
    cases rest with
    | nil => simp
    | cons c t => simp

/-- **A path lies below another one** when its names start with those of the other one. -/
theorem isWithin_ofSegments {ns ms : List Text} (hns : ∀ n ∈ ns, IsSegment n)
    (hms : ∀ n ∈ ms, IsSegment n) :
    isWithin (ofSegments ns) (ofSegments ms) = true ↔ ns <+: ms := by
  rw [isWithin_iff]
  constructor
  · rintro ⟨rest, hpath, hrest⟩
    refine ⟨segments rest, ?_⟩
    have hsegments := segments_ofSegments hms
    rw [hpath] at hsegments
    rcases hrest with rfl | ⟨t, rfl⟩
    · rw [List.append_nil, segments_ofSegments hns] at hsegments
      rw [← hsegments]
      exact List.append_nil ns
    · rw [segments_append_slash, segments_ofSegments hns] at hsegments
      rw [← hsegments, segments_slash]
  · rintro ⟨rest, rfl⟩
    refine ⟨ofSegments rest, ofSegments_append ns rest, ?_⟩
    cases rest with
    | nil => exact Or.inl rfl
    | cons n rest => exact Or.inr ⟨_, ofSegments_cons n rest⟩

/-- Behind as many bytes as the first names have stand the others. -/
theorem dropBytes_ofSegments (ns ms : List Text) :
    Text.dropBytes (Text.byteSize (ofSegments ns)) (ofSegments (ns ++ ms)) = ofSegments ms := by
  rw [ofSegments_append, Text.dropBytes_append]

/-- **The parent of a path** is what its last name was joined to. -/
theorem parent?_join {parent n : Text} (hp : parent ≠ []) (hn : IsSegment n) :
    parent? (join parent n) = some parent := by
  obtain ⟨front, hjoin, hfront⟩ : ∃ front, join parent n = front ++ '/' :: n ∧
      (front = [] ∧ parent = root ∨ front ≠ [] ∧ parent = front) := by
    rw [join]
    split
    · next h => exact ⟨[], rfl, Or.inl ⟨rfl, h.resolve_right hp⟩⟩
    · exact ⟨parent, rfl, Or.inr ⟨hp, rfl⟩⟩
  have hclean : ∀ c ∈ n.reverse, isSlash c = false := fun c hc => hn.2 c (List.mem_reverse.mp hc)
  have htrim : trimSlashes (front ++ '/' :: n) = front ++ '/' :: n := by
    refine Text.dropEndWhile_eq_self ?_
    rintro ⟨c, hc, hslash⟩
    obtain ⟨u, d, rfl⟩ := List.eq_nil_or_concat n |>.resolve_left hn.1
    rw [List.concat_eq_append, ← List.cons_append, ← List.append_assoc, List.getLast?_concat] at hc
    cases hc
    rw [hn.2 c (by rw [List.concat_eq_append]; exact List.mem_append_right _ List.mem_cons_self)]
      at hslash
    cases hslash
  have hbefore : (front ++ '/' :: n).reverse.dropWhile (!isSlash ·) = '/' :: front.reverse := by
    rw [List.reverse_append, List.reverse_cons, List.append_assoc,
      List.dropWhile_append_of_pos fun c hc => by rw [hclean c hc]; rfl]
    rfl
  rw [parent?, if_neg fun h => h.elim (join_ne_root parent hn) (join_ne_nil parent n), hjoin, htrim,
    hbefore]
  rcases hfront with ⟨rfl, rfl⟩ | ⟨hne, rfl⟩
  · rfl
  · obtain ⟨c, u, hcons⟩ :=
      List.exists_cons_of_ne_nil fun hnil => hne (List.reverse_eq_nil_iff.mp hnil)
    rw [hcons]
    show some (c :: u).reverse = some parent
    rw [← hcons, List.reverse_reverse]

end Path

/-- A path that was joined is split where it was joined. -/
theorem Edit.splitPath_join {parent n : Text} (hp : parent ≠ []) (hn : Path.IsSegment n) :
    splitPath (Path.join parent n) = .ok (parent, n) := by
  rw [splitPath, Path.segments_join_segment parent hn, List.getLast?_concat,
    Path.parent?_join hp hn]

namespace Block

/-- The names that lead to a block of a sound tree are segments. -/
theorem isSegment_of_descend? : ∀ {ns : List Text} {b d : Block}, All Sound b →
    b.descend? ns = some d → ∀ n ∈ ns, Path.IsSegment n
  | [], _, _, _, _, n, hn => by cases hn
  | m :: ns, b, d, hb, h, n, hn => by
    rw [descend?] at h
    obtain ⟨c, hc, hd⟩ := Option.bind_eq_some_iff.mp h
    obtain ⟨hmem, rfl⟩ := Named.find?_eq_some hc
    rcases List.mem_cons.mp hn with rfl | hn
    · exact (hb.here.child c hmem).segment
    · exact isSegment_of_descend? (hb.child c hmem) hd n hn

/-- So are these names with one more segment. -/
theorem isSegment_of_mem_concat {ns : List Text} {b d : Block} (hb : All Sound b)
    (h : b.descend? ns = some d) {n : Text} (hn : Path.IsSegment n) :
    ∀ m ∈ ns ++ [n], Path.IsSegment m := by
  intro m hm
  rcases List.mem_append.mp hm with hm | hm
  · exact isSegment_of_descend? hb h m hm
  · exact List.mem_singleton.mp hm ▸ hn

/-- The path of a child is written from the names that lead to the block and its own. -/
theorem join_of_descend? {root : Block} (h : Grounded root) : ∀ (ns : List Text) {b : Block},
    root.descend? ns = some b → ∀ m : Text, Path.join b.path m = Path.ofSegments (ns ++ [m]) := by
  intro ns
  induction ns using List.reverseRecOn with
  | nil =>
    intro b hb m
    cases hb
    rw [h.path, Path.join, if_pos (Or.inl rfl), List.nil_append, Path.ofSegments_cons]
    exact (List.append_nil _).symm
  | append_singleton ns n ih =>
    intro b hb m
    rw [descend?_append] at hb
    obtain ⟨p, hp, hb⟩ := Option.bind_eq_some_iff.mp hb
    rw [descend?] at hb
    obtain ⟨c, hc, hb⟩ := Option.bind_eq_some_iff.mp hb
    cases hb
    obtain ⟨hmem, rfl⟩ := Named.find?_eq_some hc
    have hplaced := (h.tree.descendant (mem_descendants_of_descend? _ hp)).here.child b hmem
    rw [hplaced.path, Path.join_join p.path hplaced.segment, ih hp,
      Path.ofSegments_append (ns ++ _), Path.ofSegments_cons]
    exact congrArg _ (List.append_nil _).symm

/-- **The path of a block** below the root is written from the names that lead to it. -/
theorem path_of_descend? {root : Block} (h : Grounded root) {ns : List Text} {d : Block}
    (hd : root.descend? ns = some d) (hne : ns ≠ []) : d.path = Path.ofSegments ns := by
  obtain ⟨ms, n, rfl⟩ := List.eq_nil_or_concat ns |>.resolve_left hne
  rw [List.concat_eq_append] at hd ⊢
  rw [descend?_append] at hd
  obtain ⟨p, hp, hd⟩ := Option.bind_eq_some_iff.mp hd
  rw [descend?] at hd
  obtain ⟨c, hc, hd⟩ := Option.bind_eq_some_iff.mp hd
  cases hd
  obtain ⟨hmem, rfl⟩ := Named.find?_eq_some hc
  have hplaced := (h.tree.descendant (mem_descendants_of_descend? _ hp)).here.child d hmem
  rw [hplaced.path]
  exact join_of_descend? h ms hp d.name

/-- In a grounded tree no block has an empty path. -/
theorem path_ne_nil {root b : Block} (h : Grounded root) (hb : b ∈ root.descendants) :
    b.path ≠ [] := by
  obtain ⟨ns, hns, -⟩ := exists_descend? h.tree hb
  by_cases hne : ns = []
  · subst hne
    cases hns
    rw [h.path]
    exact List.cons_ne_nil _ _
  · rw [path_of_descend? h hns hne]
    exact Path.ofSegments_ne_nil hne

end Block

end BlockEdit
