import BlockEdit.Schema.Catalog

/-!
# Segments of paths

The name of a block is a segment: it is not empty and holds no slash. The path of a block has the
segments of the path of its parent and, behind them, its name, so a path says which names lead to
the block.

Main statements:

* **`segments_join_segment`**: joining a segment adds just this segment.
* **`isSegment_of_mem_childrenOf`**: the names that a catalog declares are segments.
-/

namespace BlockEdit

namespace Text

/-- A text without marks is one piece. -/
theorem pieces_eq_singleton {p : Char → Bool} : {t : Text} → (∀ c ∈ t, p c = false) →
    pieces p t = [t]
  | [], _ => rfl
  | c :: t, h => by
    have ih := pieces_eq_singleton fun d hd => h d (List.mem_cons_of_mem _ hd)
    rw [pieces, if_neg (by simp [h c List.mem_cons_self]), ih]

end Text

namespace Path

/-- A segment is a nonempty text without slashes. -/
def IsSegment (n : Text) : Prop := n ≠ [] ∧ ∀ c ∈ n, isSlash c = false

/-- The wildcard is a segment. -/
theorem isSegment_wildcard : IsSegment wildcard :=
  ⟨List.cons_ne_nil _ _, List.forall_mem_singleton.mpr rfl⟩

/-- The root has no segments. -/
@[simp] theorem segments_root : segments root = [] := rfl

/-- A segment is a path of one segment. -/
theorem segments_of_isSegment {n : Text} (h : IsSegment n) : segments n = [n] := by
  rw [segments, Text.pieces_eq_singleton h.2]
  simp [h.1]

/-- **Joining a segment** adds just this segment. -/
theorem segments_join_segment (parent : Text) {n : Text} (h : IsSegment n) :
    segments (join parent n) = segments parent ++ [n] := by
  rw [segments_join, segments_of_isSegment h]

/-- A path that is joined with a segment is not the root. -/
theorem join_ne_root (parent : Text) {n : Text} (h : IsSegment n) : join parent n ≠ root := by
  intro heq
  have hsegments := segments_join_segment parent h
  rw [heq, segments_root] at hsegments
  exact List.append_ne_nil_of_right_ne_nil _ (List.cons_ne_nil n []) hsegments.symm

/-- A path that is joined is never empty. -/
theorem join_ne_nil (parent n : Text) : join parent n ≠ [] := by
  rw [join]
  split
  · exact List.cons_ne_nil _ _
  · exact List.append_ne_nil_of_right_ne_nil _ (List.cons_ne_nil _ _)

/-- Behind a segment a name is joined with a slash. -/
theorem join_join (path : Text) {n : Text} (hn : IsSegment n) (m : Text) :
    join (join path n) m = join path n ++ '/' :: m := by
  rw [join, if_neg]
  exact fun h => h.elim (join_ne_root path hn) (join_ne_nil path n)

/-- The segments of a path are segments. -/
theorem isSegment_of_mem_segments {n path : Text} (h : n ∈ segments path) : IsSegment n := by
  rw [segments, List.mem_filter] at h
  exact ⟨by simpa using h.2, Text.not_mark_of_mem_pieces path n h.1⟩

end Path

namespace Catalog

/-- The name of a child that a catalog declares is a segment. -/
theorem isSegment_of_declaredChild? {parent : List Text} {path n : Text}
    (h : declaredChild? parent path = some n) : Path.IsSegment n := by
  simp only [declaredChild?] at h
  split at h
  · cases h
  · next last hlast =>
    split at h
    · cases h
      exact Path.isSegment_of_mem_segments (List.mem_of_getLast? hlast)
    · cases h

/-- The fold that drops repeated names keeps just the names of the list. -/
theorem mem_foldl_distinct {n : Text} (ns : List Text) : ∀ acc : List Text,
    n ∈ ns.foldl (fun names name => if name ∈ names then names else names ++ [name]) acc ↔
      n ∈ acc ∨ n ∈ ns := by
  induction ns with
  | nil => simp
  | cons m ns ih =>
    intro acc
    rw [List.foldl_cons, ih]
    by_cases hm : m ∈ acc
    · rw [if_pos hm, List.mem_cons]
      constructor
      · exact fun h => h.imp_right Or.inr
      · rintro (h | rfl | h)
        · exact Or.inl h
        · exact Or.inl hm
        · exact Or.inr h
    · rw [if_neg hm, List.mem_append, List.mem_singleton, List.mem_cons, or_assoc]

/-- Names that are collected one by one, each once, are distinct. -/
theorem nodup_foldl_distinct (ns : List Text) : ∀ acc : List Text, acc.Nodup →
    (ns.foldl (fun names name => if name ∈ names then names else names ++ [name]) acc).Nodup := by
  induction ns with
  | nil => exact fun _ h => h
  | cons m ns ih =>
    intro acc h
    rw [List.foldl_cons]
    by_cases hm : m ∈ acc
    · rw [if_pos hm]
      exact ih acc h
    · rw [if_neg hm]
      refine ih _ (List.nodup_append.mpr ⟨h, by simp, fun n hn k hk => ?_⟩)
      rw [List.mem_singleton.mp hk]
      exact fun e => hm (e ▸ hn)

/-- A catalog declares no child twice. -/
theorem nodup_childrenOf (c : Catalog) (path : Text) : (c.childrenOf path).Nodup :=
  nodup_foldl_distinct _ [] List.nodup_nil

/-- **The names that a catalog declares** are segments. -/
theorem isSegment_of_mem_childrenOf {c : Catalog} {path n : Text} (h : n ∈ c.childrenOf path) :
    Path.IsSegment n := by
  have hmem := ((mem_foldl_distinct _ []).mp h).resolve_left List.not_mem_nil
  obtain ⟨entry, -, hentry⟩ := List.mem_filterMap.mp hmem
  exact isSegment_of_declaredChild? hentry

end Catalog

end BlockEdit
