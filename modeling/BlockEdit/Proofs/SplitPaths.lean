import BlockEdit.Proofs.Spellings

/-!
# Paths that are split

Two functions take a path apart. `Path.segments` keeps the names and drops the slashes, and
`Path.parent?` cuts the text in front of its last name and keeps the slashes that are left. An edit
that removes or renames a block has the name from the one and the parent from the other, so it would
edit the wrong block if they did not agree about a path that is spelled oddly.

`Path.Spells` says which names a path spells without taking it apart.

Main statements:

* **`Path.segments_eq_iff`**: the segments of a path are the names that it spells.
* **`Edit.splitPath_agrees`**: a path is split into its last segment and a path of the others.
-/

namespace BlockEdit

namespace Path

/-- A path spells names: they stand in it in order, a slash stands between two of them, and there
may be further slashes between them, in front of them and behind them. -/
inductive Spells : Text → List Text → Prop where
  /-- The empty path spells no name. -/
  | nil : Spells [] []
  /-- A slash may come first. -/
  | slash {p : Text} {ns : List Text} (h : Spells p ns) : Spells ('/' :: p) ns
  /-- A name spells itself. -/
  | last {n : Text} (hn : IsSegment n) : Spells n [n]
  /-- A name that comes first ends at a slash. -/
  | name {n p : Text} {ns : List Text} (hn : IsSegment n) (h : Spells p ns) :
      Spells (n ++ '/' :: p) (n :: ns)

/-- The names that a path spells are its segments, wherever there are further slashes. -/
theorem Spells.segments {p : Text} {ns : List Text} (h : Spells p ns) : segments p = ns := by
  induction h with
  | nil => rfl
  | slash _ ih => rw [segments_slash, ih]
  | last hn => exact segments_of_isSegment hn
  | name hn _ ih => rw [segments_append_slash, segments_of_isSegment hn, ih, List.singleton_append]

/-- Every path spells some names. -/
theorem exists_spells : ∀ p : Text, ∃ ns, Spells p ns
  | [] => ⟨[], .nil⟩
  | c :: p => by
    obtain ⟨ns, h⟩ := exists_spells p
    rcases hc : isSlash c with _ | _
    · -- The character is a name of its own, or the first one of a name that is there.
      have hgrow : ∀ n : Text, (∀ d ∈ n, isSlash d = false) → IsSegment (c :: n) :=
        fun n hn => ⟨List.cons_ne_nil c n, List.forall_mem_cons.mpr ⟨hc, hn⟩⟩
      have hone : IsSegment [c] := hgrow [] fun d hd => absurd hd List.not_mem_nil
      cases h with
      | nil => exact ⟨_, .last hone⟩
      | slash h => exact ⟨_, .name hone h⟩
      | last hn => exact ⟨_, .last (hgrow _ hn.2)⟩
      | name hn h => exact ⟨_, .name (hgrow _ hn.2) h⟩
    · obtain rfl : c = '/' := beq_iff_eq.mp hc
      exact ⟨ns, .slash h⟩

/-- **The segments of a path** are the names that it spells. -/
theorem segments_eq_iff {p : Text} {ns : List Text} : segments p = ns ↔ Spells p ns := by
  constructor
  · rintro rfl
    obtain ⟨ns, h⟩ := exists_spells p
    rw [h.segments]
    exact h
  · exact Spells.segments

end Path

namespace Edit

/-- **The two ways to take a path apart** agree: a path is split into the last of the names that it
spells and a path that spells the others, and names are joined to it behind the ones it has. -/
theorem splitPath_agrees :
    (∀ p ns, Path.segments p = ns ↔ Path.Spells p ns) ∧
      (∀ p n, Path.segments (Path.join p n) = Path.segments p ++ Path.segments n) ∧
        ∀ p (h : Path.segments p ≠ []), ∃ parent,
          splitPath p = .ok (parent, (Path.segments p).getLast h) ∧
            Path.segments parent = (Path.segments p).dropLast := by
  refine ⟨fun p ns => Path.segments_eq_iff, Path.segments_join, fun p h => ?_⟩
  have hlast : Path.segments p = (Path.segments p).dropLast ++ [(Path.segments p).getLast h] :=
    (List.dropLast_append_getLast h).symm
  obtain ⟨hsplit, hparent⟩ := splitPath_of_concat hlast
  exact ⟨_, hsplit, hparent⟩

/-- Slashes in front and behind are of no matter, nor are those between the names. -/
theorem splitPath_agrees_sample :
    splitPath "//a///b/".toList = .ok ("//a//".toList, "b".toList) ∧
      Path.segments "//a//".toList = ["a".toList] := by
  have hsplit : splitPath "//a///b/".toList = .ok ("//a//".toList, "b".toList) := by decide
  obtain ⟨parent, hagrees, hparent⟩ := splitPath_agrees.2.2 "//a///b/".toList (by decide)
  rw [hsplit] at hagrees
  cases hagrees
  exact ⟨hsplit, hparent⟩

end Edit

end BlockEdit
