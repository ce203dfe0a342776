import BlockEdit.Text.Position

/-!
# Places in a text

A place has an offset, which counts the bytes before it, and a line and a column, which a reader
counts. A slice is what stands between two places. The offset of a boundary tells its line and its
column, and the other way round: going on in a text, the line grows at each line end and the column
grows in between.

Main statements:

* **`Text.slice_append`**: a slice that starts behind the first part of a text lies in the second.
* **`Text.lineColumn_append_newline`**: a place behind a line end has the column that it has in the
  text there.
* **`Text.lineColumn_lt`**: the later one of two boundaries is further down, or further right on the
  same line.
-/

namespace BlockEdit.Text

/-! ### Bytes -/

/-- Texts one after the other have the bytes of both. -/
theorem byteSize_append (a b : Text) : byteSize (a ++ b) = byteSize a + byteSize b := by
  induction a with
  | nil => exact (Nat.zero_add _).symm
  | cons c a ih => rw [List.cons_append, byteSize, byteSize, ih, Nat.add_assoc]

/-- A text that is not empty has a byte. -/
theorem byteSize_pos {t : Text} (h : t ≠ []) : 0 < byteSize t := by
  obtain ⟨c, t, rfl⟩ := List.exists_cons_of_ne_nil h
  exact Nat.add_pos_left c.utf8Size_pos _

/-- Of two texts that the same text starts with, the one with more bytes goes on behind the
other. -/
theorem exists_append_of_byteSize_le {a b t u : Text} (h : a ++ t = b ++ u)
    (hsize : byteSize a ≤ byteSize b) : ∃ more, b = a ++ more ∧ t = more ++ u := by
  rcases List.append_eq_append_iff.mp h with ⟨more, hb, ht⟩ | ⟨more, ha, hu⟩
  · exact ⟨more, hb, ht⟩
  · rcases more with _ | ⟨c, more⟩
    · rw [List.append_nil] at ha
      exact ⟨[], by simp [ha], by simpa using hu.symm⟩
    · have hpos := byteSize_pos (List.cons_ne_nil c more)
      rw [ha, byteSize_append] at hsize
      omega

/-- Texts with as many bytes that the same text starts with are the same. -/
theorem append_inj_of_byteSize {a b t u : Text} (h : a ++ t = b ++ u)
    (hsize : byteSize a = byteSize b) : a = b ∧ t = u := by
  obtain ⟨more, hb, ht⟩ := exists_append_of_byteSize_le h (Nat.le_of_eq hsize)
  rcases more with _ | ⟨c, more⟩
  · simp [hb, ht]
  · have hpos := byteSize_pos (List.cons_ne_nil c more)
    rw [hb, byteSize_append] at hsize
    omega

/-- Taking no bytes takes nothing. -/
@[simp] theorem takeBytes_zero (t : Text) : takeBytes 0 t = [] := by
  cases t <;> rfl

/-- The first bytes of a text reach over its first part. -/
theorem takeBytes_append (a b : Text) (count : Nat) :
    takeBytes (byteSize a + count) (a ++ b) = a ++ takeBytes count b := by
  induction a with
  | nil => rw [byteSize, Nat.zero_add, List.nil_append, List.nil_append]
  | cons c a ih =>
    obtain ⟨size, hsize⟩ := Nat.exists_eq_add_one.mpr c.utf8Size_pos
    rw [byteSize, hsize, List.cons_append, show size + 1 + byteSize a + count =
      size + byteSize a + count + 1 by omega, takeBytes, if_pos (by omega), hsize,
      show size + byteSize a + count + 1 - (size + 1) = byteSize a + count by omega, ih,
      List.cons_append]

/-- As many bytes as a front has give the front. -/
theorem takeBytes_byteSize (a b : Text) : takeBytes (byteSize a) (a ++ b) = a := by
  simpa using takeBytes_append a b 0

/-- No more is taken than was asked for. -/
theorem byteSize_takeBytes_le (count : Nat) (t : Text) : byteSize (takeBytes count t) ≤ count := by
  induction t generalizing count with
  | nil => simp [takeBytes, byteSize]
  | cons c t ih =>
    rcases count with _ | count
    · simp [byteSize]
    · rw [takeBytes]
      split
      · have htail := ih (count + 1 - c.utf8Size)
        rw [byteSize]
        omega
      · exact Nat.zero_le _

/-- What is taken is the start of the text. -/
theorem takeBytes_prefix (count : Nat) (t : Text) : takeBytes count t <+: t := by
  induction t generalizing count with
  | nil => simp [takeBytes]
  | cons c t ih =>
    rcases count with _ | count
    · simp
    · rw [takeBytes]
      split
      · exact List.cons_prefix_cons.mpr ⟨rfl, ih _⟩
      · exact List.nil_prefix

/-- Dropping no bytes leaves the text. -/
theorem dropBytes_zero (u : Text) : dropBytes 0 u = u := by
  cases u
  · rfl
  · rfl

/-- Dropping as many bytes as the first part of a text has leaves the second one. -/
theorem dropBytes_append : ∀ t u : Text, dropBytes (byteSize t) (t ++ u) = u
  | [], u => dropBytes_zero u
  | c :: t, u => by
    obtain ⟨k, hk⟩ : ∃ k, c.utf8Size + byteSize t = k + 1 :=
      Nat.exists_eq_succ_of_ne_zero (Nat.ne_of_gt (Nat.add_pos_left c.utf8Size_pos _))
    rw [byteSize, hk, List.cons_append, dropBytes, if_pos (by omega),
      show k + 1 - c.utf8Size = byteSize t by omega, dropBytes_append t u]

/-- **A cut** leaves what stands behind a front of that size. -/
theorem cut?_eq_some_iff : ∀ {t u : Text} {count : Nat},
    cut? count t = some u ↔ ∃ front, t = front ++ u ∧ byteSize front = count
  | t, u, 0 => by
    rw [cut?, Option.some_inj]
    constructor
    · exact fun h => ⟨[], h, rfl⟩
    · rintro ⟨front, rfl, hsize⟩
      rcases front with _ | ⟨c, front⟩
      · rfl
      · exact absurd hsize (Nat.ne_of_gt (byteSize_pos (List.cons_ne_nil c front)))
  | [], u, count + 1 => by
    refine ⟨nofun, ?_⟩
    rintro ⟨front, h, hsize⟩
    rw [(List.append_eq_nil_iff.mp h.symm).1] at hsize
    cases hsize
  | c :: t, u, count + 1 => by
    rw [cut?]
    constructor
    · intro h
      split at h
      · obtain ⟨front, rfl, hsize⟩ := cut?_eq_some_iff.mp h
        refine ⟨c :: front, rfl, ?_⟩
        rw [byteSize]
        omega
      · cases h
    · rintro ⟨front, h, hsize⟩
      rcases front with _ | ⟨d, front⟩
      · cases hsize
      · obtain ⟨rfl, rfl⟩ := List.cons.inj h
        rw [byteSize] at hsize
        rw [if_pos (by omega)]
        exact cut?_eq_some_iff.mpr ⟨front, rfl, by omega⟩

/-- A cut gives what is left when as many bytes are dropped. -/
theorem dropBytes_of_cut? {count : Nat} {t u : Text} (h : cut? count t = some u) :
    dropBytes count t = u := by
  obtain ⟨front, rfl, rfl⟩ := cut?_eq_some_iff.mp h
  exact dropBytes_append front u

/-- Where a text can be cut it can be cut with more behind it. -/
theorem isSome_cut?_append {count : Nat} {t : Text} (h : (cut? count t).isSome = true) (u : Text) :
    (cut? count (t ++ u)).isSome = true := by
  obtain ⟨rest, hrest⟩ := Option.isSome_iff_exists.mp h
  obtain ⟨front, rfl, hsize⟩ := cut?_eq_some_iff.mp hrest
  rw [cut?_eq_some_iff.mpr ⟨front, List.append_assoc front rest u, hsize⟩]
  rfl

/-! ### Slices and boundaries -/

/-- What stands between two places of a text. -/
def slice (start stop : Nat) (t : Text) : Text := takeBytes (stop - start) (dropBytes start t)

/-- **A slice that starts behind the first part** of a text lies in the second. -/
theorem slice_append (a t : Text) (size : Nat) :
    slice (byteSize a) (byteSize a + size) (a ++ t) = takeBytes size t := by
  rw [slice, dropBytes_append, Nat.add_sub_cancel_left]

/-- Where a front ends, there is a boundary. -/
theorem isBoundary_append (a b : Text) : IsBoundary (a ++ b) (byteSize a) := ⟨a, b, rfl, rfl⟩

/-- No boundary is behind the end. -/
theorem IsBoundary.le {source : Text} {offset : Nat} (h : IsBoundary source offset) :
    offset ≤ byteSize source := by
  obtain ⟨before, after, rfl, rfl⟩ := h
  rw [byteSize_append]
  exact Nat.le_add_right _ _

/-- Behind a boundary the next one is not inside of the next character. -/
theorem IsBoundary.next_le {front t : Text} {c : Char} {offset : Nat}
    (h : IsBoundary (front ++ c :: t) offset) (hlt : byteSize front < offset) :
    byteSize (front ++ [c]) ≤ offset := by
  obtain ⟨before, after, hsource, rfl⟩ := h
  obtain ⟨more, rfl, hrest⟩ := exists_append_of_byteSize_le hsource (Nat.le_of_lt hlt)
  rcases more with _ | ⟨d, more⟩
  · simp at hlt
  · obtain ⟨rfl, -⟩ := List.cons.inj hrest
    rw [List.append_cons front c more, byteSize_append (front ++ [c])]
    exact Nat.le_add_right _ _

/-! ### Lines and columns -/

/-- Texts one after the other have the line ends of both. -/
theorem lineEnds_append (a b : Text) : lineEnds (a ++ b) = lineEnds a + lineEnds b := by
  induction a with
  | nil => exact (Nat.zero_add _).symm
  | cons c a ih =>
    rw [List.cons_append, lineEnds, lineEnds, ih]
    split
    · omega
    · rfl

/-- What stands before a line end is not in the last line. -/
theorem lastLine_append_newline (a b : Text) : lastLine (a ++ '\n' :: b) = lastLine b := by
  induction a with
  | nil => rw [List.nil_append, lastLine, if_neg (by simp [lineEnds])]
  | cons c a ih =>
    rw [List.cons_append, lastLine, if_neg ?_, ih]
    rw [← List.cons_append, lineEnds_append]
    exact Nat.ne_of_gt (Nat.lt_add_left _ (by simp [lineEnds]))

/-- A text without a line end is its own last line. -/
theorem lastLine_of_lineEnds {t : Text} (h : lineEnds t = 0) : lastLine t = t := by
  cases t with
  | nil => rfl
  | cons c t => rw [lastLine, if_pos h]

/-- What has no line end goes on with the last line. -/
theorem lastLine_append {b : Text} (h : lineEnds b = 0) (a : Text) :
    lastLine (a ++ b) = lastLine a ++ b := by
  induction a with
  | nil => simpa [lastLine] using lastLine_of_lineEnds h
  | cons c a ih =>
    have hends : lineEnds (c :: (a ++ b)) = lineEnds (c :: a) := by
      rw [← List.cons_append, lineEnds_append, h, Nat.add_zero]
    rw [List.cons_append, lastLine, lastLine, hends, ih]
    split
    · rfl
    · rfl

/-- A place is on the line that the line ends before it count, and in the column behind the last of
them. -/
theorem lineColumn_byteSize (a b : Text) :
    lineColumn (a ++ b) (byteSize a) = (lineEnds a + 1, (lastLine a).length + 1) := by
  rw [lineColumn, takeBytes_byteSize]

/-- **A place behind a line end** has the column that it has in the text behind it, as many lines
further down as the text in front has. -/
theorem lineColumn_append_newline (a b : Text) (offset : Nat) :
    lineColumn (a ++ '\n' :: b) (offset + (byteSize a + 1)) =
      ((lineColumn b offset).1 + (lineEnds a + 1), (lineColumn b offset).2) := by
  have hbefore : takeBytes (offset + (byteSize a + 1)) (a ++ '\n' :: b) =
      a ++ '\n' :: takeBytes offset b := by
    have hline := takeBytes_append ['\n'] b offset
    rw [show offset + (byteSize a + 1) = byteSize a + (byteSize ['\n'] + offset) from
      Nat.add_comm .. |>.trans (Nat.add_assoc ..), takeBytes_append]
    exact congrArg (a ++ ·) hline
  rw [lineColumn, hbefore, lastLine_append_newline, lineEnds_append, lineEnds, if_pos rfl]
  simp only [lineColumn]
  refine Prod.ext ?_ rfl
  show lineEnds a + (lineEnds (takeBytes offset b) + 1) + 1 = _
  omega

/-- **The later one of two boundaries** is further down, or further right on the same line. -/
theorem lineColumn_lt {source : Text} {i j : Nat} (hi : IsBoundary source i)
    (hj : IsBoundary source j) (hij : i < j) :
    Prod.Lex (· < ·) (· < ·) (lineColumn source i) (lineColumn source j) := by
  obtain ⟨a, b, rfl, rfl⟩ := hi
  obtain ⟨c, d, hsource, rfl⟩ := hj
  -- The text before the later boundary is the one before the earlier boundary, and some more.
  obtain ⟨more, rfl, -⟩ := exists_append_of_byteSize_le hsource (Nat.le_of_lt hij)
  have hne : more ≠ [] := by
    rintro rfl
    simp at hij
  rw [lineColumn_byteSize, hsource, lineColumn_byteSize, lineEnds_append]
  rcases Nat.eq_zero_or_pos (lineEnds more) with hends | hends
  · rw [hends, Nat.add_zero, lastLine_append hends, List.length_append]
    have hlength := List.length_pos_iff.mpr hne
    exact Prod.Lex.right _ (by omega)
  · exact Prod.Lex.left _ _ (by omega)

/-- Boundaries at the same line and column are the same. -/
theorem eq_of_lineColumn_eq {source : Text} {i j : Nat} (hi : IsBoundary source i)
    (hj : IsBoundary source j) (h : lineColumn source i = lineColumn source j) : i = j := by
  have hirrefl : ∀ p : Nat × Nat, ¬ Prod.Lex (· < ·) (· < ·) p p := by
    intro p hp
    simp [Prod.lex_def] at hp
  rcases Nat.lt_trichotomy i j with hlt | heq | hlt
  · exact absurd (h ▸ lineColumn_lt hi hj hlt) (hirrefl _)
  · exact heq
  · exact absurd (h ▸ lineColumn_lt hj hi hlt) (hirrefl _)

end BlockEdit.Text
