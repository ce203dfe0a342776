import BlockEdit.Edit.Check
import BlockEdit.Proofs.Regular

/-!
# Names that are checked

The name of a block or a parameter that an edit brings into a document is checked, and a name that
is made up is checked by the way it is made. Such a name can stand in a path and in a header, and it
is a word.

Main statements:

* **`Edit.isWord_of_isName`**, **`Edit.isHeaderName_of_isName`**: a name that is checked can be read
  again.
* **`Edit.freshFrom_spec`**: which numbered name is found.
* **`Edit.isName_freshName`**: the name of a new child is one.
-/

namespace BlockEdit

/-- The steps of a computation that came to a result came to one each. -/
theorem Except.exists_of_bind_eq_ok {ε α β : Type} {x : Except ε α} {f : α → Except ε β} {b : β}
    (h : x >>= f = .ok b) : ∃ a, x = .ok a ∧ f a = .ok b := by
  rcases x with e | a
  · cases h
  · exact ⟨a, rfl, h⟩

/-- A name that can stand in a header can stand between slashes. -/
theorem Outline.IsHeaderName.isSegment {name : Text} (h : IsHeaderName name) :
    Path.IsSegment name := by
  have hblock := h.block
  simp only [Outline.isBlockName, Bool.and_eq_true, Bool.not_eq_true', List.isEmpty_eq_false_iff,
    List.any_eq_false, Bool.or_eq_true, not_or, beq_iff_eq] at hblock
  refine ⟨hblock.1, fun c hc => ?_⟩
  rw [Path.isSlash, beq_eq_false_iff_ne]
  exact (hblock.2 c hc).1

namespace Edit

/-! ### Names that are checked -/

/-- A name has a character, and none of them is reserved. -/
theorem isName_iff {name : Text} :
    isName name = true ↔ name ≠ [] ∧ ∀ c ∈ name, isReserved c = false := by
  simp [isName]

/-- **A name that is checked** is a word. -/
theorem isWord_of_isName {name : Text} (h : isName name = true) : Token.IsWord name := by
  obtain ⟨hne, hall⟩ := isName_iff.mp h
  have hstart : ∀ c ∈ name, Token.isWordStart c = true := by
    intro c hc
    have := hall c hc
    simp only [isReserved, Bool.or_eq_false_iff, beq_eq_false_iff_ne] at this
    simp [Token.isWordStart, Token.isWordPart, this]
  rcases name with _ | ⟨c, rest⟩
  · exact absurd rfl hne
  · exact ⟨⟨c, rest, rfl, hstart c List.mem_cons_self⟩,
      fun d hd => Token.isWordPart_of_isWordStart (hstart d hd)⟩

/-- **A name that is checked** can stand in a header. -/
theorem isHeaderName_of_isName {name : Text} (h : isName name = true) :
    Outline.IsHeaderName name := by
  obtain ⟨hne, hall⟩ := isName_iff.mp h
  have hclean : ∀ c ∈ name, c ≠ '/' ∧ Text.isBlank c = false ∧ c ≠ ']' := by
    intro c hc
    have := hall c hc
    simp only [isReserved, Bool.or_eq_false_iff, beq_eq_false_iff_ne] at this
    simp [this]
  refine ⟨?_, fun c hc => ?_⟩
  · simp only [Outline.isBlockName, Bool.and_eq_true, Bool.not_eq_true', List.isEmpty_eq_false_iff,
      List.any_eq_false]
    refine ⟨hne, fun c hc => ?_⟩
    simp [hclean c hc]
  · have hline : c ≠ '\n' := by
      rintro rfl
      exact absurd (hclean _ hc).2.1 (by decide)
    simp [Token.isHeaderPart, hline, hclean c hc]

/-- What passes the check of names is a name. -/
theorem isName_of_checkName {name : Text} {u : Unit} (h : checkName name = .ok u) :
    isName name = true := by
  unfold checkName at h
  split at h
  · next hname => exact hname
  · cases h

/-- No digit is reserved. -/
theorem isReserved_of_isDigit {c : Char} (h : c.isDigit = true) : isReserved c = false := by
  have hne : ∀ d : Char, d.isDigit = false → c ≠ d := by
    rintro d hd rfl
    rw [h] at hd
    cases hd
  have hcode : 48 ≤ c.toNat ∧ c.toNat ≤ 57 := by
    simpa [Char.isDigit, UInt32.le_iff_toNat_le] using h
  have hblank : Text.isBlank c = false := by
    simp only [Text.isBlank, Bool.or_eq_false_iff, Bool.and_eq_false_iff, decide_eq_false_iff_not,
      beq_eq_false_iff_ne]
    omega
  simp only [isReserved, Bool.or_eq_false_iff, beq_eq_false_iff_ne]
  refine ⟨⟨⟨⟨⟨⟨⟨hblank, ?_⟩, ?_⟩, ?_⟩, ?_⟩, ?_⟩, ?_⟩, ?_⟩
  all_goals exact hne _ (by decide)

/-- A name with a number is a name. -/
theorem isName_numbered {base : Text} (h : isName base = true) (index : Nat) :
    isName (numbered base index) = true := by
  obtain ⟨-, hall⟩ := isName_iff.mp h
  refine isName_iff.mpr ⟨by simp [numbered], fun c hc => ?_⟩
  rcases List.mem_append.mp hc with hc | hc
  · exact hall c hc
  rcases List.mem_cons.mp hc with rfl | hc
  · rfl
  · exact isReserved_of_isDigit (Nat.isDigit_of_mem_toDigits (by omega) (by omega) hc)

/-- **The numbered name that is found**: the ones before it are taken, and it is taken itself only
when it is the last one to look at. -/
theorem freshFrom_spec (parent : Block) (base : Text) : ∀ tries index : Nat,
    ∃ stop, freshFrom parent base tries index = numbered base stop ∧ index ≤ stop ∧
      (∀ i, index ≤ i → i < stop → parent.hasChild (numbered base i) = true) ∧
        (parent.hasChild (numbered base stop) = true → stop = index + tries)
  | 0, index => ⟨index, rfl, Nat.le_refl _, by omega, fun _ => rfl⟩
  | tries + 1, index => by
    rw [freshFrom]
    split
    · next htaken =>
      obtain ⟨stop, hname, hle, hbefore, hlast⟩ := freshFrom_spec parent base tries (index + 1)
      refine ⟨stop, hname, by omega, fun i hi hlt => ?_, fun h => ?_⟩
      · rcases Nat.eq_or_lt_of_le hi with rfl | hi
        · exact htaken
        · exact hbefore i hi hlt
      · have hstop := hlast h
        omega
    · next hfree =>
      exact ⟨index, rfl, Nat.le_refl _, by omega, fun h => absurd h hfree⟩

/-- The name that a search ends with is a name. -/
theorem isName_freshFrom {base : Text} (h : isName base = true) (parent : Block)
    (tries index : Nat) : isName (freshFrom parent base tries index) = true := by
  obtain ⟨stop, hname, -⟩ := freshFrom_spec parent base tries index
  rw [hname]
  exact isName_numbered h stop

/-- The name of a new child can be read when the one that was asked for can. -/
theorem isName_freshName {parent : Block} {asked : Option Text}
    (h : ∀ name ∈ asked, isName name = true) : isName (freshName parent asked) = true := by
  have hbase : isName (asked.getD "New".toList) = true := by
    rcases asked with _ | name
    · rfl
    · exact h name rfl
  unfold freshName
  dsimp only
  split
  · next name =>
    split
    · exact isName_freshFrom hbase _ _ _
    · exact h name rfl
  · exact isName_freshFrom hbase _ _ _

/-- The name that an edit asks for has been checked. -/
theorem isName_of_checkAddChild {root : Block} {path : Text} {name subtype : Option Text}
    (h : checkAddChild root path name subtype = .ok ()) : ∀ n ∈ name, isName n = true := by
  intro n hn
  obtain rfl := hn
  obtain ⟨b, -, h⟩ := Except.exists_of_bind_eq_ok h
  obtain ⟨_, hname, -⟩ := Except.exists_of_bind_eq_ok (x := checkName n) h
  exact isName_of_checkName hname

end Edit

end BlockEdit
