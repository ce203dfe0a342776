import BlockEdit.Proofs.Decimals
import BlockEdit.Proofs.Fit
import BlockEdit.Proofs.Texts

/-!
# Values read back

The text of a value of a type reads, as that type, as the value itself. A text that does not read
as a type is kept as texts, and the text of these does not read as the type for the same reason.

Main statements:

* **`ValueType.read_text`**: the text of a value reads as the value.
* **`ValueType.read_text_relaxed`**: a text that was kept is refused again with the same error.
-/

namespace BlockEdit

/-! ### Bare texts -/

/-- The characters of numbers and truth values. -/
def Text.isBareChar (c : Char) : Bool := c.isAlpha || c.isDigit || c == '-' || c == '.'

/-- A text that needs no quotes wherever it stands. -/
def Text.IsBare (t : Text) : Prop := t ≠ [] ∧ ∀ c ∈ t, isBareChar c = true

namespace Text

/-- A digit needs no quotes. -/
theorem isBareChar_of_isDigit {c : Char} (h : c.isDigit = true) : isBareChar c = true := by
  simp [isBareChar, h]

/-- What needs no quotes is a minus, a dot, a digit or a letter. -/
theorem toNat_of_isBareChar {c : Char} (h : isBareChar c = true) :
    c.toNat = 45 ∨ c.toNat = 46 ∨ 48 ≤ c.toNat ∧ c.toNat ≤ 57 ∨ 65 ≤ c.toNat ∧ c.toNat ≤ 90 ∨
      97 ≤ c.toNat ∧ c.toNat ≤ 122 := by
  delta isBareChar Char.isAlpha Char.isUpper Char.isLower at h
  simp only [Char.isDigit, Bool.or_eq_true, Bool.and_eq_true, decide_eq_true_eq, beq_iff_eq,
    ge_iff_le, UInt32.le_iff_toNat_le] at h
  rcases h with (((h | h) | h) | rfl) | rfl
  · exact Or.inr (Or.inr (Or.inr (Or.inl h)))
  · exact Or.inr (Or.inr (Or.inr (Or.inr h)))
  · exact Or.inr (Or.inr (Or.inl h))
  · exact Or.inl rfl
  · exact Or.inr (Or.inl rfl)

/-- What needs no quotes is no blank. -/
theorem not_isBlank_of_isBareChar {c : Char} (h : isBareChar c = true) : isBlank c = false := by
  have := toNat_of_isBareChar h
  simp only [isBlank, Bool.or_eq_false_iff, Bool.and_eq_false_iff, decide_eq_false_iff_not,
    beq_eq_false_iff_ne]
  omega

/-- A bare text is trimmed. -/
theorem trim_of_isBare {t : Text} (h : IsBare t) : trim t = t :=
  trim_of_not_blank fun c hc => not_isBlank_of_isBareChar (h.2 c hc)

/-- A natural number needs no quotes. -/
theorem isBare_ofNat (n : Nat) : IsBare (ofNat n) :=
  ⟨ofNat_ne_nil n, fun _ hc => isBareChar_of_isDigit (isDigit_of_mem_ofNat hc)⟩

/-- Characters that need no quotes make a text that needs none. -/
theorem isBare_cons {c : Char} {t : Text} (hc : isBareChar c = true)
    (ht : ∀ d ∈ t, isBareChar d = true) : IsBare (c :: t) := by
  refine ⟨List.cons_ne_nil c t, fun d hd => ?_⟩
  rcases List.mem_cons.mp hd with rfl | hd
  · exact hc
  · exact ht d hd

/-- A text that needs no quotes can go on with such characters. -/
theorem isBare_append {t u : Text} (ht : IsBare t) (hu : ∀ c ∈ u, isBareChar c = true) :
    IsBare (t ++ u) := by
  refine ⟨by simp [ht.1], fun c hc => ?_⟩
  rcases List.mem_append.mp hc with hc | hc
  · exact ht.2 c hc
  · exact hu c hc

/-- An integer needs no quotes. -/
theorem isBare_ofInt (i : Int) : IsBare (ofInt i) := by
  rw [ofInt]
  split
  · exact isBare_cons rfl (isBare_ofNat _).2
  · exact isBare_ofNat _

end Text

namespace Decimal

/-- Zeros need no quotes. -/
theorem isBareChar_zeros (n : Nat) : ∀ c ∈ zeros n, Text.isBareChar c = true := by
  intro c hc
  rw [List.eq_of_mem_replicate hc]
  rfl

/-- A decimal that is written out needs no quotes, wherever its point stands. -/
theorem isBare_positional (d : Decimal) : Text.IsBare d.positional := by
  have hdigits := Text.isBare_ofNat d.digits
  rw [positional, digitText]
  dsimp only
  split
  · exact Text.isBare_append hdigits (isBareChar_zeros _)
  · split
    · refine ⟨by simp, fun c hc => ?_⟩
      rcases List.mem_append.mp hc with hc | hc
      · exact hdigits.2 c (List.mem_of_mem_take hc)
      rcases List.mem_cons.mp hc with rfl | hc
      · rfl
      · exact hdigits.2 c (List.mem_of_mem_drop hc)
    · refine Text.isBare_cons rfl fun c hc => ?_
      rcases List.mem_cons.mp hc with rfl | hc
      · rfl
      rcases List.mem_append.mp hc with hc | hc
      · exact isBareChar_zeros _ c hc
      · exact hdigits.2 c hc

/-- A decimal with an exponent starts with a digit. -/
theorem head_scientific (plus : Text) (d : Decimal) :
    ∃ c t, d.scientific plus = c :: t ∧ c.isDigit = true := by
  obtain ⟨c, t, hds, hc, -⟩ := Text.head_ofNat d.digits
  rw [scientific, digitText, hds]
  rcases t with _ | ⟨second, rest⟩
  · exact ⟨c, _, rfl, hc⟩
  · exact ⟨c, _, rfl, hc⟩

/-- Only what stands in front of a positive exponent can need quotes. -/
theorem isBareChar_of_mem_scientific {plus : Text} {d : Decimal} {c : Char}
    (hc : c ∈ d.scientific plus) : Text.isBareChar c = true ∨ c ∈ plus := by
  have hpower : ∀ e : Int, c ∈ (if e < 0 then Text.ofInt e else plus ++ Text.ofInt e) →
      Text.isBareChar c = true ∨ c ∈ plus := by
    intro e hc
    split at hc
    · exact Or.inl ((Text.isBare_ofInt e).2 c hc)
    · rcases List.mem_append.mp hc with hc | hc
      · exact Or.inr hc
      · exact Or.inl ((Text.isBare_ofInt e).2 c hc)
  have hdigits := (Text.isBare_ofNat d.digits).2
  rw [scientific, digitText] at hc
  split at hc
  · next first second rest hds =>
    rw [hds] at hdigits
    rcases List.mem_append.mp hc with hc | hc
    · rcases List.mem_cons.mp hc with rfl | hc
      · exact Or.inl (hdigits _ List.mem_cons_self)
      rcases List.mem_cons.mp hc with rfl | hc
      · exact Or.inl rfl
      · exact Or.inl (hdigits c (List.mem_cons_of_mem _ hc))
    · rcases List.mem_cons.mp hc with rfl | hc
      · exact Or.inl rfl
      · exact hpower _ hc
  · rcases List.mem_append.mp hc with hc | hc
    · exact Or.inl (hdigits c hc)
    rcases List.mem_cons.mp hc with rfl | hc
    · exact Or.inl rfl
    · exact hpower _ hc

/-- A decimal with an exponent needs no quotes. -/
theorem isBare_scientific (d : Decimal) : Text.IsBare (d.scientific []) := by
  obtain ⟨c, t, htext, -⟩ := head_scientific [] d
  refine ⟨by rw [htext]; exact List.cons_ne_nil c t, fun c hc => ?_⟩
  exact (isBareChar_of_mem_scientific hc).resolve_right List.not_mem_nil

end Decimal

/-- A number needs no quotes. -/
theorem Binary64.isBare_text (x : Binary64) : Text.IsBare x.text := by
  have hsign : ∀ c ∈ x.signText, Text.isBareChar c = true := by
    intro c hc
    rw [signText] at hc
    split at hc
    · rw [List.mem_singleton.mp hc]
      rfl
    · cases hc
  have hjoin : ∀ {t : Text}, Text.IsBare t → Text.IsBare (x.signText ++ t) := by
    intro t ht
    refine ⟨by simp [ht.1], fun c hc => ?_⟩
    rcases List.mem_append.mp hc with hc | hc
    · exact hsign c hc
    · exact ht.2 c hc
  rw [text]
  split
  · exact hjoin (Decimal.isBare_scientific _)
  · exact hjoin (Decimal.isBare_positional _)

/-! ### Scalars -/

namespace Scalar

/-- The text of a scalar that is no text is bare. -/
theorem isBare_text {s : Scalar} (h : s.kind ≠ .string) : Text.IsBare s.text := by
  cases s with
  | bool b =>
    cases b
    · exact ⟨List.cons_ne_nil _ _, List.all_eq_true.mp rfl⟩
    · exact ⟨List.cons_ne_nil _ _, List.all_eq_true.mp rfl⟩
  | int i => exact Text.isBare_ofInt i.toInt
  | real x => exact x.isBare_text
  | string t => exact absurd rfl h

/-- **The text of a scalar** reads as the scalar. -/
theorem read?_text (s : Scalar) : read? s.kind s.text = some s := by
  cases s with
  | bool b =>
    cases b
    · rfl
    · rfl
  | int i => exact congrArg (Option.map Scalar.int) (Integer.ofText?_text i)
  | real x => exact congrArg (Option.map Scalar.real) x.ofText?_text
  | string t => rfl

/-- The text of an item of a list is a word. -/
theorem isWord_text {s : Scalar} (h : s.isItem = true) :
    s.text ≠ [] ∧ ∀ c ∈ s.text, Text.isBlank c = false := by
  by_cases hk : s.kind = .string
  · cases s with
    | string t =>
      simp only [isItem, Bool.and_eq_true, Bool.not_eq_true', List.isEmpty_eq_false_iff,
        List.any_eq_false] at h
      exact ⟨h.1, fun c hc => by simpa using h.2 c hc⟩
    | _ => cases hk
  · have hbare := isBare_text hk
    exact ⟨hbare.1, fun c hc => Text.not_isBlank_of_isBareChar (hbare.2 c hc)⟩

end Scalar

/-! ### Values -/

namespace ValueType

/-- Items of one kind that can stand in a list are read back from their texts. -/
theorem readItems_text {kind : ScalarKind} : {items : List Scalar} →
    (∀ item ∈ items, item.kind = kind ∧ item.isItem = true) →
      readItems (.array kind) (items.map Scalar.text) = .ok items
  | [], _ => rfl
  | item :: items, h => by
    have hread := item.read?_text
    rw [(h item List.mem_cons_self).1] at hread
    have ih := readItems_text fun i hi => h i (List.mem_cons_of_mem _ hi)
    rw [List.map_cons, readItems, show (ValueType.array kind).kind = kind from rfl, hread, ih]
    rfl

/-- The text of a list has the words that its items are written as. -/
theorem words_text {items : List Scalar} (h : ∀ item ∈ items, item.isItem = true) :
    Text.words (Value.array items).text = items.map Scalar.text := by
  refine Text.words_joinWith ?_
  intro w hw
  obtain ⟨item, hitem, rfl⟩ := List.mem_map.mp hw
  exact Scalar.isWord_text (h item hitem)

/-- **The text of a value** reads as the value. -/
theorem read_text {type : ValueType} {v : Value} (h : v.HasType type) :
    type.read v.text = .ok v := by
  rcases type with kind | kind
  · rcases v with s | items
    · have hkind : s.kind = kind := h
      have hread := s.read?_text
      rw [hkind] at hread
      by_cases hstring : kind = .string
      · subst hstring
        cases s with
        | string t => rfl
        | _ => cases hkind
      · have htrim := Text.trim_of_isBare (Scalar.isBare_text (hkind ▸ hstring))
        rw [← htrim] at hread
        cases kind with
        | string => exact absurd rfl hstring
        | _ =>
          rw [show (Value.scalar s).text = s.text from rfl, read, hread]
          exact fun heq => by cases heq
    · cases h
  · rcases v with s | items
    · cases h
    · rw [read, words_text fun item hitem => (h item hitem).2, readItems_text h]
      rfl

/-- Texts are read as they are. -/
theorem readItems_string (ws : List Text) :
    readItems (.array .string) ws = .ok (ws.map Scalar.string) := by
  induction ws with
  | nil => rfl
  | cons w ws ih =>
    rw [readItems, ih]
    rfl

/-- What a type is relaxed to reads any text. -/
theorem exists_read_relaxed (type : ValueType) (t : Text) : ∃ w, type.relaxed.read t = .ok w := by
  rcases type with kind | kind
  · exact ⟨_, rfl⟩
  · refine ⟨.array ((Text.words t).map Scalar.string), ?_⟩
    rw [relaxed, read, readItems_string]
    rfl

/-- **A text that was kept as texts** is refused again with the same error. -/
theorem read_text_relaxed {type : ValueType} {t : Text} {w : Value}
    (h : type.relaxed.read t = .ok w) : type.read w.text = type.read t := by
  rcases type with kind | kind
  · cases h
    rfl
  · rw [relaxed, read, readItems_string] at h
    cases h
    have hwords : Text.words (Value.array ((Text.words t).map Scalar.string)).text =
        Text.words t := by
      have hitems : ∀ item ∈ (Text.words t).map Scalar.string, item.isItem = true := by
        intro item hitem
        obtain ⟨w, hw, rfl⟩ := List.mem_map.mp hitem
        have hword := Text.mem_words hw
        simp only [Scalar.isItem, Bool.and_eq_true, Bool.not_eq_true', List.isEmpty_eq_false_iff,
          List.any_eq_false]
        exact ⟨hword.1, fun c hc => by simp [hword.2 c hc]⟩
      rw [words_text hitems, List.map_map]
      exact List.map_id (Text.words t)
    rw [read, read, hwords]

end ValueType

end BlockEdit
