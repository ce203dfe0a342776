import BlockEdit.Proofs.Segments

/-!
# Lines, words and ends of texts

Main statements:

* **`Text.pieces_joinWith`**: lines that are put together are the pieces again.
* **`Text.words_joinWith`**: words with spaces between them are the words again.
* **`Text.trim_trim`**: trimming twice is trimming once.
-/

namespace BlockEdit.Text

/-! ### Ends -/

/-- The last character satisfies `p`. -/
def EndsIn (p : Char → Bool) (t : Text) : Prop := ∃ c, t.getLast? = some c ∧ p c = true

section ends

variable {p : Char → Bool}

/-- Nothing is dropped from a text whose last character stays. -/
theorem dropEndWhile_append_singleton (t : Text) {c : Char} (h : p c = false) :
    dropEndWhile p (t ++ [c]) = t ++ [c] := by
  rw [dropEndWhile, List.reverse_append, List.reverse_singleton, List.singleton_append,
    List.dropWhile_cons_of_neg (by rw [h]; exact Bool.false_ne_true), List.reverse_cons,
    List.reverse_reverse]

/-- What `p` holds of goes from the end. -/
theorem dropEndWhile_append_of_all (t : Text) {u : Text} (h : ∀ c ∈ u, p c = true) :
    dropEndWhile p (t ++ u) = dropEndWhile p t := by
  have hu : ∀ c ∈ u.reverse, p c = true := fun c hc => h c (List.mem_reverse.mp hc)
  rw [dropEndWhile, List.reverse_append, List.dropWhile_append_of_pos hu, dropEndWhile]

/-- A text is what is left of it and what was dropped. -/
theorem exists_dropEndWhile (p : Char → Bool) (t : Text) :
    ∃ u, t = dropEndWhile p t ++ u ∧ ∀ c ∈ u, p c = true := by
  refine ⟨(t.reverse.takeWhile p).reverse, ?_, ?_⟩
  · rw [dropEndWhile, ← List.reverse_append, List.takeWhile_append_dropWhile, List.reverse_reverse]
  · intro c hc
    exact List.all_eq_true.mp List.all_takeWhile c (List.mem_reverse.mp hc)

/-- What is left does not end in what is dropped. -/
theorem not_endsIn_dropEndWhile (p : Char → Bool) (t : Text) : ¬ EndsIn p (dropEndWhile p t) := by
  rintro ⟨c, hc, hp⟩
  rw [dropEndWhile, List.getLast?_reverse] at hc
  have := List.head?_dropWhile_not p t.reverse
  rw [hc] at this
  simp [hp] at this

/-- **Nothing is dropped** from a text that does not end in what is dropped. -/
theorem dropEndWhile_eq_self {t : Text} (h : ¬ EndsIn p t) : dropEndWhile p t = t := by
  rcases List.eq_nil_or_concat t with rfl | ⟨u, c, rfl⟩
  · rfl
  · rw [List.concat_eq_append] at h ⊢
    refine dropEndWhile_append_singleton u ?_
    rw [← Bool.not_eq_true]
    exact fun hc => h ⟨c, List.getLast?_concat, hc⟩

/-- A first character that stays protects nothing behind it. -/
theorem dropEndWhile_cons {c : Char} (h : p c = false) (t : Text) :
    dropEndWhile p (c :: t) = c :: dropEndWhile p t := by
  obtain ⟨u, hu, hall⟩ := exists_dropEndWhile p t
  have hmain : dropEndWhile p (c :: t) = dropEndWhile p (c :: dropEndWhile p t) := by
    conv => lhs; rw [hu]
    rw [← List.cons_append, dropEndWhile_append_of_all _ hall]
  rw [hmain]
  refine dropEndWhile_eq_self ?_
  rintro ⟨d, hd, hp⟩
  rw [List.getLast?_cons] at hd
  rcases hl : (dropEndWhile p t).getLast? with _ | e
  · rw [hl, Option.getD_none, Option.some.injEq] at hd
    rw [← hd, h] at hp
    cases hp
  · rw [hl, Option.getD_some, Option.some.injEq] at hd
    exact not_endsIn_dropEndWhile p t ⟨e, hl, hd ▸ hp⟩

/-- What is left after the end was dropped was part of the text. -/
theorem mem_of_mem_dropEndWhile {c : Char} {t : Text} (h : c ∈ dropEndWhile p t) : c ∈ t := by
  obtain ⟨u, hu, -⟩ := exists_dropEndWhile p t
  rw [hu]
  exact List.mem_append_left _ h

end ends

/-! ### Trimming -/

/-- **A text without blanks around it** stays as it is. -/
theorem trim_eq_self {t : Text} (hs : ∀ c, t.head? = some c → isBlank c = false)
    (he : ¬ EndsIn isBlank t) : trim t = t := by
  have hstart : trimStart t = t := by
    rcases t with _ | ⟨c, t⟩
    · rfl
    · exact List.dropWhile_cons_of_neg (by rw [hs c rfl]; exact Bool.false_ne_true)
  rw [trim, hstart, trimEnd, dropEndWhile_eq_self he]

/-- A text without blanks stays as it is. -/
theorem trim_of_not_blank {t : Text} (h : ∀ c ∈ t, isBlank c = false) : trim t = t := by
  refine trim_eq_self (fun c hc => h c (List.mem_of_mem_head? hc)) ?_
  rintro ⟨c, hc, hp⟩
  rw [h c (List.mem_of_mem_getLast? hc)] at hp
  cases hp

/-- **Trimming twice** is trimming once. -/
theorem trim_trim (t : Text) : trim (trim t) = trim t := by
  refine trim_eq_self ?_ (not_endsIn_dropEndWhile _ _)
  intro c hc
  obtain ⟨u, hu, -⟩ := exists_dropEndWhile isBlank (trimStart t)
  have hhead : (trimStart t).head? = some c := by
    rw [hu, List.head?_append, show dropEndWhile isBlank (trimStart t) = trim t from rfl, hc]
    rfl
  have := List.head?_dropWhile_not isBlank t
  rw [show t.dropWhile isBlank = trimStart t from rfl, hhead] at this
  simpa using this

/-- What is left after trimming was part of the text. -/
theorem mem_of_mem_trim {c : Char} {t : Text} (h : c ∈ trim t) : c ∈ t :=
  (List.dropWhile_suffix _).subset (mem_of_mem_dropEndWhile h)

/-! ### Pieces -/

/-- **The pieces of a text with a mark in it** are those before and those after. -/
theorem pieces_append_mark {p : Char → Bool} {a : Text} (ha : ∀ c ∈ a, p c = false) {mark : Char}
    (hm : p mark = true) (b : Text) : pieces p (a ++ mark :: b) = a :: pieces p b := by
  rw [Path.pieces_append_mark hm, pieces_eq_singleton ha, List.singleton_append]

/-- **Lines that are put together** are the pieces again. -/
theorem pieces_joinWith {p : Char → Bool} {mark : Char} (hm : p mark = true) :
    {ts : List Text} → (∀ t ∈ ts, ∀ c ∈ t, p c = false) → ts ≠ [] →
      pieces p (joinWith [mark] ts) = ts
  | [], _, hne => absurd rfl hne
  | [t], h, _ => pieces_eq_singleton (h t List.mem_cons_self)
  | t :: u :: ts, h, _ => by
    have ht := h t List.mem_cons_self
    have ih := pieces_joinWith hm (fun v hv => h v (List.mem_cons_of_mem _ hv))
      (List.cons_ne_nil u ts)
    rw [joinWith, List.append_assoc, List.singleton_append, pieces_append_mark ht hm, ih]

/-- **Words with spaces between them** are the words again. -/
theorem words_joinWith {ws : List Text} (h : ∀ w ∈ ws, w ≠ [] ∧ ∀ c ∈ w, isBlank c = false) :
    words (joinWith [' '] ws) = ws := by
  by_cases hws : ws = []
  · subst hws
    rfl
  · rw [words, pieces_joinWith rfl (fun w hw => (h w hw).2) hws, List.filter_eq_self]
    intro w hw
    simpa using (h w hw).1

/-- What stands before and after a mark makes up the text again. -/
theorem of_splitFirst? {mark : Text} : ∀ {t before after : Text},
    splitFirst? mark t = some (before, after) → before ++ mark ++ after = t
  | [], before, after, h => by
    rw [splitFirst?] at h
    split at h
    · next hmark =>
      cases h
      rw [List.isEmpty_iff.mp hmark]
      rfl
    · cases h
  | c :: t, before, after, h => by
    rw [splitFirst?] at h
    split at h
    · next hpre =>
      cases h
      obtain ⟨rest, hrest⟩ := List.isPrefixOf_iff_prefix.mp hpre
      rw [← hrest, List.drop_left, List.nil_append]
    · obtain ⟨⟨a, b⟩, hsplit, heq⟩ := Option.map_eq_some_iff.mp h
      cases heq
      rw [List.cons_append, List.cons_append, of_splitFirst? hsplit]

end BlockEdit.Text
