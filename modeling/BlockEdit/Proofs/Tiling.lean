import BlockEdit.Proofs.LineEnds
import Mathlib.Tactic.ByContra

/-!
# Tokens tile their text

The spans of the tokens of a text stand in order between its characters, they do not overlap, and
what lies between them are fillers. A span is one token when it stands alone, and nothing longer
that starts where it starts is one. There are no other tokens that do all this, so scanning a text
is finding the tokens that tile it.

Main statements:

* **`Lexeme.scan_eq_singleton`**: when a text is one token.
* **`Lexeme.standsIn_iff`**: a span that is one token alone, and is part of no longer one, is a
  token that is read at its place.
* **`Lexeme.scan_eq_ok_iff_tiles`**: what is scanned are the tokens that tile the text.
-/

namespace BlockEdit.Lexeme

open Text (byteSize slice IsBoundary)
open Token (isFiller next?_eq_some_iff)

variable {source t : Text} {offset : Nat} {lexemes : List Lexeme} {l : Lexeme}

/-- The lexeme takes the character that has `offset` bytes before it. -/
def Covers (l : Lexeme) (offset : Nat) : Prop := l.start ≤ offset ∧ offset < l.stop

/-- The lexemes tile the text. -/
structure Tiles (source : Text) (lexemes : List Lexeme) : Prop where
  /-- No span is empty. -/
  nonempty : ∀ l ∈ lexemes, l.start < l.stop
  /-- Spans start and end between characters. -/
  boundary : ∀ l ∈ lexemes, IsBoundary source l.start ∧ IsBoundary source l.stop
  /-- Each span ends before the next ones start. -/
  apart : lexemes.Pairwise fun first second => first.stop ≤ second.start
  /-- A character that no span covers is a filler. -/
  filler : ∀ before c after, source = before ++ c :: after →
    (∀ l ∈ lexemes, ¬ l.Covers (byteSize before)) → isFiller c = true
  /-- What a span covers is this one token when it stands alone. -/
  alone : ∀ l ∈ lexemes,
    scan (slice l.start l.stop source) = .ok [⟨l.token, 0, l.stop - l.start⟩]
  /-- Nothing longer that starts where a span starts is one token. -/
  longest : ∀ l ∈ lexemes, ∀ stop, l.stop < stop → ∀ token,
    scan (slice l.start stop source) ≠ .ok [⟨token, 0, stop - l.start⟩]

/-! ### One token -/

/-- The scan gives just the tokens that a text has. -/
theorem scan_eq_ok_iff : scan source = .ok lexemes ↔ Scanned 0 source lexemes := by
  rw [← scanFrom_eq_ok_iff, scan]
  rcases scanFrom 0 0 source with fault | found
  · simp [Except.mapError]
  · simp [Except.mapError]

/-- No token starts before the text does. -/
theorem Scanned.le_start (h : Scanned offset t lexemes) : ∀ l ∈ lexemes, offset ≤ l.start := by
  induction h with
  | done => simp
  | filler hc _ ih =>
    intro l hl
    exact Nat.le_of_add_right_le (ih l hl)
  | token hc hn _ ih =>
    intro l hl
    rcases List.mem_cons.mp hl with rfl | hl
    · exact Nat.le_refl _
    · exact Nat.le_of_add_right_le (ih l hl)

/-- A written token is scanned as this token, in front of a text that does not carry it on. -/
theorem scanned_lexeme {token : Token} {rest : Text} (hform : token.WellFormed)
    (hends : token.EndsBefore rest)
    (h : Scanned (offset + byteSize token.lexeme) rest lexemes) :
    Scanned offset (token.lexeme ++ rest)
      (⟨token, offset, offset + byteSize token.lexeme⟩ :: lexemes) := by
  have hnext := next?_eq_some_iff.mpr ⟨rfl, hform, hends⟩
  obtain ⟨c, w, hl⟩ := List.exists_cons_of_ne_nil (Token.lexeme_ne_nil_of_wellFormed hform)
  rw [hl, List.cons_append] at hnext
  rw [show token.lexeme ++ rest = c :: (w ++ rest) by rw [hl, List.cons_append]]
  exact .token (Token.not_isFiller_of_next? hnext) hnext h

/-- A token that is written alone is scanned as itself. -/
theorem scan_lexeme {token : Token} (hform : token.WellFormed) :
    scan token.lexeme = .ok [⟨token, 0, byteSize token.lexeme⟩] := by
  have h := scanned_lexeme hform token.endsBefore_nil (.done (0 + byteSize token.lexeme))
  rwa [List.append_nil, Nat.zero_add, ← scan_eq_ok_iff] at h

/-- **A text that is one token** is written as the token is. -/
theorem scan_eq_singleton {token : Token} {size : Nat} (h : scan t = .ok [⟨token, 0, size⟩])
    (hsize : byteSize t ≤ size) :
    t = token.lexeme ∧ token.WellFormed ∧ size = byteSize t := by
  rw [scan_eq_ok_iff] at h
  cases h with
  | filler hc hrest =>
    have hplace := hrest.le_start _ List.mem_cons_self
    have hpos := Char.utf8Size_pos ‹Char›
    simp only at hplace
    omega
  | @token _ c t rest _ _ hc hn hrest =>
    obtain ⟨happ, hform, -⟩ := next?_eq_some_iff.mp hn
    have hnil : rest = [] := by
      by_contra hne
      have hpos := Text.byteSize_pos hne
      rw [happ, Text.byteSize_append] at hsize
      omega
    rw [hnil, List.append_nil] at happ
    exact ⟨happ, hform, by rw [happ, Nat.zero_add]⟩

/-! ### A token at its place -/

/-- The lexeme stands in the text at its place: it is written there as its token is, and it ends
before what follows. -/
inductive StandsIn (source : Text) : Lexeme → Prop
  | intro {token : Token} {before after : Text} (hsource : source = before ++ (token.lexeme ++ after))
      (hform : token.WellFormed) (hends : token.EndsBefore after) :
      StandsIn source ⟨token, byteSize before, byteSize before + byteSize token.lexeme⟩

/-- Nothing that goes on behind the end of a token is one token. -/
theorem scan_ne_singleton {token other : Token} {after : Text} (hform : token.WellFormed)
    (hends : token.EndsBefore after) (more : Nat) :
    scan (token.lexeme ++ Text.takeBytes (more + 1) after) ≠
      .ok [⟨other, 0, byteSize token.lexeme + (more + 1)⟩] := by
  intro h
  obtain ⟨rest, hrest⟩ := Text.takeBytes_prefix (more + 1) after
  have hsize := Text.byteSize_takeBytes_le (more + 1) after
  generalize Text.takeBytes (more + 1) after = taken at h hrest hsize
  obtain ⟨hlexeme, hother, hall⟩ := scan_eq_singleton h (by rw [Text.byteSize_append]; omega)
  -- The longer text is read as the token, and so it would end where the token ends.
  have hnext := next?_eq_some_iff.mpr ⟨rfl, hform, Token.EndsBefore.cut (hrest ▸ hends)⟩
  have hnext' := next?_eq_some_iff.mpr
    ⟨(List.append_nil other.lexeme).symm, hother, other.endsBefore_nil⟩
  rw [hlexeme, hnext'] at hnext
  obtain rfl : [] = taken := congrArg Prod.snd (Option.some.inj hnext)
  rw [List.append_nil] at hall
  omega

/-- **A token is read at its place** exactly when its span is not empty, lies between characters, is
this token alone and is part of nothing longer that is one token. -/
theorem standsIn_iff {token : Token} {start stop : Nat} : StandsIn source ⟨token, start, stop⟩ ↔
    start < stop ∧ (IsBoundary source start ∧ IsBoundary source stop) ∧
      scan (slice start stop source) = .ok [⟨token, 0, stop - start⟩] ∧
        ∀ further, stop < further → ∀ other,
          scan (slice start further source) ≠ .ok [⟨other, 0, further - start⟩] := by
  constructor
  · rintro @⟨_, before, after, rfl, hform, hends⟩
    have hpos := Text.byteSize_pos (Token.lexeme_ne_nil_of_wellFormed hform)
    refine ⟨by omega, ⟨Text.isBoundary_append _ _, ?_⟩, ?_, fun further hfurther other => ?_⟩
    · rw [← List.append_assoc, ← Text.byteSize_append]
      exact Text.isBoundary_append _ _
    · rw [Text.slice_append, Text.takeBytes_byteSize, Nat.add_sub_cancel_left]
      exact scan_lexeme hform
    · obtain ⟨more, rfl⟩ := Nat.exists_eq_add_of_lt hfurther
      rw [Nat.add_assoc, Nat.add_assoc, Text.slice_append, Text.takeBytes_append,
        Nat.add_sub_cancel_left]
      exact scan_ne_singleton hform hends more
  · rintro ⟨hlt, ⟨hstart, hstop⟩, halone, hlongest⟩
    obtain ⟨before, rest, rfl, rfl⟩ := hstart
    obtain ⟨upTo, after, hsource, rfl⟩ := hstop
    obtain ⟨span, rfl, rfl⟩ := Text.exists_append_of_byteSize_le hsource (Nat.le_of_lt hlt)
    rw [Text.byteSize_append, Text.slice_append, Text.takeBytes_byteSize,
      Nat.add_sub_cancel_left] at halone
    obtain ⟨rfl, hform, -⟩ := scan_eq_singleton halone (Nat.le_refl _)
    rw [Text.byteSize_append] at hlongest ⊢
    refine .intro rfl hform ?_
    by_contra hends
    obtain ⟨c, rest, longer, rfl, hlonger, hlexeme⟩ := Token.exists_longer hform hends
    have hmore := Text.byteSize_append token.lexeme [c]
    have hpos := Text.byteSize_pos (List.cons_ne_nil c [])
    refine hlongest (byteSize before + byteSize longer.lexeme) (by rw [hlexeme]; omega) longer ?_
    rw [List.append_cons, ← hlexeme, Text.slice_append, Text.takeBytes_byteSize,
      Nat.add_sub_cancel_left]
    exact scan_lexeme hlonger

/-- A token takes up room. -/
theorem StandsIn.lt (h : StandsIn source l) : l.start < l.stop := (standsIn_iff.mp h).1

/-- A token starts and ends between characters. -/
theorem StandsIn.boundary (h : StandsIn source l) :
    IsBoundary source l.start ∧ IsBoundary source l.stop :=
  (standsIn_iff.mp h).2.1

/-- A token that stands where a part of the text starts is what this part starts with. -/
theorem StandsIn.exists_rest {front : Text} (h : StandsIn (front ++ t) l)
    (hstart : l.start = byteSize front) :
    ∃ rest, t = l.token.lexeme ++ rest ∧ l.token.WellFormed ∧ l.token.EndsBefore rest ∧
      l.stop = byteSize front + byteSize l.token.lexeme := by
  obtain @⟨token, before, after, hsource, hform, hends⟩ := h
  obtain ⟨rfl, rfl⟩ := Text.append_inj_of_byteSize hsource hstart.symm
  exact ⟨after, rfl, hform, hends, rfl⟩

/-! ### All the tokens of a text -/

/-- The lexemes are laid out over `t`, which has `front` before it. -/
structure Laid (front t : Text) (lexemes : List Lexeme) : Prop where
  /-- Each stands at its place. -/
  stands : ∀ l ∈ lexemes, StandsIn (front ++ t) l
  /-- None starts in front. -/
  behind : ∀ l ∈ lexemes, byteSize front ≤ l.start
  /-- Each ends before the next ones start. -/
  apart : lexemes.Pairwise fun first second => first.stop ≤ second.start
  /-- What they leave out are fillers. -/
  filler : ∀ before c after, t = before ++ c :: after →
    (∀ l ∈ lexemes, ¬ l.Covers (byteSize front + byteSize before)) → isFiller c = true

/-- Laid out over a whole text, tokens tile it. -/
theorem laid_iff_tiles : Laid [] source lexemes ↔ Tiles source lexemes := by
  have hnil : ∀ n, byteSize [] + n = n := Nat.zero_add
  constructor
  · intro h
    have hall : ∀ l ∈ lexemes, _ := fun l hl => standsIn_iff.mp (h.stands l hl)
    refine ⟨fun l hl => (hall l hl).1, fun l hl => (hall l hl).2.1, h.apart, ?_,
      fun l hl => (hall l hl).2.2.1, fun l hl => (hall l hl).2.2.2⟩
    intro before c after hsource hnot
    refine h.filler before c after hsource fun l hl => ?_
    rw [hnil]
    exact hnot l hl
  · intro h
    refine ⟨fun l hl => ?_, fun l hl => Nat.zero_le _, h.apart, ?_⟩
    · exact standsIn_iff.mpr ⟨h.nonempty l hl, h.boundary l hl, h.alone l hl, h.longest l hl⟩
    · intro before c after hsource hnot
      refine h.filler before c after hsource fun l hl => ?_
      rw [← hnil (byteSize before)]
      exact hnot l hl

/-- Behind a filler the same lexemes are laid out. -/
theorem laid_filler_iff {front : Text} {c : Char} (hc : isFiller c = true) :
    Laid front (c :: t) lexemes ↔ Laid (front ++ [c]) t lexemes := by
  have hsize : byteSize (front ++ [c]) = byteSize front + c.utf8Size := Text.byteSize_append _ _
  constructor
  · intro h
    refine ⟨fun l hl => ?_, fun l hl => ?_, h.apart, fun before d after ht hnot => ?_⟩
    · rw [← List.append_cons]
      exact h.stands l hl
    · -- A token that started at the filler would start with it.
      have hne : l.start ≠ byteSize front := by
        intro hstart
        obtain ⟨rest, ht, hform, hends, -⟩ := (h.stands l hl).exists_rest hstart
        have hread := Token.not_isFiller_of_next? (next?_eq_some_iff.mpr ⟨ht, hform, hends⟩)
        rw [hc] at hread
        cases hread
      have hle := h.behind l hl
      exact (h.stands l hl).boundary.1.next_le (by omega)
    · refine h.filler (c :: before) d after (by rw [ht, List.cons_append]) fun l hl => ?_
      have hcover := hnot l hl
      rwa [hsize, Nat.add_assoc] at hcover
  · intro h
    refine ⟨fun l hl => ?_, fun l hl => ?_, h.apart, fun before d after ht hnot => ?_⟩
    · rw [List.append_cons]
      exact h.stands l hl
    · have hle := h.behind l hl
      omega
    · rcases before with _ | ⟨e, before⟩
      · rwa [(List.cons.inj ht).1] at hc
      · obtain ⟨rfl, hrest⟩ := List.cons.inj ht
        refine h.filler before d after hrest fun l hl => ?_
        rw [hsize, Nat.add_assoc]
        exact hnot l hl

/-- Behind a token the other lexemes are laid out. -/
theorem laid_token_iff {front rest : Text} {token : Token} (hform : token.WellFormed)
    (hends : token.EndsBefore rest) :
    Laid front (token.lexeme ++ rest)
      (⟨token, byteSize front, byteSize front + byteSize token.lexeme⟩ :: lexemes) ↔
    Laid (front ++ token.lexeme) rest lexemes := by
  have hsize := Text.byteSize_append front token.lexeme
  constructor
  · intro h
    obtain ⟨hlater, hmore⟩ := List.pairwise_cons.mp h.apart
    refine ⟨fun l hl => ?_, fun l hl => ?_, hmore, fun before c after hrest hnot => ?_⟩
    · rw [List.append_assoc]
      exact h.stands l (List.mem_cons_of_mem _ hl)
    · rw [hsize]
      exact hlater l hl
    · refine h.filler (token.lexeme ++ before) c after (by simp [hrest]) fun l hl => ?_
      rw [Text.byteSize_append, ← Nat.add_assoc, ← hsize]
      rcases List.mem_cons.mp hl with rfl | hl
      · simp [Covers, hsize]
      · exact hnot l hl
  · intro h
    refine ⟨?_, ?_, .cons (fun l hl => ?_) h.apart, fun before c after ht hnot => ?_⟩
    · rw [List.forall_mem_cons]
      refine ⟨.intro rfl hform hends, fun l hl => ?_⟩
      rw [← List.append_assoc]
      exact h.stands l hl
    · rw [List.forall_mem_cons]
      refine ⟨Nat.le_refl _, fun l hl => ?_⟩
      have hle := h.behind l hl
      omega
    · rw [← hsize]
      exact h.behind l hl
    · -- The character is not in the token, so it stands behind it.
      have hhead := hnot _ List.mem_cons_self
      simp only [Covers, not_and, Nat.not_lt, Nat.add_le_add_iff_left] at hhead
      obtain ⟨more, rfl, hrest⟩ :=
        Text.exists_append_of_byteSize_le ht (hhead (Nat.le_add_right _ _))
      refine h.filler more c after hrest fun l hl => ?_
      rw [hsize, Nat.add_assoc, ← Text.byteSize_append]
      exact hnot l (List.mem_cons_of_mem _ hl)

/-- Nothing is laid out over an empty text. -/
theorem Laid.eq_nil {front : Text} (h : Laid front [] lexemes) : lexemes = [] := by
  refine List.eq_nil_iff_forall_not_mem.mpr fun l hl => ?_
  have hlt := (h.stands l hl).lt
  have hstart := h.behind l hl
  have hstop := (h.stands l hl).boundary.2.le
  rw [List.append_nil] at hstop
  omega

/-- Where no token starts, a text starts with a filler. -/
theorem Laid.starts_with_filler {front : Text} {c : Char} (h : Laid front (c :: t) lexemes)
    (hnot : ∀ l ∈ lexemes, l.start ≠ byteSize front) : isFiller c = true := by
  refine h.filler [] c t rfl fun l hl hcovers => hnot l hl ?_
  exact Nat.le_antisymm hcovers.1 (h.behind l hl)

/-- The token that starts where the text starts is the first one. -/
theorem Laid.exists_first {front : Text} (h : Laid front t lexemes) (hl : l ∈ lexemes)
    (hstart : l.start = byteSize front) : ∃ more, lexemes = l :: more := by
  rcases lexemes with _ | ⟨first, more⟩
  · cases hl
  rcases List.mem_cons.mp hl with rfl | hmore
  · exact ⟨more, rfl⟩
  · have hlt := (h.stands first List.mem_cons_self).lt
    have hle := h.behind first List.mem_cons_self
    have hlater := (List.pairwise_cons.mp h.apart).1 l hmore
    omega

/-- The tokens that are scanned are laid out over the text. -/
theorem Scanned.laid (h : Scanned offset t lexemes) :
    ∀ front, byteSize front = offset → Laid front t lexemes := by
  induction h with
  | done offset =>
    rintro front -
    exact ⟨by simp, by simp, .nil, by simp⟩
  | filler hc _ ih =>
    rintro front rfl
    exact (laid_filler_iff hc).mpr (ih _ (Text.byteSize_append _ _))
  | token hc hn _ ih =>
    rintro front rfl
    obtain ⟨happ, hform, hends⟩ := next?_eq_some_iff.mp hn
    rw [happ]
    exact (laid_token_iff hform hends).mpr (ih _ (Text.byteSize_append _ _))

/-- Tokens that are laid out over a text are scanned from it, because each ends before what follows
and only fillers are left between them. -/
theorem Laid.scanned {front : Text} (h : Laid front t lexemes) :
    Scanned (byteSize front) t lexemes := by
  induction hn : t.length using Nat.strongRecOn generalizing front t lexemes with
  | ind n ih =>
  subst hn
  by_cases hfirst : ∃ l ∈ lexemes, l.start = byteSize front
  · obtain ⟨l, hl, hstart⟩ := hfirst
    obtain ⟨more, rfl⟩ := h.exists_first hl hstart
    obtain ⟨rest, rfl, hform, hends, hstop⟩ := (h.stands l hl).exists_rest hstart
    obtain ⟨token, start, stop⟩ := l
    dsimp only at hform hends hstart hstop h ⊢
    subst hstart hstop
    have hlength := List.length_pos_iff.mpr (Token.lexeme_ne_nil_of_wellFormed hform)
    have hmore := ih rest.length (by simp; omega) ((laid_token_iff hform hends).mp h) rfl
    rw [Text.byteSize_append] at hmore
    exact scanned_lexeme hform hends hmore
  · have hnot : ∀ l ∈ lexemes, l.start ≠ byteSize front :=
      fun l hl hstart => hfirst ⟨l, hl, hstart⟩
    rcases t with _ | ⟨c, t⟩
    · rw [h.eq_nil]
      exact .done _
    · have hc := h.starts_with_filler hnot
      have hmore := ih t.length (Nat.lt_succ_self _) ((laid_filler_iff hc).mp h) rfl
      rw [Text.byteSize_append] at hmore
      exact .filler hc hmore

/-- **What is scanned** are the tokens that tile the text. Their spans are not empty, lie between
characters and stand in order without overlapping; all that they leave out are fillers; and each
span is this one token when it stands alone, while nothing longer that starts there is one token.
No other tokens tile the text. -/
theorem scan_eq_ok_iff_tiles : scan source = .ok lexemes ↔ Tiles source lexemes := by
  rw [scan_eq_ok_iff, ← laid_iff_tiles]
  exact ⟨fun h => h.laid [] rfl, fun h => h.scanned⟩

/-- Tokens can stand side by side, and a word that is cut in two is no longer tiled. -/
theorem scan_eq_ok_iff_tiles_sample :
    Tiles "é='ü'[A] #c".toList [⟨.word ['é'], 0, 2⟩, ⟨.assign, 2, 3⟩, ⟨.singleQuoted ['ü'], 3, 7⟩,
        ⟨.header ['A'], 7, 10⟩, ⟨.comment ['c'], 11, 13⟩] ∧
      ¬ Tiles "ab".toList [⟨.word ['a'], 0, 1⟩, ⟨.word ['b'], 1, 2⟩] :=
  ⟨scan_eq_ok_iff_tiles.mp (by decide), fun h => absurd (scan_eq_ok_iff_tiles.mpr h) (by decide)⟩

end BlockEdit.Lexeme
