import BlockEdit.Proofs.Named
import BlockEdit.Proofs.Offers
import BlockEdit.Proofs.Subpaths
import BlockEdit.Schema.Json
import Mathlib.Data.List.Forall2

/-!
# The patterns of a catalog

The keys of a catalog are patterns: a segment of a key stands for itself, a `*` for any name. A
look-up walks down the names of a path, tries at each the keys that have this name before those that
leave it open, and goes back when the first way leads to nothing. What it finds can be said without
the walk: it is the schema of the one matching key that is closer to the path than every other one.

The children that a catalog declares are found in another way, by comparing the whole of each key.
Both agree on what matches.

Main statements:

* **`Catalog.best?_eq_none_iff`**, **`Catalog.closest_of_best?`**: what the walk finds.
* **`Catalog.mem_childrenOf_iff`**: what the comparison of whole keys finds.
* **`Catalog.lookup_eq_wildcard`**: a name that no key has in its place is found like the wildcard.
* **`Catalog.Made.looksUp`**: both, for every catalog that was made entry by entry.
-/

namespace BlockEdit

namespace Catalog

/-- The segments of a pattern match the names, one by one. -/
def Fits (segments names : List Text) : Prop :=
  List.Forall₂ (fun s n => s = n ∨ s = Path.wildcard) segments names

/-- The first pattern has the name itself in the first segment in which it differs from the second
one, which has the wildcard there. -/
def Closer (segments others : List Text) : Prop :=
  ∃ shared name rest rest', segments = shared ++ name :: rest ∧
    others = shared ++ Path.wildcard :: rest' ∧ name ≠ Path.wildcard

/-- A key of a catalog matches a path. -/
def Matches (key path : Text) : Prop := Fits (Path.segments key) (Path.segments path)

/-- A key of the catalog, with its schema, that matches a path and is closer to it than every other
key that does. -/
def Closest (c : Catalog) (path key : Text) (schema : BlockSchema) : Prop :=
  (key, schema) ∈ c.entries ∧ Matches key path ∧
    ∀ other ∈ Named.names c.entries, Matches other path → other ≠ key →
      Closer (Path.segments key) (Path.segments other)

/-- A key of a catalog declares a child of a path: its last segment is this name, and the others
match the path. -/
def Declares (path key name : Text) : Prop :=
  ∃ front, Path.segments key = front ++ [name] ∧ name ≠ Path.wildcard ∧
    Fits front (Path.segments path)

/-- A catalog that was made by adding entries to the one without any. -/
inductive Made : Catalog → Prop
  | empty : Made empty
  | insert {c d : Catalog} {path : Text} {schema : BlockSchema} (hc : Made c)
    (h : c.insert path schema = .ok d) : Made d

/-- No segment of a key is empty: behind the slash that it starts with, the key has no further
slashes at its start or end and no two in a row. -/
def NoEmptySegment (c : Catalog) : Prop :=
  ∀ key ∈ Named.names c.entries, [] ∉ Text.pieces Path.isSlash (key.drop 1)

instance (c : Catalog) : Decidable c.NoEmptySegment :=
  inferInstanceAs (Decidable (∀ key ∈ Named.names c.entries,
    [] ∉ Text.pieces Path.isSlash (key.drop 1)))

/-- What a look-up at a path finds, and which children the catalog declares there. -/
structure LooksUp (c : Catalog) (path : Text) : Prop where
  /-- Nothing is found for the root, nor where no key matches. -/
  none_iff : c.lookup path = none ↔
    Path.segments path = [] ∨ ∀ key ∈ Named.names c.entries, ¬ Matches key path
  /-- Otherwise it is the schema of the closest key. -/
  some_iff : ∀ schema, c.lookup path = some schema ↔ ∃ key, c.Closest path key schema
  /-- No child is declared twice. -/
  nodup : (c.childrenOf path).Nodup
  /-- The children are those that some key declares. -/
  mem_iff : ∀ name, name ∈ c.childrenOf path ↔
    ∃ key ∈ Named.names c.entries, Declares path key name
  /-- They are in the order of the first entries that declare them. -/
  order : (c.childrenOf path).Pairwise fun first second => ∃ front back,
    c.entries = front ++ back ∧ (∃ key ∈ Named.names front, Declares path key first) ∧
      ∀ key ∈ Named.names front, ¬ Declares path key second
  /-- Each of them has a schema. -/
  found : ∀ name ∈ c.childrenOf path, (c.lookup (Path.join path name)).isSome

/-! ### Matching -/

/-- Only a pattern without segments matches no names. -/
theorem fits_nil_iff {segments : List Text} : Fits segments [] ↔ segments = [] :=
  List.forall₂_nil_right_iff

/-- The first segment matches the first name, itself or as the wildcard, and the others the rest. -/
theorem fits_cons_iff {segments names : List Text} {name : Text} :
    Fits segments (name :: names) ↔
      ∃ s rest, segments = s :: rest ∧ (s = name ∨ s = Path.wildcard) ∧ Fits rest names := by
  rw [Fits, List.forall₂_cons_right_iff]
  constructor
  · rintro ⟨s, rest, hs, hrest, rfl⟩
    exact ⟨s, rest, rfl, hs, hrest⟩
  · rintro ⟨s, rest, rfl, hs, hrest⟩
    exact ⟨s, rest, hs, hrest, rfl⟩

/-- Names match themselves. -/
theorem fits_self (names : List Text) : Fits names names :=
  List.forall₂_same.mpr fun _ _ => Or.inl rfl

/-- A name behind both the pattern and the names matches itself. -/
theorem Fits.concat {segments names : List Text} (h : Fits segments names) (name : Text) :
    Fits (segments ++ [name]) (names ++ [name]) :=
  List.rel_append h (fits_self [name])

/-- Matching is decided segment by segment. -/
theorem segmentsMatch_iff : ∀ {segments names : List Text},
    segmentsMatch segments names = true ↔ Fits segments names
  | [], [] => iff_of_true rfl List.Forall₂.nil
  | [], _ :: _ => iff_of_false Bool.false_ne_true fun h => by cases h
  | _ :: _, [] => iff_of_false Bool.false_ne_true fun h => by cases h
  | s :: segments, n :: names => by
    rw [segmentsMatch, Bool.and_eq_true, segmentsMatch_iff, Bool.or_eq_true, decide_eq_true_iff,
      decide_eq_true_iff, Fits, Fits, List.forall₂_cons]

/-- A segment in front of both does not matter to which pattern is closer. -/
theorem Closer.cons {segments others : List Text} (h : Closer segments others) (s : Text) :
    Closer (s :: segments) (s :: others) := by
  obtain ⟨shared, name, rest, rest', rfl, rfl, hname⟩ := h
  exact ⟨s :: shared, name, rest, rest', rfl, rfl, hname⟩

/-- Of two patterns only one is closer. -/
theorem Closer.asymm {segments others : List Text} (h : Closer segments others) :
    ¬ Closer others segments := by
  obtain ⟨shared, name, rest, rest', rfl, rfl, hname⟩ := h
  rintro ⟨shared', name', back, back', hothers, hsegments, hname'⟩
  induction shared generalizing shared' with
  | nil =>
    cases shared' with
    | nil =>
      cases hothers
      exact hname' rfl
    | cons s shared' =>
      rw [List.nil_append, List.cons_append] at hothers hsegments
      exact hname ((List.cons.inj hsegments).1.trans (List.cons.inj hothers).1.symm)
  | cons s shared ih =>
    cases shared' with
    | nil =>
      rw [List.nil_append, List.cons_append] at hothers hsegments
      exact hname' ((List.cons.inj hothers).1.symm.trans (List.cons.inj hsegments).1)
    | cons s' shared' =>
      exact ih shared' (List.cons.inj hothers).2 (List.cons.inj hsegments).2

/-- The names themselves are closer than every other pattern that matches them. -/
theorem closer_of_fits : ∀ {others names : List Text}, Fits others names → others ≠ names →
    Closer names others
  | _, [], h, hne => absurd (fits_nil_iff.mp h) hne
  | _, name :: names, h, hne => by
    obtain ⟨s, rest, rfl, hs, hrest⟩ := fits_cons_iff.mp h
    by_cases heq : s = name
    · subst heq
      exact (closer_of_fits hrest fun hnames => hne (hnames ▸ rfl)).cons s
    · obtain rfl := hs.resolve_left heq
      exact ⟨[], name, names, rest, rfl, rfl, fun hname => heq hname.symm⟩

/-! ### The walk down the names -/

section walk

variable {patterns : List (List Text × BlockSchema)} {schema : BlockSchema}

/-- What is left of patterns under a name are the patterns that start with it, without it. -/
theorem mem_below_iff {name : Text} {rest : List Text} :
    (rest, schema) ∈ below name patterns ↔ (name :: rest, schema) ∈ patterns := by
  refine ⟨mem_of_mem_below, fun h => ?_⟩
  exact List.mem_filterMap.mpr ⟨(name :: rest, schema), h, if_pos rfl⟩

/-- **The walk finds nothing** just when no pattern matches. -/
theorem best?_eq_none_iff : ∀ {names : List Text} {patterns : List (List Text × BlockSchema)},
    best? names patterns = none ↔ ∀ pattern ∈ patterns, ¬ Fits pattern.1 names
  | [], patterns => by
    rw [best?, Option.map_eq_none_iff, List.find?_eq_none]
    exact forall₂_congr fun pattern _ => by rw [fits_nil_iff, List.isEmpty_iff]
  | name :: names, patterns => by
    -- A pattern that matches goes on below the name itself or below the wildcard.
    have hbelow : (∀ pattern ∈ patterns, ¬ Fits pattern.1 (name :: names)) ↔
        best? names (below name patterns) = none ∧
          best? names (below Path.wildcard patterns) = none := by
      rw [best?_eq_none_iff, best?_eq_none_iff]
      constructor
      · intro h
        constructor
        · rintro ⟨rest, schema⟩ hmem hfits
          exact h _ (mem_below_iff.mp hmem) (fits_cons_iff.mpr ⟨_, rest, rfl, Or.inl rfl, hfits⟩)
        · rintro ⟨rest, schema⟩ hmem hfits
          exact h _ (mem_below_iff.mp hmem) (fits_cons_iff.mpr ⟨_, rest, rfl, Or.inr rfl, hfits⟩)
      · rintro ⟨hname, hwild⟩ ⟨segments, schema⟩ hmem hfits
        obtain ⟨s, rest, rfl, rfl | rfl, hrest⟩ := fits_cons_iff.mp hfits
        · exact hname (rest, schema) (mem_below_iff.mpr hmem) hrest
        · exact hwild (rest, schema) (mem_below_iff.mpr hmem) hrest
    rw [hbelow, best?]
    split
    · next hempty =>
      rw [List.isEmpty_iff.mp hempty]
      have hnothing : best? names [] = none := best?_eq_none_iff.mpr (List.forall_mem_nil _)
      exact iff_of_true rfl ⟨hnothing, hnothing⟩
    · split
      · next hfound => exact iff_of_false (Option.some_ne_none _) fun h => by rw [hfound] at h; cases h.1
      · next hnone =>
        split
        · next hwild => exact iff_of_true rfl ⟨hnone, hwild ▸ hnone⟩
        · rw [and_iff_right hnone]

/-- **What the walk finds** is the schema of a pattern that matches and is closer than every other
one that does. -/
theorem closest_of_best? : ∀ {names : List Text} {patterns : List (List Text × BlockSchema)},
    best? names patterns = some schema → ∃ segments, (segments, schema) ∈ patterns ∧
      Fits segments names ∧ ∀ pattern ∈ patterns, Fits pattern.1 names → pattern.1 ≠ segments →
        Closer segments pattern.1
  | [], patterns, h => by
    rw [best?] at h
    obtain ⟨⟨segments, s⟩, hfind, rfl⟩ := Option.map_eq_some_iff.mp h
    have hempty := List.find?_some hfind
    obtain rfl : segments = [] := List.isEmpty_iff.mp hempty
    exact ⟨[], List.mem_of_find?_eq_some hfind, List.Forall₂.nil,
      fun pattern _ hfits hne => absurd (fits_nil_iff.mp hfits) hne⟩
  | name :: names, patterns, h => by
    rw [best?] at h
    split at h
    · cases h
    split at h
    · next found hfound =>
      cases h
      obtain ⟨segments, hmem, hfits, hclosest⟩ := closest_of_best? hfound
      refine ⟨name :: segments, mem_below_iff.mp hmem,
        fits_cons_iff.mpr ⟨name, segments, rfl, Or.inl rfl, hfits⟩, ?_⟩
      rintro ⟨others, s⟩ hother hfits hne
      obtain ⟨o, rest, rfl, ho, hrest⟩ := fits_cons_iff.mp hfits
      by_cases heq : o = name
      · subst heq
        exact (hclosest (rest, s) (mem_below_iff.mpr hother) hrest fun hsame =>
          hne (congrArg (o :: ·) hsame)).cons o
      · obtain rfl := ho.resolve_left heq
        exact ⟨[], name, segments, rest, rfl, rfl, fun hname => heq hname.symm⟩
    · next hnone =>
      split at h
      · cases h
      · obtain ⟨segments, hmem, hfits, hclosest⟩ := closest_of_best? h
        refine ⟨Path.wildcard :: segments, mem_below_iff.mp hmem,
          fits_cons_iff.mpr ⟨_, segments, rfl, Or.inr rfl, hfits⟩, ?_⟩
        rintro ⟨others, s⟩ hother hfits hne
        obtain ⟨o, rest, rfl, rfl | rfl, hrest⟩ := fits_cons_iff.mp hfits
        · -- No pattern that has the name itself matches.
          exact absurd hrest (best?_eq_none_iff.mp hnone (rest, s) (mem_below_iff.mpr hother))
        · exact (hclosest (rest, s) (mem_below_iff.mpr hother) hrest fun hsame =>
            hne (congrArg (Path.wildcard :: ·) hsame)).cons _

/-! ### Names that no pattern has -/

/-- The first pattern of these names, below a name that stands before them. -/
theorem find?_below (name : Text) (names : List Text) :
    ∀ patterns : List (List Text × BlockSchema),
      (below name patterns).find? (fun p => decide (p.1 = names)) =
        (patterns.find? fun p => decide (p.1 = name :: names)).map fun p => (names, p.2)
  | [] => rfl
  | ([], schema) :: patterns => by
    rw [show below name (([], schema) :: patterns) = below name patterns from rfl,
      find?_below name names patterns, List.find?_cons_of_neg (by simp)]
  | (first :: rest, schema) :: patterns => by
    have ih := find?_below name names patterns
    by_cases hfirst : first = name
    · have hbelow : below name ((first :: rest, schema) :: patterns) =
          (rest, schema) :: below name patterns := by simp [below, hfirst]
      by_cases hrest : rest = names
      · rw [hbelow, List.find?_cons_of_pos (by simp [hrest]),
          List.find?_cons_of_pos (by simp [hfirst, hrest]), hrest]
        rfl
      · rw [hbelow, List.find?_cons_of_neg (by simp [hrest]), ih,
          List.find?_cons_of_neg (by simp [hrest])]
    · have hbelow : below name ((first :: rest, schema) :: patterns) = below name patterns := by
        simp [below, hfirst]
      rw [hbelow, ih, List.find?_cons_of_neg (by simp [hfirst])]

/-- **A pattern that is made of the names themselves** is what the walk finds, the first of several
ones. -/
theorem best?_of_find? : ∀ {names : List Text} {patterns : List (List Text × BlockSchema)}
    {pattern : List Text × BlockSchema},
    patterns.find? (fun p => decide (p.1 = names)) = some pattern →
      best? names patterns = some pattern.2
  | [], patterns, pattern, h => by
    have hsame : (fun p : List Text × BlockSchema => p.1.isEmpty) =
        fun p => decide (p.1 = []) := by
      funext p
      rw [Bool.eq_iff_iff, List.isEmpty_iff, decide_eq_true_iff]
    rw [best?, hsame, h]
    rfl
  | name :: names, patterns, pattern, h => by
    have hbelow := find?_below name names patterns
    rw [h, Option.map_some] at hbelow
    have hne : ¬ patterns.isEmpty = true := by
      intro hempty
      rw [List.isEmpty_iff.mp hempty] at h
      cases h
    rw [best?, if_neg hne, best?_of_find? hbelow]

/-- **A name that no pattern has** in its place, between names that match, is found like the
wildcard. -/
theorem best?_eq_wildcard {name : Text} {rest : List Text} : ∀ {names : List Text}
    {patterns : List (List Text × BlockSchema)},
    (∀ pattern ∈ patterns, ∀ front back, pattern.1 = front ++ name :: back → Fits front names →
      ¬ Fits back rest) →
      best? (names ++ name :: rest) patterns = best? (names ++ Path.wildcard :: rest) patterns
  | [], patterns, h => by
    have hnone : best? rest (below name patterns) = none := by
      refine best?_eq_none_iff.mpr ?_
      rintro ⟨back, schema⟩ hmem
      exact h _ (mem_below_iff.mp hmem) [] back rfl .nil
    rw [List.nil_append, List.nil_append, best?, best?]
    by_cases hw : name = Path.wildcard
    · rw [hw]
    · rw [hnone, if_neg hw, if_pos rfl]
      rcases best? rest (below Path.wildcard patterns) with _ | schema <;> rfl
  | n :: names, patterns, h => by
    have hdeeper : ∀ s, s = n ∨ s = Path.wildcard → ∀ pattern ∈ below s patterns, ∀ front back,
        pattern.1 = front ++ name :: back → Fits front names → ¬ Fits back rest := by
      rintro s hs ⟨_, schema⟩ hmem front back rfl hfits
      exact h _ (mem_below_iff.mp hmem) (s :: front) back rfl (.cons hs hfits)
    rw [List.cons_append, List.cons_append, best?, best?,
      best?_eq_wildcard (hdeeper n (Or.inl rfl)), best?_eq_wildcard (hdeeper _ (Or.inr rfl))]

end walk

/-! ### The keys of a catalog -/

section keys

variable {c d : Catalog} {path key : Text}

/-- A path that is taken starts with a slash, and its entry is put in without the slashes at its
end. -/
theorem insert_eq_ok {schema : BlockSchema} (h : c.insert path schema = .ok d) :
    path.head? = some '/' ∧ d = ⟨Named.put (Path.trimSlashes path, schema) c.entries⟩ := by
  rw [Catalog.insert] at h
  split at h
  · cases h
  · next hpath =>
    cases h
    rw [not_or, not_not] at hpath
    exact ⟨hpath.1, rfl⟩

/-- No key is in a catalog twice. -/
theorem Made.nodup (h : Made c) : (Named.names c.entries).Nodup := by
  induction h with
  | empty => exact List.nodup_nil
  | insert hc h ih =>
    obtain ⟨-, rfl⟩ := insert_eq_ok h
    exact Named.nodup_put ih

/-- A key starts with a slash, unless it was made of nothing but slashes. -/
theorem Made.slash (h : Made c) (hkey : key ∈ Named.names c.entries) (hne : key ≠ []) :
    ∃ t, key = '/' :: t := by
  induction h with
  | empty => cases hkey
  | @insert c d path schema hc h ih =>
    obtain ⟨hhead, rfl⟩ := insert_eq_ok h
    rcases Named.mem_names_put.mp hkey with rfl | hold
    · obtain ⟨rest, hrest, -⟩ := Text.exists_dropEndWhile Path.isSlash path
      obtain ⟨x, t, ht⟩ := List.exists_cons_of_ne_nil hne
      rw [hrest, show Text.dropEndWhile Path.isSlash path = x :: t from ht] at hhead
      exact ⟨t, ht.trans (by rw [Option.some.inj hhead])⟩
    · exact ih hold

/-- A catalog stays made when entries are added to it. -/
theorem Made.of_insertAll (hc : Made c) : ∀ {entries : List (Text × BlockSchema)},
    c.insertAll entries = .ok d → Made d := by
  intro entries
  induction entries generalizing c with
  | nil =>
    intro h
    cases h
    exact hc
  | cons entry entries ih =>
    intro h
    obtain ⟨path, schema⟩ := entry
    rw [Catalog.insertAll] at h
    split at h
    · next hinsert => exact ih (hc.insert hinsert) h
    · cases h

/-- **A catalog that is read** from a text was made entry by entry. -/
theorem made_of_ofText {t : Text} (h : ofText t = .ok c) : Made c := by
  rw [ofText] at h
  split at h
  · cases h
  · rw [ofJson] at h
    split at h
    · cases h
    · exact Made.empty.of_insertAll h

/-- Behind the slash that a key starts with, its segments stand with one slash between any two. -/
theorem ofSegments_eq_joinWith : ∀ {names : List Text}, names ≠ [] →
    Path.ofSegments names = '/' :: Text.joinWith ['/'] names
  | [], h => absurd rfl h
  | [name], _ => by rw [Path.ofSegments_cons, Text.joinWith]; exact List.append_nil _
  | name :: next :: names, _ => by
    rw [Path.ofSegments_cons, ofSegments_eq_joinWith (List.cons_ne_nil next names), Text.joinWith,
      List.append_assoc]
    rfl

/-- **A key without empty segments** is written from its segments, and there is one. -/
theorem Made.ofSegments_key (h : Made c) (hc : c.NoEmptySegment)
    (hkey : key ∈ Named.names c.entries) :
    Path.ofSegments (Path.segments key) = key ∧ Path.segments key ≠ [] := by
  have hfull := hc key hkey
  obtain ⟨t, rfl⟩ := h.slash hkey fun hnil => by
    subst hnil
    exact hfull List.mem_cons_self
  rw [List.drop_succ_cons, List.drop_zero] at hfull
  have hsegments : Path.segments ('/' :: t) = Text.pieces Path.isSlash t := by
    rw [Path.segments_slash, Path.segments, List.filter_eq_self]
    intro piece hpiece
    rw [Bool.not_eq_true', List.isEmpty_eq_false_iff]
    exact fun hnil => hfull (hnil ▸ hpiece)
  have hne : Text.pieces Path.isSlash t ≠ [] := Text.pieces_ne_nil _ t
  rw [hsegments]
  refine ⟨?_, hne⟩
  rw [ofSegments_eq_joinWith hne]
  exact congrArg _ (Text.intercalate_pieces '/' t)

/-- The patterns are the segments of the keys. -/
theorem Made.mem_patterns_iff (h : Made c) (hc : c.NoEmptySegment) {segments : List Text}
    {schema : BlockSchema} : (segments, schema) ∈ c.patterns ↔
      ∃ key, (key, schema) ∈ c.entries ∧ Path.segments key = segments := by
  rw [patterns, List.mem_filterMap]
  constructor
  · rintro ⟨⟨key, s⟩, hmem, hif⟩
    dsimp only at hif
    split at hif
    · cases hif
      exact ⟨key, hmem, rfl⟩
    · cases hif
  · rintro ⟨key, hmem, rfl⟩
    exact ⟨(key, schema), hmem, if_pos (h.ofSegments_key hc (Named.name_mem_names hmem)).1⟩

/-- Keys with the same segments are the same. -/
theorem Made.eq_of_segments (h : Made c) (hc : c.NoEmptySegment) {other : Text}
    (hkey : key ∈ Named.names c.entries) (hother : other ∈ Named.names c.entries)
    (heq : Path.segments key = Path.segments other) : key = other := by
  rw [← (h.ofSegments_key hc hkey).1, heq, (h.ofSegments_key hc hother).1]

/-- No key matches the root. -/
theorem Made.not_matches_root (h : Made c) (hc : c.NoEmptySegment)
    (hkey : key ∈ Named.names c.entries) (hroot : Path.segments path = []) :
    ¬ Matches key path := by
  rw [Matches, hroot, fits_nil_iff]
  exact (h.ofSegments_key hc hkey).2

end keys

/-! ### Look-ups -/

section lookups

variable {c : Catalog} {path key : Text} {schema : BlockSchema}

/-- There is no more than one closest key. -/
theorem Closest.eq (h : Made c) {other : Text} {schema' : BlockSchema}
    (hkey : c.Closest path key schema) (hother : c.Closest path other schema') :
    schema = schema' := by
  have heq : other = key := by
    by_contra hne
    exact (hkey.2.2 other (Named.name_mem_names hother.1) hother.2.1 hne).asymm
      (hother.2.2 key (Named.name_mem_names hkey.1) hkey.2.1 fun hsame => hne hsame.symm)
  subst heq
  have hfound := Named.find?_of_mem h.nodup hkey.1
  have hfound' := Named.find?_of_mem h.nodup hother.1
  exact congrArg Prod.snd (Option.some.inj (hfound.symm.trans hfound'))

/-- **Nothing is found** for the root, nor where no key matches. -/
theorem Made.lookup_eq_none_iff (h : Made c) (hc : c.NoEmptySegment) :
    c.lookup path = none ↔ Path.segments path = [] ∨
      ∀ key ∈ Named.names c.entries, ¬ Matches key path := by
  unfold lookup
  split
  · next key schema hfind =>
    obtain ⟨hmem, hname⟩ := Named.find?_eq_some hfind
    obtain rfl : key = path := hname
    have hkey := Named.name_mem_names hmem
    refine iff_of_false (Option.some_ne_none _) ?_
    rintro (hroot | hno)
    · exact (h.ofSegments_key hc hkey).2 hroot
    · exact hno key hkey (fits_self _)
  · split
    · next hroot => exact iff_of_true rfl (Or.inl hroot)
    · next hne =>
      rw [best?_eq_none_iff, or_iff_right hne]
      constructor
      · intro hno key hkey hmatches
        obtain ⟨⟨_, schema⟩, hmem, rfl⟩ := Named.mem_names.mp hkey
        exact hno (Path.segments _, schema) ((h.mem_patterns_iff hc).mpr ⟨_, hmem, rfl⟩) hmatches
      · rintro hno ⟨segments, schema⟩ hmem hfits
        obtain ⟨key, hentry, rfl⟩ := (h.mem_patterns_iff hc).mp hmem
        exact hno key (Named.name_mem_names hentry) hfits

/-- **What is found** is the schema of the closest key. -/
theorem Made.closest_of_lookup (h : Made c) (hc : c.NoEmptySegment)
    (hl : c.lookup path = some schema) : ∃ key, c.Closest path key schema := by
  unfold lookup at hl
  split at hl
  · next key s hfind =>
    cases hl
    obtain ⟨hmem, hname⟩ := Named.find?_eq_some hfind
    obtain rfl : key = path := hname
    refine ⟨key, hmem, fits_self _, fun other hother hmatches hne => ?_⟩
    exact closer_of_fits hmatches fun heq =>
      hne (h.eq_of_segments hc hother (Named.name_mem_names hmem) heq)
  · split at hl
    · cases hl
    · obtain ⟨segments, hmem, hfits, hclosest⟩ := closest_of_best? hl
      obtain ⟨key, hentry, rfl⟩ := (h.mem_patterns_iff hc).mp hmem
      refine ⟨key, hentry, hfits, fun other hother hmatches hne => ?_⟩
      obtain ⟨⟨_, s⟩, hmem', rfl⟩ := Named.mem_names.mp hother
      refine hclosest (_, s) ((h.mem_patterns_iff hc).mpr ⟨_, hmem', rfl⟩) hmatches fun heq => ?_
      exact hne (h.eq_of_segments hc hother (Named.name_mem_names hentry) heq)

/-- A look-up finds the schema of the closest key, where no key has an empty segment. -/
theorem Made.lookup_eq_some_iff (h : Made c) (hc : c.NoEmptySegment) :
    c.lookup path = some schema ↔ ∃ key, c.Closest path key schema := by
  refine ⟨h.closest_of_lookup hc, ?_⟩
  rintro ⟨key, hclosest⟩
  have hkey := Named.name_mem_names hclosest.1
  rcases hl : c.lookup path with _ | found
  · rcases (h.lookup_eq_none_iff hc).mp hl with hroot | hno
    · exact absurd hclosest.2.1 (h.not_matches_root hc hkey hroot)
    · exact absurd hclosest.2.1 (hno key hkey)
  · obtain ⟨other, hother⟩ := h.closest_of_lookup hc hl
    rw [hother.eq h hclosest]

end lookups

/-! ### Look-ups at paths that are written from names -/

/-- A key that is written from names is found among the patterns by these names. -/
theorem find?_patterns (c : Catalog) {names : List Text} (hn : ∀ n ∈ names, Path.IsSegment n) :
    (c.patterns.find? fun p => decide (p.1 = names)).map Prod.snd =
      (Named.find? (Path.ofSegments names) c.entries).map Prod.snd := by
  rw [patterns]
  induction c.entries with
  | nil => rfl
  | cons entry entries ih =>
    obtain ⟨key, schema⟩ := entry
    rw [Named.find?]
    by_cases hkey : key = Path.ofSegments names
    · rw [if_pos (show Named.name (key, schema) = _ from hkey)]
      subst hkey
      simp [Path.segments_ofSegments hn]
    · rw [if_neg (show ¬ Named.name (key, schema) = _ from hkey), ← ih]
      by_cases hpattern : Path.ofSegments (Path.segments key) = key
      · have hne : Path.segments key ≠ names := fun h => hkey (by rw [← h, hpattern])
        simp [hpattern, hne]
      · simp [hpattern]

/-- **What is found at a path** that is written from names is what the walk finds. -/
theorem lookup_ofSegments {c : Catalog} {names : List Text} (hn : ∀ n ∈ names, Path.IsSegment n)
    (hne : names ≠ []) : c.lookup (Path.ofSegments names) = best? names c.patterns := by
  have hfind := find?_patterns c hn
  unfold lookup
  split
  · next key schema hkey =>
    rw [hkey, Option.map_some] at hfind
    obtain ⟨pattern, hpattern, hschema⟩ := Option.map_eq_some_iff.mp hfind
    rw [best?_of_find? hpattern, hschema]
  · rw [Path.segments_ofSegments hn]
    split
    · next hnil => exact absurd rfl hne
    · rfl

/-- **A name that no key has** in its place, between names that match, is found like the
wildcard. -/
theorem lookup_eq_wildcard {c : Catalog} {names rest : List Text} {name : Text}
    (hnames : ∀ n ∈ names, Path.IsSegment n) (hname : Path.IsSegment name)
    (hrest : ∀ n ∈ rest, Path.IsSegment n)
    (h : ∀ key ∈ Named.names c.entries, ∀ front back, Path.segments key = front ++ name :: back →
      Fits front names → ¬ Fits back rest) :
    c.lookup (Path.ofSegments (names ++ name :: rest)) =
      c.lookup (Path.ofSegments (names ++ Path.wildcard :: rest)) := by
  have hsegments : ∀ {m : Text}, Path.IsSegment m → ∀ n ∈ names ++ m :: rest, Path.IsSegment n := by
    intro m hm n hn
    rcases List.mem_append.mp hn with hn | hn
    · exact hnames n hn
    · rcases List.mem_cons.mp hn with rfl | hn
      · exact hm
      · exact hrest n hn
  rw [lookup_ofSegments (hsegments hname) (by simp),
    lookup_ofSegments (hsegments Path.isSegment_wildcard) (by simp)]
  refine best?_eq_wildcard fun pattern hpattern front back hsplit => ?_
  obtain ⟨⟨key, schema⟩, hmem, hif⟩ := List.mem_filterMap.mp hpattern
  dsimp only at hif
  split at hif
  · cases hif
    exact h key (Named.name_mem_names hmem) front back hsplit
  · cases hif

/-! ### The children of a path -/

section children

variable {c : Catalog} {path key name : Text}

/-- The name that a key declares below a path is its last segment, if the others match the path. -/
theorem declaredChild?_eq_some_iff :
    declaredChild? (Path.segments path) key = some name ↔ Declares path key name := by
  rw [Declares]
  rcases List.eq_nil_or_concat (Path.segments key) with hnil | ⟨front, last, hkey⟩
  · simp only [declaredChild?, hnil, List.getLast?_nil]
    refine iff_of_false (Option.some_ne_none _).symm ?_
    rintro ⟨front, hfront, -⟩
    exact List.append_ne_nil_of_right_ne_nil front (List.cons_ne_nil name []) hfront.symm
  · rw [List.concat_eq_append] at hkey
    simp only [declaredChild?, hkey, List.getLast?_concat, List.dropLast_concat, segmentsMatch_iff,
      Option.ite_none_right_eq_some, Option.some.injEq]
    constructor
    · rintro ⟨hdeclares, rfl⟩
      exact ⟨front, rfl, hdeclares⟩
    · rintro ⟨front', heq, hdeclares⟩
      obtain ⟨rfl, hlast⟩ := List.append_inj' heq rfl
      cases hlast
      exact ⟨hdeclares, rfl⟩

/-- **The children of a path** are those that some key declares. -/
theorem mem_childrenOf_iff :
    name ∈ c.childrenOf path ↔ ∃ key ∈ Named.names c.entries, Declares path key name := by
  rw [childrenOf, mem_foldl_distinct, or_iff_right List.not_mem_nil, List.mem_filterMap]
  constructor
  · rintro ⟨entry, hmem, hdeclares⟩
    exact ⟨entry.1, Named.name_mem_names hmem, declaredChild?_eq_some_iff.mp hdeclares⟩
  · rintro ⟨key, hkey, hdeclares⟩
    obtain ⟨entry, hmem, rfl⟩ := Named.mem_names.mp hkey
    exact ⟨entry, hmem, declaredChild?_eq_some_iff.mpr hdeclares⟩

/-- Names that are kept without repetitions keep the order in which they first came. -/
theorem pairwise_foldl_distinct (names : List Text) :
    (names.foldl (fun kept name => if name ∈ kept then kept else kept ++ [name]) []).Pairwise
      fun first second => ∃ front back, names = front ++ back ∧ first ∈ front ∧ second ∉ front := by
  induction names using List.reverseRecOn with
  | nil => exact List.Pairwise.nil
  | append_singleton names name ih =>
    have hlonger : ∀ {first second : Text},
        (∃ front back, names = front ++ back ∧ first ∈ front ∧ second ∉ front) →
          ∃ front back, names ++ [name] = front ++ back ∧ first ∈ front ∧ second ∉ front := by
      rintro first second ⟨front, back, rfl, hfirst, hsecond⟩
      exact ⟨front, back ++ [name], List.append_assoc _ _ _, hfirst, hsecond⟩
    have hkept := mem_foldl_distinct (n := name) names []
    rw [List.foldl_append, List.foldl_cons, List.foldl_nil]
    split
    · exact ih.imp hlonger
    · next hnew =>
      refine List.pairwise_append.mpr ⟨ih.imp hlonger, List.pairwise_singleton _ _, ?_⟩
      intro first hfirst second hsecond
      obtain rfl := List.mem_singleton.mp hsecond
      refine ⟨names, [second], rfl, ?_, fun hold => hnew (hkept.mpr (Or.inr hold))⟩
      exact ((mem_foldl_distinct names []).mp hfirst).resolve_left List.not_mem_nil

/-- **The children of a path** are in the order of the first entries that declare them. -/
theorem pairwise_childrenOf (c : Catalog) (path : Text) :
    (c.childrenOf path).Pairwise fun first second => ∃ front back, c.entries = front ++ back ∧
      (∃ key ∈ Named.names front, Declares path key first) ∧
        ∀ key ∈ Named.names front, ¬ Declares path key second := by
  refine (pairwise_foldl_distinct _).imp ?_
  rintro first second ⟨front, back, heq, hfirst, hsecond⟩
  obtain ⟨entries, entries', hentries, rfl, -⟩ := List.filterMap_eq_append_iff.mp heq
  refine ⟨entries, entries', hentries, ?_, fun key hkey hdeclares => hsecond ?_⟩
  · obtain ⟨entry, hmem, hdeclares⟩ := List.mem_filterMap.mp hfirst
    exact ⟨entry.1, Named.name_mem_names hmem, declaredChild?_eq_some_iff.mp hdeclares⟩
  · obtain ⟨entry, hmem, rfl⟩ := Named.mem_names.mp hkey
    exact List.mem_filterMap.mpr ⟨entry, hmem, declaredChild?_eq_some_iff.mpr hdeclares⟩

/-- A child that is declared has a key that matches its path. -/
theorem exists_matches_of_mem_childrenOf (hname : name ∈ c.childrenOf path) :
    ∃ key ∈ Named.names c.entries, Matches key (Path.join path name) := by
  have hsegment := isSegment_of_mem_childrenOf hname
  obtain ⟨key, hkey, front, hsegments, -, hfits⟩ := mem_childrenOf_iff.mp hname
  refine ⟨key, hkey, ?_⟩
  rw [Matches, hsegments, Path.segments_join_segment path hsegment]
  exact hfits.concat name

/-- **A child that the catalog does not declare** is found like one that a user may add. -/
theorem lookup_of_not_mem_childrenOf {names : List Text} (hnames : ∀ n ∈ names, Path.IsSegment n)
    (hpath : Path.segments path = names) (hname : Path.IsSegment name)
    (h : name ∉ c.childrenOf path) : c.lookup (Path.ofSegments (names ++ [name])) =
      c.lookup (Path.ofSegments (names ++ [Path.wildcard])) := by
  by_cases hwild : name = Path.wildcard
  · rw [hwild]
  · refine lookup_eq_wildcard hnames hname (fun n hn => by cases hn)
      fun key hkey front back hsplit hfits hback => ?_
    rw [fits_nil_iff] at hback
    subst hback
    exact h (mem_childrenOf_iff.mpr ⟨key, hkey, front, hsplit, hwild, hpath ▸ hfits⟩)

end children

/-- **What a catalog says of a path**, for every catalog that was made entry by entry and has no
empty segment in a key. -/
theorem Made.looksUp {c : Catalog} (h : Made c) (hc : c.NoEmptySegment) (path : Text) :
    c.LooksUp path := by
  refine ⟨h.lookup_eq_none_iff hc, fun schema => h.lookup_eq_some_iff hc, nodup_childrenOf c path,
    fun name => mem_childrenOf_iff, pairwise_childrenOf c path, fun name hname => ?_⟩
  obtain ⟨key, hkey, hmatches⟩ := exists_matches_of_mem_childrenOf hname
  have hbelow := Path.segments_join_segment path (isSegment_of_mem_childrenOf hname)
  rw [Option.isSome_iff_ne_none]
  intro hnone
  rcases (h.lookup_eq_none_iff hc).mp hnone with hroot | hno
  · rw [hbelow] at hroot
    exact List.append_ne_nil_of_right_ne_nil _ (List.cons_ne_nil name []) hroot
  · exact hno key hkey hmatches

/-- Entries of which three match the path of a block `b` under `a`. -/
def overlapping : List (Text × BlockSchema) := [
  ("/*/b".toList, { description := "any parent".toList }),
  ("/a/*".toList, { description := "any child".toList }),
  ("/*/*".toList, {}),
  ("/a/c/d".toList, {})]

/-- For instance, of three keys that match, the one with the name in front is found. -/
theorem Made.looksUp_sample : ∃ c, Catalog.empty.insertAll overlapping = .ok c ∧
    c.LooksUp "/a/b".toList ∧
      c.lookup "/a/b".toList = some { description := "any child".toList } := by
  have hempty : ∀ key ∈ Named.names overlapping, [] ∉ Text.pieces Path.isSlash (key.drop 1) := by
    decide
  have hmade : Catalog.empty.insertAll overlapping = .ok ⟨overlapping⟩ := rfl
  exact ⟨⟨overlapping⟩, hmade, Made.looksUp (Made.empty.of_insertAll hmade) hempty "/a/b".toList,
    by decide⟩

end Catalog

end BlockEdit
