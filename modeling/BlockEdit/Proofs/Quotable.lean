import BlockEdit.Proofs.Misread
import BlockEdit.Proofs.Settling

/-!
# What a misread value makes of a document

A setting of a text becomes the value of a parameter in the block at its place. When the value is a
text or a list of texts, it is the text of the setting, blanks apart. So a document in which a value
cannot be read again from its quotes is not read back as itself.

Main statements:

* **`Block.exists_took_growRoot`**: each setting of an outline is taken by a block at its place.
* **`Block.quotable_of_reloads`**: a document that is read back as itself has no value that cannot
  be read again.
* **`Block.reloads_iff_quotable`**: when a document is read back as itself.
-/

namespace BlockEdit

/-! ### Texts as values -/

/-- The value is a text or a list of texts. -/
def Value.IsTextual : Value → Prop
  | .scalar s => s.kind = .string
  | .array items => ∀ item ∈ items, item.kind = .string

/-- Items that are read as texts have the texts of their tokens. -/
theorem ValueType.text_of_readItems {type : ValueType} : ∀ {tokens : List Text}
    {items : List Scalar}, readItems type tokens = .ok items →
      (∀ item ∈ items, item.kind = .string) → items.map Scalar.text = tokens
  | [], items, h, _ => by
    cases h
    rfl
  | token :: tokens, items, h, ht => by
    rw [readItems] at h
    rcases hr : Scalar.read? type.kind token with _ | item
    · rw [hr] at h
      cases h
    · rw [hr] at h
      rcases hrest : readItems type tokens with e | rest
      · rw [hrest] at h
        cases h
      · rw [hrest] at h
        cases h
        have hkind := (Scalar.kind_of_read? hr).symm.trans (ht item List.mem_cons_self)
        rw [hkind] at hr
        cases hr
        rw [List.map_cons, text_of_readItems hrest fun i hi => ht i (List.mem_cons_of_mem _ hi)]
        rfl

/-- **A text is read as itself**, blanks apart, when it is read as a text or as texts. -/
theorem ValueType.solid_of_read {type : ValueType} {t : Text} {v : Value}
    (h : type.read t = .ok v) (hv : v.IsTextual) : Text.solid v.text = Text.solid t := by
  rcases type with kind | kind
  · cases kind with
    | string =>
      cases h
      rfl
    | _ =>
      rw [read] at h
      split at h
      · next hr =>
        cases h
        exact absurd ((Scalar.kind_of_read? hr).symm.trans hv) (by decide)
      · cases h
      · intro hk
        cases hk
  · rw [read] at h
    rcases hr : readItems (.array kind) (Text.words t) with e | items
    · rw [hr] at h
      cases h
    · rw [hr] at h
      cases h
      rw [Value.text, text_of_readItems hr hv, Text.solid_joinWith, Text.flatten_words,
        Text.solid_solid]

/-- A value with a single quote is a text or a list of texts. -/
theorem Value.isTextual_of_mem {v : Value} {type : ValueType} (hv : v.HasType type)
    (h : '\x27' ∈ v.text) : v.IsTextual := by
  have hscalar : ∀ s : Scalar, '\x27' ∈ s.text → s.kind = .string := by
    intro s hs
    by_contra hk
    have := (Scalar.isBare_text hk).2 _ hs
    revert this
    decide
  cases v with
  | scalar s => exact hscalar s h
  | array items =>
    have hsolid : '\x27' ∈ Text.solid (Text.joinWith [' '] (items.map Scalar.text)) :=
      List.mem_filter.mpr ⟨h, rfl⟩
    rw [Text.solid_joinWith] at hsolid
    obtain ⟨t, ht, hquote⟩ := List.mem_flatten.mp (List.mem_of_mem_filter hsolid)
    obtain ⟨one, hone, rfl⟩ := List.mem_map.mp ht
    cases type with
    | scalar kind => cases hv
    | array kind =>
      -- All items are of one kind, so the one with the quote speaks for all of them.
      intro item hitem
      rw [(hv item hitem).1, ← (hv one hone).1]
      exact hscalar one hquote

/-- A scalar that is the same as a text is that text. -/
theorem Scalar.eq_of_same {s t : Scalar} (ht : t.kind = .string) (h : s.same t = true) :
    s = t := by
  cases t with
  | string u =>
    cases s with
    | string w => simpa [Scalar.same] using h
    | _ => simp [Scalar.same] at h
  | _ => cases ht

/-- A value that is the same as texts is these texts. -/
theorem Value.eq_of_same {v w : Value} (hw : w.IsTextual) (h : v.same w = true) : v = w := by
  have hitems : ∀ ss ts : List Scalar, (∀ t ∈ ts, t.kind = .string) →
      Value.sameItems ss ts = true → ss = ts := by
    intro ss
    induction ss with
    | nil =>
      intro ts _ h
      cases ts with
      | nil => rfl
      | cons t ts => cases h
    | cons s ss ih =>
      intro ts ht h
      cases ts with
      | nil => cases h
      | cons t ts =>
        rw [Value.sameItems, Bool.and_eq_true] at h
        rw [Scalar.eq_of_same (ht t List.mem_cons_self) h.1,
          ih ts (fun u hu => ht u (List.mem_cons_of_mem _ hu)) h.2]
  cases v with
  | scalar s =>
    cases w with
    | scalar t => rw [Scalar.eq_of_same hw h]
    | array ts => cases h
  | array ss =>
    cases w with
    | scalar t => cases h
    | array ts => rw [hitems ss ts hw h]

/-! ### Settings that are taken -/

/-- The value of the slot comes from this text. -/
def Slot.Took (s : Slot) (t : Text) : Prop :=
  ∀ v ∈ s.value, v.IsTextual → Text.solid v.text = Text.solid t

/-- A parameter that takes a setting has its value from it, whether its type reads the text or is
relaxed to it. -/
theorem Slot.took_take (s : Slot) (given : Setting) : (s.take given).Took given.value := by
  intro v hv ht
  rcases hr : s.type.read given.value with e | w
  · rw [take_of_error hr] at hv
    obtain ⟨u, hu⟩ := ValueType.exists_read_relaxed s.type given.value
    rw [relaxTo, hu] at hv
    cases hv
    exact ValueType.solid_of_read hu ht
  · rw [take_of_ok hr] at hv
    cases hv
    exact ValueType.solid_of_read hr ht

namespace Block

open Layout (writtenSlots)

/-- A parameter that a setting makes has its value from it. -/
theorem took_newSlot (b : Block) (given : Setting) : (b.newSlot given).Took given.value := by
  intro v hv _
  rw [newSlot] at hv
  split at hv
  · cases hv
    rfl
  · cases hv
    rfl

/-- A parameter of the block has taken the setting. -/
structure Took (b : Block) (x : Setting) : Prop where
  /-- No two parameters share a name. -/
  nodup : (Named.names b.allParameters).Nodup
  /-- The parameter of the name has a value that comes from the setting. -/
  slot : ∃ s ∈ b.allParameters, s.name = x.key ∧ s.Took x.value

variable {b : Block} {settings : List Setting} {x : Setting}

/-- **Settings that are bound at once** are taken. -/
theorem took_bound (hb : b.Untouched) (hn : (Named.names settings).Nodup) (hx : x ∈ settings) :
    (b.bound settings).Took x := by
  have hwritten := (mem_writtenSlots_bound hb hn).mpr ⟨x, hx, rfl⟩
  refine ⟨nodup_bound hb.nodup hn, _, (mem_allParameters_of_written hwritten).1, ?_⟩
  rcases hfind : b.parameter? x.key with _ | s
  · exact ⟨name_newSlot b x, took_newSlot b x⟩
  · rw [parameter?_eq_find?] at hfind
    exact ⟨(Slot.name_take s x).trans (Named.name_of_find? hfind), Slot.took_take s x⟩

/-- A parameter that is settled has taken the setting of its name. -/
theorem took_settle (hn : (Named.names settings).Nodup) (hx : x ∈ settings) {o : Slot}
    (ho : o.name = x.key) : (b.settle settings o).Took x.value := by
  have hfound : Named.find? o.name settings = some x := ho ▸ Named.find?_of_mem hn hx
  have htouch : (o.touch settings).Took x.value := by
    unfold Slot.touch
    rw [hfound]
    exact Slot.took_take o x
  unfold settle
  split
  · next type htype =>
    split
    · next hchosen =>
      rw [hchosen.2, htype] at hfound
      cases hfound
      obtain ⟨-, -, w, hw, hvalue⟩ := selectType_spec (Text.trim x.value) o
      intro v hv ht
      have hvw : some w = some v := hvalue.symm.trans hv
      cases hvw
      rw [ValueType.solid_of_read hw ht, Text.solid_trim]
    · exact htouch
  · exact htouch

/-- **The settings of a section** are taken. -/
theorem took_bindSettings (hb : b.AtRest) (hn : (Named.names settings).Nodup)
    (hx : x ∈ settings) : (b.bindSettings settings).Took x := by
  have hsettles := settles_bindSettings hb hn
  refine ⟨hsettles.nodup, ?_⟩
  by_cases hd : x.key ∈ Named.names (b.declared (settings.map Setting.written))
  · obtain ⟨o, ho, hname⟩ := Named.mem_names.mp hd
    exact ⟨_, (hsettles.parameters _).mpr (Or.inl ⟨o, ho, rfl⟩), (name_settle _ _ o).trans hname,
      took_settle hn hx hname⟩
  · exact ⟨_, (hsettles.parameters _).mpr (Or.inr ⟨x, hx, hd, rfl⟩), name_newSlot b x,
      took_newSlot b x⟩

variable {catalog : Catalog}

/-- **A setting inside of a section** is taken by a block at its place. -/
theorem exists_took_grow : ∀ (ns : List Text) {s : Section},
    s.Regular → Outline.IsHeaderName s.name → ∀ {path : Text} {offers : List Block},
      (∀ c ∈ offers, Offered catalog path c) → s.Holds ns x →
        ∃ c ∈ (grow catalog path offers s).descendants,
          Path.segments c.path = Path.segments path ++ s.name :: ns ∧ c.Took x
  | ns, ⟨name, comment, settings, children⟩, hr, hn, path, offers, ho, hx => by
    have hseed := offered_seed ho name
    have hname := name_seed catalog path offers name
    have hset := retouch_sprout catalog path offers name comment settings
    have hpath : (sprout catalog path offers name comment settings).path = Path.join path name :=
      hset.place.path.trans (hseed.path.trans (congrArg (Path.join path) hname))
    have hsegments := Path.segments_join_segment path hn.isSegment
    rw [grow]
    rcases ns with _ | ⟨n, ns⟩
    · refine ⟨_, mem_descendants_self _, (congrArg Path.segments hpath).trans hsegments, ?_⟩
      have htook := took_bindSettings (hseed.described.here.atRest comment) hr.settings.nodup hx
      exact ⟨htook.nodup, htook.slot⟩
    · obtain ⟨t, ht, rfl, hx⟩ := hx
      have hoffers : ∀ c ∈ (sprout catalog path offers name comment settings).unused,
          Offered catalog (sprout catalog path offers name comment settings).path c := by
        intro c hm
        rw [hset.unused] at hm
        rw [hset.place.path]
        exact hseed.unused c hm
      obtain ⟨c, hcm, hplace, htook⟩ :=
        exists_took_grow ns (hr.inside t ht) (hr.names t ht) hoffers hx
      refine ⟨c, ?_, ?_, htook⟩
      · refine mem_descendants_of_child ?_ hcm
        show _ ∈ growAll _ _ _ _
        rw [growAll_eq_map]
        exact List.mem_map_of_mem ht
      · rw [hplace, hpath, hsegments, List.append_assoc]
        rfl

/-- **Each setting of an outline** is taken by a block at its place. -/
theorem exists_took_growRoot {outline : Section}
    (hr : outline.Regular) {ns : List Text} (hx : outline.Holds ns x) :
    ∃ c ∈ (growRoot catalog outline).descendants, Path.segments c.path = ns ∧ c.Took x := by
  have hn : (Named.names outline.settings).Nodup := hr.settings.nodup
  rw [growRoot_eq_bound catalog hn]
  rcases ns with _ | ⟨n, ns⟩
  · refine ⟨_, mem_descendants_self _, rfl, ?_⟩
    have htook := took_bound (untouched_instantiateRoot catalog) hn hx
    exact ⟨htook.nodup, htook.slot⟩
  · obtain ⟨t, ht, rfl, hx⟩ := hx
    obtain ⟨c, hcm, hplace, htook⟩ := exists_took_grow ns (hr.inside t ht) (hr.names t ht)
      (offered_placeholders catalog catalog.height Path.root) hx
    refine ⟨c, mem_descendants_of_child ?_ hcm, hplace, htook⟩
    show _ ∈ growAll _ _ _ _
    rw [growAll_eq_map]
    exact List.mem_map_of_mem ht

/-! ### Documents with a misread value -/

/-- The value of the parameter is the one of its name in a snapshot. -/
def Effective (b : Block) (s : Slot) : Prop :=
  (BlockSnapshot.ofBlock b).values.find? s.name = some s.value

/-- In a block without two parameters of a name each value counts. -/
theorem effective_of_mem (hn : (Named.names b.allParameters).Nodup) {s : Slot}
    (hs : s ∈ b.allParameters) : b.Effective s := by
  refine SortedMap.find?_ofList_of_mem ?_
    (List.mem_map_of_mem (f := fun t => (t.name, t.value)) hs)
  rw [List.map_map]
  exact hn

/-- A block that took a setting does not have a value that differs from it in more than blanks. -/
theorem solid_of_took {b c : Block} (hc : c.Took x) {s : Slot} (hs : b.Effective s)
    (hkey : x.key = s.name) (hf : s.Fits) (hquote : '\x27' ∈ s.text)
    (hsame : (BlockSnapshot.ofBlock c).same (BlockSnapshot.ofBlock b) = true) :
    Text.solid x.value = Text.solid s.text := by
  obtain ⟨t, ht, hname, htook⟩ := hc.slot
  have hcounts : (BlockSnapshot.ofBlock c).values.find? s.name = some t.value := by
    rw [← hkey, ← hname]
    exact effective_of_mem hc.nodup ht
  obtain ⟨v, hv, hvalue⟩ := BlockSnapshot.exists_of_same hsame hs
  rw [hcounts] at hv
  obtain rfl := Option.some.inj hv
  rcases hsv : s.value with _ | w
  · rw [Slot.text, hsv] at hquote
    cases hquote
  · have htext : s.text = w.text := by rw [Slot.text, hsv]; rfl
    rw [htext] at hquote ⊢
    have htextual := Value.isTextual_of_mem (Slot.hasType_of_fits hf hsv) hquote
    rw [hsv] at hvalue
    rcases htv : t.value with _ | u
    · rw [htv] at hvalue
      cases hvalue
    · rw [htv] at hvalue
      obtain rfl := Value.eq_of_same htextual hvalue
      exact (htook u htv htextual).symm

/-- Blocks of a sound document with the same segments are one block. -/
theorem eq_of_segments {root c d : Block} (h : All Sound root) (hp : root.path = Path.root)
    (hc : c ∈ root.descendants) (hd : d ∈ root.descendants)
    (hs : Path.segments c.path = Path.segments d.path) : c = d := by
  have hfound := find?_path h hp hc
  rw [find?, hs] at hfound
  exact Option.some.inj (hfound.symm.trans (find?_path h hp hd))

/-- The pieces of a sound document with names that can be read have such names. -/
theorem spelled_documentPieces {root : Block} (h : All Sound root)
    (hs : ∀ d ∈ root.descendants, d.Spelled) : ∀ p ∈ Layout.documentPieces root, p.Spelled := by
  intro p hp
  have hamong := Layout.among_documentPieces root p hp
  cases p with
  | header depth b =>
    obtain ⟨parent, hparent, hb⟩ := hamong
    exact (hs parent hparent).headers b hb
  | slot depth b s =>
    obtain ⟨hb, hsb⟩ := hamong
    refine ⟨(hs b hb).words s hsb, ?_⟩
    have hsound := (h.descendant hb).here.info
    rcases List.mem_append.mp (mem_allParameters_of_written hsb).1 with hm | hm
    · exact hsound.own s hm
    · exact hsound.live s hm
  | close depth => trivial
  | separator => trivial

/-- A document with a value that cannot be read again from its quotes is read, if at all, with
another value there. -/
theorem exists_took_of_not_quotable (catalog : Catalog) {indent : Text} {root : Block}
    (hi : ∀ c ∈ indent, Token.isFiller c = true) (h : All Sound root) (hp : root.path = Path.root)
    (hs : ∀ d ∈ root.descendants, d.Spelled) (hq : ¬ ∀ d ∈ root.descendants, d.Quotable)
    {outline : Section} (ho : Outline.ofText (root.serialize indent) = .ok outline) :
    ∃ b ∈ root.descendants, ∃ s ∈ writtenSlots b, (¬ Token.IsQuotable s.text ∧ s.Fits ∧
        '\x27' ∈ s.text) ∧
      ∃ c ∈ (growRoot catalog outline).descendants, Path.segments c.path = Path.segments b.path ∧
        ∃ x, c.Took x ∧ x.key = s.name ∧ Text.solid x.value ≠ Text.solid s.text := by
  have hpieces := spelled_documentPieces h hs
  obtain ⟨b, hb, s, hsb, hquot, x, hx, hkey, hne⟩ := Layout.exists_misread hi h hp hpieces hq ho
  obtain ⟨c, hcm, hplace, htook⟩ : ∃ c ∈ (growRoot catalog outline).descendants,
      Path.segments c.path = Path.segments b.path ∧ c.Took x :=
    exists_took_growRoot (Outline.regular_of_ofText ho) hx
  have hsingle : '\x27' ∈ s.text := by
    by_contra hno
    exact hquot fun hyes => absurd (List.contains_iff_mem.mp hyes) hno
  obtain ⟨level, hpiece⟩ := Layout.exists_mem_documentPieces hb hsb
  obtain ⟨-, hfits⟩ : Token.IsWord s.name ∧ s.Fits := hpieces _ hpiece
  exact ⟨b, hb, s, hsb, ⟨hquot, hfits, hsingle⟩, c, hcm, hplace, x, htook, hkey, hne⟩

section reloads

variable {indent : Text} {root : Block} (hc : catalog.TypesAreTexts)
  (hi : ∀ c ∈ indent, Token.isFiller c = true) (h : All Sound root) (hp : root.path = Path.root)
  (hs : ∀ d ∈ root.descendants, d.Spelled)
  (he : ∀ b ∈ root.descendants, ∀ s ∈ writtenSlots b, ¬ Token.IsQuotable s.text → b.Effective s)

include hc hi h hp hs he

omit hc in
/-- **A document that is read back as itself** has no value that cannot be read again from its
quotes. -/
theorem quotable_of_reloads (hr : Reloads catalog indent root) :
    ∀ d ∈ root.descendants, d.Quotable := by
  by_contra hq
  obtain ⟨again, hagain, hsame⟩ := hr
  have hground := grounded_parse hagain
  obtain ⟨outline, houtline, rfl⟩ := exists_outline_of_parse hagain
  obtain ⟨b, hb, s, hsb, ⟨hquot, hfits, hsingle⟩, c, hcm, hplace, x, htook, hkey, hne⟩ :=
    exists_took_of_not_quotable catalog hi h hp hs hq houtline
  obtain ⟨d, hd, hpath, hsnapshot⟩ :=
    exists_of_structurallyEq (nodup_paths hground.tree) (nodup_paths h) hsame hb
  obtain rfl := eq_of_segments hground.tree hground.path hcm hd (by rw [hplace, hpath])
  exact hne (solid_of_took htook (he b hb s hsb hquot) hkey hfits hsingle hsnapshot)

/-- **A document reads back as itself** exactly when each of its blocks does: its values can be read
again from their quotes, no name is on two lines, and what is read is what was written. -/
theorem reloads_iff_quotable : Reloads catalog indent root ↔ ∀ b ∈ root.descendants,
    b.Quotable ∧ b.Distinct ∧
      (BlockSnapshot.ofBlock (b.readBack catalog)).same (BlockSnapshot.ofBlock b) = true := by
  have hread : (∀ d ∈ root.descendants, d.Quotable) → (Reloads catalog indent root ↔
      ∀ b ∈ root.descendants, b.Distinct ∧
        (BlockSnapshot.ofBlock (b.readBack catalog)).same (BlockSnapshot.ofBlock b) = true) :=
    fun hq => reloads_iff hc hi h hp (readable_of_spelled h hs hq)
  constructor
  · intro hr
    have hq := quotable_of_reloads hi h hp hs he hr
    exact fun b hb => ⟨hq b hb, (hread hq).mp hr b hb⟩
  · intro hall
    exact (hread fun b hb => (hall b hb).1).mpr fun b hb => (hall b hb).2

end reloads

end Block

end BlockEdit
