import BlockEdit.Proofs.Lookup
import BlockEdit.Tree.Snapshot
import Mathlib.Data.List.Forall2

/-!
# Sorted maps and snapshots

A map of entries with different keys holds just these entries, in the order of the keys, so it does
not depend on the order in which they came. Snapshots are such maps: two documents with the same
paths are the same exactly when they are the same block by block.

Main statements:

* **`SortedMap.ofList_perm`**: entries with different keys give the same map in every order.
* **`SortedMap.ext_find?`**: a map is known by what it finds.
* **`Block.structurallyEq_iff`**: documents with the same paths are compared block by block.
-/

namespace BlockEdit

namespace SortedMap

variable {β γ : Type}

/-- The keys of the entries are in increasing order. -/
def Increasing (entries : List (Text × β)) : Prop := entries.Pairwise fun a b => a.1 < b.1

/-- An entry with a new key is added to the entries. -/
theorem insertEntry_perm {key : Text} {value : β} : {entries : List (Text × β)} →
    key ∉ entries.map Prod.fst → (insertEntry key value entries).Perm ((key, value) :: entries)
  | [], _ => .refl _
  | (k, v) :: entries, h => by
    rw [List.map_cons, List.mem_cons, not_or] at h
    rw [insertEntry, if_neg h.1]
    split
    · exact .refl _
    · exact ((insertEntry_perm h.2).cons (k, v)).trans (.swap _ _ _)

/-- An entry after an insertion is the new one or was there. -/
theorem mem_insertEntry {key : Text} {value : β} {entry : Text × β} :
    {entries : List (Text × β)} → entry ∈ insertEntry key value entries →
      entry = (key, value) ∨ entry ∈ entries
  | [], h => Or.inl (List.mem_singleton.mp h)
  | (k, v) :: entries, h => by
    rw [insertEntry] at h
    split at h
    · exact (List.mem_cons.mp h).imp_right (List.mem_cons_of_mem _)
    · split at h
      · exact List.mem_cons.mp h
      · rcases List.mem_cons.mp h with h | h
        · exact Or.inr (h ▸ List.mem_cons_self)
        · exact (mem_insertEntry h).imp_right (List.mem_cons_of_mem _)

/-- An insertion keeps the keys in increasing order. -/
theorem increasing_insertEntry {key : Text} {value : β} : {entries : List (Text × β)} →
    Increasing entries → Increasing (insertEntry key value entries)
  | [], _ => List.pairwise_singleton _ _
  | (k, v) :: entries, h => by
    obtain ⟨hfirst, hrest⟩ := List.pairwise_cons.mp h
    rw [insertEntry]
    split
    · next hk => exact List.pairwise_cons.mpr ⟨fun e he => hk ▸ hfirst e he, hrest⟩
    · next hk =>
      split
      · next hlt =>
        refine List.pairwise_cons.mpr ⟨fun e he => ?_, h⟩
        rcases List.mem_cons.mp he with rfl | he
        · exact hlt
        · exact List.lt_trans hlt (hfirst e he)
      · next hlt =>
        have hgt : k < key := by
          rcases List.le_iff_lt_or_eq.mp (List.not_lt.mp hlt) with hgt | heq
          · exact hgt
          · exact absurd heq.symm hk
        refine List.pairwise_cons.mpr ⟨fun e he => ?_, increasing_insertEntry hrest⟩
        rcases mem_insertEntry he with rfl | he
        · exact hgt
        · exact hfirst e he

/-- The map of entries with different keys holds just these entries. -/
theorem entries_ofList_perm {entries : List (Text × β)}
    (h : (entries.map Prod.fst).Nodup) : (ofList entries).entries.Perm entries := by
  have hfold : ∀ (es : List (Text × β)) (m : SortedMap β),
      (m.entries.map Prod.fst ++ es.map Prod.fst).Nodup →
        (es.foldl (fun m entry => m.insert entry.1 entry.2) m).entries.Perm (m.entries ++ es) := by
    intro es
    induction es with
    | nil =>
      intro m _
      rw [List.append_nil]
      exact .refl _
    | cons e es ih =>
      intro m hn
      have hnew : e.1 ∉ m.entries.map Prod.fst :=
        fun hm => (List.nodup_append.mp hn).2.2 _ hm _ List.mem_cons_self rfl
      have hinsert : (m.insert e.1 e.2).entries.Perm (e :: m.entries) := insertEntry_perm hnew
      have hmove : (m.insert e.1 e.2).entries ++ es |>.Perm (m.entries ++ e :: es) :=
        (hinsert.append_right es).trans List.perm_middle.symm
      rw [List.foldl_cons]
      refine (ih _ ?_).trans hmove
      rw [← List.map_append] at hn ⊢
      exact (hmove.map Prod.fst).nodup_iff.mpr hn
  simpa [ofList, empty] using hfold entries empty (by simpa [empty] using h)

/-- A map that is made from a list is in order. -/
theorem increasing_ofList (entries : List (Text × β)) : Increasing (ofList entries).entries := by
  have hfold : ∀ (es : List (Text × β)) (m : SortedMap β), Increasing m.entries →
      Increasing (es.foldl (fun m entry => m.insert entry.1 entry.2) m).entries := by
    intro es
    induction es with
    | nil => exact fun _ h => h
    | cons e es ih => exact fun m h => ih _ (increasing_insertEntry h)
  exact hfold entries empty List.Pairwise.nil

/-- **Entries with different keys** give the same map in every order. -/
theorem ofList_perm {as bs : List (Text × β)} (h : as.Perm bs) (hn : (as.map Prod.fst).Nodup) :
    ofList as = ofList bs := by
  have hn' : (bs.map Prod.fst).Nodup := (h.map Prod.fst).nodup_iff.mp hn
  have hperm : (ofList as).entries.Perm (ofList bs).entries :=
    ((entries_ofList_perm hn).trans h).trans (entries_ofList_perm hn').symm
  have heq : (ofList as).entries = (ofList bs).entries := by
    refine hperm.eq_of_pairwise ?_ (increasing_ofList as) (increasing_ofList bs)
    exact fun a b _ _ hab hba => absurd hba (List.lt_asymm hab)
  exact congrArg SortedMap.mk heq

/-- A function of the values can be applied before or after the map is made. -/
theorem entries_ofList_map (f : β → γ) (entries : List (Text × β)) :
    (ofList (entries.map fun e => (e.1, f e.2))).entries =
      (ofList entries).entries.map fun e => (e.1, f e.2) := by
  have hinsert : ∀ (key : Text) (value : β) (es : List (Text × β)),
      insertEntry key (f value) (es.map fun e => (e.1, f e.2)) =
        (insertEntry key value es).map fun e => (e.1, f e.2) := by
    intro key value es
    induction es with
    | nil => rfl
    | cons e es ih =>
      rw [List.map_cons, insertEntry, insertEntry]
      split
      · rfl
      · split
        · rfl
        · rw [ih, List.map_cons]
  have hfold : ∀ (es : List (Text × β)) (m : SortedMap β) (k : SortedMap γ),
      k.entries = (m.entries.map fun e => (e.1, f e.2)) →
        ((es.map fun e => (e.1, f e.2)).foldl (fun m entry => m.insert entry.1 entry.2) k).entries =
          (es.foldl (fun m entry => m.insert entry.1 entry.2) m).entries.map
            fun e => (e.1, f e.2) := by
    intro es
    induction es with
    | nil => exact fun _ _ h => h
    | cons e es ih =>
      intro m k h
      rw [List.map_cons, List.foldl_cons, List.foldl_cons]
      refine ih _ _ ?_
      rw [insert, h]
      exact hinsert e.1 e.2 m.entries
  exact hfold entries empty empty rfl

/-- Entries with other keys do not matter to a look-up. -/
theorem find?_foldl_of_not_mem {key : Text} : ∀ {entries : List (Text × β)} (m : SortedMap β),
    key ∉ entries.map Prod.fst →
      (entries.foldl (fun m entry => m.insert entry.1 entry.2) m).find? key = m.find? key
  | [], _, _ => rfl
  | e :: entries, m, h => by
    rw [List.map_cons, List.mem_cons, not_or] at h
    rw [List.foldl_cons, find?_foldl_of_not_mem _ h.2, find?_insert_of_ne h.1]

/-- **A look-up sees the last entry** of its key. -/
theorem find?_ofList_append {key : Text} {value : β} {before after : List (Text × β)}
    (h : key ∉ after.map Prod.fst) :
    (ofList (before ++ (key, value) :: after)).find? key = some value := by
  rw [ofList, List.foldl_append, List.foldl_cons, find?_foldl_of_not_mem _ h, find?_insert]

/-- Where keys are distinct, each value of the list is found under its key. -/
theorem find?_ofList_of_mem {key : Text} {value : β} {entries : List (Text × β)}
    (hn : (entries.map Prod.fst).Nodup) (h : (key, value) ∈ entries) :
    (ofList entries).find? key = some value := by
  obtain ⟨before, after, rfl⟩ := List.append_of_mem h
  refine find?_ofList_append ?_
  rw [List.map_append, List.map_cons] at hn
  exact (List.nodup_cons.mp (List.nodup_append.mp hn).2.1).1

/-- Values that are listed under names have the names for their keys. -/
theorem keys_named {α : Type} [Named α] (f : α → β) (xs : List α) :
    (xs.map fun x => (Named.name x, f x)).map Prod.fst = Named.names xs := by
  rw [List.map_map]
  rfl

/-- **A map of named things** finds what their list finds, where no name occurs twice. -/
theorem find?_ofList_names {α : Type} [Named α] (f : α → β) {xs : List α}
    (h : (Named.names xs).Nodup) (n : Text) :
    (ofList (xs.map fun x => (Named.name x, f x))).find? n = (Named.find? n xs).map f := by
  rcases hfind : Named.find? n xs with _ | x
  · exact find?_foldl_of_not_mem _ ((keys_named f xs).symm ▸ Named.find?_eq_none_iff.mp hfind)
  · obtain ⟨hmem, rfl⟩ := Named.find?_eq_some hfind
    exact find?_ofList_of_mem ((keys_named f xs).symm ▸ h)
      (List.mem_map_of_mem (f := fun x => (Named.name x, f x)) hmem)

/-- A map of two lists finds what the second one finds, or else what the first one finds. -/
theorem find?_ofList_names_append {α : Type} [Named α] (f : α → β) {xs ys : List α}
    (hx : (Named.names xs).Nodup) (hy : (Named.names ys).Nodup) (n : Text) :
    (ofList ((xs ++ ys).map fun x => (Named.name x, f x))).find? n =
      ((Named.find? n ys).or (Named.find? n xs)).map f := by
  rw [List.map_append]
  rcases hfind : Named.find? n ys with _ | y
  · have hnot : n ∉ (ys.map fun y => (Named.name y, f y)).map Prod.fst :=
      (keys_named f ys).symm ▸ Named.find?_eq_none_iff.mp hfind
    rw [ofList, List.foldl_append, find?_foldl_of_not_mem _ hnot, Option.none_or]
    exact find?_ofList_names f hx n
  · obtain ⟨hmem, rfl⟩ := Named.find?_eq_some hfind
    obtain ⟨before, after, rfl⟩ := List.append_of_mem hmem
    rw [Named.names_append, Named.names_cons] at hy
    rw [List.map_append, List.map_cons, ← List.append_assoc]
    refine find?_ofList_append ?_
    rw [keys_named]
    exact (List.nodup_cons.mp (List.nodup_append.mp hy).2.1).1

/-- A value that is found under a key stands in an entry of the key. -/
theorem mem_of_valueIn? {key : Text} {value : β} : ∀ {entries : List (Text × β)},
    valueIn? key entries = some value → (key, value) ∈ entries
  | (k, v) :: entries, h => by
    rw [valueIn?] at h
    split at h
    · next hk =>
      cases h
      rw [hk]
      exact List.mem_cons_self
    · exact List.mem_cons_of_mem _ (mem_of_valueIn? h)

/-! ### Maps by their look-ups -/

/-- A map stays in order when a value is put into it. -/
theorem increasing_insert {m : SortedMap β} (h : Increasing m.entries) (key : Text) (value : β) :
    Increasing (m.insert key value).entries :=
  increasing_insertEntry h

/-- A map stays in order when a key is taken out. -/
theorem increasing_erase {m : SortedMap β} (h : Increasing m.entries) (key : Text) :
    Increasing (m.erase key).entries :=
  List.Pairwise.filter _ h

/-- Keys that are in order are distinct. -/
theorem nodup_keys {entries : List (Text × β)} (h : Increasing entries) :
    (entries.map Prod.fst).Nodup := by
  refine List.pairwise_map.mpr (h.imp fun {a b} hlt heq => ?_)
  rw [heq] at hlt
  exact List.lt_irrefl _ hlt

/-- Where keys are distinct, the value of an entry is found under its key. -/
theorem valueIn?_of_mem {key : Text} {value : β} : ∀ {entries : List (Text × β)},
    (entries.map Prod.fst).Nodup → (key, value) ∈ entries → valueIn? key entries = some value
  | (k, v) :: entries, hn, h => by
    rw [List.map_cons, List.nodup_cons] at hn
    rcases List.mem_cons.mp h with heq | hmem
    · cases heq
      exact if_pos rfl
    · have hne : key ≠ k := by
        rintro rfl
        exact hn.1 (List.mem_map.mpr ⟨_, hmem, rfl⟩)
      rw [valueIn?, if_neg hne, valueIn?_of_mem hn.2 hmem]

/-- The entries of a map are what its look-ups find. -/
theorem mem_entries_iff {m : SortedMap β} (h : Increasing m.entries) {key : Text} {value : β} :
    (key, value) ∈ m.entries ↔ m.find? key = some value :=
  ⟨valueIn?_of_mem (nodup_keys h), mem_of_valueIn?⟩

/-- The keys of a map are those under which something is found. -/
theorem mem_keys_iff {m : SortedMap β} (h : Increasing m.entries) {key : Text} :
    key ∈ m.keys ↔ ∃ value, m.find? key = some value := by
  rw [keys, List.mem_map]
  constructor
  · rintro ⟨⟨k, v⟩, hmem, rfl⟩
    exact ⟨v, (mem_entries_iff h).mp hmem⟩
  · rintro ⟨v, hv⟩
    exact ⟨(key, v), (mem_entries_iff h).mpr hv, rfl⟩

/-- The values of a map are those that are found under some key. -/
theorem mem_values_iff {m : SortedMap β} (h : Increasing m.entries) {value : β} :
    value ∈ m.values ↔ ∃ key, m.find? key = some value := by
  rw [values, List.mem_map]
  constructor
  · rintro ⟨⟨k, v⟩, hmem, rfl⟩
    exact ⟨k, (mem_entries_iff h).mp hmem⟩
  · rintro ⟨k, hk⟩
    exact ⟨(k, value), (mem_entries_iff h).mpr hk, rfl⟩

/-- **Maps with the same look-ups** are the same. -/
theorem eq_of_find? {m k : SortedMap β} (hm : Increasing m.entries) (hk : Increasing k.entries)
    (h : ∀ key value, m.find? key = some value ↔ k.find? key = some value) : m = k := by
  have hnodup : ∀ {l : SortedMap β}, Increasing l.entries → l.entries.Nodup :=
    fun hl => (nodup_keys hl).of_map
  have hperm : m.entries.Perm k.entries := by
    refine (List.perm_ext_iff_of_nodup (hnodup hm) (hnodup hk)).mpr fun entry => ?_
    rw [mem_entries_iff hm, mem_entries_iff hk, h]
  have heq : m.entries = k.entries := by
    refine hperm.eq_of_pairwise ?_ hm hk
    exact fun a b _ _ hab hba => absurd hba (List.lt_asymm hab)
  exact congrArg SortedMap.mk heq

/-- Two maps in which the same is found are the same. -/
theorem ext_find? {m k : SortedMap β} (hm : Increasing m.entries) (hk : Increasing k.entries)
    (h : ∀ key, m.find? key = k.find? key) : m = k :=
  eq_of_find? hm hk fun key value => by rw [h key]

/-- What is there already can be inserted again. -/
theorem insert_of_find? {m : SortedMap β} (hm : Increasing m.entries) {key : Text} {value : β}
    (h : m.find? key = some value) : m.insert key value = m := by
  refine ext_find? (increasing_insert hm key value) hm fun other => ?_
  by_cases ho : other = key
  · rw [ho, find?_insert, h]
  · rw [find?_insert_of_ne ho]

/-- After an insertion the new value is found under its key, and under every other key what was
there. -/
theorem find?_insert_eq_some {m : SortedMap β} {key other : Text} {value v : β} :
    (m.insert key value).find? other = some v ↔
      other = key ∧ value = v ∨ other ≠ key ∧ m.find? other = some v := by
  by_cases h : other = key
  · rw [h, find?_insert, Option.some.injEq]
    simp
  · rw [find?_insert_of_ne h]
    simp [h]

/-- What a map of entries under different keys has. -/
theorem find?_ofList_iff {entries : List (Text × β)} (hn : (entries.map Prod.fst).Nodup)
    {key : Text} {value : β} : (ofList entries).find? key = some value ↔ (key, value) ∈ entries := by
  rw [← mem_entries_iff (increasing_ofList entries)]
  exact (entries_ofList_perm hn).mem_iff

/-- **When the value of one thing is another one**, the map has that value instead. -/
theorem ofList_map_eq_insert {α : Type} {key : α → Text} {f g : α → β} {xs : List α} {a : α}
    (hn : (xs.map key).Nodup) (ha : a ∈ xs) (h : ∀ x ∈ xs, x ≠ a → g x = f x) :
    ofList (xs.map fun x => (key x, g x)) =
      (ofList (xs.map fun x => (key x, f x))).insert (key a) (g a) := by
  have hkeys : ∀ v : α → β, ((xs.map fun x => (key x, v x)).map Prod.fst).Nodup := by
    intro v
    rwa [List.map_map]
  refine eq_of_find? (increasing_ofList _) (increasing_insert (increasing_ofList _) _ _)
    fun k v => ?_
  rw [find?_insert_eq_some, find?_ofList_iff (hkeys g), find?_ofList_iff (hkeys f), List.mem_map,
    List.mem_map]
  constructor
  · rintro ⟨x, hx, hkv⟩
    cases hkv
    by_cases hxa : x = a
    · subst hxa
      exact Or.inl ⟨rfl, rfl⟩
    · refine Or.inr ⟨fun hkey => hxa (List.inj_on_of_nodup_map hn hx ha hkey), x, hx, ?_⟩
      rw [h x hx hxa]
  · rintro (⟨rfl, rfl⟩ | ⟨hne, x, hx, hkv⟩)
    · exact ⟨a, ha, rfl⟩
    · cases hkv
      exact ⟨x, hx, by rw [h x hx fun hxa => hne (congrArg key hxa)]⟩

/-- After a key is taken out, what was under the others is found still. -/
theorem find?_erase_eq_some {m : SortedMap β} {key other : Text} {v : β} :
    (m.erase key).find? other = some v ↔ other ≠ key ∧ m.find? other = some v := by
  have hfilter : ∀ entries : List (Text × β),
      valueIn? other (entries.filter fun entry => decide (entry.1 ≠ key)) =
        if other = key then none else valueIn? other entries := by
    intro entries
    induction entries with
    | nil => simp [valueIn?]
    | cons e entries ih =>
      by_cases he : e.1 = key
      · rw [List.filter_cons_of_neg (by simpa using he), ih]
        split
        · rfl
        · next hne => rw [valueIn?, if_neg (he ▸ hne)]
      · rw [List.filter_cons_of_pos (by simpa using he), valueIn?, valueIn?, ih]
        by_cases ho : other = e.1
        · rw [if_pos ho, if_neg (ho ▸ he), if_pos ho]
        · rw [if_neg ho, if_neg ho]
  rw [find?, erase, hfilter]
  split
  · next h => simp [h]
  · next h => simp [h, find?]

/-- Taking a key out does not matter to another one. -/
theorem find?_erase_of_ne {m : SortedMap β} {key other : Text} (h : other ≠ key) :
    (m.erase key).find? other = m.find? other := by
  rcases hm : m.find? other with _ | v
  · rcases he : (m.erase key).find? other with _ | v
    · rfl
    · rw [(find?_erase_eq_some.mp he).2] at hm
      cases hm
  · exact find?_erase_eq_some.mpr ⟨h, hm⟩

/-- Under a key that was taken out nothing is found. -/
theorem find?_erase (m : SortedMap β) (key : Text) : (m.erase key).find? key = none :=
  Option.eq_none_iff_forall_ne_some.mpr fun _ h => (find?_erase_eq_some.mp h).1 rfl

/-- Taking out a key that is not there changes nothing. -/
theorem erase_of_find? {m : SortedMap β} {key : Text} (h : m.find? key = none) :
    m.erase key = m := by
  have hall : ∀ entries : List (Text × β), valueIn? key entries = none →
      entries.filter (fun entry => decide (entry.1 ≠ key)) = entries := by
    intro entries
    induction entries with
    | nil => exact fun _ => rfl
    | cons e entries ih =>
      intro hnone
      rw [valueIn?] at hnone
      split at hnone
      · cases hnone
      · next hne =>
        rw [List.filter_cons_of_pos (by simpa using Ne.symm hne), ih hnone]
  exact congrArg SortedMap.mk (hall m.entries h)

end SortedMap

/-! ### Snapshots block by block -/

namespace BlockSnapshot

/-- In lists with the same values, a name has the same value in both. -/
theorem exists_of_sameValues {n : Text} {w : Option Value} :
    ∀ {vs ws : List (Text × Option Value)}, sameValues vs ws = true →
      SortedMap.valueIn? n ws = some w →
        ∃ v, SortedMap.valueIn? n vs = some v ∧ Value.sameOption v w = true
  | [], [], _, hw => by cases hw
  | [], _ :: _, h, _ => by cases h
  | _ :: _, [], h, _ => by cases h
  | (m, v) :: vs, (k, u) :: ws, h, hw => by
    simp only [sameValues, Bool.and_eq_true, beq_iff_eq] at h
    obtain ⟨⟨rfl, hv⟩, hrest⟩ := h
    rw [SortedMap.valueIn?] at hw ⊢
    split at hw
    · next hm =>
      cases hw
      exact ⟨v, if_pos hm, hv⟩
    · next hm =>
      rw [if_neg hm]
      exact exists_of_sameValues hrest hw

/-- **The same blocks** have the same value of each name. -/
theorem exists_of_same {a b : BlockSnapshot} (h : a.same b = true) {n : Text} {w : Option Value}
    (hw : b.values.find? n = some w) :
    ∃ v, a.values.find? n = some v ∧ Value.sameOption v w = true := by
  rw [same, Bool.and_eq_true, Bool.and_eq_true] at h
  exact exists_of_sameValues h.1.2 hw

end BlockSnapshot

namespace Snapshot

/-- In lists with the same blocks, a path has the same block in both. -/
theorem exists_of_sameEntries {p : Text} {b : BlockSnapshot} :
    ∀ {as bs : List (Text × BlockSnapshot)}, sameEntries as bs = true →
      SortedMap.valueIn? p bs = some b →
        ∃ a, SortedMap.valueIn? p as = some a ∧ a.same b = true
  | [], [], _, hb => by cases hb
  | [], _ :: _, h, _ => by cases h
  | _ :: _, [], h, _ => by cases h
  | (q, a) :: as, (r, c) :: bs, h, hb => by
    simp only [sameEntries, Bool.and_eq_true, beq_iff_eq] at h
    obtain ⟨⟨rfl, ha⟩, hrest⟩ := h
    rw [SortedMap.valueIn?] at hb ⊢
    split at hb
    · next hq =>
      cases hb
      exact ⟨a, if_pos hq, ha⟩
    · next hq =>
      rw [if_neg hq]
      exact exists_of_sameEntries hrest hb

/-- Entries under the same paths are the same exactly when their blocks are, one by one. -/
theorem sameEntries_map {entries : List (Text × BlockSnapshot × BlockSnapshot)} :
    sameEntries (entries.map fun e => (e.1, e.2.1)) (entries.map fun e => (e.1, e.2.2)) = true ↔
      ∀ e ∈ entries, e.2.1.same e.2.2 = true := by
  induction entries with
  | nil => simp [sameEntries]
  | cons e entries ih =>
    rw [List.map_cons, List.map_cons, sameEntries, List.forall_mem_cons, Bool.and_eq_true,
      Bool.and_eq_true, ih]
    simp

end Snapshot

namespace Block

/-- **Documents that are the same** have the same block at each path. -/
theorem exists_of_structurallyEq {a b : Block} (ha : (a.descendants.map path).Nodup)
    (hb : (b.descendants.map path).Nodup) (h : a.structurallyEq b = true) {d : Block}
    (hd : d ∈ b.descendants) : ∃ c ∈ a.descendants, c.path = d.path ∧
      (BlockSnapshot.ofBlock c).same (BlockSnapshot.ofBlock d) = true := by
  have hkeys : ∀ e : Block, (e.descendants.map path).Nodup →
      ((e.descendants.map fun c => (c.path, BlockSnapshot.ofBlock c)).map Prod.fst).Nodup := by
    intro e he
    rw [List.map_map]
    exact he
  have hfind := SortedMap.find?_ofList_of_mem (hkeys b hb)
    (List.mem_map_of_mem (f := fun c => (c.path, BlockSnapshot.ofBlock c)) hd)
  obtain ⟨snapshot, hfound, hsame⟩ := Snapshot.exists_of_sameEntries h hfind
  have hmem := (SortedMap.entries_ofList_perm (hkeys a ha)).mem_iff.mp
    (SortedMap.mem_of_valueIn? hfound)
  obtain ⟨c, hc, heq⟩ := List.mem_map.mp hmem
  obtain ⟨hpath, rfl⟩ := Prod.mk.inj heq
  exact ⟨c, hc, hpath, hsame⟩

/-- Blocks with the same paths can be paired. -/
theorem exists_pairs : {as bs : List Block} → bs.map path = as.map path →
    ∃ pairs : List (Block × Block), as = pairs.map Prod.fst ∧ bs = pairs.map Prod.snd ∧
      ∀ p ∈ pairs, p.2.path = p.1.path
  | [], bs, h => ⟨[], rfl, List.map_eq_nil_iff.mp h, by simp⟩
  | a :: as, bs, h => by
    obtain ⟨b, rest, rfl, hb, hrest⟩ := List.map_eq_cons_iff.mp h
    obtain ⟨pairs, rfl, rfl, hpairs⟩ := exists_pairs hrest
    exact ⟨(a, b) :: pairs, rfl, rfl, List.forall_mem_cons.mpr ⟨hb, hpairs⟩⟩

/-- **Documents with the same paths** are the same exactly when each two blocks of one path are. -/
theorem structurallyEq_iff {a b : Block} (hpaths : b.descendants.map path = a.descendants.map path)
    (hn : (a.descendants.map path).Nodup) : a.structurallyEq b = true ↔
      List.Forall₂ (fun c d => (BlockSnapshot.ofBlock c).same (BlockSnapshot.ofBlock d) = true)
        a.descendants b.descendants := by
  obtain ⟨pairs, ha, hb, hsame⟩ := exists_pairs hpaths
  -- Both snapshots are views of one map that has the two snapshots of each path.
  let entries : List (Text × BlockSnapshot × BlockSnapshot) :=
    pairs.map fun p => (p.1.path, BlockSnapshot.ofBlock p.1, BlockSnapshot.ofBlock p.2)
  have hfirst : a.descendants.map (fun c => (c.path, BlockSnapshot.ofBlock c)) =
      entries.map fun e => (e.1, e.2.1) := by
    rw [ha, List.map_map, List.map_map]
    rfl
  have hsecond : b.descendants.map (fun c => (c.path, BlockSnapshot.ofBlock c)) =
      entries.map fun e => (e.1, e.2.2) := by
    rw [hb, List.map_map, List.map_map]
    refine List.map_congr_left fun p hp => ?_
    rw [Function.comp_apply, hsame p hp]
    rfl
  have hkeys : (entries.map Prod.fst).Nodup := by
    rw [ha, List.map_map] at hn
    rw [List.map_map]
    exact hn
  have hperm := SortedMap.entries_ofList_perm hkeys
  rw [structurallyEq, Snapshot.same, Snapshot.ofBlock, Snapshot.ofBlock, hfirst, hsecond,
    SortedMap.entries_ofList_map Prod.fst, SortedMap.entries_ofList_map Prod.snd,
    Snapshot.sameEntries_map, ha, hb, List.forall₂_map_left_iff, List.forall₂_map_right_iff,
    List.forall₂_same]
  constructor
  · intro h p hp
    exact h _ (hperm.mem_iff.mpr (List.mem_map_of_mem hp))
  · intro h e he
    obtain ⟨p, hp, rfl⟩ := List.mem_map.mp (hperm.mem_iff.mp he)
    exact h p hp

end Block

end BlockEdit
