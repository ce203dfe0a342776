import BlockEdit.Json.Record
import BlockEdit.Proofs.Named

/-!
# Fields, lists and dictionaries read back

A list or a dictionary of things that read back one by one reads back as a whole, and whatever a
dictionary reads has no name twice.

Main statements:

* **`list?_map`**, **`dictionary?_map`**: lists and dictionaries of what reads back read back.
* **`dictionary?_spec`**: what a dictionary reads.
-/

namespace BlockEdit.Json

/-! ### Fields -/

/-- A field that may be left out has its default or was read. -/
theorem Fields.eq_or_of_withDefault {α : Type} {fs : Fields} {name : Text} {value x : α}
    {read : Json → Option α} (h : fs.withDefault name value read = some x) :
    x = value ∨ ∃ j, read j = some x := by
  rw [withDefault] at h
  split at h
  · next entry _ => exact Or.inr ⟨entry.2, h⟩
  · exact Or.inl (Option.some.inj h).symm

/-! ### Lists and dictionaries -/

variable {α : Type} {read : Json → Option α} {write : α → Json}

/-- Values that are read back one by one are read back as a list. -/
theorem mapM_map {β γ : Type} {f : β → γ} {g : γ → Option β} : ∀ {xs : List β},
    (∀ x ∈ xs, g (f x) = some x) → (xs.map f).mapM g = some xs
  | [], _ => rfl
  | x :: xs, h => by
    have hxs : (xs.map f).mapM g = some xs := mapM_map fun y hy => h y (List.mem_cons_of_mem _ hy)
    rw [List.map_cons, List.mapM_cons, h x List.mem_cons_self, hxs]
    rfl

/-- What is read from a list comes from one of its values. -/
theorem exists_of_mem_mapM {β γ : Type} {f : β → Option γ} : ∀ {xs : List β} {ys : List γ},
    xs.mapM f = some ys → ∀ {y : γ}, y ∈ ys → ∃ x ∈ xs, f x = some y
  | [], _, h, _, hy => by cases h; cases hy
  | x :: xs, _, h, _, hy => by
    simp only [List.mapM_cons, Option.bind_eq_bind, Option.bind_eq_some_iff, Option.pure_def] at h
    obtain ⟨z, hz, zs, hzs, he⟩ := h
    cases he
    rcases List.mem_cons.mp hy with rfl | hy
    · exact ⟨x, List.mem_cons_self, hz⟩
    · obtain ⟨w, hw, hread⟩ := exists_of_mem_mapM hzs hy
      exact ⟨w, List.mem_cons_of_mem x hw, hread⟩

/-- **A list** of what reads back reads back. -/
theorem list?_map {xs : List α} (h : ∀ x ∈ xs, read (write x) = some x) :
    list? read (.list (xs.map write)) = some xs := mapM_map h

/-- **A dictionary** of what reads back reads back, if no name is in it twice. -/
theorem dictionary?_map {entries : List (Text × α)} (hn : (Named.names entries).Nodup)
    (h : ∀ entry ∈ entries, read (write entry.2) = some entry.2) :
    dictionary? read (.object (entries.map fun entry => (entry.1, write entry.2))) =
      some entries := by
  have hread : ((entries.map fun entry => (entry.1, write entry.2)).mapM
      fun member : Text × Json => (read member.2).map fun value => (member.1, value)) =
        some entries := by
    refine mapM_map fun entry hentry => ?_
    rw [h entry hentry]
    rfl
  exact (congrArg (Option.bind · fun entries => some (Named.ofList entries)) hread).trans
    (congrArg some (Named.ofList_of_nodup hn))

/-- **What a dictionary reads** has no name twice, and each thing in it was read. -/
theorem dictionary?_spec {j : Json} {entries : List (Text × α)}
    (h : dictionary? read j = some entries) :
    (Named.names entries).Nodup ∧ ∀ entry ∈ entries, ∃ j, read j = some entry.2 := by
  cases j with
  | object members =>
    simp only [dictionary?, Option.bind_eq_bind, Option.bind_eq_some_iff, Option.pure_def] at h
    obtain ⟨all, hall, he⟩ := h
    cases he
    refine ⟨Named.nodup_ofList all, fun entry hentry => ?_⟩
    obtain ⟨⟨name, j⟩, -, hread⟩ := exists_of_mem_mapM hall (Named.mem_ofList hentry)
    obtain ⟨x, hx, rfl⟩ := Option.map_eq_some_iff.mp hread
    exact ⟨j, hx⟩
  | _ => cases h

end BlockEdit.Json
