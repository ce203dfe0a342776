import BlockEdit.Tree.Slot

/-!
# Values that fit their slots

A slot holds no value or one that its type leaves as it is. Defaults fit, what a document or an
edit puts into a slot fits, and a text that does not read as the type fits the relaxed type that
the slot gets with it.

Main statements:

* **`Value.conform_eq_ok_iff`**: a type leaves just the values of that type as they are.
* **`Slot.fits_setValue`**, **`Slot.fits_setText`**, **`Slot.fits_relaxTo`**: what is put into a
  slot fits it.
-/

namespace BlockEdit

/-! ### Values of a type -/

/-- A scalar of a kind is left as it is. -/
theorem Scalar.conform?_of_kind {s : Scalar} {kind : ScalarKind} (h : s.kind = kind) :
    s.conform? kind = some s := by
  subst h
  cases s <;> rfl

/-- What a scalar is made into is of the kind that was asked for. -/
theorem Scalar.kind_of_conform? {s t : Scalar} {kind : ScalarKind}
    (h : s.conform? kind = some t) : t.kind = kind := by
  unfold conform? at h
  split at h
  · obtain ⟨x, -, rfl⟩ := Option.map_eq_some_iff.mp h
    rfl
  · split at h
    · next hk => cases h; exact hk
    · cases h

/-- An item of a kind that can stand in a list is left as it is. -/
theorem Value.conformItem?_of_fits {kind : ScalarKind} {item : Scalar} (hk : item.kind = kind)
    (hi : item.isItem = true) : conformItem? kind item = some item := by
  rw [conformItem?, Scalar.conform?_of_kind hk, Option.bind_some, if_pos hi]

/-- What an item is made into is of the kind, and can stand in a list. -/
theorem Value.fits_of_conformItem? {kind : ScalarKind} {item t : Scalar}
    (h : conformItem? kind item = some t) : t.kind = kind ∧ t.isItem = true := by
  rw [conformItem?] at h
  obtain ⟨u, hu, hi⟩ := Option.bind_eq_some_iff.mp h
  split at hi
  · next hitem =>
    cases hi
    exact ⟨Scalar.kind_of_conform? hu, hitem⟩
  · cases hi

/-- A list whose items are all of the kind is left as it is. -/
theorem Value.mapM_conformItem?_of_fits {kind : ScalarKind} : {items : List Scalar} →
    (∀ item ∈ items, item.kind = kind ∧ item.isItem = true) →
      items.mapM (conformItem? kind) = some items
  | [], _ => rfl
  | item :: items, h => by
    have hhead := h item List.mem_cons_self
    have htail := mapM_conformItem?_of_fits fun t ht => h t (List.mem_cons_of_mem _ ht)
    rw [List.mapM_cons, conformItem?_of_fits hhead.1 hhead.2, htail]
    rfl

/-- What the items of a list are made into is of the kind throughout. -/
theorem Value.fits_of_mapM_conformItem? {kind : ScalarKind} : {items ts : List Scalar} →
    items.mapM (conformItem? kind) = some ts → ∀ t ∈ ts, t.kind = kind ∧ t.isItem = true
  | [], ts, h => by
    cases h
    simp
  | item :: items, ts, h => by
    rw [List.mapM_cons] at h
    obtain ⟨u, hu, h⟩ := Option.bind_eq_some_iff.mp h
    obtain ⟨us, hus, h⟩ := Option.bind_eq_some_iff.mp h
    cases h
    intro t ht
    rcases List.mem_cons.mp ht with rfl | ht
    · exact fits_of_conformItem? hu
    · exact fits_of_mapM_conformItem? hus t ht

/-- A type leaves the values of that type as they are. -/
theorem Value.conform_of_hasType {v : Value} {type : ValueType} (h : v.HasType type) :
    v.conform type = .ok v := by
  rcases v with s | items <;> rcases type with kind | kind
  · have hs : s.kind = kind := h
    rw [conform, Scalar.conform?_of_kind hs]
  · exact absurd h (by simp [HasType])
  · exact absurd h (by simp [HasType])
  · have hitems : ∀ item ∈ items, item.kind = kind ∧ item.isItem = true := h
    rw [conform, mapM_conformItem?_of_fits hitems]

/-- What a type makes of a value is of that type. -/
theorem Value.hasType_of_conform {v w : Value} {type : ValueType} (h : v.conform type = .ok w) :
    w.HasType type := by
  rcases v with s | items <;> rcases type with kind | kind
  · rw [conform] at h
    split at h
    · next hs => cases h; exact Scalar.kind_of_conform? hs
    · cases h
  · cases h
  · cases h
  · rw [conform] at h
    split at h
    · next hs => cases h; exact fits_of_mapM_conformItem? hs
    · cases h

/-- **A type leaves a value as it is** exactly when the value is of that type. -/
theorem Value.conform_eq_ok_iff {v : Value} {type : ValueType} :
    v.conform type = .ok v ↔ v.HasType type :=
  ⟨hasType_of_conform, conform_of_hasType⟩

/-! ### Slots -/

namespace Slot

/-- The slot has no value, or one that its type leaves as it is. -/
def Fits (s : Slot) : Prop := ∀ v, s.value = some v → v.conform s.type = .ok v

/-- A parameter without a value fits. -/
theorem fits_of_none {s : Slot} (h : s.value = none) : s.Fits := by
  intro v hv
  rw [h] at hv
  cases hv

/-- A parameter fits whose value is of its type. -/
theorem fits_of_hasType {s : Slot} {v : Value} (hv : s.value = some v) (h : v.HasType s.type) :
    s.Fits := by
  intro w hw
  rw [hv] at hw
  cases hw
  exact Value.conform_of_hasType h

/-- The value of a parameter that fits is of its type. -/
theorem hasType_of_fits {s : Slot} {v : Value} (h : s.Fits) (hv : s.value = some v) :
    v.HasType s.type :=
  Value.hasType_of_conform (h v hv)

/-- A default is of the type of its parameter. -/
theorem hasType_of_defaultValue {p : ParameterSchema} {v : Value}
    (h : p.defaultValue = some v) : v.HasType p.valueType := by
  simp only [ParameterSchema.defaultValue] at h
  split at h
  · split at h
    · next hb => cases h; rw [hb]; rfl
    · cases h
  · rcases hr : p.valueType.read (Text.trim (p.default.getD [])) with e | w
    · rw [hr] at h; cases h
    · rw [hr] at h
      cases h
      exact ValueType.hasType_of_read hr

/-- A parameter as its schema has it fits. -/
theorem fits_ofSchema (p : ParameterSchema) : (ofSchema p).Fits :=
  fun _ hv => Value.conform_of_hasType (hasType_of_defaultValue hv)

/-- A parameter that the user adds fits, because it takes any text. -/
theorem fits_user (name t : Text) : (user name t).Fits :=
  fits_of_hasType rfl rfl

/-- A parameter that is read without a schema fits, because it takes any text. -/
theorem fits_untyped (name t : Text) : (untyped name t).Fits :=
  fits_of_hasType rfl rfl

/-- **A value that is set** fits. -/
theorem fits_setValue {s s' : Slot} {v : Value} (h : s.setValue v = .ok s') : s'.Fits := by
  obtain ⟨w, hw, rfl⟩ := value_setValue h
  exact fits_of_hasType rfl (Value.hasType_of_conform (checkValue_eq_ok.mp hw).1)

/-- **The value of a document** fits. -/
theorem fits_setText {s s' : Slot} {t : Text} (h : s.setText t = .ok s') : s'.Fits := by
  rw [setText] at h
  rcases hr : s.type.read t with e | w
  · rw [hr] at h; cases h
  · rw [hr] at h
    cases h
    exact fits_of_hasType rfl (ValueType.hasType_of_read hr)

/-- A text that is set keeps the name of its parameter. -/
theorem name_setText {s s' : Slot} {t : Text} (h : s.setText t = .ok s') :
    s'.name = s.name := by
  rw [setText] at h
  rcases hv : s.type.read t with e | v
  · rw [hv] at h
    cases h
  · rw [hv] at h
    cases h
    rfl

/-- **A text that does not read as the type** fits the type that the slot gets with it. -/
theorem fits_relaxTo (s : Slot) (t : Text) : (s.relaxTo t).Fits := by
  rcases hr : s.type.relaxed.read t with e | w
  · exact fits_of_none (by rw [relaxTo, hr]; rfl)
  · exact fits_of_hasType (v := w) (by rw [relaxTo, hr]; rfl) (ValueType.hasType_of_read hr)

/-- The value and the comment of a slot of the same type fit. -/
theorem fits_copyState {s o : Slot} (ht : o.type = s.type) (h : o.Fits) : (s.copyState o).Fits := by
  intro v hv
  have := h v hv
  rwa [ht] at this

/-- A comment does not matter to whether a parameter fits. -/
theorem fits_comments {s : Slot} (h : s.Fits) (c : Text) : ({ s with comments := c } : Slot).Fits :=
  h

end Slot

end BlockEdit
