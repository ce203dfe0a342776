import BlockEdit.Text.Basic

/-!
# Maps sorted by a text

A map from texts to values is kept as the list of its entries, in increasing order of the keys.
Texts are compared character by character, which is also the order of their bytes.

Main statements:

* **`find?_insert`**, **`find?_insert_of_ne`**: a look-up sees the last value inserted at its key.
-/

namespace BlockEdit

/-- A map from texts to values: its entries in increasing order of the keys. -/
structure SortedMap (β : Type) where
  /-- The entries of the map. -/
  entries : List (Text × β)
deriving Repr, DecidableEq

namespace SortedMap

variable {β : Type}

/-- The map without entries. -/
def empty : SortedMap β := ⟨[]⟩

/-- The entries with `value` at `key`, in place of what was there. -/
def insertEntry (key : Text) (value : β) : List (Text × β) → List (Text × β)
  | [] => [(key, value)]
  | (k, v) :: rest =>
    if key = k then (key, value) :: rest
    else if key < k then (key, value) :: (k, v) :: rest
    else (k, v) :: insertEntry key value rest

/-- The value at `key`. -/
def valueIn? (key : Text) : List (Text × β) → Option β
  | [] => none
  | (k, v) :: rest => if key = k then some v else valueIn? key rest

/-- The map with `value` at `key`, in place of what was there. -/
def insert (key : Text) (value : β) (m : SortedMap β) : SortedMap β :=
  ⟨insertEntry key value m.entries⟩

/-- The value at `key`. -/
def find? (key : Text) (m : SortedMap β) : Option β := valueIn? key m.entries

/-- The map without the entry at `key`. -/
def erase (key : Text) (m : SortedMap β) : SortedMap β :=
  ⟨m.entries.filter fun entry => decide (entry.1 ≠ key)⟩

/-- The keys of the map, in increasing order. -/
def keys (m : SortedMap β) : List Text := m.entries.map Prod.fst

/-- The values of the map, in the order of their keys. -/
def values (m : SortedMap β) : List β := m.entries.map Prod.snd

/-- The map of the entries, of which a later one replaces an earlier one with the same key. -/
def ofList (entries : List (Text × β)) : SortedMap β :=
  entries.foldl (fun m entry => m.insert entry.1 entry.2) empty

/-! ## Laws -/

/-- The value that was put under a key is found there. -/
theorem valueIn?_insertEntry (key : Text) (value : β) :
    (es : List (Text × β)) → valueIn? key (insertEntry key value es) = some value
  | [] => by simp [insertEntry, valueIn?]
  | (k, v) :: rest => by
    simp only [insertEntry]
    split
    · simp [valueIn?]
    · split
      · simp [valueIn?]
      · next h _ => simp [valueIn?, h, valueIn?_insertEntry key value rest]

/-- Under another key the same is found as before. -/
theorem valueIn?_insertEntry_of_ne {key other : Text} (h : other ≠ key) (value : β) :
    (es : List (Text × β)) → valueIn? other (insertEntry key value es) = valueIn? other es
  | [] => by simp [insertEntry, valueIn?, h]
  | (k, v) :: rest => by
    simp only [insertEntry]
    split
    · next hk => subst hk; simp [valueIn?, h]
    · split
      · simp [valueIn?, h]
      · simp [valueIn?, valueIn?_insertEntry_of_ne h value rest]

/-- **A look-up sees the last value** inserted at its key. -/
@[simp] theorem find?_insert (key : Text) (value : β) (m : SortedMap β) :
    (m.insert key value).find? key = some value :=
  valueIn?_insertEntry key value m.entries

/-- **A look-up at another key** does not see an insertion. -/
theorem find?_insert_of_ne {key other : Text} (h : other ≠ key) (value : β) (m : SortedMap β) :
    (m.insert key value).find? other = m.find? other :=
  valueIn?_insertEntry_of_ne h value m.entries

end SortedMap

end BlockEdit
