import BlockEdit.Text.Basic

/-!
# Lists of named things

Parameters, child blocks and catalog entries keep the order in which they came and are looked up
by name. A list of things that carry a name is enough for that: `put` takes the place of a thing of
the same name or goes to the end, `remove` takes out one name and keeps the order of the rest.

Main statements:

* **`find?_put`**, **`find?_put_of_ne`**: a look-up sees the last thing put under its name.
* **`names_put`**: putting adds a name at the end or leaves the names as they are.
-/

namespace BlockEdit

/-- Things that are looked up by a name. -/
class Named (α : Type) where
  /-- The name of a thing. -/
  name : α → Text

namespace Named

instance {β : Type} : Named (Text × β) := ⟨Prod.fst⟩

variable {α : Type} [Named α]

/-- The names in the list, in order. -/
def names (xs : List α) : List Text := xs.map name

/-- The first thing of this name. -/
def find? (n : Text) : List α → Option α
  | [] => none
  | x :: xs => if name x = n then some x else find? n xs

/-- Whether a thing of this name is in the list. -/
def has (n : Text) (xs : List α) : Bool := (find? n xs).isSome

/-- The list with `x` in the place of the thing of its name, or at the end. -/
def put (x : α) : List α → List α
  | [] => [x]
  | y :: ys => if name y = name x then x :: ys else y :: put x ys

/-- The list without the first thing of this name. -/
def remove (n : Text) : List α → List α
  | [] => []
  | x :: xs => if name x = n then xs else x :: remove n xs

/-- The list with `f` applied to the first thing of this name. -/
def update (n : Text) (f : α → α) : List α → List α
  | [] => []
  | x :: xs => if name x = n then f x :: xs else x :: update n f xs

/-- The place of the first thing of this name, or the length of the list. -/
def indexOf (n : Text) : List α → Nat
  | [] => 0
  | x :: xs => if name x = n then 0 else indexOf n xs + 1

/-- The things of `xs` put one after the other. -/
def ofList (xs : List α) : List α := xs.foldl (fun acc x => put x acc) []

/-! ## Laws -/

/-- What is found under a name has it. -/
theorem name_of_find? {n : Text} {x : α} : {xs : List α} → find? n xs = some x → name x = n
  | [], h => by simp [find?] at h
  | y :: ys, h => by
    simp only [find?] at h
    split at h
    · next hy => cases h; exact hy
    · exact name_of_find? h

/-- What is found is in the list. -/
theorem mem_of_find? {n : Text} {x : α} : {xs : List α} → find? n xs = some x → x ∈ xs
  | [], h => by simp [find?] at h
  | y :: ys, h => by
    simp only [find?] at h
    split at h
    · cases h; exact List.mem_cons_self
    · exact List.mem_cons_of_mem _ (mem_of_find? h)

/-- Nothing is found under just the names that no element has. -/
theorem find?_eq_none_iff {n : Text} : {xs : List α} → find? n xs = none ↔ n ∉ names xs
  | [] => by simp [find?, names]
  | y :: ys => by
    have ih : find? n ys = none ↔ n ∉ names ys := find?_eq_none_iff
    simp only [find?, names, List.map_cons, List.mem_cons, not_or]
    split
    · next h => simp [h]
    · next h => rw [ih]; exact ⟨fun hn => ⟨fun e => h e.symm, hn⟩, fun hn => hn.2⟩

/-- A list has a name when an element has it. -/
theorem has_iff {n : Text} {xs : List α} : has n xs = true ↔ n ∈ names xs := by
  have h : find? n xs = none ↔ n ∉ names xs := find?_eq_none_iff
  rw [has, Option.isSome_iff_ne_none, ne_eq, h]
  exact Decidable.not_not

/-- **A look-up sees what was put last** under its name. -/
theorem find?_put (x : α) : (xs : List α) → find? (name x) (put x xs) = some x
  | [] => by simp [put, find?]
  | y :: ys => by
    simp only [put]
    split
    · simp [find?]
    · next h => simp [find?, h, find?_put x ys]

/-- **A look-up of another name** does not see what was put. -/
theorem find?_put_of_ne {x : α} {n : Text} (h : name x ≠ n) :
    (xs : List α) → find? n (put x xs) = find? n xs
  | [] => by simp [put, find?, h]
  | y :: ys => by
    simp only [put]
    split
    · next hy => simp [find?, h, hy]
    · simp only [find?, find?_put_of_ne h ys]

/-- **Putting** adds the name at the end, or leaves the names as they are. -/
theorem names_put (x : α) : (xs : List α) →
    names (put x xs) = if name x ∈ names xs then names xs else names xs ++ [name x]
  | [] => by simp [put, names]
  | y :: ys => by
    have ih := names_put x ys
    simp only [put, names, List.map_cons, List.mem_cons] at ih ⊢
    by_cases h : name y = name x
    · simp [h]
    · have h' : ¬ name x = name y := fun e => h e.symm
      simp only [h, h', if_false, false_or, List.map_cons, ih]
      split <;> simp_all

end Named

end BlockEdit
