import BlockEdit.Proofs.JsonLiterals
import Mathlib.Data.List.DropRight

/-!
# The texts of a JSON value

`Writes` says which texts stand for a value: strings and numbers as they are written, and any space
between the parts. Both ways of writing a value are of this kind, and every such text is read as the
value, in front of whatever can follow a value. So a value comes back from its text, however it is
laid out.

Strings and whole numbers always come back; of each other number `Legible` asks that it does.

Main statements:

* **`Writes.read`**: every text of a value is read as the value.
* **`ofText?_compact`**, **`ofText?_pretty`**: a legible value comes back from both of its texts.
-/

namespace BlockEdit.Json

variable {steps : Nat} {t rest : Text}

/-! ### Values -/

/-- Nothing but space. -/
def Blank (t : Text) : Prop := ∀ c ∈ t, isSpace c = true

mutual

/-- The text stands for the value. -/
inductive Writes : Json → Text → Prop
  | null : Writes .null "null".toList
  | bool (b : Bool) : Writes (.bool b) (if b then "true".toList else "false".toList)
  /-- A number is a sign and what is read behind it to its end. -/
  | number {negative : Bool} {j : Json} {t : Text} (h : readMagnitude? negative t = some (j, [])) :
    Writes j (signOf negative ++ t)
  | text (t : Text) : Writes (.text t) (quoted t)
  | emptyList : Writes (.list []) ['[', ']']
  | list {items : List Json} {t : Text} (h : WritesItems items t) :
    Writes (.list items) ('[' :: t ++ [']'])
  | emptyObject : Writes (.object []) ['\x7b', '\x7d']
  | object {members : List (Text × Json)} {t : Text} (h : WritesMembers members t) :
    Writes (.object members) ('\x7b' :: t ++ ['\x7d'])

/-- The text stands for the items of a list, of which there is at least one. -/
inductive WritesItems : List Json → Text → Prop
  | last {j : Json} {a t b : Text} (ha : Blank a) (h : Writes j t) (hb : Blank b) :
    WritesItems [j] (a ++ t ++ b)
  | more {j : Json} {items : List Json} {a t u : Text} (ha : Blank a) (h : Writes j t)
    (hs : WritesItems items u) : WritesItems (j :: items) (a ++ t ++ ',' :: u)

/-- The text stands for the members of an object, of which there is at least one. -/
inductive WritesMembers : List (Text × Json) → Text → Prop
  | last {name : Text} {j : Json} {a b t c : Text} (ha : Blank a) (hb : Blank b) (h : Writes j t)
    (hc : Blank c) : WritesMembers [(name, j)] (a ++ quoted name ++ ':' :: (b ++ t) ++ c)
  | more {name : Text} {j : Json} {members : List (Text × Json)} {a b t u : Text} (ha : Blank a)
    (hb : Blank b) (h : Writes j t) (hs : WritesMembers members u) :
    WritesMembers ((name, j) :: members) (a ++ quoted name ++ ':' :: (b ++ t) ++ ',' :: u)

end

/-- Space in front of a text is skipped. -/
theorem skipSpace_blank {a : Text} (ha : Blank a) (t : Text) : skipSpace (a ++ t) = skipSpace t :=
  List.dropWhile_append_of_pos ha

/-- Space is skipped once. -/
theorem skipSpace_skipSpace (t : Text) : skipSpace (skipSpace t) = skipSpace t :=
  List.dropWhile_idempotent isSpace t

/-- It does not matter to a value whether space in front of it was skipped. -/
theorem readValue?_skipSpace (steps : Nat) (t : Text) :
    readValue? steps (skipSpace t) = readValue? steps t := by
  rcases steps with _ | steps
  · rfl
  · rw [readValue?, readValue?, skipSpace_skipSpace]

/-- A value is read behind space as without it. -/
theorem readValue?_blank {a : Text} (ha : Blank a) (steps : Nat) (t : Text) :
    readValue? steps (a ++ t) = readValue? steps t := by
  rw [← readValue?_skipSpace, skipSpace_blank ha, readValue?_skipSpace]

/-- It does not matter to items whether space in front of them was skipped. -/
theorem readItems?_skipSpace (steps : Nat) (t : Text) :
    readItems? steps (skipSpace t) = readItems? steps t := by
  rcases steps with _ | steps
  · rfl
  · rw [readItems?, readItems?, readValue?_skipSpace]

/-- It does not matter to members whether space in front of them was skipped. -/
theorem readMembers?_skipSpace (steps : Nat) (t : Text) :
    readMembers? steps (skipSpace t) = readMembers? steps t := by
  rcases steps with _ | steps
  · rfl
  · rw [readMembers?, readMembers?, skipSpace_skipSpace]

/-- Space in front of what can follow a value can follow it too. -/
theorem closes_blank {a : Text} (ha : Blank a) (hrest : Closes rest) : Closes (a ++ rest) := by
  rcases a with _ | ⟨c, a⟩
  · exact hrest
  · exact closes_cons (Or.inl (ha c List.mem_cons_self)) _

/-- The first character of the text of a value. -/
theorem Writes.head {j : Json} (h : Writes j t) :
    ∃ c u, t = c :: u ∧ isSpace c = false ∧ c ≠ ']' := by
  cases h with
  | null => exact ⟨_, _, rfl, rfl, by decide⟩
  | bool b =>
    rcases b with _ | _
    · exact ⟨_, _, rfl, rfl, by decide⟩
    · exact ⟨_, _, rfl, rfl, by decide⟩
  | @number negative j t h =>
    obtain ⟨c, u, rfl, hc⟩ := head_of_readMagnitude? h
    rcases negative with _ | _
    · refine ⟨c, u, rfl, isSpace_of_isBareChar (Text.isBareChar_of_isDigit hc), ?_⟩
      rintro rfl
      cases hc
    · exact ⟨_, _, rfl, rfl, by decide⟩
  | text t => exact ⟨_, _, rfl, rfl, by decide⟩
  | emptyList => exact ⟨_, _, rfl, rfl, by decide⟩
  | list h => exact ⟨_, _, rfl, rfl, by decide⟩
  | emptyObject => exact ⟨_, _, rfl, rfl, by decide⟩
  | object h => exact ⟨_, _, rfl, rfl, by decide⟩

/-- The items of a list start like the first of them. -/
theorem WritesItems.skipSpace_ne {items : List Json} (h : WritesItems items t) (more rest : Text) :
    skipSpace (t ++ more) ≠ ']' :: rest := by
  have hfirst : ∀ {j : Json} {a t : Text}, Blank a → Writes j t → ∀ more,
      skipSpace (a ++ (t ++ more)) ≠ ']' :: rest := by
    intro j a t ha h more he
    obtain ⟨c, u, rfl, hc, hne⟩ := h.head
    rw [skipSpace_blank ha, List.cons_append, skipSpace_cons hc] at he
    exact hne (List.cons.inj he).1
  cases h with
  | last ha h hb =>
    rw [List.append_assoc, List.append_assoc]
    exact hfirst ha h _
  | more ha h hs =>
    rw [List.append_assoc, List.append_assoc]
    exact hfirst ha h _

/-- The members of an object start with a quote. -/
theorem WritesMembers.skipSpace_ne {members : List (Text × Json)} (h : WritesMembers members t)
    (more rest : Text) : skipSpace (t ++ more) ≠ '\x7d' :: rest := by
  have hfirst : ∀ {a : Text}, Blank a → ∀ name more,
      skipSpace (a ++ (quoted name ++ more)) ≠ '\x7d' :: rest := by
    intro a ha name more he
    rw [skipSpace_blank ha, quoted_append, skipSpace_cons rfl] at he
    exact absurd (List.cons.inj he).1 (by decide)
  cases h with
  | last ha hb h hc =>
    simp only [List.append_assoc]
    exact hfirst ha _ _
  | more ha hb h hs =>
    simp only [List.append_assoc]
    exact hfirst ha _ _

/-- What stands behind an opening bracket is read as items, unless the list ends there. -/
theorem readValue?_list (steps : Nat) (h : ∀ rest, skipSpace t ≠ ']' :: rest) :
    readValue? (steps + 1) ('[' :: t) =
      (readItems? steps t).map fun (items, rest) => (.list items, rest) := by
  rw [readValue?, skipSpace_cons rfl]
  dsimp only
  rw [if_neg (by decide), if_neg (by decide), if_neg (by decide), if_neg (by decide),
    if_neg (by decide), if_pos rfl]
  split
  · next he => exact absurd he (h _)
  · rw [readItems?_skipSpace]

/-- What stands behind an opening brace is read as members, unless the object ends there. -/
theorem readValue?_object (steps : Nat) (h : ∀ rest, skipSpace t ≠ '\x7d' :: rest) :
    readValue? (steps + 1) ('\x7b' :: t) =
      (readMembers? steps t).map fun (members, rest) => (ofMembers members, rest) := by
  rw [readValue?, skipSpace_cons rfl]
  dsimp only
  rw [if_neg (by decide), if_neg (by decide), if_neg (by decide), if_neg (by decide),
    if_neg (by decide), if_neg (by decide), if_pos rfl]
  split
  · next he => exact absurd he (h _)
  · rw [readMembers?_skipSpace]

/-- The name of a member and what stands behind it are read before the value is. -/
theorem readMembers?_name {a b : Text} (ha : Blank a) (hb : Blank b) (name : Text) (steps : Nat)
    (t : Text) : readMembers? (steps + 1) (a ++ (quoted name ++ ':' :: (b ++ t))) =
      (readValue? steps t).bind fun read =>
        match skipSpace read.2 with
        | '\x7d' :: rest => some ([(some name, read.1)], rest)
        | ',' :: rest => (readMembers? steps rest).map fun more =>
          ((some name, read.1) :: more.1, more.2)
        | _ => none := by
  rw [readMembers?, skipSpace_blank ha, quoted_append, skipSpace_cons rfl]
  show (readString? _).bind _ = _
  rw [readString?_quoted]
  exact congrArg (Option.bind · _) (readValue?_blank hb steps t)

/-- Members that are all defined make an object. -/
theorem ofMembers_map_some (members : List (Text × Json)) :
    ofMembers (members.map fun member => (some member.1, member.2)) = .object members := by
  have hnames : (members.map fun member => (some member.1, member.2)).all (·.1.isSome) = true := by
    simp
  rw [ofMembers, if_pos hnames, List.map_map]
  exact congrArg Json.object (List.map_id members)

mutual

/-- **Every text of a value is read as the value**, in front of whatever can follow it. -/
theorem Writes.read {j : Json} {t : Text} (h : Writes j t) {steps : Nat} {rest : Text}
    (hsteps : t.length ≤ steps) (hrest : Closes rest) :
    readValue? steps (t ++ rest) = some (j, rest) := by
  obtain ⟨c, u, hhead, -, -⟩ := h.head
  obtain ⟨steps, rfl⟩ : ∃ n, steps = n + 1 :=
    ⟨steps - 1, by rw [hhead, List.length_cons] at hsteps; omega⟩
  cases h with
  | null => rfl
  | bool b =>
    rcases b with _ | _
    · rfl
    · rfl
  | @number negative j t h =>
    obtain ⟨c, u, rfl, hc⟩ := head_of_readMagnitude? h
    rw [List.append_assoc, List.cons_append, readValue?_number hc, ← List.cons_append]
    exact (readMagnitude?_spec h).2 rest hrest
  | text t =>
    rw [quoted_append]
    show (readString? _).map _ = _
    rw [readString?_quoted]
    rfl
  | emptyList => rfl
  | @list items t h =>
    have hread : readItems? steps (t ++ ']' :: rest) = some (items, rest) :=
      WritesItems.read h (by simp at hsteps; omega)
    rw [List.cons_append, List.cons_append, List.append_assoc, List.singleton_append,
      readValue?_list steps (h.skipSpace_ne _), hread]
    rfl
  | emptyObject => rfl
  | @object members t h =>
    have hread : readMembers? steps (t ++ '\x7d' :: rest) =
        some (members.map fun member => (some member.1, member.2), rest) :=
      WritesMembers.read h (by simp at hsteps; omega)
    rw [List.cons_append, List.cons_append, List.append_assoc, List.singleton_append,
      readValue?_object steps (h.skipSpace_ne _), hread]
    exact congrArg (fun j => some (j, rest)) (ofMembers_map_some members)

/-- Items are read back from their text, each from its own and the space around it. -/
theorem WritesItems.read {items : List Json} {t : Text} (h : WritesItems items t) {steps : Nat}
    {rest : Text} (hsteps : t.length + 1 ≤ steps) :
    readItems? steps (t ++ ']' :: rest) = some (items, rest) := by
  obtain ⟨steps, rfl⟩ : ∃ n, steps = n + 1 := ⟨steps - 1, by omega⟩
  rw [readItems?]
  cases h with
  | @last j a t b ha h hb =>
    have hread : readValue? steps (t ++ (b ++ ']' :: rest)) = some (j, b ++ ']' :: rest) :=
      Writes.read h (by simp at hsteps; omega) (closes_blank hb (closes_cons (by simp) rest))
    rw [List.append_assoc, List.append_assoc, readValue?_blank ha, hread, Option.bind_eq_bind,
      Option.bind_some]
    dsimp only
    rw [skipSpace_blank hb, skipSpace_cons rfl]
    rfl
  | @more j items a t u ha h hs =>
    have hread : readValue? steps (t ++ ',' :: (u ++ ']' :: rest)) =
        some (j, ',' :: (u ++ ']' :: rest)) :=
      Writes.read h (by simp at hsteps; omega) (closes_cons (by simp) _)
    have hmore : readItems? steps (u ++ ']' :: rest) = some (items, rest) :=
      WritesItems.read hs (by simp at hsteps; omega)
    rw [List.append_assoc, List.append_assoc, readValue?_blank ha, List.cons_append, hread]
    show (readItems? steps (u ++ ']' :: rest)).map _ = _
    rw [hmore]
    rfl

/-- Members are read back from their text, each name and then its value. -/
theorem WritesMembers.read {members : List (Text × Json)} {t : Text} (h : WritesMembers members t)
    {steps : Nat} {rest : Text} (hsteps : t.length + 1 ≤ steps) :
    readMembers? steps (t ++ '\x7d' :: rest) =
      some (members.map fun member => (some member.1, member.2), rest) := by
  obtain ⟨steps, rfl⟩ : ∃ n, steps = n + 1 := ⟨steps - 1, by omega⟩
  cases h with
  | @last name j a b t c ha hb h hc =>
    have hread : readValue? steps (t ++ (c ++ '\x7d' :: rest)) = some (j, c ++ '\x7d' :: rest) :=
      Writes.read h (by simp at hsteps; omega) (closes_blank hc (closes_cons (by simp) rest))
    simp only [List.append_assoc, List.cons_append]
    rw [readMembers?_name ha hb, hread, Option.bind_some]
    dsimp only
    rw [skipSpace_blank hc, skipSpace_cons rfl]
    rfl
  | @more name j members a b t u ha hb h hs =>
    have hread : readValue? steps (t ++ ',' :: (u ++ '\x7d' :: rest)) =
        some (j, ',' :: (u ++ '\x7d' :: rest)) :=
      Writes.read h (by simp at hsteps; omega) (closes_cons (by simp) _)
    have hmore : readMembers? steps (u ++ '\x7d' :: rest) =
        some (members.map fun member => (some member.1, member.2), rest) :=
      WritesMembers.read hs (by simp at hsteps; omega)
    simp only [List.append_assoc, List.cons_append]
    rw [readMembers?_name ha hb, hread, Option.bind_some]
    show (readMembers? steps (u ++ '\x7d' :: rest)).map _ = _
    rw [hmore]
    rfl

end

/-- **A text of a value** is read as the value. -/
theorem ofText?_of_writes {j : Json} (h : Writes j t) : ofText? t = some j := by
  have hread : readValue? (2 * t.length + 2) (t ++ []) = some (j, []) :=
    h.read (by omega) closes_nil
  rw [List.append_nil] at hread
  rw [ofText?, hread]
  rfl

/-! ### Legible values -/

mutual

/-- Every number in the value reads back from its text, and nothing in it is undefined. -/
def Legible : Json → Prop
  | .int i => -(2 ^ 63) ≤ i ∧ i < 2 ^ 64
  | .real x => ofText? (realText x) = some (.real x)
  | .list items => LegibleItems items
  | .object members => LegibleMembers members
  | .undefined => False
  | _ => True

/-- All the values are legible. -/
def LegibleItems : List Json → Prop
  | [] => True
  | j :: js => j.Legible ∧ LegibleItems js

/-- The values of all the members are legible. -/
def LegibleMembers : List (Text × Json) → Prop
  | [] => True
  | (_, j) :: rest => j.Legible ∧ LegibleMembers rest

end

/-- A list is legible when its items are. -/
theorem legible_list_iff {items : List Json} :
    (Json.list items).Legible ↔ ∀ j ∈ items, j.Legible := by
  rw [Legible]
  induction items with
  | nil => simp [LegibleItems]
  | cons j items ih => rw [LegibleItems, ih, List.forall_mem_cons]

/-- An object is legible when its members are. -/
theorem legible_object_iff {members : List (Text × Json)} :
    (Json.object members).Legible ↔ ∀ member ∈ members, member.2.Legible := by
  rw [Legible]
  induction members with
  | nil => simp [LegibleMembers]
  | cons member members ih => rw [LegibleMembers, ih, List.forall_mem_cons]

/-- A legible integer stands in its text. -/
theorem writes_int {i : Int} (h : (Json.int i).Legible) : Writes (.int i) (Text.ofInt i) := by
  rw [Legible] at h
  have hread := readMagnitude?_ofNat (decide (i < 0)) i.natAbs
  rw [ofParts?_ofInt h.1 h.2] at hread
  rw [ofInt_eq]
  exact .number hread

/-- A legible number stands in its text. -/
theorem writes_real {x : Binary64} (h : (Json.real x).Legible) : Writes (.real x) (realText x) := by
  rw [Legible] at h
  exact .number (readMagnitude?_of_readsBack h)

/-- The empty text is nothing but space. -/
theorem blank_nil : Blank [] := fun _ h => by cases h

/-- A space is space. -/
theorem blank_space : Blank [' '] := by
  intro c hc
  rw [List.mem_singleton.mp hc]
  rfl

/-- The line end in front of an item and its indent are space. -/
theorem blank_newLine (depth : Nat) : Blank (newLine depth) := by
  intro c hc
  rcases List.mem_cons.mp hc with rfl | hc
  · rfl
  · rw [List.eq_of_mem_replicate hc]
    rfl

mutual

/-- **The compact text** of a legible value stands for it. -/
theorem writes_compact : ∀ {j : Json}, j.Legible → Writes j (compact j)
  | .null, _ => .null
  | .bool true, _ => .bool true
  | .bool false, _ => .bool false
  | .int _, h => writes_int h
  | .real _, h => writes_real h
  | .text t, _ => .text t
  | .list [], _ => .emptyList
  | .list (j :: items), h => .list (writesItems_compact (List.cons_ne_nil j items) h)
  | .object [], _ => .emptyObject
  | .object (m :: members), h => .object (writesMembers_compact (List.cons_ne_nil m members) h)

/-- Items without space between them stand for themselves. -/
theorem writesItems_compact : ∀ {items : List Json}, items ≠ [] → LegibleItems items →
    WritesItems items (compactItems items)
  | [], hne, _ => absurd rfl hne
  | [j], _, h => by
    rw [compactItems, ← List.append_nil (compact j)]
    exact .last blank_nil (writes_compact h.1) blank_nil
  | j :: k :: items, _, h => by
    rw [compactItems]
    · exact .more blank_nil (writes_compact h.1)
        (writesItems_compact (List.cons_ne_nil k items) h.2)
    · exact List.cons_ne_nil k items

/-- Members without space between them stand for themselves. -/
theorem writesMembers_compact : ∀ {members : List (Text × Json)}, members ≠ [] →
    LegibleMembers members → WritesMembers members (compactMembers members)
  | [], hne, _ => absurd rfl hne
  | [(name, j)], _, h => by
    rw [compactMembers, ← List.append_nil (_ ++ _)]
    exact .last blank_nil blank_nil (writes_compact h.1) blank_nil
  | (name, j) :: m :: members, _, h => by
    rw [compactMembers]
    · exact .more blank_nil blank_nil (writes_compact h.1)
        (writesMembers_compact (List.cons_ne_nil m members) h.2)
    · exact List.cons_ne_nil m members

end

mutual

/-- **The text with its parts on lines of their own** of a legible value stands for it. -/
theorem writes_prettyAt : ∀ {j : Json} (depth : Nat), j.Legible → Writes j (prettyAt depth j)
  | .null, _, _ => .null
  | .bool true, _, _ => .bool true
  | .bool false, _, _ => .bool false
  | .int _, _, h => writes_int h
  | .real _, _, h => writes_real h
  | .text t, _, _ => .text t
  | .list [], _, _ => .emptyList
  | .list (j :: items), depth, h => by
    rw [prettyAt, List.cons_append]
    exact .list (writesItems_prettyItems (depth + 1) (List.cons_ne_nil j items) h
      (blank_newLine depth))
  | .object [], _, _ => .emptyObject
  | .object (m :: members), depth, h => by
    rw [prettyAt, List.cons_append]
    exact .object (writesMembers_prettyMembers (depth + 1) (List.cons_ne_nil m members) h
      (blank_newLine depth))

/-- Items on lines of their own stand for themselves, since only space is added. -/
theorem writesItems_prettyItems : ∀ {items : List Json} (depth : Nat), items ≠ [] →
    LegibleItems items → ∀ {b : Text}, Blank b →
      WritesItems items (prettyItems depth items ++ b)
  | [], _, hne, _, _, _ => absurd rfl hne
  | [j], depth, _, h, b, hb => by
    rw [prettyItems]
    exact .last (blank_newLine depth) (writes_prettyAt depth h.1) hb
  | j :: k :: items, depth, _, h, b, hb => by
    rw [prettyItems, List.append_assoc, List.cons_append]
    · exact .more (blank_newLine depth) (writes_prettyAt depth h.1)
        (writesItems_prettyItems depth (List.cons_ne_nil k items) h.2 hb)
    · exact List.cons_ne_nil k items

/-- Members on lines of their own stand for themselves. -/
theorem writesMembers_prettyMembers : ∀ {members : List (Text × Json)} (depth : Nat),
    members ≠ [] → LegibleMembers members → ∀ {c : Text}, Blank c →
      WritesMembers members (prettyMembers depth members ++ c)
  | [], _, hne, _, _, _ => absurd rfl hne
  | [(name, j)], depth, _, h, c, hc => by
    rw [prettyMembers]
    exact .last (blank_newLine depth) blank_space (writes_prettyAt depth h.1) hc
  | (name, j) :: m :: members, depth, _, h, c, hc => by
    rw [prettyMembers, List.append_assoc, List.cons_append]
    · exact .more (blank_newLine depth) blank_space (writes_prettyAt depth h.1)
        (writesMembers_prettyMembers depth (List.cons_ne_nil m members) h.2 hc)
    · exact List.cons_ne_nil m members

end

/-- **A legible value comes back** from its compact text. -/
theorem ofText?_compact {j : Json} (h : j.Legible) : ofText? j.compact = some j :=
  ofText?_of_writes (writes_compact h)

/-- **A legible value comes back** from its text with a line for each part. -/
theorem ofText?_pretty {j : Json} (h : j.Legible) : ofText? j.pretty = some j :=
  ofText?_of_writes (writes_prettyAt 0 h)

end BlockEdit.Json
