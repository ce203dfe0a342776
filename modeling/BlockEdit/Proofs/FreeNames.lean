import BlockEdit.Proofs.Effects
import Mathlib.Data.Nat.Init

/-!
# Free names

A new child has the name that was asked for if it is free, and otherwise one with a number behind
it. The search for the number has no end of its own: it goes on for as long as the names are taken.
It ends because the names that are tried differ from each other, and a block has only so many
children that could have them.

`Search` is that search, without a bound; how far it goes is what there is to prove.

Main statements:

* **`Edit.search_iff`**: a search stops at the first of the names that is free.
* **`Edit.Search.le`**: the names that it passes over are not more than the children.
* **`Edit.search_freshName`**: the name of a new child is where the search stops.
-/

namespace BlockEdit

namespace Edit

variable {parent : Block}

/-! ### The search -/

/-- The search for a name that no child has: it goes through the names from `start` on, and stops at
`stop`. -/
inductive Search (parent : Block) (names : Nat → Text) : (start stop : Nat) → Prop where
  /-- It stops at a name that is free. -/
  | free {i : Nat} (h : parent.hasChild (names i) = false) : Search parent names i i
  /-- It goes on after a name that is taken. -/
  | taken {i stop : Nat} (h : parent.hasChild (names i) = true)
      (rest : Search parent names (i + 1) stop) : Search parent names i stop

section search

variable {names : Nat → Text} {start stop : Nat}

/-- **A search** stops at the first of the names that is free. -/
theorem search_iff : Search parent names start stop ↔
    start ≤ stop ∧ parent.hasChild (names stop) = false ∧
      ∀ i, start ≤ i → i < stop → parent.hasChild (names i) = true := by
  constructor
  · intro h
    induction h with
    | free h => exact ⟨Nat.le_refl _, h, fun i hle hlt => absurd hlt (Nat.not_lt.mpr hle)⟩
    | taken h _ ih =>
      obtain ⟨hle, hfree, htaken⟩ := ih
      refine ⟨Nat.le_of_succ_le hle, hfree, fun j hj hlt => ?_⟩
      rcases Nat.eq_or_lt_of_le hj with rfl | hj
      · exact h
      · exact htaken j hj hlt
  · rintro ⟨hle, hfree, htaken⟩
    -- The search is put together from its end.
    induction hle using Nat.decreasingInduction with
    | self => exact .free hfree
    | of_succ i hlt ih =>
      exact .taken (htaken i (Nat.le_refl i) hlt) (ih fun j hj => htaken j (Nat.le_of_succ_le hj))

/-- A search that starts behind the first name is one of the names behind it. -/
theorem Search.shift (h : Search parent (fun i => names (i + 1)) start stop) :
    Search parent names (start + 1) (stop + 1) := by
  induction h with
  | free h => exact .free h
  | taken h _ ih => exact .taken h ih

/-- **The names that a search passes over** are not more than the children. -/
theorem Search.le (hinj : Function.Injective names) (h : Search parent names 0 stop) :
    stop ≤ parent.children.length + parent.unused.length := by
  obtain ⟨-, -, htaken⟩ := search_iff.mp h
  exact le_of_hasChild hinj fun i hi => htaken i (Nat.zero_le i) hi

end search

/-! ### What is tried -/

/-- The names that are tried for a new child, in order: the one that was asked for, if one was, and
the numbered ones. -/
def candidate : Option Text → Nat → Text
  | none, i => numbered "New".toList i
  | some name, 0 => name
  | some name, i + 1 => numbered name i

/-- A name with a number is longer than the name. -/
theorem numbered_ne (base : Text) (i : Nat) : numbered base i ≠ base := by
  intro h
  have hlength := congrArg List.length h
  simp only [numbered, List.length_append, List.length_cons] at hlength
  omega

/-- Different indices give different candidates. -/
theorem candidate_injective (asked : Option Text) : Function.Injective (candidate asked) := by
  intro i j h
  rcases asked with _ | name
  · exact numbered_injective _ h
  rcases i with _ | i
  · rcases j with _ | j
    · rfl
    · exact absurd h.symm (numbered_ne name j)
  · rcases j with _ | j
    · exact absurd h (numbered_ne name i)
    · exact congrArg Nat.succ (numbered_injective name h)

/-- The numbered name that is found is where the search among them stops. -/
theorem search_freshFrom (parent : Block) (base : Text) : ∃ stop,
    Search parent (numbered base) 0 stop ∧
      freshFrom parent base (parent.children.length + parent.unused.length) 0 =
        numbered base stop := by
  have hfree := hasChild_freshFrom parent base 0
  obtain ⟨stop, hname, hle, hbefore, -⟩ := freshFrom_spec parent base
    (parent.children.length + parent.unused.length) 0
  rw [hname] at hfree
  exact ⟨stop, search_iff.mpr ⟨hle, hfree, hbefore⟩, hname⟩

/-- **The name of a new child** is where the search for it stops. -/
theorem search_freshName (parent : Block) (asked : Option Text) :
    ∃ stop, Search parent (candidate asked) 0 stop ∧
      freshName parent asked = candidate asked stop := by
  rcases asked with _ | name
  · exact search_freshFrom parent _
  · rcases hname : parent.hasChild name with _ | _
    · refine ⟨0, .free hname, ?_⟩
      simp [freshName, hname, candidate]
    · obtain ⟨stop, hsearch, hnumbered⟩ := search_freshFrom parent name
      refine ⟨stop + 1, .taken hname (Search.shift hsearch), ?_⟩
      simp [freshName, hname, candidate, hnumbered]

/-! ### What is found -/

/-- What there is to say about the name that is found for a new child. -/
structure FirstFree (parent : Block) (asked : Option Text) (name : Text) : Prop where
  /-- No child has it, neither one of the document nor an unused one. -/
  free : name ∉ Named.names parent.children ∧ name ∉ Named.names parent.unused
  /-- It is the name that was asked for if no child has that one. -/
  same : ∀ base ∈ asked, parent.hasChild base = false → name = base
  /-- Otherwise it is the first of the numbered names that is free. -/
  first : (∀ base ∈ asked, parent.hasChild base = true) →
    ∃ k, name = numbered (asked.getD "New".toList) k ∧
      ∀ j < k, parent.hasChild (numbered (asked.getD "New".toList) j) = true
  /-- The search for it ends, and the names that were tried are at most one more than the
  children. -/
  tried : ∃ stop, Search parent (candidate asked) 0 stop ∧ name = candidate asked stop ∧
    stop + 1 ≤ parent.children.length + parent.unused.length + 1
  /-- It can be given to a child when the name that was asked for can. -/
  checked : (∀ base ∈ asked, checkName base = .ok ()) → checkName name = .ok ()

/-- **The name of a new child** is found, and it is the first that is free. -/
theorem firstFree_freshName (parent : Block) (asked : Option Text) :
    FirstFree parent asked (freshName parent asked) := by
  obtain ⟨stop, hsearch, hname⟩ := search_freshName parent asked
  have hle := hsearch.le (candidate_injective asked)
  obtain ⟨-, -, htaken⟩ := search_iff.mp hsearch
  refine ⟨Block.hasChild_eq_false_iff.mp (hasChild_freshName parent asked), ?_, ?_,
    ⟨stop, hsearch, hname, Nat.succ_le_succ hle⟩, ?_⟩
  · intro base hasked hfree
    obtain rfl := Option.mem_def.mp hasked
    simp [freshName, hfree]
  · intro hasked
    rcases asked with _ | base
    · exact ⟨stop, hname, fun j hj => htaken j (Nat.zero_le j) hj⟩
    · rcases stop with _ | k
      · have hfree := hasChild_freshName parent (some base)
        rw [hname, candidate, hasked base rfl] at hfree
        cases hfree
      · exact ⟨k, hname, fun j hj => htaken (j + 1) (Nat.zero_le _) (Nat.succ_lt_succ hj)⟩
  · intro hchecked
    have hname : isName (freshName parent asked) = true :=
      isName_freshName fun base hbase => isName_of_checkName (hchecked base hbase)
    rw [checkName, if_pos hname]

/-- Where `u` and `u_0` are children of the document and `u_1` is an unused one, `u_2` is found. -/
theorem firstFree_freshName_sample :
    ∃ parent : Block,
      Named.names parent.children = ["u".toList, "u_0".toList] ∧
        Named.names parent.unused = ["u_1".toList] ∧
          FirstFree parent (some "u".toList) "u_2".toList := by
  let child (name : Text) : Block := .fresh name [] none none
  let parent : Block :=
    { child [] with
      children := [child "u".toList, child "u_0".toList], unused := [child "u_1".toList] }
  have hname : freshName parent (some "u".toList) = "u_2".toList := by decide
  exact ⟨parent, rfl, rfl, hname ▸ firstFree_freshName parent (some "u".toList)⟩

end Edit

end BlockEdit
