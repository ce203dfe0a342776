import BlockEdit.Proofs.Engine
import BlockEdit.Proofs.Following

/-!
# The selected block

An engine remembers the selected block by its identity, and that identity has to stay the one of a
block of the document: it follows the block through edits, goes when the block goes, and is found
anew when the text is read. `Engine.Passage` says of each step what it does to document and
selection, whatever else it does.

Main statements:

* **`IdentityTable.identity?_resolveAnew`**: in a document that was read anew there is nothing to
  select exactly when there is no block.
* **`Engine.passage_act`**: every step is one of these passages.
* **`Engine.Tracked.selection`**: in every run a selected identity is that of a block of the
  document, and it goes only with its block or when a text without blocks is read.
-/

namespace BlockEdit

open Block (Grounded)

/-! ### Finding a block anew -/

namespace IdentityTable

variable {path : Text} {root : Block}

/-- Of the best block so far and one more, one is the best. -/
theorem fst_better (path : Text) (best : Option (Block × Binary64)) (b : Block) :
    ∃ s, better path best b = some (b, s) ∨ ∃ a, best = some (a, s) ∧
      better path best b = some (a, s) := by
  rcases best with _ | ⟨a, s⟩
  · exact ⟨_, Or.inl rfl⟩
  · by_cases hs : s.units < (Text.similarity path b.path).units
    · exact ⟨Text.similarity path b.path, Or.inl (by simp [better, hs])⟩
    · exact ⟨s, Or.inr ⟨a, rfl, by simp [better, hs]⟩⟩

/-- The best of some blocks is one of them, or the best from before. -/
theorem mem_of_foldl_better : ∀ (bs : List Block) {best : Option (Block × Binary64)} {b : Block}
    {s : Binary64}, bs.foldl (better path) best = some (b, s) →
      b ∈ bs ∨ ∃ s, best = some (b, s)
  | [], best, b, s, h => Or.inr ⟨s, h⟩
  | c :: bs, best, b, s, h => by
    rcases mem_of_foldl_better bs h with hmem | ⟨s', hbest⟩
    · exact Or.inl (List.mem_cons_of_mem c hmem)
    · obtain ⟨t, hnew | ⟨a, hold, hsame⟩⟩ := fst_better path best c
      · rw [hnew] at hbest
        cases hbest
        exact Or.inl List.mem_cons_self
      · rw [hsame] at hbest
        cases hbest
        exact Or.inr ⟨_, hold⟩

/-- A best block stays one, or a better one takes its place. -/
theorem foldl_better_isSome (path : Text) : ∀ (bs : List Block)
    {best : Option (Block × Binary64)},
    best.isSome = true → (bs.foldl (better path) best).isSome = true
  | [], _, h => h
  | c :: bs, best, _ => by
    apply foldl_better_isSome path bs
    obtain ⟨s, hnew | ⟨a, -, hsame⟩⟩ := fst_better path best c
    · rw [hnew, Option.isSome_some]
    · rw [hsame, Option.isSome_some]

/-- **Finding a block anew** gives the identity of a block of the document, and nothing only when
the document has no block. -/
theorem identity?_resolveAnew (h : Grounded root) (i : Identity) :
    (∃ b ∈ root.inside, (resolveAnew root i).identity? = some (Identity.ofBlock b)) ∨
      root.inside = [] ∧ (resolveAnew root i).identity? = none := by
  unfold resolveAnew
  split
  · next b hb =>
    obtain ⟨hfind, hbelow⟩ := Option.filter_eq_some_iff.mp hb
    refine Or.inl ⟨b, ?_, rfl⟩
    rw [← addressable_eq h, addressable, List.mem_filter]
    exact ⟨Block.mem_descendants_of_descend? _ hfind, hbelow⟩
  · split
    · next b score hbest =>
      refine Or.inl ⟨b, ?_, rfl⟩
      rw [← addressable_eq h]
      rcases mem_of_foldl_better _ hbest with hmem | ⟨s, hnone⟩
      · exact hmem
      · cases hnone
    · next hbest =>
      refine Or.inr ⟨?_, rfl⟩
      rw [← addressable_eq h]
      rcases hblocks : addressable root with _ | ⟨b, bs⟩
      · rfl
      · rw [hblocks, List.foldl_cons] at hbest
        have hsome := foldl_better_isSome (Identity.path i) bs
          (show (better (Identity.path i) none b).isSome = true from rfl)
        rw [hbest] at hsome
        cases hsome

end IdentityTable

/-! ### Where an identity goes -/

/-- Where an identity is after the changes, if its block is still there. -/
def IdentityChanges.follow? (c : IdentityChanges) (i : Identity) : Option Identity :=
  (c.remapOf? i).or (if i ∈ c.removed then Option.none else some i)

/-- **Exact changes** lead an identity to the one that its block has now. -/
theorem IdentityChanges.Exact.follow?_eq {c : IdentityChanges} {moves : List Text → List Text}
    {root root' : Block} (hc : c.Exact moves root root') (h : Grounded root) (hp : root.Plain)
    {ns : List Text} {i : Identity} (hns : ns ≠ []) (hi : root.identityAt? ns = some i) :
    c.follow? i = root'.identityAt? (moves ns) := by
  -- The identity tells the block, so what is said of it is said of this block.
  have hnames : ∀ ms ≠ [], root.identityAt? ms = some i → ms = ns := fun ms hms hi' =>
    Block.identityAt?_injective h hp hms hns hi' hi
  have hremapped : ∀ new, (i, new) ∈ c.remapped ↔
      i ≠ new ∧ root'.identityAt? (moves ns) = some new := by
    intro new
    rw [hc.remapped]
    refine and_congr_right fun _ => ⟨?_, fun hnew => ⟨ns, hns, hi, hnew⟩⟩
    rintro ⟨ms, hms, hold, hnew⟩
    rwa [hnames ms hms hold] at hnew
  have hremoved : i ∈ c.removed ↔ root'.identityAt? (moves ns) = Option.none := by
    rw [hc.removed]
    refine ⟨?_, fun hnone => ⟨ns, hns, hi, hnone⟩⟩
    rintro ⟨ms, hms, hold, hnone⟩
    rwa [hnames ms hms hold] at hnone
  unfold follow? remapOf?
  rcases hfound : c.remapped.find? (fun pair => pair.1 = i) with _ | ⟨old, new⟩
  · simp only [hfound, Option.map_none, Option.none_or]
    rcases hnew : root'.identityAt? (moves ns) with _ | new
    · rw [if_pos (hremoved.mpr hnew)]
    · rw [if_neg (fun hmem => by rw [hremoved.mp hmem] at hnew; cases hnew)]
      by_cases hsame : i = new
      · rw [hsame]
      · have hmem := (hremapped new).mpr ⟨hsame, hnew⟩
        simpa using List.find?_eq_none.mp hfound _ hmem
  · have hold : old = i := by simpa using List.find?_some hfound
    subst hold
    simp only [hfound, Option.map_some, Option.some_or]
    exact ((hremapped new).mp (List.mem_of_find?_eq_some hfound)).2.symm

namespace Engine

/-! ### What a step does to document and selection -/

section parts

variable {e : Engine}

/-- After an edit the selection is what the changes of identities make of it. -/
theorem active_followActive (e : Engine) (changes : IdentityChanges) :
    (followActive e changes).1.active = e.active.bind changes.follow? := by
  unfold followActive IdentityChanges.follow?
  rcases hactive : e.active with _ | i
  · exact hactive
  · dsimp only
    rcases hremap : changes.remapOf? i with _ | j
    · by_cases hremoved : i ∈ changes.removed
      · simp [hremap, hremoved]
      · simp [hremap, hremoved, hactive]
    · simp [hremap]

/-- After a reading the selection is the block that its identity leads to in the new tree. -/
theorem active_reselect (e : Engine) :
    (reselect e).1.active =
      e.active.bind fun i => (IdentityTable.resolveAnew e.document.root i).identity? := by
  unfold reselect
  rcases hactive : e.active with _ | i
  · exact hactive
  · dsimp only
    split <;> rfl

/-- What a step does to the document and to the selection. -/
inductive Passage (e : Engine) : Action → Engine → Prop
  /-- It leaves both alone. -/
  | stays {action : Action} {e' : Engine} (document : e'.document = e.document)
      (active : e'.active = e.active) : Passage e action e'
  /-- It selects a block of the document. -/
  | selected {i : Identity} {e' : Engine} (document : e'.document = e.document)
      (there : (e.document.identities.pathOf? i).isSome = true) (active : e'.active = some i) :
      Passage e (.select i) e'
  /-- It edits the document, and the selection follows its block. -/
  | edited {edit : Edit} {e' : Engine} {r : EditResult}
      (document : e.document.apply edit = .ok (e'.document, r))
      (active : e'.active = e.active.bind r.changes.follow?) : Passage e (.edit edit) e'
  /-- It reads text, and the selected block is found anew. -/
  | reread {action : Action} {e' : Engine} {typed : Text} {ids : List Identity}
      (document : e.document.replaceText typed = .ok (e'.document, ids))
      (active : e'.active = e.active.bind fun i =>
        (IdentityTable.resolveAnew e'.document.root i).identity?) : Passage e action e'

/-- A passage is told by what it starts from and ends with. -/
theorem Passage.congr {f f' e' : Engine} {action : Action} (h : Passage f action f')
    (hd : f.document = e.document) (ha : f.active = e.active) (hd' : e'.document = f'.document)
    (ha' : e'.active = f'.active) : Passage e action e' := by
  cases h with
  | stays document active =>
    exact .stays (hd'.trans (document.trans hd)) (ha'.trans (active.trans ha))
  | selected document there active =>
    exact .selected (hd'.trans (document.trans hd)) (hd ▸ there) (ha'.trans active)
  | edited document active =>
    rw [hd, ← hd'] at document
    exact .edited document (ha'.trans (ha ▸ active))
  | @reread _ _ typed ids document active =>
    rw [hd, ← hd'] at document
    rw [ha, ← ha', ← hd'] at active
    exact .reread document active

/-- Writing the text leaves the tree and the selection alone. -/
theorem keeps_runSerialize (e : Engine) :
    (runSerialize e).1.document = e.document ∧ (runSerialize e).1.active = e.active := by
  unfold runSerialize
  split
  · exact ⟨rfl, rfl⟩
  · dsimp only
    split <;> exact ⟨rfl, rfl⟩

/-- A reading leaves tree and selection alone, or it takes a new tree and looks for the selected
block in it. -/
theorem passage_runParse (e : Engine) (action : Action) : Passage e action (runParse e).1 := by
  unfold runParse
  split
  · exact .stays rfl rfl
  · next typed ht =>
    dsimp only
    split
    · next document ids hread =>
      have hdocument : ∀ f : Engine, (reselect f).1.document = f.document := by
        intro f
        obtain ⟨active, hf⟩ := reselect_eq f
        rw [hf]
      refine @Passage.reread _ _ _ typed ids ?_ ?_
      · dsimp only
        rw [hdocument]
        exact hread
      · dsimp only
        rw [hdocument, active_reselect]
    · exact .stays rfl rfl

/-- An edit leaves tree and selection alone, or the selection follows the identities that it
changes. -/
theorem passage_applyEdit (e : Engine) (edit : Edit) :
    Passage e (.edit edit) (e.applyEdit edit).engine := by
  unfold applyEdit
  split
  · exact .stays rfl rfl
  · next document r happly =>
    have hactive := active_followActive { e with document } r.changes
    obtain ⟨active, hfollow⟩ := followActive_eq { e with document } r.changes
    rw [hfollow] at hactive
    dsimp only at hactive ⊢
    rw [hfollow]
    split
    · exact .edited happly hactive
    · unfold discardText
      split
      · exact .edited happly hactive
      · exact .edited happly hactive

/-- Sleep changes tree and selection as a reading does, if one is due: a writing before it or after
it leaves both alone. -/
theorem passage_sleep (e : Engine) (time : Nat) :
    Passage e (.sleep time) (e.sleep time).engine := by
  -- Writing text touches neither, so the reading alone decides, before or after it.
  have hparse : ∀ f : Engine, Passage f (.sleep time)
      (if (e.parseTask.elapse time).2.isSome then runParse f else (f, [])).1 := by
    intro f
    split
    · exact passage_runParse f _
    · exact .stays rfl rfl
  have hserialize : ∀ f : Engine,
      (if (e.serializeTask.elapse time).2.isSome then runSerialize f else (f, [])).1.document =
          f.document ∧
        (if (e.serializeTask.elapse time).2.isSome then runSerialize f else (f, [])).1.active =
          f.active := by
    intro f
    split
    · exact keeps_runSerialize f
    · exact ⟨rfl, rfl⟩
  rw [sleep_engine]
  dsimp only
  generalize hstart : ({ e with
    parseTask := (e.parseTask.elapse time).1
    serializeTask := (e.serializeTask.elapse time).1 } : Engine) = start
  have hd : start.document = e.document := by rw [← hstart]
  have ha : start.active = e.active := by rw [← hstart]
  split
  · obtain ⟨hd', ha'⟩ := hserialize
      (if (e.parseTask.elapse time).2.isSome then runParse start else (start, [])).1
    exact (hparse start).congr hd ha hd' ha'
  · obtain ⟨hd', ha'⟩ := hserialize start
    exact (hparse _).congr (hd'.trans hd) (ha'.trans ha) rfl rfl

/-- A flush changes tree and selection as a reading does, if one is due. -/
theorem passage_flush (e : Engine) : Passage e .flush e.flush.engine := by
  have hserialize : ∀ f : Engine, (flushSerialize f).1.document = f.document ∧
      (flushSerialize f).1.active = f.active := by
    intro f
    unfold flushSerialize
    split
    · exact keeps_runSerialize _
    · exact ⟨rfl, rfl⟩
  have hparse : Passage e .flush (flushParse e).1 := by
    unfold flushParse
    split
    · exact (passage_runParse { e with parseTask := e.parseTask.cancel } .flush).congr rfl rfl rfl rfl
    · exact .stays rfl rfl
  obtain ⟨hd, ha⟩ := hserialize (flushParse e).1
  exact hparse.congr rfl rfl hd ha

/-- **Every step** is a passage. -/
theorem passage_act (e : Engine) (action : Action) : Passage e action (e.act action) := by
  cases action with
  | edit edit => exact passage_applyEdit e edit
  | type text =>
    show Passage e (.type text) (e.editText text).engine
    unfold editText
    split <;> exact .stays rfl rfl
  | select i =>
    show Passage e (.select i) (e.select i).engine
    unfold select
    split
    · exact .stays rfl rfl
    · next hthere => exact .selected rfl (by simpa [Option.isSome_iff_ne_none] using hthere) rfl
  | sleep time => exact passage_sleep e time
  | flush => exact passage_flush e

end parts

/-! ### Runs -/

/-- An edit that is accepted names its target as the document does. -/
def Action.Exact (e : Engine) : Action → Prop
  | .edit f => (e.applyEdit f).answer.toOption.isSome = true → f.Exact e.document.root
  | _ => True

instance (e : Engine) : ∀ action : Action, Decidable (action.Exact e)
  | .edit f => inferInstanceAs (Decidable
      ((e.applyEdit f).answer.toOption.isSome = true → f.Exact e.document.root))
  | .type _ | .select _ | .sleep _ | .flush => isTrue trivial

/-- The engines of the runs in which accepted edits have exact targets and no block ever has a name
with a colon. -/
inductive Tracked : Engine → Prop
  /-- A run can start with an engine for the document of such a run. -/
  | new {catalog : Catalog} {document : Document} (config : SyncConfig)
      (h : Document.ReachedBy (fun d e => e.Exact d.root) (fun d => d.root.Plain) catalog
        document) : Tracked (new document config)
  /-- A run can start with an engine for the document of a text. -/
  | ofText {catalog : Catalog} {source : Text} {config : SyncConfig} {e : Engine}
      (h : Engine.ofText catalog source config = .ok e) (plain : e.document.root.Plain) : Tracked e
  /-- A run goes on with any action. -/
  | act {e : Engine} (before : Tracked e) (action : Action) (exact : action.Exact e)
      (plain : (e.act action).document.root.Plain) : Tracked (e.act action)

/-- A run goes on with these actions. -/
def Admits : Engine → List Action → Prop
  | _, [] => True
  | e, action :: actions =>
    action.Exact e ∧ (e.act action).document.root.Plain ∧ Admits (e.act action) actions

instance Admits.decidable : ∀ (e : Engine) (actions : List Action), Decidable (e.Admits actions)
  | _, [] => isTrue trivial
  | e, action :: actions =>
    have := Admits.decidable (e.act action) actions
    inferInstanceAs (Decidable
      (action.Exact e ∧ (e.act action).document.root.Plain ∧ Admits (e.act action) actions))

/-- Actions that a run admits lead on to engines of such runs. -/
theorem Tracked.foldl : ∀ (actions : List Action) {e : Engine}, Tracked e → e.Admits actions →
    Tracked (actions.foldl Engine.act e)
  | [], _, h, _ => h
  | action :: actions, _, h, ⟨hexact, hplain, hrest⟩ =>
    Tracked.foldl actions (h.act action hexact hplain) hrest

/-- The document comes from a run with exact targets, and what is selected is one of its blocks. -/
structure Live (e : Engine) : Prop where
  /-- The document comes from such a run. -/
  run : Document.ReachedBy (fun d e => e.Exact d.root) (fun d => d.root.Plain) e.document.catalog
    e.document
  /-- A block has the selected identity. -/
  selected : ∀ i, e.active = some i → ∃ p, e.document.root.HasIdentity p i

section live

variable {e : Engine}

/-- A new engine for a document of such a run selects nothing, so what it selects is there. -/
theorem live_of_reached {document : Document} {catalog : Catalog} (text : Text)
    (config : SyncConfig) (h : Document.ReachedBy (fun d e => e.Exact d.root)
      (fun d => d.root.Plain) catalog document) : (ofDocument document text config).Live := by
  refine ⟨?_, fun i hi => by cases hi⟩
  show Document.ReachedBy _ _ document.catalog document
  rw [h.reached.catalog_eq]
  exact h

/-- **One step** keeps an engine live. -/
theorem Live.act {action : Action} (h : e.Live) (hexact : action.Exact e)
    (hplain : (e.act action).document.root.Plain) : (e.act action).Live := by
  have hroot := h.run.reached.grounded
  have hpassage := passage_act e action
  generalize e.act action = e' at hpassage hplain
  cases hpassage with
  | stays document active =>
    refine ⟨by rw [document]; exact h.run, ?_⟩
    rw [document, active]
    exact h.selected
  | @selected i _ document there active =>
    refine ⟨by rw [document]; exact h.run, ?_⟩
    rw [document, active]
    intro j hj
    obtain rfl := Option.some.inj hj
    obtain ⟨p, hp⟩ := Option.isSome_iff_exists.mp there
    exact ⟨p, (h.run.tabled.lists.identity p i).mp hp⟩
  | @edited edit _ r document active =>
    have hexact : edit.Exact e.document.root := by
      refine hexact ?_
      simp only [applyEdit, document]
      split <;> rfl
    have hrun := h.run.apply hexact hplain document
    have hcatalog : e'.document.catalog = e.document.catalog := hrun.reached.catalog_eq
    refine ⟨by rw [hcatalog]; exact hrun, fun j hj => ?_⟩
    rw [active, Option.bind_eq_some_iff] at hj
    obtain ⟨i, hi, hfollow⟩ := hj
    -- The selected block is somewhere, and the changes say what its identity is now.
    obtain ⟨p, hp⟩ := h.selected i hi
    obtain ⟨ns, hns, hat⟩ := (Block.hasIdentity_iff hroot).mp hp
    have hchanges := h.run.tabled.exact hexact hplain document
    rw [hchanges.follow?_eq hroot h.run.goesThrough hns.below hat] at hfollow
    obtain ⟨b, hb, rfl⟩ := Option.map_eq_some_iff.mp hfollow
    exact ⟨b.path, b, (Block.mem_inside_iff hrun.reached.grounded).mpr
      ⟨_, edit.moves_ne_nil hns.below, hb⟩, rfl, rfl⟩
  | @reread _ _ typed ids document active =>
    have hrun := h.run.replaceText hplain document
    have hcatalog : e'.document.catalog = e.document.catalog := hrun.reached.catalog_eq
    refine ⟨by rw [hcatalog]; exact hrun, fun j hj => ?_⟩
    rw [active, Option.bind_eq_some_iff] at hj
    obtain ⟨i, -, hfound⟩ := hj
    rcases IdentityTable.identity?_resolveAnew hrun.reached.grounded i with
      ⟨b, hb, hsome⟩ | ⟨-, hnone⟩
    · rw [hsome] at hfound
      exact ⟨b.path, b, hb, rfl, Option.some.inj hfound⟩
    · rw [hnone] at hfound
      cases hfound

/-- Every engine of a run is live. -/
theorem Tracked.live (h : Tracked e) : e.Live := by
  induction h with
  | new config h => exact live_of_reached _ config h
  | ofText h plain =>
    unfold Engine.ofText at h
    rcases hd : Document.ofText _ _ .memory with reason | document
    · rw [hd] at h
      cases h
    · rw [hd] at h
      cases h
      exact live_of_reached _ _ (.ofText plain hd)
  | act _ action exact plain ih => exact ih.act exact plain

/-- **The selection always names a block.** In every run a selected identity is that of a block of
the document: the table leads to its path, the path leads to the block, and the block has this
identity. A step ends a selection only when it is an edit that the block does not survive, or when
it reads a text without blocks. -/
theorem Tracked.selection (h : Tracked e) :
    (∀ i, e.active = some i → ∃ b ∈ e.document.root.inside,
      e.document.identities.pathOf? i = some b.path ∧
        e.document.root.find? b.path = some b ∧ Identity.ofBlock b = i) ∧
      ∀ action i, e.active = some i → (e.act action).active = none →
        (∃ edit r, action = .edit edit ∧
            e.document.apply edit = .ok ((e.act action).document, r) ∧ i ∈ r.changes.removed) ∨
          (∃ typed ids, e.document.replaceText typed = .ok ((e.act action).document, ids)) ∧
            (e.act action).document.root.inside = [] := by
  have hlive := h.live
  constructor
  · intro i hi
    obtain ⟨p, b, hb, rfl, rfl⟩ := hlive.selected i hi
    have hground := hlive.run.reached.grounded
    have hfind := Block.find?_path hground.tree hground.path
      (Block.mem_descendants_of_mem_inside hb)
    exact ⟨b, hb, (hlive.run.tabled.lists.identity _ _).mpr ⟨b, hb, rfl, rfl⟩, hfind, rfl⟩
  · intro action i hi hnone
    have hpassage := passage_act e action
    generalize e.act action = e' at hpassage hnone ⊢
    cases hpassage with
    | stays _ active =>
      rw [active, hi] at hnone
      cases hnone
    | selected _ _ active =>
      rw [active] at hnone
      cases hnone
    | @edited edit _ r document active =>
      -- The selection follows an identity unless the edit tells that it is gone.
      refine Or.inl ⟨edit, r, rfl, document, ?_⟩
      rw [active, hi, Option.bind_some, IdentityChanges.follow?, Option.or_eq_none_iff] at hnone
      by_contra hkept
      rw [if_neg hkept] at hnone
      cases hnone.2
    | @reread _ _ typed ids document active =>
      refine Or.inr ⟨⟨typed, ids, document⟩, ?_⟩
      have hroot := (hlive.run.reached.replaceText document).grounded
      rw [active, hi, Option.bind_some] at hnone
      -- Some block is always the nearest one, if there is any.
      rcases IdentityTable.identity?_resolveAnew hroot i with ⟨b, -, hsome⟩ | ⟨hempty, -⟩
      · rw [hsome] at hnone
        cases hnone
      · exact hempty

end live

/-- A run that selects a block inside of another one, gives the outer one another name, and then
reads a text without blocks. -/
theorem Tracked.selection_sample : ∃ e, Tracked e ∧ e.active = some "/C/B::".toList ∧
    (∃ b ∈ e.document.root.inside, e.document.identities.pathOf? "/C/B::".toList = some b.path ∧
      e.document.root.find? b.path = some b ∧ Identity.ofBlock b = "/C/B::".toList) ∧
    (e.act .flush).active = none ∧ (e.act .flush).document.root.inside = [] := by
  let start? := Engine.ofText Catalog.empty "[A]\n  [B]\n  []\n[]\n".toList {}
  let actions : List Action :=
    [.select "/A/B::".toList, .edit (.rename "/A".toList "C".toList), .type []]
  have hend : start?.toOption.map (fun start =>
      let e := actions.foldl Engine.act start
      decide (start.document.root.Plain ∧ start.Admits actions ∧
        e.active = some "/C/B::".toList ∧ (e.act .flush).active = none)) = some true := by
    decide +kernel
  rcases hstart : start? with reason | start
  · rw [hstart] at hend
    cases hend
  · rw [hstart] at hend
    obtain ⟨hplain, hadmits, hactive, hnone⟩ := of_decide_eq_true (Option.some.inj hend)
    have htracked := Tracked.foldl actions (.ofText hstart hplain) hadmits
    obtain ⟨hselected, hends⟩ := htracked.selection
    refine ⟨_, htracked, hactive, hselected _ hactive, hnone, ?_⟩
    rcases hends .flush _ hactive hnone with ⟨edit, r, hedit, -⟩ | ⟨-, hempty⟩
    · cases hedit
    · exact hempty

end Engine

end BlockEdit
