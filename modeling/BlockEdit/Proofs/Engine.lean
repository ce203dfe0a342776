import BlockEdit.Proofs.Outcomes
import BlockEdit.Proofs.Runs
import BlockEdit.Tree.Snapshot

/-!
# Runs of an engine

Between any two steps an engine is orderly: it is open for edits, at most one task is due, and
typed text waits exactly when its reading is due. From there `Engine.Move` says all that a step can
do to tree and text: it leaves both alone, it edits the tree and makes the writing due, it takes
typed text in and drops a writing that was due, it brings both in step, or it rejects typed text.

Tree and text are in step when one of them can be had from the other. Only the third of these moves
can lose an edit of the tree: when the typed text that dropped its writing is rejected, nobody makes
the writing due again.

Main statements:

* **`Engine.move_act`**: every step of an orderly engine is one of these moves.
* **`Engine.Runs.not_inStep_iff`**: an engine with nothing due is out of step exactly when typed
  text dropped a writing that was due and was then rejected.
-/

namespace BlockEdit

namespace Engine

/-! ### Runs -/

/-- The engines that come from one by any actions in any order. -/
inductive Runs (start : Engine) : Engine → Prop
  /-- A run can be empty. -/
  | refl : Runs start start
  /-- A run goes on with any action. -/
  | act {e : Engine} (before : Runs start e) (action : Action) : Runs start (e.act action)

/-- A run goes on with any number of actions. -/
theorem Runs.foldl {start : Engine} : ∀ (actions : List Action) {e : Engine}, Runs start e →
    Runs start (actions.foldl Engine.act e)
  | [], _, h => h
  | action :: actions, _, h => Runs.foldl actions (h.act action)

/-- The engines that a run can start with. -/
inductive Started : Engine → Prop
  /-- An engine for a document. -/
  | new {catalog : Catalog} {document : Document} (config : SyncConfig)
      (h : Document.Reached catalog document) : Started (new document config)
  /-- An engine for the document of a text. -/
  | ofText {catalog : Catalog} {source : Text} {config : SyncConfig} {e : Engine}
      (h : Engine.ofText catalog source config = .ok e) : Started e

/-- **Tree and text are in step**: the text is that of the tree, or the tree is that of the text. -/
def InStep (e : Engine) : Prop :=
  e.text = e.document.text e.config.indent ∨
    ∃ root, Block.parse e.document.catalog e.text = .ok root ∧
      root.structurallyEq e.document.root = true

instance (e : Engine) : Decidable e.InStep :=
  decidable_of_iff (e.text = e.document.text e.config.indent ∨
      ((Block.parse e.document.catalog e.text).toOption.map
        (Block.structurallyEq · e.document.root)) = some true) <| by
    rw [InStep, Option.map_eq_some_iff]
    rcases Block.parse e.document.catalog e.text with fault | root
    · simp [Except.toOption]
    · simp [Except.toOption]

/-- Nothing is half done in the engine. -/
structure Orderly (e : Engine) : Prop where
  /-- The document comes from a run. -/
  document : Document.Reached e.document.catalog e.document
  /-- The engine is open for edits. -/
  closed : e.updatingFromText = false
  /-- Typed text waits exactly when its reading is due. -/
  waits : e.pendingText.isSome = e.parseTask.isPending
  /-- Not both tasks are due. -/
  single : e.serializeTask.isPending = true → e.parseTask.isPending = false

/-- What a step can do to tree and text. -/
inductive Move (e e' : Engine) : Prop
  /-- It leaves tree, text and what is due alone. -/
  | quiet (text : e'.text = e.text) (document : e'.document = e.document)
      (serialize : e'.serializeTask.isPending = e.serializeTask.isPending)
      (parse : e'.parseTask.isPending = e.parseTask.isPending)
      (failures : e'.stats.parseFailures = e.stats.parseFailures)
  /-- It makes the writing of the text due. -/
  | edited (serialize : e'.serializeTask.isPending = true)
  /-- It takes typed text in, and drops a writing that was due. -/
  | typed (typed : Text) (engine : e' = (e.editText typed).engine)
      (answer : (e.editText typed).answer = true)
      (text : e'.text = e.text) (document : e'.document = e.document)
      (parse : e'.parseTask.isPending = true)
      (failures : e'.stats.parseFailures = e.stats.parseFailures)
  /-- It brings tree and text in step. -/
  | settled (inStep : e'.InStep)
  /-- It rejects typed text. -/
  | rejected (waited : e.parseTask.isPending = true) (text : e'.text = e.text)
      (document : e'.document = e.document)
      (failures : e'.stats.parseFailures = e.stats.parseFailures + 1)

/-! ### Every step is a move -/

/-- A document that goes on from a reached one is reached with its own catalog. -/
theorem reached_self {catalog : Catalog} {d : Document} (h : Document.Reached catalog d) :
    Document.Reached d.catalog d := by
  rw [h.catalog_eq]
  exact h

section steps

variable {e e' : Engine} {action : Action} {events : List SyncEvent}

/-- In an orderly engine nothing is half done. -/
theorem Orderly.ready (h : e.Orderly) : e.Ready := by
  refine ⟨h.closed, h.waits.symm, fun ⟨hparse, hserialize⟩ => ?_⟩
  rw [h.single hserialize] at hparse
  cases hparse

/-- An engine in which nothing is half done is orderly when its document is reached. -/
theorem Ready.orderly (h : e.Ready) (hd : Document.Reached e.document.catalog e.document) :
    e.Orderly := by
  refine ⟨hd, h.closed, h.waits.symm, fun hserialize => ?_⟩
  rw [← Bool.not_eq_true]
  exact fun hparse => h.single ⟨hparse, hserialize⟩

/-- **Each outcome** goes on with the run of the document. -/
theorem Outcome.reached (ho : Outcome e action e' events) (h : e.Orderly) :
    Document.Reached e'.document.catalog e'.document := by
  cases ho with
  | refused | echoed | typed | missed | selected | waited => exact h.document
  | @edited _ document result edits =>
    obtain ⟨active, hactive⟩ := followActive_eq { e with document } result.changes
    rw [hactive]
    exact reached_self (h.document.apply edits)
  | @reads _ text _ waits =>
    rcases hd : e.document.replaceText text with reason | ⟨document, ids⟩
    · rw [runParse_error (e := { e with parseTask := Debouncer.idle }) waits hd]
      exact h.document
    · obtain ⟨active, hrun⟩ := runParse_ok (e := { e with parseTask := Debouncer.idle }) waits hd
      rw [hrun]
      exact reached_self (h.document.replaceText hd)
  | writes =>
    rw [runSerialize_eq (e := { e with serializeTask := Debouncer.idle }) h.closed]
    exact h.document

/-- **Text that is read** is in step with its tree. -/
theorem inStep_of_read {ids : List Identity}
    (h : Document.Reached e.document.catalog e.document)
    (hread : e.document.replaceText e'.text = .ok (e'.document, ids)) : e'.InStep := by
  obtain ⟨-, -, -, hcatalog⟩ := Document.root_of_replaceText hread
  refine Or.inr ⟨e'.document.root, ?_, Block.structurallyEq_refl _⟩
  rw [hcatalog]
  exact h.parse_of_replaceText hread

/-- **Each outcome** is a move. -/
theorem Outcome.move (ho : Outcome e action e' events) (h : e.Orderly) : Move e e' := by
  cases ho with
  | refused | echoed | missed | selected => exact .quiet rfl rfl rfl rfl rfl
  | waited _ parse serialize => exact .quiet rfl rfl serialize parse rfl
  | edited => exact .edited rfl
  | @typed text news =>
    have hstep := editText_of_news news
    exact .typed text (by rw [hstep]) (by rw [hstep]) rfl rfl rfl rfl
  | @reads _ text _ waits =>
    have hdue : e.parseTask.isPending = true := by
      rw [← h.waits, waits]
      rfl
    rcases hd : e.document.replaceText text with reason | ⟨document, ids⟩
    · rw [runParse_error (e := { e with parseTask := Debouncer.idle }) waits hd]
      exact .rejected hdue rfl rfl rfl
    · obtain ⟨active, hrun⟩ := runParse_ok (e := { e with parseTask := Debouncer.idle }) waits hd
      rw [hrun]
      exact .settled (inStep_of_read h.document hd)
  | writes =>
    rw [runSerialize_eq (e := { e with serializeTask := Debouncer.idle }) h.closed]
    exact .settled (Or.inl rfl)

end steps

/-- **Every step** of an orderly engine leaves it orderly and is a move. -/
theorem move_act {e : Engine} (h : e.Orderly) (action : Action) :
    (e.act action).Orderly ∧ Move e (e.act action) := by
  have hout := outcome_act h.ready action
  exact ⟨(hout.ready h.ready).orderly (hout.reached h), hout.move h⟩

/-! ### What a run keeps -/

/-- At its start an engine is orderly, and its tree and its text are in step. -/
theorem orderly_of_started {e : Engine} (h : Started e) : e.Orderly ∧ e.InStep := by
  cases h with
  | new config h => exact ⟨⟨reached_self h, rfl, rfl, fun _ => rfl⟩, Or.inl rfl⟩
  | @ofText catalog source config e h =>
    unfold ofText at h
    rcases hd : Document.ofText catalog source .memory with reason | document
    · rw [hd] at h
      cases h
    · rw [hd] at h
      cases h
      have hreached : Document.Reached catalog document := .ofText hd
      refine ⟨⟨reached_self hreached, rfl, rfl, fun _ => rfl⟩, Or.inr ⟨document.root, ?_, ?_⟩⟩
      · show Block.parse document.catalog source = .ok document.root
        rw [(Document.root_of_ofText hd).2]
        exact (Document.root_of_ofText hd).1
      · exact Block.structurallyEq_refl document.root

/-- An engine stays orderly along every run. -/
theorem Runs.orderly {start e : Engine} (hs : Started start) (h : Runs start e) : e.Orderly := by
  induction h with
  | refl => exact (orderly_of_started hs).1
  | act _ action ih => exact (move_act ih action).1

/-- Writing the text leaves the settings of the engine alone. -/
theorem config_runSerialize (e : Engine) : (runSerialize e).1.config = e.config := by
  unfold runSerialize
  split
  · rfl
  · dsimp only
    split <;> rfl

/-- Reading the text leaves the settings of the engine alone. -/
theorem config_runParse (e : Engine) : (runParse e).1.config = e.config := by
  unfold runParse
  split
  · rfl
  · next text ht =>
    dsimp only
    split
    · next document ids hd =>
      dsimp only
      obtain ⟨active, hactive⟩ := reselect_eq
        { e with
          document, text
          pendingText := none
          updatingFromText := true
          stats := { e.stats with parseRuns := e.stats.parseRuns + 1 } }
      rw [hactive]
    · rfl

/-- While time passes, the engine reads first and then writes, each when it is due. -/
theorem sleep_engine (e : Engine) (time : Nat) :
    (e.sleep time).engine =
      (let parse := fun f => if (e.parseTask.elapse time).2.isSome then runParse f else (f, [])
       let serialize := fun f =>
        if (e.serializeTask.elapse time).2.isSome then runSerialize f else (f, [])
       let start : Engine :=
        { e with
          parseTask := (e.parseTask.elapse time).1
          serializeTask := (e.serializeTask.elapse time).1 }
       if e.parseIsFirst then (serialize (parse start).1).1 else (parse (serialize start).1).1) := by
  unfold sleep
  dsimp only
  by_cases hfirst : e.parseIsFirst = true
  · rw [if_pos hfirst, if_pos hfirst]
  · rw [if_neg hfirst, if_neg hfirst]

/-- No step changes how text is written. -/
theorem config_act (e : Engine) (action : Action) : (e.act action).config = e.config := by
  cases action with
  | edit edit =>
    show (e.applyEdit edit).engine.config = e.config
    unfold applyEdit
    split
    · rfl
    · next document result _ =>
      obtain ⟨active, hactive⟩ := followActive_eq { e with document } result.changes
      dsimp only
      rw [hactive]
      split
      · rfl
      · unfold discardText
        split <;> rfl
  | type text =>
    show (e.editText text).engine.config = e.config
    unfold editText
    split <;> rfl
  | select i =>
    show (e.select i).engine.config = e.config
    unfold select
    split <;> rfl
  | sleep time =>
    show (e.sleep time).engine.config = e.config
    rw [sleep_engine]
    dsimp only
    -- Which of the two tasks comes first depends on their delays, so each is asked of any engine.
    have hparse : ∀ f : Engine, (if (e.parseTask.elapse time).2.isSome then runParse f
        else (f, [])).1.config = f.config := by
      intro f
      split
      · exact config_runParse f
      · rfl
    have hserialize : ∀ f : Engine, (if (e.serializeTask.elapse time).2.isSome then runSerialize f
        else (f, [])).1.config = f.config := by
      intro f
      split
      · exact config_runSerialize f
      · rfl
    split
    · rw [hserialize, hparse]
    · rw [hparse, hserialize]
  | flush =>
    show e.flush.engine.config = e.config
    have hparse : (flushParse e).1.config = e.config := by
      unfold flushParse
      split
      · exact config_runParse _
      · rfl
    have hserialize : ∀ f : Engine, (flushSerialize f).1.config = f.config := by
      intro f
      unfold flushSerialize
      split
      · exact config_runSerialize _
      · rfl
    exact (hserialize _).trans hparse

/-- No run changes the settings of the engine. -/
theorem Runs.config {start e : Engine} (h : Runs start e) : e.config = start.config := by
  induction h with
  | refl => rfl
  | @act e _ action ih => exact (config_act e action).trans ih

/-- Tree and text stay in step, or out of step, as long as both stay. -/
theorem inStep_congr {e m : Engine} (ht : e.text = m.text) (hd : e.document = m.document)
    (hc : e.config = m.config) : e.InStep ↔ m.InStep := by
  unfold InStep
  rw [ht, hd, hc]

/-! ### Edits that are lost -/

/-- In a run from `start` to `e`, typed text has dropped a writing that was due, and neither tree
nor text has changed since. -/
structure Dropped (start e m : Engine) (typed : Text) : Prop where
  /-- The engine had a writing due, -/
  before : Runs start m
  /-- which is that of an edit of the tree, -/
  due : m.serializeTask.isPending = true
  /-- when someone typed text that was taken in. -/
  answer : (m.editText typed).answer = true
  /-- The run went on from there. -/
  after : Runs (m.editText typed).engine e
  /-- The text is still the same. -/
  text : e.text = m.text
  /-- The tree is still the same. -/
  document : e.document = m.document
  /-- No failure has been forgotten. -/
  failures : m.stats.parseFailures ≤ e.stats.parseFailures

/-- **In every run** the writing of the text is due, or tree and text are in step, or typed text has
dropped a writing and is about to be read or was rejected. -/
theorem Runs.dropped_or {start e : Engine} (hs : Started start) (h : Runs start e) :
    e.serializeTask.isPending = true ∨ e.InStep ∨
      ∃ m typed, Dropped start e m typed ∧
        (e.parseTask.isPending = true ∨ m.stats.parseFailures < e.stats.parseFailures) := by
  induction h with
  | refl => exact Or.inr (Or.inl (orderly_of_started hs).2)
  | @act e before action ih =>
    have horderly := before.orderly hs
    obtain ⟨-, hmove⟩ := move_act horderly action
    have hconfig := config_act e action
    cases hmove with
    | edited hserialize => exact Or.inl hserialize
    | settled hinStep => exact Or.inr (Or.inl hinStep)
    | quiet text document serialize parse failures =>
      rcases ih with hdue | hinStep | ⟨m, typed, hdropped, hread⟩
      · exact Or.inl (serialize.trans hdue)
      · exact Or.inr (Or.inl ((inStep_congr text document hconfig).mpr hinStep))
      · refine Or.inr (Or.inr ⟨m, typed, ⟨hdropped.before, hdropped.due, hdropped.answer,
          hdropped.after.act action, text.trans hdropped.text, document.trans hdropped.document,
          failures ▸ hdropped.failures⟩, ?_⟩)
        rw [parse, failures]
        exact hread
    | typed typed engine answer text document parse failures =>
      -- Typed text that finds the writing due drops it; otherwise what was dropped before stays so.
      by_cases hdue : e.serializeTask.isPending = true
      · refine Or.inr (Or.inr ⟨e, typed, ⟨before, hdue, answer, ?_, text, document,
          Nat.le_of_eq failures.symm⟩, Or.inl parse⟩)
        rw [engine]
        exact .refl
      · rcases ih with hdue' | hinStep | ⟨m, earlier, hdropped, -⟩
        · exact absurd hdue' hdue
        · exact Or.inr (Or.inl ((inStep_congr text document hconfig).mpr hinStep))
        · exact Or.inr (Or.inr ⟨m, earlier, ⟨hdropped.before, hdropped.due, hdropped.answer,
            hdropped.after.act action, text.trans hdropped.text,
            document.trans hdropped.document, failures ▸ hdropped.failures⟩, Or.inl parse⟩)
    | rejected waited text document failures =>
      -- A text that is rejected counts as a failure, and leaves tree and text as they were.
      rcases ih with hdue | hinStep | ⟨m, typed, hdropped, -⟩
      · rw [horderly.single hdue] at waited
        cases waited
      · exact Or.inr (Or.inl ((inStep_congr text document hconfig).mpr hinStep))
      · have hle := hdropped.failures
        exact Or.inr (Or.inr ⟨m, typed, ⟨hdropped.before, hdropped.due, hdropped.answer,
          hdropped.after.act action, text.trans hdropped.text, document.trans hdropped.document,
          by omega⟩, Or.inr (by omega)⟩)

/-- **An engine with nothing due** is out of step exactly when typed text dropped the writing of a
tree that was out of step with its text, tree and text are still the same, and typed text was
rejected since. -/
theorem Runs.not_inStep_iff {start e : Engine} (hs : Started start) (h : Runs start e)
    (hidle : e.isPending = false) :
    ¬ e.InStep ↔ ∃ m typed, Dropped start e m typed ∧ ¬ m.InStep ∧
      m.stats.parseFailures < e.stats.parseFailures := by
  have hconfig : ∀ {m typed}, Dropped start e m typed → e.config = m.config :=
    fun hd => h.config.trans hd.before.config.symm
  rw [isPending, Bool.or_eq_false_iff] at hidle
  constructor
  · intro hout
    rcases h.dropped_or hs with hdue | hinStep | ⟨m, typed, hdropped, hread | hrejected⟩
    · rw [hidle.1] at hdue
      cases hdue
    · exact absurd hinStep hout
    · rw [hidle.2] at hread
      cases hread
    · refine ⟨m, typed, hdropped, ?_, hrejected⟩
      rwa [inStep_congr hdropped.text hdropped.document (hconfig hdropped)] at hout
  · rintro ⟨m, typed, hdropped, hout, -⟩
    rwa [inStep_congr hdropped.text hdropped.document (hconfig hdropped)]

/-- A run in which a value is set, text is typed before the new value is written, and the typed text
is no document. -/
theorem exists_run_out_of_step : ∃ start e, Started start ∧ Runs start e ∧ e.isPending = false ∧
    ¬ e.InStep := by
  let start? := Engine.ofText Catalog.empty "[A]\n  x = 1\n[]\n".toList {}
  let actions : List Action :=
    [.edit (.setText "/A".toList "x".toList "2".toList), .type "[A]\n".toList, .flush]
  have hend : start?.toOption.map (fun start =>
      let e := actions.foldl act start
      decide (e.isPending = false ∧ ¬ e.InStep)) = some true := by decide +kernel
  rcases hstart : start? with reason | start
  · rw [hstart] at hend
    cases hend
  · rw [hstart] at hend
    obtain ⟨hidle, hout⟩ := of_decide_eq_true (Option.some.inj hend)
    exact ⟨start, _, .ofText hstart, .foldl actions .refl, hidle, hout⟩

/-- **An edit of the tree can be lost**: the text of an engine with nothing due can be neither that
of the tree nor one that reads as the tree. -/
theorem not_forall_inStep :
    ¬ ∀ start e : Engine, Started start → Runs start e → e.isPending = false → e.InStep := by
  intro h
  obtain ⟨start, e, hs, hrun, hidle, hout⟩ := exists_run_out_of_step
  exact hout (h start e hs hrun hidle)

/-- The lost edit of that run was dropped by typed text that was rejected. -/
theorem Runs.not_inStep_sample : ∃ start e m typed, Started start ∧ Runs start e ∧
    e.isPending = false ∧ Dropped start e m typed ∧ ¬ m.InStep ∧
      m.stats.parseFailures < e.stats.parseFailures := by
  obtain ⟨start, e, hs, hrun, hidle, hout⟩ := exists_run_out_of_step
  obtain ⟨m, typed, hdropped, hm, hfail⟩ := (hrun.not_inStep_iff hs hidle).mp hout
  exact ⟨start, e, m, typed, hs, hrun, hidle, hdropped, hm, hfail⟩

end Engine

end BlockEdit
