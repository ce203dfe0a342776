import BlockEdit.Sync.Engine

/-!
# What an action comes to

Between any two actions an engine is ready: it is open for edits, typed text waits exactly when its
reading is due, and not both tasks are due. Then each action comes to one of nine things, and
`Engine.Outcome` gives for each of them the engine after it and the events that are published. What
a run of an engine keeps is shown outcome by outcome.

A run is told by its turns: the actions, each with the engine that it comes to. What is published in
a run, and how many edits were accepted, is read off its turns.

Main statements:

* **`Engine.outcome_act`**: what an action of an engine that is ready comes to.
* **`Engine.ready_foldl`**: an engine is ready between any two actions of a run.
-/

namespace BlockEdit

/-! ### Debouncers -/

namespace Debouncer

variable {α : Type}

/-- A debouncer in which nothing waits is an idle one. -/
theorem eq_idle {d : Debouncer α} (h : d.isPending = false) : d = idle := by
  obtain ⟨_ | w⟩ := d
  · rfl
  · cases h

/-- Where nothing waits, time changes nothing. -/
theorem elapse_of_not_pending {d : Debouncer α} (h : d.isPending = false) (time : Nat) :
    d.elapse time = (d, none) := by
  rw [isPending, Option.isSome_eq_false_iff, Option.isNone_iff_eq_none] at h
  rw [elapse, h]

/-- **Time that passes** lets a task wait on or run. -/
theorem elapse_cases (d : Debouncer α) (time : Nat) :
    (d.elapse time).2 = none ∧ (d.elapse time).1.isPending = d.isPending ∨
      (d.elapse time).2.isSome = true ∧ (d.elapse time).1 = idle ∧ d.isPending = true := by
  rcases hw : d.waiting with _ | w
  · exact Or.inl (by simp [elapse, isPending, hw])
  · by_cases hlt : w.delay < time
    · exact Or.inr (by simp [elapse, isPending, hw, hlt])
    · exact Or.inl (by simp [elapse, isPending, hw, hlt])

end Debouncer

namespace Engine

/-! ### What the parts of a step do -/

/-- Following the identities changes the selection only. -/
theorem followActive_eq (e : Engine) (changes : IdentityChanges) :
    ∃ active, (followActive e changes).1 = { e with active } := by
  unfold followActive
  split
  · exact ⟨e.active, rfl⟩
  · split
    · exact ⟨_, rfl⟩
    · split
      · exact ⟨_, rfl⟩
      · exact ⟨e.active, rfl⟩

/-- Finding the selected block anew changes the selection only. -/
theorem reselect_eq (e : Engine) : ∃ active, (reselect e).1 = { e with active } := by
  unfold reselect
  split
  · exact ⟨e.active, rfl⟩
  · dsimp only
    split
    · exact ⟨_, rfl⟩
    · exact ⟨_, rfl⟩

/-- **Writing the text** makes it that of the tree. -/
theorem runSerialize_eq {e : Engine} (h : e.updatingFromText = false) :
    (runSerialize e).1 =
      { e with
        text := e.document.text e.config.indent
        stats := { e.stats with serializeRuns := e.stats.serializeRuns + 1 } } := by
  unfold runSerialize
  rw [if_neg (by simp [h])]
  dsimp only
  split
  · next heq => rw [heq]
  · rfl

/-- **Typed text that is a document** goes in together with its tree. -/
theorem runParse_ok {e : Engine} {text : Text} {document : Document} {ids : List Identity}
    (ht : e.pendingText = some text) (hd : e.document.replaceText text = .ok (document, ids)) :
    ∃ active, (runParse e).1 =
      { e with
        document, text, active
        pendingText := none
        updatingFromText := false
        stats := { e.stats with parseRuns := e.stats.parseRuns + 1 } } := by
  unfold runParse
  rw [ht]
  dsimp only
  rw [hd]
  dsimp only
  obtain ⟨active, hactive⟩ := reselect_eq
    { e with
      document, text
      pendingText := none
      updatingFromText := true
      stats := { e.stats with parseRuns := e.stats.parseRuns + 1 } }
  rw [hactive]
  exact ⟨active, rfl⟩

/-- **Typed text that is no document** goes, and tree and text stay. -/
theorem runParse_error {e : Engine} {text : Text} {reason : DocumentError}
    (ht : e.pendingText = some text) (hd : e.document.replaceText text = .error reason) :
    (runParse e).1 =
      { e with
        pendingText := none
        updatingFromText := false
        stats :=
          { e.stats with
            parseRuns := e.stats.parseRuns + 1
            parseFailures := e.stats.parseFailures + 1 } } := by
  unfold runParse
  rw [ht]
  dsimp only
  rw [hd]

/-! ### Actions -/

/-- What can be done to an engine. -/
inductive Action where
  /-- Someone edits the tree. -/
  | edit (edit : Edit)
  /-- Someone types. -/
  | type (text : Text)
  /-- Someone selects a block. -/
  | select (identity : Identity)
  /-- Time passes. -/
  | sleep (time : Nat)
  /-- Everything that is due is done at once. -/
  | flush

/-- The engine after an action. -/
def act (e : Engine) : Action → Engine
  | .edit edit => (e.applyEdit edit).engine
  | .type text => (e.editText text).engine
  | .select identity => (e.select identity).engine
  | .sleep time => (e.sleep time).engine
  | .flush => e.flush.engine

/-- What an action publishes. -/
def published (e : Engine) : Action → List SyncEvent
  | .edit edit => (e.applyEdit edit).events
  | .type text => (e.editText text).events
  | .select identity => (e.select identity).events
  | .sleep time => (e.sleep time).events
  | .flush => e.flush.events

/-- Nothing is half done in the engine, whatever its document. -/
structure Ready (e : Engine) : Prop where
  /-- The engine is open for edits. -/
  closed : e.updatingFromText = false
  /-- The reading is due exactly when typed text waits. -/
  waits : e.parseTask.isPending = e.pendingText.isSome
  /-- Not both tasks are due. -/
  single : ¬ (e.parseTask.isPending = true ∧ e.serializeTask.isPending = true)

/-! ### Outcomes -/

/-- Whether the action lets due tasks run, and does nothing else. -/
def Action.isPassive : Action → Bool
  | .sleep _ | .flush => true
  | _ => false

/-- What an action can come to, with the engine after it and what it publishes. -/
inductive Outcome (e : Engine) : Action → Engine → List SyncEvent → Prop
  /-- The edit is not accepted. -/
  | refused {edit : Edit} {reason : DocumentError}
      (refusal : e.document.apply edit = .error reason) : Outcome e (.edit edit) e []
  /-- The edit changes the tree, drops typed text that waits, and makes the writing due. -/
  | edited {edit : Edit} {document : Document} {result : EditResult}
      (edits : e.document.apply edit = .ok (document, result)) :
      Outcome e (.edit edit)
        { (followActive { e with document } result.changes).1 with
          pendingText := none
          parseTask := Debouncer.idle
          serializeTask := e.serializeTask.schedule e.config.serializeDelay () }
        ((followActive { e with document } result.changes).2 ++ .modelChanged result.touched ::
          (e.pendingText.map SyncEvent.textDiscarded).toList)
  /-- The typed text is the one of the engine. -/
  | echoed (nothing : e.pendingText = none) : Outcome e (.type e.text) e []
  /-- The typed text is taken in: it waits, and a writing that was due is dropped. -/
  | typed {text : Text} (news : e.pendingText = none → text ≠ e.text) :
      Outcome e (.type text)
        { e with
          pendingText := some text
          serializeTask := Debouncer.idle
          parseTask := e.parseTask.schedule e.config.parseDelay () }
        []
  /-- No block has the identity. -/
  | missed {i : Identity} (missing : e.document.identities.pathOf? i = none) :
      Outcome e (.select i) e []
  /-- The block is selected. -/
  | selected {i : Identity} (there : e.document.identities.pathOf? i ≠ none) :
      Outcome e (.select i) { e with active := some i }
        (if e.active = some i then [] else [.activeChanged e.active (some i) true])
  /-- Nothing is due yet. -/
  | waited {action : Action} {parseTask serializeTask : Debouncer Unit}
      (passive : action.isPassive = true) (parse : parseTask.isPending = e.parseTask.isPending)
      (serialize : serializeTask.isPending = e.serializeTask.isPending) :
      Outcome e action { e with parseTask, serializeTask } []
  /-- The typed text that waits is read. -/
  | reads {action : Action} {text : Text} (passive : action.isPassive = true)
      (waits : e.pendingText = some text) (idle : e.serializeTask.isPending = false) :
      Outcome e action (runParse { e with parseTask := Debouncer.idle }).1
        (runParse { e with parseTask := Debouncer.idle }).2
  /-- The text of the tree is written. -/
  | writes {action : Action} (passive : action.isPassive = true)
      (due : e.serializeTask.isPending = true) (nothing : e.pendingText = none) :
      Outcome e action (runSerialize { e with serializeTask := Debouncer.idle }).1
        (runSerialize { e with serializeTask := Debouncer.idle }).2

section outcomes

variable {e : Engine}

/-- With no reading due, no typed text waits. -/
theorem Ready.pendingText_eq_none (h : e.Ready) (hp : e.parseTask.isPending = false) :
    e.pendingText = none := by
  rw [← Option.not_isSome_iff_eq_none, ← h.waits, hp]
  exact Bool.false_ne_true

/-- When the reading is due, a typed text waits. -/
theorem Ready.exists_pendingText (h : e.Ready) (hp : e.parseTask.isPending = true) :
    ∃ text, e.pendingText = some text :=
  Option.isSome_iff_exists.mp (h.waits.symm.trans hp)

/-- When the reading is due, the writing is not. -/
theorem Ready.serialize_of_parse (h : e.Ready) (hp : e.parseTask.isPending = true) :
    e.serializeTask.isPending = false :=
  Bool.not_eq_true _ ▸ fun hs => h.single ⟨hp, hs⟩

/-- **Typed text that waits** is dropped and handed back; where none waits nothing changes. -/
theorem discardText_eq (h : e.parseTask.isPending = e.pendingText.isSome) :
    discardText e = ({ e with parseTask := Debouncer.idle, pendingText := none },
      (e.pendingText.map SyncEvent.textDiscarded).toList) := by
  rw [discardText]
  split
  · rfl
  · next hp =>
    rw [Bool.not_eq_true] at hp
    have hidle := Debouncer.eq_idle hp
    have hnone : e.pendingText = none := by
      rw [← Option.not_isSome_iff_eq_none, ← h, hp]
      exact Bool.false_ne_true
    rw [hnone, Option.map_none, Option.toList_none, ← hidle, ← hnone]

/-- An edit is refused without a trace, or it changes the tree, drops typed text that waits and
makes the writing due. -/
theorem outcome_edit (h : e.Ready) (edit : Edit) :
    Outcome e (.edit edit) (e.act (.edit edit)) (e.published (.edit edit)) := by
  show Outcome e (.edit edit) (e.applyEdit edit).engine (e.applyEdit edit).events
  rcases happly : e.document.apply edit with reason | ⟨document, result⟩
  · have hstep : e.applyEdit edit = ⟨.error reason, e, []⟩ := by rw [applyEdit, happly]
    rw [hstep]
    exact .refused happly
  · have hout := Outcome.edited happly
    obtain ⟨active, hactive⟩ := followActive_eq { e with document } result.changes
    rw [hactive] at hout
    rw [applyEdit, happly]
    dsimp only
    rw [hactive]
    dsimp only
    rw [if_neg (by simp [h.closed]), discardText_eq (e := { e with document, active }) h.waits]
    dsimp only
    rw [List.append_assoc, List.singleton_append]
    exact hout

/-- **Typed text that is news** is taken in. -/
theorem editText_of_news {text : Text} (news : e.pendingText = none → text ≠ e.text) :
    e.editText text = ⟨true,
      { e with
        pendingText := some text
        serializeTask := Debouncer.idle
        parseTask := e.parseTask.schedule e.config.parseDelay () }, []⟩ := by
  rw [editText, if_neg]
  · rfl
  · intro hecho
    rw [Bool.and_eq_true, Option.isNone_iff_eq_none, decide_eq_true_eq] at hecho
    exact news hecho.1 hecho.2

/-- Typed text that is news waits, and makes the reading due in place of the writing. -/
theorem outcome_type (e : Engine) (text : Text) :
    Outcome e (.type text) (e.act (.type text)) (e.published (.type text)) := by
  show Outcome e (.type text) (e.editText text).engine (e.editText text).events
  by_cases hecho : e.pendingText = none ∧ text = e.text
  · obtain ⟨hnothing, rfl⟩ := hecho
    rw [editText, hnothing, if_pos (by simp)]
    exact .echoed hnothing
  · have news : e.pendingText = none → text ≠ e.text :=
      fun hnothing hsame => hecho ⟨hnothing, hsame⟩
    rw [editText_of_news news]
    exact .typed news

/-- A selection changes only what is selected, and nothing when the block is not there. -/
theorem outcome_select (e : Engine) (i : Identity) :
    Outcome e (.select i) (e.act (.select i)) (e.published (.select i)) := by
  show Outcome e (.select i) (e.select i).engine (e.select i).events
  rw [select]
  by_cases hmissing : (e.document.identities.pathOf? i).isNone = true
  · rw [if_pos hmissing]
    exact .missed (Option.isNone_iff_eq_none.mp hmissing)
  · rw [if_neg hmissing]
    exact .selected fun hnone => hmissing (Option.isNone_iff_eq_none.mpr hnone)

/-- **Reading typed text** only takes the text that waits and counts the reading, as far as what is
due is concerned. -/
theorem runParse_due {text : Text} (ht : e.pendingText = some text) :
    (runParse e).1.pendingText = none ∧ (runParse e).1.updatingFromText = false ∧
      (runParse e).1.parseTask = e.parseTask ∧ (runParse e).1.serializeTask = e.serializeTask ∧
      (runParse e).1.stats.parseRuns = e.stats.parseRuns + 1 ∧
      (runParse e).1.stats.serializeRuns = e.stats.serializeRuns := by
  rcases hd : e.document.replaceText text with reason | ⟨document, ids⟩
  · rw [runParse_error ht hd]
    exact ⟨rfl, rfl, rfl, rfl, rfl, rfl⟩
  · obtain ⟨active, hrun⟩ := runParse_ok ht hd
    rw [hrun]
    exact ⟨rfl, rfl, rfl, rfl, rfl, rfl⟩

/-- Reading typed text makes nothing due. -/
theorem tasks_runParse (e : Engine) : (runParse e).1.parseTask = e.parseTask ∧
    (runParse e).1.serializeTask = e.serializeTask := by
  rcases ht : e.pendingText with _ | text
  · rw [runParse, ht]
    exact ⟨rfl, rfl⟩
  · obtain ⟨-, -, hparse, hserialize, -⟩ := runParse_due ht
    exact ⟨hparse, hserialize⟩

/-- **A flush that finds typed text** reads it and does nothing else. -/
theorem flush_of_parse (h : e.Ready) (hp : e.parseTask.isPending = true) :
    e.flush = ⟨(), (runParse { e with parseTask := Debouncer.idle }).1,
      (runParse { e with parseTask := Debouncer.idle }).2⟩ := by
  have hs : (runParse { e with parseTask := Debouncer.idle }).1.serializeTask.isPending = false := by
    rw [(tasks_runParse _).2]
    exact h.serialize_of_parse hp
  simp [flush, flushParse, flushSerialize, hp, hs, Debouncer.cancel]

/-- A flush that finds no typed text does the writing that is due. -/
theorem flush_of_not_parse (hp : e.parseTask.isPending = false) :
    e.flush = ⟨(), (flushSerialize e).1, (flushSerialize e).2⟩ := by
  simp [flush, flushParse, hp]

/-- A flush lets the task run that is due, of which there is one at most. -/
theorem outcome_flush (h : e.Ready) :
    Outcome e .flush (e.act .flush) (e.published .flush) := by
  show Outcome e .flush e.flush.engine e.flush.events
  by_cases hp : e.parseTask.isPending = true
  · obtain ⟨text, ht⟩ := h.exists_pendingText hp
    rw [flush_of_parse h hp]
    exact .reads rfl ht (h.serialize_of_parse hp)
  · rw [Bool.not_eq_true] at hp
    rw [flush_of_not_parse hp, flushSerialize]
    by_cases hs : e.serializeTask.isPending = true
    · rw [if_pos hs]
      exact .writes rfl hs (h.pendingText_eq_none hp)
    · rw [if_neg hs]
      exact .waited rfl rfl rfl

/-- **With no writing due**, time that passes only brings the reading nearer, or does it. -/
theorem sleep_of_not_serialize (hs : e.serializeTask.isPending = false) (time : Nat) :
    e.sleep time =
      (let later := { e with parseTask := (e.parseTask.elapse time).1 }
       if (e.parseTask.elapse time).2.isSome then ⟨(), (runParse later).1, (runParse later).2⟩
       else ⟨(), later, []⟩) := by
  have hserialize := Debouncer.elapse_of_not_pending hs time
  rcases hrun : (e.parseTask.elapse time).2 with _ | w <;>
    by_cases hfirst : e.parseIsFirst = true <;> simp [sleep, hserialize, hrun, hfirst]

/-- **With no reading due**, time that passes only brings the writing nearer, or does it. -/
theorem sleep_of_not_parse (hp : e.parseTask.isPending = false) (time : Nat) :
    e.sleep time =
      (let later := { e with serializeTask := (e.serializeTask.elapse time).1 }
       if (e.serializeTask.elapse time).2.isSome then
        ⟨(), (runSerialize later).1, (runSerialize later).2⟩
       else ⟨(), later, []⟩) := by
  have hparse := Debouncer.elapse_of_not_pending hp time
  rcases hrun : (e.serializeTask.elapse time).2 with _ | w <;>
    by_cases hfirst : e.parseIsFirst = true <;> simp [sleep, hparse, hrun, hfirst]

/-- Sleep lets the task that waits run, if it is long enough; there is one at most. -/
theorem outcome_sleep (h : e.Ready) (time : Nat) :
    Outcome e (.sleep time) (e.act (.sleep time)) (e.published (.sleep time)) := by
  show Outcome e (.sleep time) (e.sleep time).engine (e.sleep time).events
  by_cases hp : e.parseTask.isPending = true
  · have hs := h.serialize_of_parse hp
    obtain ⟨text, ht⟩ := h.exists_pendingText hp
    rw [sleep_of_not_serialize hs]
    dsimp only
    rcases Debouncer.elapse_cases e.parseTask time with ⟨hnone, hwait⟩ | ⟨hsome, hidle, -⟩
    · rw [hnone]
      exact .waited rfl hwait rfl
    · rw [if_pos hsome, hidle]
      exact .reads rfl ht hs
  · rw [Bool.not_eq_true] at hp
    rw [sleep_of_not_parse hp]
    dsimp only
    rcases Debouncer.elapse_cases e.serializeTask time with ⟨hnone, hwait⟩ | ⟨hsome, hidle, hs⟩
    · rw [hnone]
      exact .waited rfl rfl hwait
    · rw [if_pos hsome, hidle]
      exact .writes rfl hs (h.pendingText_eq_none hp)

/-- **What an action comes to** in an engine that is ready. -/
theorem outcome_act (h : e.Ready) (action : Action) :
    Outcome e action (e.act action) (e.published action) := by
  cases action with
  | edit edit => exact outcome_edit h edit
  | type text => exact outcome_type e text
  | select i => exact outcome_select e i
  | sleep time => exact outcome_sleep h time
  | flush => exact outcome_flush h

/-- **No outcome** leaves anything half done. -/
theorem Outcome.ready {action : Action} {e' : Engine} {events : List SyncEvent}
    (ho : Outcome e action e' events) (h : e.Ready) : e'.Ready := by
  cases ho with
  | refused => exact h
  | @edited _ document result =>
    obtain ⟨active, hactive⟩ := followActive_eq { e with document } result.changes
    rw [hactive]
    exact ⟨h.closed, rfl, fun hboth => by cases hboth.1⟩
  | echoed => exact h
  | typed => exact ⟨h.closed, rfl, fun hboth => by cases hboth.2⟩
  | missed => exact h
  | selected => exact ⟨h.closed, h.waits, h.single⟩
  | waited _ parse serialize =>
    refine ⟨h.closed, parse.trans h.waits, ?_⟩
    dsimp only
    rw [parse, serialize]
    exact h.single
  | reads _ waits idle =>
    obtain ⟨hpending, hclosed, hparse, hserialize, -, -⟩ :=
      runParse_due (e := { e with parseTask := Debouncer.idle }) waits
    refine ⟨hclosed, ?_, fun hboth => ?_⟩
    · rw [hparse, hpending]
      rfl
    · rw [hserialize, idle] at hboth
      cases hboth.2
  | writes _ _ nothing =>
    rw [runSerialize_eq (e := { e with serializeTask := Debouncer.idle }) h.closed]
    exact ⟨h.closed, h.waits, fun hboth => by cases hboth.2⟩

/-- **One action** leaves nothing half done. -/
theorem Ready.act (h : e.Ready) (action : Action) : (e.act action).Ready :=
  (outcome_act h action).ready h

end outcomes

/-! ### What the parts of a step publish -/

section publishing

variable {α : Type} {f : SyncEvent → Option α}

/-- Following the identities publishes changes of the selection only. -/
theorem filterMap_followActive
    (hactive : ∀ previous current isExact, f (.activeChanged previous current isExact) = none)
    (e : Engine) (changes : IdentityChanges) : (followActive e changes).2.filterMap f = [] := by
  unfold followActive
  split
  · rfl
  · split
    · exact List.filterMap_cons_none (hactive _ _ _)
    · split
      · exact List.filterMap_cons_none (hactive _ _ _)
      · rfl

/-- Finding the selected block anew publishes changes of the selection only. -/
theorem filterMap_reselect
    (hactive : ∀ previous current isExact, f (.activeChanged previous current isExact) = none)
    (e : Engine) : (reselect e).2.filterMap f = [] := by
  unfold reselect
  split
  · rfl
  · dsimp only
    split
    · rfl
    · exact List.filterMap_cons_none (hactive _ _ _)

/-- **Reading typed text** publishes changes of the tree and of the selection, or a failure. -/
theorem filterMap_runParse
    (hactive : ∀ previous current isExact, f (.activeChanged previous current isExact) = none)
    (hmodel : ∀ identities, f (.modelChanged identities) = none)
    (hfailed : ∀ message, f (.parseFailed message) = none) (e : Engine) :
    (runParse e).2.filterMap f = [] := by
  unfold runParse
  split
  · rfl
  · dsimp only
    split
    · exact (List.filterMap_cons_none (hmodel _)).trans (filterMap_reselect hactive _)
    · exact List.filterMap_cons_none (hfailed _)

end publishing

/-! ### What an action publishes -/

/-- The texts that the text view has to show. -/
def shownTexts (events : List SyncEvent) : List Text :=
  events.filterMap fun
    | .textChanged text _ => some text
    | _ => none

/-- Whether the action is an edit of the tree that is accepted. -/
def accepts (e : Engine) : Action → Bool
  | .edit edit => (e.applyEdit edit).answer.isOk
  | _ => false

section events

variable {e : Engine}

/-- Where nothing is published, no text is shown. -/
@[simp]
theorem shownTexts_nil : shownTexts [] = [] := rfl

/-- Texts are shown in the order in which they are published. -/
@[simp]
theorem shownTexts_append (earlier later : List SyncEvent) :
    shownTexts (earlier ++ later) = shownTexts earlier ++ shownTexts later :=
  List.filterMap_append

/-- An edit that the document refuses is not accepted. -/
theorem accepts_of_refused {edit : Edit} {reason : DocumentError}
    (h : e.document.apply edit = .error reason) : e.accepts (.edit edit) = false := by
  rw [accepts, applyEdit, h]
  rfl

/-- An edit that the document carries out is accepted. -/
theorem accepts_of_edited {edit : Edit} {document : Document} {result : EditResult}
    (h : e.document.apply edit = .ok (document, result)) : e.accepts (.edit edit) = true := by
  rw [accepts, applyEdit, h]
  dsimp only
  split <;> rfl

/-- Neither sleep nor a flush is an edit. -/
theorem accepts_of_passive {action : Action} (h : action.isPassive = true) :
    e.accepts action = false := by
  cases action with
  | edit edit => cases h
  | type text => rfl
  | select i => rfl
  | sleep time => rfl
  | flush => rfl

/-- **What an edit that is accepted comes to**: it is not refused. -/
theorem Outcome.exists_of_accepts {action : Action} {e' : Engine} {events : List SyncEvent}
    (ho : Outcome e action e' events) (ha : e.accepts action = true) :
    ∃ (edit : Edit) (document : Document) (result : EditResult), action = .edit edit ∧
      e' = { (followActive { e with document } result.changes).1 with
        pendingText := none
        parseTask := Debouncer.idle
        serializeTask := e.serializeTask.schedule e.config.serializeDelay () } ∧
      events = (followActive { e with document } result.changes).2 ++
        .modelChanged result.touched :: (e.pendingText.map SyncEvent.textDiscarded).toList := by
  cases ho with
  | refused refusal => rw [accepts_of_refused refusal] at ha; cases ha
  | @edited edit document result => exact ⟨edit, document, result, rfl, rfl, rfl⟩
  | echoed => cases ha
  | typed => cases ha
  | missed => cases ha
  | selected => cases ha
  | waited passive => rw [accepts_of_passive passive] at ha; cases ha
  | reads passive => rw [accepts_of_passive passive] at ha; cases ha
  | writes passive => rw [accepts_of_passive passive] at ha; cases ha

/-- Following the identities only says where the selection went. -/
theorem shownTexts_followActive (e : Engine) (changes : IdentityChanges) :
    shownTexts (followActive e changes).2 = [] :=
  filterMap_followActive (fun _ _ _ => rfl) e changes

/-- Reading typed text gives the text view nothing to show. -/
theorem shownTexts_runParse (e : Engine) : shownTexts (runParse e).2 = [] :=
  filterMap_runParse (fun _ _ _ => rfl) (fun _ => rfl) (fun _ => rfl) e

/-- An edit shows no text: what it publishes is about the tree and the text that was dropped. -/
theorem shownTexts_edited (e : Engine) (document : Document) (result : EditResult) :
    shownTexts ((followActive { e with document } result.changes).2 ++
      .modelChanged result.touched :: (e.pendingText.map SyncEvent.textDiscarded).toList) = [] := by
  rw [shownTexts_append, shownTexts_followActive]
  rcases e.pendingText with _ | text <;> rfl

/-- **Writing the text** publishes it when it is new. -/
theorem events_runSerialize (h : e.updatingFromText = false) :
    (runSerialize e).2 = if e.document.text e.config.indent = e.text then []
      else [.textChanged (e.document.text e.config.indent) e.document.version] := by
  rw [runSerialize, if_neg (by simp [h])]
  dsimp only
  split <;> rfl

end events

/-! ### Runs -/

/-- An engine at its start. -/
inductive Opened : Engine → Prop
  /-- It has a document, and shows any text for it. -/
  | ofDocument (document : Document) (text : Text) (config : SyncConfig) :
      Opened (ofDocument document text config)

/-- A new engine is at its start. -/
theorem opened_new (document : Document) (config : SyncConfig) : Opened (new document config) :=
  .ofDocument document _ config

/-- An engine that was made from a text is at its start. -/
theorem opened_ofText {catalog : Catalog} {source : Text} {config : SyncConfig} {e : Engine}
    (h : Engine.ofText catalog source config = .ok e) : Opened e := by
  unfold ofText at h
  rcases hd : Document.ofText catalog source .memory with reason | document
  · rw [hd] at h
    cases h
  · rw [hd] at h
    cases h
    exact .ofDocument document source config

/-- Nothing is half done at the start. -/
theorem Opened.ready {e : Engine} (h : Opened e) : e.Ready := by
  obtain ⟨document, text, config⟩ := h
  exact ⟨rfl, rfl, fun hboth => by cases hboth.1⟩

/-- The turns of a run: the actions, each with the engine that it comes to. -/
def turns : Engine → List Action → List (Engine × Action)
  | _, [] => []
  | e, action :: actions => (e, action) :: turns (e.act action) actions

/-- All that is published in a run, in order. -/
def history (start : Engine) (actions : List Action) : List SyncEvent :=
  (turns start actions).flatMap fun t => t.1.published t.2

/-- How many edits are accepted in a run. -/
def acceptedEdits (start : Engine) (actions : List Action) : Nat :=
  (turns start actions).countP fun t => t.1.accepts t.2

section runs

variable {start : Engine} {actions : List Action}

/-- An engine is ready between any two actions of a run. -/
theorem ready_foldl (h : start.Ready) : ∀ actions : List Action,
    (actions.foldl act start).Ready := by
  intro actions
  induction actions generalizing start with
  | nil => exact h
  | cons action actions ih => exact ih (h.act action)

/-- The turns of two runs are those of the first and then those of the second from where the first
came to. -/
theorem turns_append (start : Engine) (earlier later : List Action) :
    turns start (earlier ++ later) =
      turns start earlier ++ turns (earlier.foldl act start) later := by
  induction earlier generalizing start with
  | nil => rfl
  | cons action earlier ih => rw [List.cons_append, turns, turns, ih, List.cons_append,
      List.foldl_cons]

/-- **The last turn** of a run comes to the engine that the turns before it leave. -/
theorem turns_concat (start : Engine) (actions : List Action) (action : Action) :
    turns start (actions ++ [action]) =
      turns start actions ++ [(actions.foldl act start, action)] :=
  turns_append start actions [action]

/-- What is published in a run starts with what its first action publishes. -/
theorem history_cons (start : Engine) (action : Action) (actions : List Action) :
    history start (action :: actions) =
      start.published action ++ history (start.act action) actions := by
  rw [history, turns, List.flatMap_cons, history]

/-- The edits that are accepted in a run are counted action by action. -/
theorem acceptedEdits_cons (start : Engine) (action : Action) (actions : List Action) :
    acceptedEdits start (action :: actions) =
      (start.accepts action).toNat + acceptedEdits (start.act action) actions := by
  rw [acceptedEdits, turns, List.countP_cons, acceptedEdits, Nat.add_comm]
  rcases start.accepts action <;> rfl

/-- **A turn of a run** is an action in an engine that the actions before it leave. -/
theorem exists_of_turns_eq {earlier later : List (Engine × Action)} {t : Engine × Action}
    (h : turns start actions = earlier ++ t :: later) :
    ∃ before after, actions = before ++ t.2 :: after ∧ earlier = turns start before ∧
      t.1 = before.foldl act start ∧ later = turns (t.1.act t.2) after := by
  induction earlier generalizing start actions with
  | nil =>
    rcases actions with _ | ⟨action, actions⟩
    · cases h
    · rw [turns, List.nil_append] at h
      obtain ⟨rfl, rfl⟩ := List.cons.inj h
      exact ⟨[], actions, rfl, rfl, rfl, rfl⟩
  | cons s earlier ih =>
    rcases actions with _ | ⟨action, actions⟩
    · cases h
    · rw [turns, List.cons_append] at h
      obtain ⟨rfl, hrest⟩ := List.cons.inj h
      obtain ⟨before, after, rfl, rfl, hengine, hlater⟩ := ih hrest
      exact ⟨action :: before, after, rfl, rfl, hengine, hlater⟩

end runs

end Engine

end BlockEdit
