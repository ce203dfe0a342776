import BlockEdit.Proofs.Coalescing

/-!
# What is shown of an engine

Whoever shows a document only knows what was typed and what was published. Both the selection and
the text can be followed that way. Each change of the selection is published with what was selected
before, so the published changes, one after the other, are the selection. A text view shows what was
typed last or published since; it falls behind where an edit of the tree drops typed text and the
text that is then written is the one that the engine had before, so that it is not published again.

Main statements:

* **`Engine.active_eq_foldl_history`**: the published changes of the selection are all there are.
* **`Engine.content_ne_text_iff`**: when a text view with nothing due shows another text than that
  of the engine.
-/

namespace BlockEdit

namespace Engine

/-! ### The selection -/

/-- What is selected after an event. -/
def selectedBy (selected : Option Identity) : SyncEvent → Option Identity
  | .activeChanged _ current _ => current
  | _ => selected

/-- An event that is no change of the selection leaves it alone. -/
theorem selectedBy_eq_self {selected : Option Identity} {event : SyncEvent}
    (h : ∀ previous current isExact, event ≠ .activeChanged previous current isExact) :
    selectedBy selected event = selected := by
  cases event with
  | activeChanged previous current isExact => exact absurd rfl (h previous current isExact)
  | textChanged | modelChanged | parseFailed | textDiscarded => rfl

/-- The events tell step by step how the selection becomes another one: each change that they tell
starts from what was selected before. -/
inductive Tells : Option Identity → List SyncEvent → Option Identity → Prop
  /-- Without events the selection stays. -/
  | nil (selected : Option Identity) : Tells selected [] selected
  /-- The selection changes. -/
  | moved {previous current after : Option Identity} {isExact : Bool} {events : List SyncEvent}
      (rest : Tells current events after) :
      Tells previous (.activeChanged previous current isExact :: events) after
  /-- Another event leaves the selection alone. -/
  | other {selected after : Option Identity} {event : SyncEvent} {events : List SyncEvent}
      (silent : ∀ previous current isExact, event ≠ .activeChanged previous current isExact)
      (rest : Tells selected events after) : Tells selected (event :: events) after

namespace Tells

variable {selected middle after : Option Identity} {earlier later events : List SyncEvent}

/-- What is told step by step can be told in two parts. -/
theorem append (h : Tells selected earlier middle) (h' : Tells middle later after) :
    Tells selected (earlier ++ later) after := by
  induction h with
  | nil => exact h'
  | moved _ ih => exact .moved (ih h')
  | other silent _ ih => exact .other silent (ih h')

/-- Events that tell nothing of the selection leave it alone. -/
theorem of_silent {events : List SyncEvent} (h : ∀ event ∈ events, ∀ previous current isExact,
    event ≠ SyncEvent.activeChanged previous current isExact) :
    Tells selected events selected := by
  induction events with
  | nil => exact .nil selected
  | cons event events ih =>
    exact .other (h event List.mem_cons_self)
      (ih fun event hm => h event (List.mem_cons_of_mem _ hm))

/-- Who follows the events knows what is selected. -/
theorem foldl_eq (h : Tells selected events after) :
    events.foldl selectedBy selected = after := by
  induction h with
  | nil => rfl
  | moved _ ih => exact ih
  | other silent _ ih => rw [List.foldl_cons, selectedBy_eq_self silent, ih]

/-- **Each change** starts from what the events before it select. -/
theorem previous_eq {previous current : Option Identity} {isExact : Bool}
    (h : Tells selected (earlier ++ .activeChanged previous current isExact :: later) after) :
    previous = earlier.foldl selectedBy selected := by
  induction earlier generalizing selected with
  | nil =>
    cases h with
    | moved => rfl
    | other silent => exact absurd rfl (silent previous current isExact)
  | cons event earlier ih =>
    cases h with
    | moved rest => exact ih rest
    | other silent rest => rw [List.foldl_cons, selectedBy_eq_self silent, ih rest]

end Tells

section selection

variable {e e' : Engine} {action : Action} {events : List SyncEvent}

/-- The events of an edit tell how the selection follows its block. -/
theorem tells_followActive (e : Engine) (changes : IdentityChanges) :
    Tells e.active (followActive e changes).2 (followActive e changes).1.active := by
  rw [followActive]
  rcases hactive : e.active with _ | active
  · dsimp only
    rw [hactive]
    exact .nil none
  · dsimp only
    rcases changes.remapOf? active with _ | current
    · dsimp only
      split
      · exact .moved (.nil none)
      · rw [hactive]
        exact .nil (some active)
    · exact .moved (.nil (some current))

/-- The events of a reading tell how the selected block is found anew. -/
theorem tells_reselect (e : Engine) :
    Tells e.active (reselect e).2 (reselect e).1.active := by
  rw [reselect]
  rcases hactive : e.active with _ | previous
  · dsimp only
    rw [hactive]
    exact .nil none
  · dsimp only
    split
    · next hsame =>
      rw [Bool.and_eq_true, decide_eq_true_eq] at hsame
      dsimp only
      rw [hsame.2]
      exact .nil (some previous)
    · exact .moved (.nil _)

/-- All that a reading publishes tells how it changes the selection, or that it does not. -/
theorem tells_runParse (e : Engine) :
    Tells e.active (runParse e).2 (runParse e).1.active := by
  rcases ht : e.pendingText with _ | text
  · rw [runParse, ht]
    exact .nil e.active
  · rcases hd : e.document.replaceText text with reason | ⟨document, ids⟩
    · rw [runParse, ht]
      dsimp only
      rw [hd]
      exact .other (fun _ _ _ h => by cases h) (.nil e.active)
    · have hmoves := tells_reselect
        { e with
          document, text
          pendingText := none
          updatingFromText := true
          stats := { e.stats with parseRuns := e.stats.parseRuns + 1 } }
      rw [runParse, ht]
      dsimp only
      rw [hd]
      exact .other (fun _ _ _ h => by cases h) hmoves

/-- A writing tells of no change of the selection. -/
theorem tells_runSerialize (e : Engine) :
    Tells e.active (runSerialize e).2 (runSerialize e).1.active := by
  rw [runSerialize]
  split
  · exact .nil e.active
  · dsimp only
    split
    · exact .nil e.active
    · exact .other (fun _ _ _ h => by cases h) (.nil e.active)

/-- **Each outcome** tells what becomes of the selection. -/
theorem Outcome.tells (ho : Outcome e action e' events) : Tells e.active events e'.active := by
  cases ho with
  | refused => exact .nil e.active
  | @edited _ document result =>
    refine (tells_followActive { e with document } result.changes).append
      (.other (fun _ _ _ h => by cases h) (.of_silent fun event hm => ?_))
    obtain ⟨text, -, rfl⟩ := Option.map_eq_some_iff.mp (Option.mem_toList.mp hm)
    exact fun _ _ _ h => by cases h
  | echoed => exact .nil e.active
  | typed => exact .nil e.active
  | missed => exact .nil e.active
  | @selected i =>
    dsimp only
    split
    · next hsame =>
      rw [hsame]
      exact .nil (some i)
    · exact .moved (.nil (some i))
  | waited => exact .nil e.active
  | reads => exact tells_runParse { e with parseTask := Debouncer.idle }
  | writes => exact tells_runSerialize { e with serializeTask := Debouncer.idle }

/-- **What is published in a run** tells what becomes of the selection. -/
theorem tells_history : ∀ (actions : List Action) {e : Engine}, e.Ready →
    Tells e.active (history e actions) (actions.foldl act e).active
  | [], e, _ => .nil e.active
  | action :: actions, e, h => by
    rw [history_cons]
    exact (outcome_act h action).tells.append (tells_history actions (h.act action))

/-- **The published changes are the selection.** In every state of a run, the changes of the
selection that were published so far lead from no selection to that of the engine, and each of them
tells what was selected just before it. -/
theorem active_eq_foldl_history {start : Engine} (h : Opened start) (actions : List Action) :
    (history start actions).foldl selectedBy none = (actions.foldl act start).active ∧
      ∀ earlier previous current isExact later,
        history start actions = earlier ++ .activeChanged previous current isExact :: later →
          previous = earlier.foldl selectedBy none := by
  have htells := tells_history actions h.ready
  have hnone : start.active = none := by
    obtain ⟨document, text, config⟩ := h
    rfl
  rw [hnone] at htells
  refine ⟨htells.foldl_eq, fun earlier previous current isExact later hsplit => ?_⟩
  rw [hsplit] at htells
  exact htells.previous_eq

/-- A run in which a block is selected, gets another name, and is replaced by a similar one. -/
theorem active_eq_foldl_history_sample : ∃ start actions earlier later, Opened start ∧
    (actions.foldl act start).active = some "/D/B::".toList ∧
      (history start actions).foldl selectedBy none = (actions.foldl act start).active ∧
      history start actions = earlier ++
        .activeChanged (some "/C/B::".toList) (some "/D/B::".toList) false :: later ∧
      some "/C/B::".toList = earlier.foldl selectedBy none := by
  let start? := Engine.ofText Catalog.empty "[A]\n  [./B]\n  []\n[]\n".toList {}
  let actions : List Action :=
    [.select "/A/B::".toList, .edit (.rename "/A".toList "C".toList),
      .type "[D]\n  [./B]\n  []\n[]\n".toList, .flush]
  have hrun : start?.toOption.map (fun start => decide (
      (actions.foldl act start).active = some "/D/B::".toList ∧
      history start actions = (history start actions).take 4 ++
        .activeChanged (some "/C/B::".toList) (some "/D/B::".toList) false :: [])) =
      some true := by decide +kernel
  rcases hstart : start? with reason | start
  · rw [hstart] at hrun
    cases hrun
  · rw [hstart] at hrun
    obtain ⟨hactive, hsplit⟩ := of_decide_eq_true (Option.some.inj hrun)
    have hopened := opened_ofText hstart
    obtain ⟨hfold, hprevious⟩ := active_eq_foldl_history hopened actions
    exact ⟨start, actions, _, [], hopened, hactive, hfold, hsplit, hprevious _ _ _ _ _ hsplit⟩

end selection

/-! ### The text -/

/-- What a text view shows. -/
structure TextView where
  /-- The text that is shown. -/
  content : Text
  /-- The text that was typed last was rejected. -/
  rejected : Bool
deriving DecidableEq

namespace TextView

/-- The view after an event. -/
def tell (v : TextView) : SyncEvent → TextView
  | .textChanged text _ => { v with content := text }
  | .parseFailed _ => { v with rejected := true }
  | _ => v

/-- Text that is typed is shown. -/
def typed (v : TextView) : Action → TextView
  | .type text => ⟨text, false⟩
  | _ => v

/-- The view after an action and what it publishes. -/
def told (v : TextView) (action : Action) (events : List SyncEvent) : TextView :=
  events.foldl tell (v.typed action)

/-- The view after a turn. -/
def follow (v : TextView) (t : Engine × Action) : TextView :=
  v.told t.2 (t.1.published t.2)

/-- The view at the end of a run. -/
def after (start : Engine) (actions : List Action) : TextView :=
  (turns start actions).foldl follow ⟨start.text, false⟩

end TextView

/-- The action gives the view nothing to show: no text is typed, and none is published. -/
structure Unseen (action : Action) (events : List SyncEvent) : Prop where
  /-- No text is typed. -/
  silent : ∀ text, action ≠ .type text
  /-- No text is published. -/
  hidden : shownTexts events = []

/-- In the run an edit of the tree dropped this typed text, and the view was given nothing to show
since. -/
def Stranded (start : Engine) (actions : List Action) (typed : Text) : Prop :=
  ∃ earlier t later, turns start actions = earlier ++ t :: later ∧
    t.1.pendingText = some typed ∧ t.1.accepts t.2 = true ∧
      ∀ s ∈ later, Unseen s.2 (s.1.published s.2)

/-- How a view stands to the engine, where some typed texts were dropped. -/
inductive Shows (e : Engine) (v : TextView) (dropped : Text → Prop) : Prop
  /-- The view shows the text of the engine. -/
  | current (nothing : e.pendingText = none) (same : v.content = e.text)
  /-- The view shows the typed text that waits. -/
  | waiting (waits : e.pendingText = some v.content)
  /-- The view shows text that was rejected. -/
  | rejected (nothing : e.pendingText = none) (rejected : v.rejected = true)
  /-- The view shows text that was dropped. -/
  | dropped (nothing : e.pendingText = none) (dropped : dropped v.content)

section views

variable {e e' start : Engine} {action : Action} {actions : List Action}
  {events : List SyncEvent} {v : TextView} {typed : Text}

/-- The view at the end is the one before the last action, told what that published. -/
theorem TextView.after_concat (start : Engine) (actions : List Action) (action : Action) :
    after start (actions ++ [action]) =
      (after start actions).told action ((actions.foldl act start).published action) := by
  rw [after, turns_concat, List.foldl_append]
  rfl

/-- Of the texts that a view is told it shows the last one. -/
theorem TextView.content_foldl_tell (events : List SyncEvent) (v : TextView) :
    (events.foldl tell v).content = ((shownTexts events).getLast?).getD v.content := by
  induction events generalizing v with
  | nil => rfl
  | cons event events ih =>
    rw [List.foldl_cons, ih]
    cases event with
    | textChanged text version =>
      rw [show shownTexts (.textChanged text version :: events) = text :: shownTexts events from rfl,
        List.getLast?_cons, Option.getD_some]
      rfl
    | modelChanged | activeChanged | parseFailed | textDiscarded => rfl

/-- No event takes a rejection back. -/
theorem TextView.rejected_foldl_tell (events : List SyncEvent) (h : v.rejected = true) :
    (events.foldl tell v).rejected = true := by
  induction events generalizing v with
  | nil => exact h
  | cons event events ih =>
    refine ih ?_
    cases event with
    | parseFailed => rfl
    | textChanged | modelChanged | activeChanged | textDiscarded => exact h

/-- An action that gives the view nothing to show types nothing into it. -/
theorem Unseen.typed_eq (h : Unseen action events) (v : TextView) : v.typed action = v := by
  cases action with
  | type text => exact absurd rfl (h.silent text)
  | edit | select | sleep | flush => rfl

/-- Sleep or a flush that publishes no text gives the view nothing to show. -/
theorem Unseen.of_passive (h : action.isPassive = true) (hevents : shownTexts events = []) :
    Unseen action events := by
  refine ⟨fun text htype => ?_, hevents⟩
  rw [htype] at h
  cases h

/-- Sleep and a flush type nothing into the view. -/
theorem TextView.typed_of_passive (h : action.isPassive = true) (v : TextView) :
    v.typed action = v := by
  have hunseen : Unseen action [] := .of_passive h rfl
  exact hunseen.typed_eq v

/-- **A view that is given nothing to show** shows what it showed. -/
theorem Unseen.content (h : Unseen action events) (v : TextView) :
    (v.told action events).content = v.content := by
  rw [TextView.told, h.typed_eq, TextView.content_foldl_tell, h.hidden]
  rfl

/-- An action that gives the view nothing to show takes no rejection back. -/
theorem Unseen.rejected (h : Unseen action events) (hv : v.rejected = true) :
    (v.told action events).rejected = true := by
  rw [TextView.told, h.typed_eq]
  exact TextView.rejected_foldl_tell events hv

/-- An action that gives the view nothing to show brings no typed text. -/
theorem Unseen.echoes (h : Unseen action events) (e : Engine) : action.Echoes e := by
  cases action with
  | type text => exact absurd rfl (h.silent text)
  | edit | select | sleep | flush => trivial

/-- Edits that are accepted give the view nothing to show. -/
theorem Outcome.unseen_of_accepts (ho : Outcome e action e' events)
    (ha : e.accepts action = true) : Unseen action events := by
  obtain ⟨edit, document, result, rfl, -, rfl⟩ := ho.exists_of_accepts ha
  exact ⟨nofun, shownTexts_edited e document result⟩

/-- A view shows the typed text that waits. -/
theorem Shows.content_of_waits {dropped : Text → Prop} (hv : Shows e v dropped)
    (ht : e.pendingText = some typed) : v.content = typed := by
  cases hv with
  | waiting waits => exact Option.some.inj (waits.symm.trans ht)
  | current nothing | rejected nothing | dropped nothing => rw [nothing] at ht; cases ht

/-- **Reading typed text** gives the view nothing to show: it shows the text that was read, or the
text that was rejected. -/
theorem Shows.reading {dropped : Text → Prop} (hcontent : v.content = typed)
    (ht : e.pendingText = some typed) :
    Shows (runParse e).1 ((runParse e).2.foldl TextView.tell v) dropped := by
  obtain ⟨hnothing, -⟩ := runParse_due ht
  rcases hd : e.document.replaceText typed with reason | ⟨document, ids⟩
  · refine .rejected hnothing ?_
    rw [runParse, ht]
    dsimp only
    rw [hd]
    rfl
  · refine .current hnothing ?_
    obtain ⟨active, hrun⟩ := runParse_ok ht hd
    rw [TextView.content_foldl_tell, shownTexts_runParse, hrun]
    exact hcontent

/-- What is due does not count. -/
theorem Shows.congr {dropped : Text → Prop} (hv : Shows e v dropped)
    (hpending : e'.pendingText = e.pendingText) (htext : e'.text = e.text) :
    Shows e' v dropped := by
  cases hv with
  | current nothing same => exact .current (hpending.trans nothing) (same.trans htext.symm)
  | waiting waits => exact .waiting (hpending.trans waits)
  | rejected nothing rejected => exact .rejected (hpending.trans nothing) rejected
  | dropped nothing dropped => exact .dropped (hpending.trans nothing) dropped

/-- A view that is given nothing to show stands to the same engine as before. -/
theorem Shows.stay {before after : Text → Prop} (hv : Shows e v before)
    (hunseen : Unseen action events) (hkeep : ∀ typed, before typed → after typed) :
    Shows e (v.told action events) after := by
  have hcontent := hunseen.content v
  cases hv with
  | current nothing same => exact .current nothing (hcontent.trans same)
  | waiting waits => exact .waiting (waits.trans (congrArg some hcontent.symm))
  | rejected nothing rejected => exact .rejected nothing (hunseen.rejected rejected)
  | dropped nothing dropped => exact .dropped nothing (hcontent.symm ▸ hkeep _ dropped)

/-- **Writing the text** shows it, unless it is the one that the engine had before. -/
theorem Shows.writing {before after : Text → Prop} (hv : Shows e v before)
    (hclosed : e.updatingFromText = false) (hpassive : action.isPassive = true)
    (hnothing : e.pendingText = none)
    (hkeep : ∀ typed, before typed → Unseen action (runSerialize e).2 → after typed) :
    Shows (runSerialize e).1 (v.told action (runSerialize e).2) after := by
  have hevents := events_runSerialize hclosed
  have hengine := runSerialize_eq hclosed
  by_cases hsame : e.document.text e.config.indent = e.text
  · rw [if_pos hsame] at hevents
    have hunseen : Unseen action (runSerialize e).2 := .of_passive hpassive (by rw [hevents]; rfl)
    refine (hv.congr ?_ ?_).stay hunseen fun typed hb => hkeep typed hb hunseen
    · rw [hengine]
    · rw [hengine, hsame]
  · rw [if_neg hsame] at hevents
    refine .current ?_ ?_
    · rw [hengine]
      exact hnothing
    · rw [TextView.told, TextView.typed_of_passive hpassive, hevents, hengine]
      rfl

/-- **One outcome** keeps the view in one of the four ways. -/
theorem Outcome.shows {before after : Text → Prop} (ho : Outcome e action e' events)
    (hr : e.Ready) (hv : Shows e v before)
    (hkeep : ∀ typed, before typed → Unseen action events → after typed)
    (hdrop : ∀ typed, e.pendingText = some typed → e.accepts action = true → after typed) :
    Shows e' (v.told action events) after := by
  have hstay : Unseen action events → e'.pendingText = e.pendingText → e'.text = e.text →
      Shows e' (v.told action events) after := fun hunseen hpending htext =>
    (hv.congr hpending htext).stay hunseen fun typed hb => hkeep typed hb hunseen
  cases ho with
  | refused => exact hstay ⟨nofun, rfl⟩ rfl rfl
  | @edited _ document result edits =>
    have hunseen := (Outcome.edited edits).unseen_of_accepts (accepts_of_edited edits)
    obtain ⟨active, hactive⟩ := followActive_eq { e with document } result.changes
    by_cases hnothing : e.pendingText = none
    · exact hstay hunseen hnothing.symm (by rw [hactive])
    · obtain ⟨typed, ht⟩ := Option.ne_none_iff_exists'.mp hnothing
      refine .dropped rfl ?_
      rw [hunseen.content, hv.content_of_waits ht]
      exact hdrop typed ht (accepts_of_edited edits)
  | echoed nothing => exact .current nothing rfl
  | typed => exact .waiting rfl
  | missed => exact hstay ⟨nofun, rfl⟩ rfl rfl
  | selected =>
    refine hstay ⟨nofun, ?_⟩ rfl rfl
    split <;> rfl
  | waited passive => exact hstay (.of_passive passive rfl) rfl rfl
  | reads passive waits =>
    rw [TextView.told, TextView.typed_of_passive passive]
    exact .reading (hv.content_of_waits waits) waits
  | writes passive _ nothing =>
    have hidle : Shows { e with serializeTask := Debouncer.idle } v before := hv.congr rfl rfl
    exact hidle.writing hr.closed passive nothing hkeep

/-! ### Views of runs -/

/-- A text that is stranded stays so through an action that gives the view nothing to show. -/
theorem Stranded.concat (h : Stranded start actions typed)
    (hunseen : Unseen action ((actions.foldl act start).published action)) :
    Stranded start (actions ++ [action]) typed := by
  obtain ⟨earlier, t, later, hturns, ht, ha, hlater⟩ := h
  refine ⟨earlier, t, later ++ [(actions.foldl act start, action)], ?_, ht, ha, fun s hs => ?_⟩
  · rw [turns_concat, hturns, List.append_assoc, List.cons_append]
  · rcases List.mem_append.mp hs with hs | hs
    · exact hlater s hs
    · rw [List.mem_singleton.mp hs]
      exact hunseen

/-- **The view at the end of a run** stands to the engine in one of the four ways. -/
theorem shows_after (h : Opened start) (actions : List Action) :
    Shows (actions.foldl act start) (TextView.after start actions) (Stranded start actions) := by
  induction actions using List.reverseRecOn with
  | nil =>
    obtain ⟨document, text, config⟩ := h
    exact .current rfl rfl
  | append_singleton actions action ih =>
    have hready := ready_foldl h.ready actions
    rw [List.foldl_append, TextView.after_concat]
    refine (outcome_act hready action).shows hready ih (fun typed hdropped => hdropped.concat) ?_
    exact fun typed ht ha => ⟨turns start actions, (actions.foldl act start, action), [],
      turns_concat start actions action, ht, ha, List.forall_mem_nil _⟩

/-- Through such turns the view shows what it showed. -/
theorem TextView.content_foldl_follow {later : List (Engine × Action)}
    (h : ∀ s ∈ later, Unseen s.2 (s.1.published s.2)) (v : TextView) :
    (later.foldl follow v).content = v.content := by
  induction later generalizing v with
  | nil => rfl
  | cons s later ih =>
    rw [List.foldl_cons, ih fun s hs => h s (List.mem_cons_of_mem _ hs), follow,
      (h s List.mem_cons_self).content]

/-- **Where dropped text is still shown**, the text of the engine follows the tree. -/
theorem Stranded.shown (h : Opened start) (hs : Stranded start actions typed) :
    (TextView.after start actions).content = typed ∧ (actions.foldl act start).UpToDate := by
  obtain ⟨earlier, t, later, hturns, ht, ha, hlater⟩ := hs
  obtain ⟨before, after, rfl, rfl, hengine, rfl⟩ := exists_of_turns_eq hturns
  have hready : t.1.Ready := hengine ▸ ready_foldl h.ready before
  have hout := outcome_act hready t.2
  constructor
  · have hbefore := shows_after h before
    rw [← hengine] at hbefore
    rw [TextView.after, hturns, List.foldl_append, List.foldl_cons,
      TextView.content_foldl_follow hlater, TextView.follow, (hout.unseen_of_accepts ha).content]
    exact hbefore.content_of_waits ht
  · rw [List.foldl_append, List.foldl_cons, ← hengine]
    exact UpToDate.foldl after (hready.act t.2) (hout.upToDate_of_accepts ha)
      fun s hs => (hlater s hs).echoes s.1

/-- **When a view drifts from the engine**: with nothing due, and the text that was typed last not
rejected, the view shows another text than that of the engine exactly when it still shows text that
an edit dropped, which is not that of the tree. -/
theorem content_ne_text_iff (h : Opened start) {actions : List Action}
    (hidle : (actions.foldl act start).isPending = false)
    (htaken : (TextView.after start actions).rejected = false) :
    (TextView.after start actions).content ≠ (actions.foldl act start).text ↔
      ∃ typed, Stranded start actions typed ∧
        typed ≠ (actions.foldl act start).document.text start.config.indent := by
  have hready := ready_foldl h.ready actions
  rw [isPending, Bool.or_eq_false_iff] at hidle
  have htree : ∀ typed, Stranded start actions typed →
      (actions.foldl act start).text =
        (actions.foldl act start).document.text start.config.indent := by
    intro typed hs
    have hconfig : (actions.foldl act start).config = start.config :=
      (Runs.foldl actions .refl).config
    rcases (hs.shown h).2.current with hdue | htext
    · rw [hidle.1] at hdue
      cases hdue
    · rw [htext, hconfig]
  constructor
  · intro hdrift
    cases shows_after h actions with
    | current _ same => exact absurd same hdrift
    | waiting waits =>
      have hdue := hready.waits
      rw [hidle.2, waits] at hdue
      cases hdue
    | rejected _ rejected =>
      rw [htaken] at rejected
      cases rejected
    | dropped _ dropped => exact ⟨_, dropped, htree _ dropped ▸ hdrift⟩
  · rintro ⟨typed, hs, hne⟩
    rw [(hs.shown h).1, htree typed hs]
    exact hne

/-- A run that ends with nothing due, in which an edit that leaves the text of the tree as it is
dropped typed text. -/
theorem content_ne_text_iff_sample : ∃ start actions typed, Opened start ∧
    (actions.foldl act start).isPending = false ∧
      (TextView.after start actions).rejected = false ∧
      (TextView.after start actions).content ≠ (actions.foldl act start).text ∧
      Stranded start actions typed ∧
      typed ≠ (actions.foldl act start).document.text start.config.indent := by
  let start? := Engine.ofText Catalog.empty "[A]\n  x = 1\n[]\n".toList {}
  let actions : List Action :=
    [.type "[B]\n[]\n".toList, .edit (.setText "/A".toList "x".toList "1".toList), .flush,
      .select "/A::".toList]
  have hrun : start?.toOption.map (fun start => decide (
      (actions.foldl act start).isPending = false ∧
      (TextView.after start actions).rejected = false ∧
      (TextView.after start actions).content ≠ (actions.foldl act start).text)) = some true := by
    decide +kernel
  rcases hstart : start? with reason | start
  · rw [hstart] at hrun
    cases hrun
  · rw [hstart] at hrun
    obtain ⟨hidle, htaken, hdrift⟩ := of_decide_eq_true (Option.some.inj hrun)
    have hopened := opened_ofText hstart
    obtain ⟨typed, hstranded, hne⟩ := (content_ne_text_iff hopened hidle htaken).mp hdrift
    exact ⟨start, actions, typed, hopened, hidle, htaken, hdrift, hstranded, hne⟩

/-- **A view can drift**: the text that is typed is dropped, and the text that is then written is
the one that the engine had before, so that it is not published. -/
theorem not_forall_content_eq_text : ¬ ∀ (start : Engine) (actions : List Action), Opened start →
    (actions.foldl act start).isPending = false →
      (TextView.after start actions).rejected = false →
        (TextView.after start actions).content = (actions.foldl act start).text := by
  let start? := Engine.ofText Catalog.empty "[A]\n  x = 1\n[]\n".toList {}
  let actions : List Action :=
    [.type "[B]\n[]\n".toList, .edit (.setText "/A".toList "x".toList "1".toList), .flush]
  have hrun : start?.toOption.map (fun start => decide (
      (actions.foldl act start).isPending = false ∧
      TextView.after start actions = ⟨"[B]\n[]\n".toList, false⟩ ∧
      (actions.foldl act start).text = "[A]\n  x = 1\n[]\n".toList)) = some true := by
    decide +kernel
  intro hall
  rcases hstart : start? with reason | start
  · rw [hstart] at hrun
    cases hrun
  · rw [hstart] at hrun
    obtain ⟨hidle, hview, htext⟩ := of_decide_eq_true (Option.some.inj hrun)
    have hsame := hall start actions (opened_ofText hstart) hidle (by rw [hview])
    rw [hview, htext] at hsame
    exact absurd hsame (by decide)

end views

end Engine

end BlockEdit
