import BlockEdit.Proofs.Outcomes
import Mathlib.Logic.ExistsUnique

/-!
# The fate of typed text

Typed text that an engine takes in waits until one of three things ends its waiting: other typed
text replaces it, it is read, or an edit of the tree drops it and hands it back in an event. A text
that is read is handed to the document, which takes it or refuses it: `Engine.Reading` says what
comes of that. What an action does to typed text can be seen from outside: in the answer to the one
who types, in the number of readings and in the published events. `Engine.turn_act` says that each
action does nothing to typed text, or takes one text in, or reads the text that waits, or hands it
back.

A run is a list of actions, and a text is told from an equal one by the turn at which it was typed.

Main statements:

* **`Engine.turn_act`**: what one action does to typed text, and that it leaves nothing half done.
* **`Engine.typed_text_has_one_fate`**: in every run each text that was taken in has exactly one
  fate, and each reading and each handing back is the fate of exactly one text.
-/

namespace BlockEdit

namespace Engine

/-! ### What is seen of typed text -/

/-- The typed text that an action brings, if the answer is that it will be read. -/
def taken? (e : Engine) : Action → Option Text
  | .type text => if (e.editText text).answer then some text else none
  | _ => none

/-- The typed texts that events hand back. -/
def handedBack (events : List SyncEvent) : List Text :=
  events.filterMap fun
    | .textDiscarded text => some text
    | _ => none

/-- What is seen of typed text in an action. -/
structure Sight where
  /-- The text that is taken in. -/
  taken : Option Text
  /-- How often typed text is read. -/
  readings : Nat
  /-- The texts that are handed back. -/
  handedBack : List Text
deriving DecidableEq

/-- What is seen of typed text in an action. -/
def sight (e : Engine) (action : Action) : Sight where
  taken := e.taken? action
  readings := (e.act action).stats.parseRuns - e.stats.parseRuns
  handedBack := handedBack (e.published action)

/-! ### What an action does to typed text -/

/-- The action does nothing to typed text. -/
structure Quiet (e : Engine) (action : Action) : Prop where
  /-- Nothing is seen, -/
  sight : e.sight action = ⟨none, 0, []⟩
  /-- and the text that waits is the same. -/
  pending : (e.act action).pendingText = e.pendingText

/-- The action brings a typed text that is taken in. -/
structure Takes (text : Text) (e : Engine) (action : Action) : Prop where
  /-- The answer is that it will be read; nothing is read or handed back yet. -/
  sight : e.sight action = ⟨some text, 0, []⟩
  /-- From now on it is the text that waits. -/
  pending : (e.act action).pendingText = some text

/-- What comes of a text that waits when it is handed to the document: the engine after it, and what
is published. -/
inductive Reading (text : Text) (e : Engine) : Engine → List SyncEvent → Prop
  /-- The document takes it. From now on the engine has the new document and this text; the blocks
  are told of, and how the selection moved. -/
  | taken {document : Document} {identities : List Identity} {active : Option Identity}
      {moved : List SyncEvent} (takes : e.document.replaceText text = .ok (document, identities))
      (selection : ∀ event ∈ moved,
        ∃ previous current isExact, event = .activeChanged previous current isExact) :
      Reading text e
        { e with
          document, text, active
          pendingText := none
          updatingFromText := false
          stats := { e.stats with parseRuns := e.stats.parseRuns + 1 }
          parseTask := Debouncer.idle }
        (.modelChanged identities :: moved)
  /-- The document refuses it. Document and text stay, and the reason is told. -/
  | refused {reason : DocumentError} (refuses : e.document.replaceText text = .error reason) :
      Reading text e
        { e with
          pendingText := none
          updatingFromText := false
          stats :=
            { e.stats with
              parseRuns := e.stats.parseRuns + 1
              parseFailures := e.stats.parseFailures + 1 }
          parseTask := Debouncer.idle }
        [.parseFailed reason.message]

/-- The action reads the text that waits. -/
structure Reads (text : Text) (e : Engine) (action : Action) : Prop where
  /-- There is one reading. -/
  sight : e.sight action = ⟨none, 1, []⟩
  /-- The text has waited, -/
  waited : e.pendingText = some text
  /-- and the action hands it to the document, and does nothing more. -/
  reading : Reading text e (e.act action) (e.published action)
  /-- No text waits any more. -/
  pending : (e.act action).pendingText = none

/-- The action drops the text that waits, and hands it back. -/
structure HandsBack (text : Text) (e : Engine) (action : Action) : Prop where
  /-- There is one event that hands the text back. -/
  sight : e.sight action = ⟨none, 0, [text]⟩
  /-- The text has waited. -/
  waited : e.pendingText = some text
  /-- No text waits any more. -/
  pending : (e.act action).pendingText = none

/-- What an action can do to typed text. -/
inductive Turn (e : Engine) (action : Action) : Prop
  /-- Nothing. -/
  | quiet (h : Quiet e action)
  /-- It brings a text that is taken in. -/
  | takes (text : Text) (h : Takes text e action)
  /-- It reads the text that waits. -/
  | reads (text : Text) (h : Reads text e action)
  /-- It drops the text that waits, and hands it back. -/
  | handsBack (text : Text) (h : HandsBack text e action)

/-! ### The parts of a step -/

/-- Sleep and a flush bring no text. -/
theorem taken?_of_passive {e : Engine} {action : Action} (h : action.isPassive = true) :
    e.taken? action = none := by
  cases action with
  | type text => cases h
  | edit edit => rfl
  | select i => rfl
  | sleep time => rfl
  | flush => rfl

/-- Texts are handed back in the order of the events. -/
@[simp]
theorem handedBack_append (earlier later : List SyncEvent) :
    handedBack (earlier ++ later) = handedBack earlier ++ handedBack later :=
  List.filterMap_append

/-- When the selection follows its block, no text is handed back. -/
theorem handedBack_followActive (e : Engine) (changes : IdentityChanges) :
    handedBack (followActive e changes).2 = [] :=
  filterMap_followActive (fun _ _ _ => rfl) e changes

/-- A reading hands no text back. -/
theorem handedBack_runParse (e : Engine) : handedBack (runParse e).2 = [] :=
  filterMap_runParse (fun _ _ _ => rfl) (fun _ => rfl) (fun _ => rfl) e

/-- A writing hands no text back. -/
theorem handedBack_runSerialize (e : Engine) : handedBack (runSerialize e).2 = [] := by
  unfold runSerialize
  split
  · rfl
  · dsimp only
    split <;> rfl

/-- What is told when the selected block is found anew is how the selection moved. -/
theorem exists_activeChanged_of_mem_reselect {e : Engine} {event : SyncEvent}
    (h : event ∈ (reselect e).2) :
    ∃ previous current isExact, event = .activeChanged previous current isExact := by
  unfold reselect at h
  split at h
  · cases h
  · dsimp only at h
    split at h
    · cases h
    · exact ⟨_, _, _, List.mem_singleton.mp h⟩

/-- **Reading the text that waits** hands it to the document. -/
theorem reading_runParse {e : Engine} {text : Text} (ht : e.pendingText = some text) :
    Reading text e (runParse { e with parseTask := Debouncer.idle }).1
      (runParse { e with parseTask := Debouncer.idle }).2 := by
  unfold runParse
  dsimp only
  rw [ht]
  dsimp only
  rcases hd : e.document.replaceText text with reason | ⟨document, identities⟩
  · exact .refused hd
  · dsimp only
    obtain ⟨active, hactive⟩ := reselect_eq
      { e with
        document, text
        pendingText := none
        updatingFromText := true
        stats := { e.stats with parseRuns := e.stats.parseRuns + 1 }
        parseTask := Debouncer.idle }
    rw [hactive]
    exact .taken hd fun event => exists_activeChanged_of_mem_reselect

section turns

variable {e e' : Engine} {action : Action} {events : List SyncEvent}

/-- An action does nothing to typed text when it takes none, reads none and hands none back. -/
theorem quiet_of (hact : e.act action = e') (hpub : e.published action = events)
    (htaken : e.taken? action = none) (hruns : e'.stats.parseRuns = e.stats.parseRuns)
    (hback : handedBack events = []) (hpending : e'.pendingText = e.pendingText) :
    Quiet e action := by
  refine ⟨?_, by rw [hact, hpending]⟩
  rw [sight, htaken, hact, hpub, hruns, hback, Nat.sub_self]

/-- An edit that is accepted hands back the typed text that waits. -/
theorem turn_of_edited {edit : Edit} {document : Document} {result : EditResult}
    (hact : e.act (.edit edit) =
      { (followActive { e with document } result.changes).1 with
        pendingText := none
        parseTask := Debouncer.idle
        serializeTask := e.serializeTask.schedule e.config.serializeDelay () })
    (hpub : e.published (.edit edit) =
      (followActive { e with document } result.changes).2 ++ .modelChanged result.touched ::
        (e.pendingText.map SyncEvent.textDiscarded).toList) : Turn e (.edit edit) := by
  obtain ⟨active, hactive⟩ := followActive_eq { e with document } result.changes
  rw [hactive] at hact
  have hback : handedBack (e.published (.edit edit)) = e.pendingText.toList := by
    rw [hpub, handedBack_append, handedBack_followActive]
    rcases e.pendingText with _ | text <;> rfl
  rcases ht : e.pendingText with _ | text
  · rw [ht] at hback
    exact .quiet (quiet_of hact rfl rfl rfl hback ht.symm)
  · rw [ht] at hback
    refine .handsBack text ⟨?_, ht, by rw [hact]⟩
    rw [sight, hback, hact]
    exact congrArg (Sight.mk none · [text]) (Nat.sub_self _)

/-- **Each outcome** is one of the four turns for typed text. -/
theorem Outcome.turn (ho : Outcome e action e' events) (h : e.Ready) (hact : e.act action = e')
    (hpub : e.published action = events) : Turn e action := by
  cases ho with
  | refused => exact .quiet (quiet_of hact hpub rfl rfl rfl rfl)
  | edited => exact turn_of_edited hact hpub
  | echoed nothing =>
    refine .quiet (quiet_of hact hpub ?_ rfl rfl rfl)
    rw [taken?, editText, nothing]
    simp
  | @typed text news =>
    have hanswer : (e.editText text).answer = true := by rw [editText_of_news news]
    refine .takes text ⟨?_, by rw [hact]⟩
    rw [sight, taken?, if_pos hanswer, hact, hpub]
    exact congrArg (Sight.mk (some text) · []) (Nat.sub_self _)
  | missed => exact .quiet (quiet_of hact hpub rfl rfl rfl rfl)
  | @selected i =>
    refine .quiet (quiet_of hact hpub rfl rfl ?_ rfl)
    split <;> rfl
  | waited passive => exact .quiet (quiet_of hact hpub (taken?_of_passive passive) rfl rfl rfl)
  | @reads _ text passive waits =>
    obtain ⟨hpending, -, -, -, hruns, -⟩ :=
      runParse_due (e := { e with parseTask := Debouncer.idle }) waits
    refine .reads text ⟨?_, waits, ?_, by rw [hact, hpending]⟩
    · rw [sight, taken?_of_passive passive, hact, hpub, hruns, handedBack_runParse,
        Nat.add_sub_cancel_left]
    · rw [hact, hpub]
      exact reading_runParse waits
  | writes passive =>
    have hrun := runSerialize_eq (e := { e with serializeTask := Debouncer.idle }) h.closed
    rw [hrun] at hact
    exact .quiet
      (quiet_of hact hpub (taken?_of_passive passive) rfl (handedBack_runSerialize _) rfl)

/-- **Every action** leaves nothing half done, and is one of the four turns for typed text. -/
theorem turn_act (h : e.Ready) (action : Action) : (e.act action).Ready ∧ Turn e action :=
  ⟨h.act action, (outcome_act h action).turn h rfl rfl⟩

end turns

/-! ### Runs turn by turn -/

/-- The engine to which the action of a turn comes; after the last turn, the engine at the end. -/
def before (start : Engine) (actions : List Action) (turn : Nat) : Engine :=
  (actions.take turn).foldl act start

/-- There is an action of this turn, and it has the property in the engine that it comes to. -/
def AtTurn (start : Engine) (actions : List Action) (turn : Nat)
    (P : Engine → Action → Prop) : Prop :=
  ∃ action, actions[turn]? = some action ∧ P (before start actions turn) action

/-- At this turn someone types the text, and the answer is that it will be read. -/
def Typed (start : Engine) (actions : List Action) (turn : Nat) (text : Text) : Prop :=
  actions[turn]? = some (.type text) ∧ ((before start actions turn).editText text).answer = true

/-- Nothing happens to typed text strictly between two turns. -/
def QuietBetween (start : Engine) (actions : List Action) (first last : Nat) : Prop :=
  ∀ turn, first < turn → turn < last → AtTurn start actions turn Quiet

/-- What ends the waiting of a text. -/
inductive Ending where
  /-- Other text is typed and taken in. -/
  | replaced
  /-- The text is read. -/
  | read
  /-- An edit of the tree drops the text, and an event hands it back. -/
  | handedBack
deriving DecidableEq

/-- The way in which the waiting of a text ended, if what was seen ended it. -/
def Sight.ending (s : Sight) : Ending :=
  if s.taken.isSome then .replaced else if s.handedBack.isEmpty then .read else .handedBack

/-- The action ends the waiting of the text in this way. -/
def Ends : Ending → Text → Engine → Action → Prop
  | .replaced, text, e, action => e.pendingText = some text ∧ ∃ next, Takes next e action
  | .read, text, e, action => Reads text e action
  | .handedBack, text, e, action => HandsBack text e action

/-- What becomes of a typed text in a run. -/
inductive Fate where
  /-- At the end of the run it is the text that waits. -/
  | waits
  /-- Its waiting ended at a turn. -/
  | ended (how : Ending) (turn : Nat)
deriving DecidableEq

/-- The text that was typed at a turn meets a fate: nothing happens to typed text until then. -/
def Meets (start : Engine) (actions : List Action) (turn : Nat) (text : Text) : Fate → Prop
  | .waits =>
    QuietBetween start actions turn actions.length ∧
      (before start actions actions.length).pendingText = some text
  | .ended how last =>
    turn < last ∧ QuietBetween start actions turn last ∧ AtTurn start actions last (Ends how text)

section runs

variable {start : Engine} {actions : List Action} {text : Text}

/-- The engine of the next turn is what the action of this one leaves. -/
theorem before_succ {turn : Nat} {action : Action} (h : actions[turn]? = some action) :
    before start actions (turn + 1) = (before start actions turn).act action := by
  rw [before, List.take_add_one, h, List.foldl_append]
  rfl

/-- **Between any two turns** nothing is half done. -/
theorem ready_before (h : Opened start) (turn : Nat) : (before start actions turn).Ready :=
  ready_foldl h.ready _

/-- At each turn the action does one of the things that an action can do to typed text. -/
theorem turn_before (h : Opened start) {turn : Nat} (hlt : turn < actions.length) :
    ∃ action, actions[turn]? = some action ∧ Turn (before start actions turn) action ∧
      before start actions (turn + 1) = (before start actions turn).act action :=
  have haction : actions[turn]? = some actions[turn] := List.getElem?_eq_getElem hlt
  ⟨actions[turn], haction, (turn_act (ready_before h turn) _).2, before_succ haction⟩

/-- A text is typed at a turn of the run. -/
theorem Typed.lt_length {turn : Nat} (h : Typed start actions turn text) :
    turn < actions.length :=
  (List.getElem?_eq_some_iff.mp h.1).1

/-- A text that is typed is taken in. -/
theorem Typed.taken {turn : Nat} (h : Typed start actions turn text) :
    ((before start actions turn).sight (.type text)).taken = some text :=
  if_pos h.2

/-- What is taken in was typed. -/
theorem typed_of_takes {turn : Nat} {action : Action} (haction : actions[turn]? = some action)
    (h : Takes text (before start actions turn) action) : Typed start actions turn text := by
  have htaken : (before start actions turn).taken? action = some text :=
    congrArg Sight.taken h.sight
  cases action with
  | type typed =>
    rw [taken?] at htaken
    split at htaken
    · next hanswer =>
      cases htaken
      exact ⟨haction, hanswer⟩
    · cases htaken
  | edit edit => cases htaken
  | select i => cases htaken
  | sleep time => cases htaken
  | flush => cases htaken

/-- At the turn at which a text is typed, the action takes it in. -/
theorem Typed.takes (h : Opened start) {turn : Nat} (ht : Typed start actions turn text) :
    Takes text (before start actions turn) (.type text) := by
  have htaken := ht.taken
  cases (turn_act (ready_before h turn) (.type text)).2 with
  | quiet hturn => rw [hturn.sight] at htaken; cases htaken
  | reads _ hturn => rw [hturn.sight] at htaken; cases htaken
  | handsBack _ hturn => rw [hturn.sight] at htaken; cases htaken
  | takes _ hturn =>
    have hsight := hturn.sight
    rw [hsight] at htaken
    cases htaken
    exact hturn

/-- At that turn something happens to typed text. -/
theorem Typed.not_quiet {turn : Nat} (h : Typed start actions turn text) :
    ¬ AtTurn start actions turn Quiet := by
  rintro ⟨action, haction, hquiet⟩
  cases h.1.symm.trans haction
  have htaken := h.taken
  rw [hquiet.sight] at htaken
  cases htaken

/-- A text whose waiting ends has waited. -/
theorem Ends.waited {how : Ending} {e : Engine} {action : Action} (h : Ends how text e action) :
    e.pendingText = some text := by
  cases how with
  | replaced => exact h.1
  | read => exact Reads.waited h
  | handedBack => exact HandsBack.waited h

/-- Where the waiting ends, something happens to typed text. -/
theorem Ends.not_quiet {how : Ending} {e : Engine} {action : Action}
    (h : Ends how text e action) : ¬ Quiet e action := by
  intro hquiet
  cases how with
  | replaced =>
    obtain ⟨-, next, htakes⟩ := h
    cases htakes.sight.symm.trans hquiet.sight
  | read => cases (Reads.sight h).symm.trans hquiet.sight
  | handedBack => cases (HandsBack.sight h).symm.trans hquiet.sight

/-- What is seen of the action tells how it ends the waiting. -/
theorem Ends.ending_eq {how : Ending} {e : Engine} {action : Action}
    (h : Ends how text e action) : (e.sight action).ending = how := by
  cases how with
  | replaced =>
    obtain ⟨-, next, htakes⟩ := h
    rw [htakes.sight]
    rfl
  | read =>
    rw [Reads.sight h]
    rfl
  | handedBack =>
    rw [HandsBack.sight h]
    rfl

/-- **A text that was typed** still waits, or its waiting has ended. -/
theorem Typed.waits_or_ended (h : Opened start) {first : Nat} (ht : Typed start actions first text)
    {last : Nat} (hlt : first < last) (hle : last ≤ actions.length) :
    QuietBetween start actions first last ∧ (before start actions last).pendingText = some text ∨
      ∃ how turn, Meets start actions first text (.ended how turn) := by
  induction hlt with
  | refl =>
    refine Or.inl ⟨fun turn hfirst hlast => absurd hlast (by omega), ?_⟩
    rw [before_succ ht.1]
    exact (ht.takes h).pending
  | @step last hfirst ih =>
    have hfirst : first < last := hfirst
    rcases ih (by omega) with ⟨hquiet, hwaits⟩ | hended
    · obtain ⟨action, haction, hturn, hnext⟩ := turn_before h (show last < actions.length by omega)
      have hends : ∀ how, Ends how text (before start actions last) action →
          ∃ how turn, Meets start actions first text (.ended how turn) :=
        fun how hend => ⟨how, last, by omega, hquiet, action, haction, hend⟩
      cases hturn with
      | quiet hturn =>
        refine Or.inl ⟨fun turn hlo hhi => ?_, ?_⟩
        · rcases Nat.lt_succ_iff_lt_or_eq.mp hhi with hbefore | rfl
          · exact hquiet turn hlo hbefore
          · exact ⟨action, haction, hturn⟩
        · rw [hnext, hturn.pending, hwaits]
      | takes next hturn => exact Or.inr (hends .replaced ⟨hwaits, next, hturn⟩)
      | reads other hturn =>
        cases hwaits.symm.trans hturn.waited
        exact Or.inr (hends .read hturn)
      | handsBack other hturn =>
        cases hwaits.symm.trans hturn.waited
        exact Or.inr (hends .handedBack hturn)
    · exact Or.inr hended

/-- **A text that waits** was typed, and nothing has happened to typed text since. -/
theorem exists_typed_of_waits (h : Opened start) {last : Nat} (hle : last ≤ actions.length)
    (hwaits : (before start actions last).pendingText = some text) :
    ∃ first, first < last ∧ Typed start actions first text ∧
      QuietBetween start actions first last := by
  induction last with
  | zero =>
    obtain ⟨document, shown, config⟩ := h
    cases hwaits
  | succ last ih =>
    obtain ⟨action, haction, hturn, hnext⟩ := turn_before h (show last < actions.length by omega)
    rw [hnext] at hwaits
    cases hturn with
    | quiet hturn =>
      obtain ⟨first, hlt, htyped, hquiet⟩ := ih (by omega) (hturn.pending ▸ hwaits)
      refine ⟨first, by omega, htyped, fun turn hlo hhi => ?_⟩
      rcases Nat.lt_succ_iff_lt_or_eq.mp hhi with hbefore | rfl
      · exact hquiet turn hlo hbefore
      · exact ⟨action, haction, hturn⟩
    | takes next hturn =>
      cases hturn.pending.symm.trans hwaits
      exact ⟨last, by omega, typed_of_takes haction hturn, fun turn hlo hhi => by omega⟩
    | reads other hturn => cases hturn.pending.symm.trans hwaits
    | handsBack other hturn => cases hturn.pending.symm.trans hwaits

/-- Two texts to which nothing has happened since they were typed are the same. -/
theorem turn_eq_of_quietBetween {first first' last : Nat} {text' : Text}
    (ht : Typed start actions first text) (ht' : Typed start actions first' text')
    (hlt : first < last) (hlt' : first' < last) (hq : QuietBetween start actions first last)
    (hq' : QuietBetween start actions first' last) : first = first' := by
  rcases Nat.lt_trichotomy first first' with hbefore | heq | hafter
  · exact absurd (hq first' hbefore hlt') ht'.not_quiet
  · exact heq
  · exact absurd (hq' first hafter hlt) ht.not_quiet

/-- A text that was typed meets one fate at most. -/
theorem Meets.unique {turn : Nat} {fate fate' : Fate} (h : Meets start actions turn text fate)
    (h' : Meets start actions turn text fate') : fate = fate' := by
  -- Whatever ends the waiting is not quiet, so it cannot stand before another fate.
  have hends : ∀ {how last}, AtTurn start actions last (Ends how text) →
      ¬ AtTurn start actions last Quiet := by
    rintro how last ⟨action, haction, hend⟩ ⟨action', haction', hquiet⟩
    cases haction.symm.trans haction'
    exact hend.not_quiet hquiet
  have hlength : ∀ {how last}, AtTurn start actions last (Ends how text) →
      last < actions.length := fun ⟨_, haction, _⟩ => (List.getElem?_eq_some_iff.mp haction).1
  rcases fate with _ | ⟨how, last⟩ <;> rcases fate' with _ | ⟨how', last'⟩
  · rfl
  · obtain ⟨hlt, -, hend⟩ := h'
    exact absurd (h.1 last' hlt (hlength hend)) (hends hend)
  · obtain ⟨hlt, -, hend⟩ := h
    exact absurd (h'.1 last hlt (hlength hend)) (hends hend)
  · obtain ⟨hlt, hquiet, hend⟩ := h
    obtain ⟨hlt', hquiet', hend'⟩ := h'
    rcases Nat.lt_trichotomy last last' with hbefore | rfl | hafter
    · exact absurd (hquiet' last hlt hbefore) (hends hend)
    · obtain ⟨action, haction, hend⟩ := hend
      obtain ⟨action', haction', hend'⟩ := hend'
      cases haction.symm.trans haction'
      rw [← hend.ending_eq, hend'.ending_eq]
    · exact absurd (hquiet last' hlt' hafter) (hends hend')

/-- **What ends a waiting** ends that of exactly one text. -/
theorem exists_unique_typed_of_ends (h : Opened start) {how : Ending} {last : Nat}
    (hend : AtTurn start actions last (Ends how text)) :
    ∃! first, Typed start actions first text ∧
      Meets start actions first text (.ended how last) := by
  obtain ⟨action, haction, hwaited⟩ := hend
  have hle : last ≤ actions.length := Nat.le_of_lt (List.getElem?_eq_some_iff.mp haction).1
  obtain ⟨first, hlt, htyped, hquiet⟩ := exists_typed_of_waits h hle hwaited.waited
  refine ⟨first, ⟨htyped, hlt, hquiet, action, haction, hwaited⟩, ?_⟩
  rintro first' ⟨htyped', hlt', hquiet', -⟩
  exact turn_eq_of_quietBetween htyped' htyped hlt' hlt hquiet' hquiet

/-- **Typed text is never silently lost.** In every run nothing is half done between two turns; each
text that was taken in has exactly one fate: it waits at the end, or its waiting ended when other
text was typed, when it was read, or when an event handed it back; and each event that hands back
text, and each reading, is the fate of exactly one text that was typed. -/
theorem typed_text_has_one_fate {start : Engine} (h : Opened start) (actions : List Action) :
    (∀ turn, (before start actions turn).Ready) ∧
      (∀ turn text, Typed start actions turn text →
        ∃! fate, Meets start actions turn text fate) ∧
      (∀ last text, AtTurn start actions last
          (fun e action => text ∈ handedBack (e.published action)) →
        ∃! turn, Typed start actions turn text ∧
          Meets start actions turn text (.ended .handedBack last)) ∧
      (∀ last, AtTurn start actions last
          (fun e action => e.stats.parseRuns < (e.act action).stats.parseRuns) →
        ∃! turn, ∃ text, Typed start actions turn text ∧
          Meets start actions turn text (.ended .read last)) := by
  refine ⟨ready_before h, fun turn text htyped => ?_, ?_, ?_⟩
  · refine existsUnique_of_exists_of_unique ?_ fun fate fate' => Meets.unique
    rcases htyped.waits_or_ended h htyped.lt_length (Nat.le_refl _) with hwaits | ⟨how, last, hends⟩
    · exact ⟨.waits, hwaits⟩
    · exact ⟨.ended how last, hends⟩
  · rintro last text ⟨action, haction, hmem⟩
    have hback : text ∈ ((before start actions last).sight action).handedBack := hmem
    cases (turn_act (ready_before h last) action).2 with
    | quiet hturn => rw [hturn.sight] at hback; cases hback
    | takes _ hturn => rw [hturn.sight] at hback; cases hback
    | reads _ hturn => rw [hturn.sight] at hback; cases hback
    | handsBack other hturn =>
      rw [hturn.sight, List.mem_singleton] at hback
      subst hback
      have hend : AtTurn start actions last (Ends .handedBack text) := ⟨action, haction, hturn⟩
      exact exists_unique_typed_of_ends h hend
  · rintro last ⟨action, haction, hruns⟩
    have hread : 0 < ((before start actions last).sight action).readings := Nat.sub_pos_of_lt hruns
    cases (turn_act (ready_before h last) action).2 with
    | quiet hturn => rw [hturn.sight] at hread; cases hread
    | takes _ hturn => rw [hturn.sight] at hread; cases hread
    | handsBack _ hturn => rw [hturn.sight] at hread; cases hread
    | reads text hturn =>
      -- A turn at which a text is read has only one text that it can read: the one that waits.
      have hend : AtTurn start actions last (Ends .read text) := ⟨action, haction, hturn⟩
      obtain ⟨turn, hmeets, hunique⟩ := exists_unique_typed_of_ends h hend
      refine ⟨turn, ⟨text, hmeets⟩, fun turn' ⟨text', htyped', hmeets'⟩ => hunique turn' ?_⟩
      obtain ⟨action', haction', hread'⟩ := hmeets'.2.2
      cases haction.symm.trans haction'
      cases hturn.waited.symm.trans (Reads.waited hread')
      exact ⟨htyped', hmeets'⟩

/-- A run in which typed text is replaced, handed back, read, and waits at the end. -/
theorem typed_text_has_one_fate_sample : ∃ start actions text, Opened start ∧
    (∀ turn, (before start actions turn).Ready) ∧
      (∃! fate, Meets start actions 0 text fate) ∧ (∃! fate, Meets start actions 6 text fate) ∧
      (∃! turn, Typed start actions turn text ∧
        Meets start actions turn text (.ended .handedBack 2)) ∧
      ∃! turn, ∃ text, Typed start actions turn text ∧
        Meets start actions turn text (.ended .read 4) := by
  let start? := Engine.ofText Catalog.empty "[A]\n  x = 1\n[]\n".toList {}
  let text : Text := "[B]\n[]\n".toList
  let edit : Edit := .setText "/A".toList "x".toList "2".toList
  let actions : List Action :=
    [.type text, .type text, .edit edit, .type text, .flush, .type "[".toList, .type text]
  have hrun : start?.toOption.map (fun start => decide (
      ((before start actions 0).editText text).answer = true ∧
      ((before start actions 6).editText text).answer = true ∧
      text ∈ handedBack ((before start actions 2).published (.edit edit)) ∧
      (before start actions 4).stats.parseRuns <
        ((before start actions 4).act .flush).stats.parseRuns)) = some true := by decide +kernel
  rcases hstart : start? with reason | start
  · rw [hstart] at hrun
    cases hrun
  · rw [hstart] at hrun
    obtain ⟨hfirst, hlast, hback, hread⟩ := of_decide_eq_true (Option.some.inj hrun)
    have hopened := opened_ofText hstart
    obtain ⟨hready, hfate, hhanded, hreading⟩ := typed_text_has_one_fate hopened actions
    exact ⟨start, actions, text, hopened, hready, hfate 0 text ⟨rfl, hfirst⟩,
      hfate 6 text ⟨rfl, hlast⟩, hhanded 2 text ⟨_, rfl, hback⟩, hreading 4 ⟨_, rfl, hread⟩⟩

end runs

end Engine

end BlockEdit
