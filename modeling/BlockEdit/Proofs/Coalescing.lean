import BlockEdit.Proofs.Engine
import Mathlib.Data.List.Chain

/-!
# Edits of the tree become text

When whoever types only repeats the text of the engine, nothing ever comes back from the text view:
no text is read, and the text is written for edits of the tree alone. The edits between two writings
become one writing, which is due as long as the text is behind the tree.

The invariant is `Engine.Unread`: it counts the writings that are due with those that were done, and
keeps the texts that the view was given.

Main statements:

* **`Engine.Outcome.upToDate`**: once the text is that of the tree or its writing is due, only typed
  text that is taken in ends this.
* **`Engine.structured_edits_coalesce`**: what a run does in which nobody types anything new.
-/

namespace BlockEdit

namespace Engine

/-! ### A text that follows the tree -/

/-- No typed text waits, and the text is that of the tree or its writing is due. -/
structure UpToDate (e : Engine) : Prop where
  /-- No typed text waits. -/
  nothing : e.pendingText = none
  /-- The writing is due where the text is behind. -/
  current : e.serializeTask.isPending = true ∨ e.text = e.document.text e.config.indent

/-- An action brings no typed text but that of the engine. -/
def Action.Echoes (e : Engine) : Action → Prop
  | .type text => text = e.text
  | _ => True

instance (e : Engine) : ∀ action : Action, Decidable (action.Echoes e)
  | .type text => inferInstanceAs (Decidable (text = e.text))
  | .edit _ | .select _ | .sleep _ | .flush => isTrue trivial

section steps

variable {e e' : Engine} {action : Action} {events : List SyncEvent}

/-- **An edit that is accepted** makes the text follow the tree. -/
theorem Outcome.upToDate_of_accepts (ho : Outcome e action e' events)
    (ha : e.accepts action = true) : e'.UpToDate := by
  obtain ⟨edit, document, result, -, rfl, -⟩ := ho.exists_of_accepts ha
  exact ⟨rfl, Or.inl rfl⟩

/-- **A text that follows the tree** goes on doing so until other text is typed. -/
theorem Outcome.upToDate (ho : Outcome e action e' events) (hr : e.Ready)
    (he : action.Echoes e) (h : e.UpToDate) : e'.UpToDate := by
  cases ho with
  | refused => exact h
  | edited => exact ⟨rfl, Or.inl rfl⟩
  | echoed => exact h
  | typed news => exact absurd he (news h.nothing)
  | missed => exact h
  | selected => exact ⟨h.nothing, h.current⟩
  | waited _ _ serialize =>
    refine ⟨h.nothing, h.current.imp_left fun hdue => ?_⟩
    exact serialize.trans hdue
  | reads _ waits => rw [h.nothing] at waits; cases waits
  | writes =>
    rw [runSerialize_eq (e := { e with serializeTask := Debouncer.idle }) hr.closed]
    exact ⟨h.nothing, Or.inr rfl⟩

end steps

/-! ### Runs without new typed text -/

/-- Whoever types in the run only repeats the text of the engine. -/
def OnlyEchoes (start : Engine) (actions : List Action) : Prop :=
  ∀ t ∈ turns start actions, t.2.Echoes t.1

instance (start : Engine) (actions : List Action) : Decidable (OnlyEchoes start actions) :=
  inferInstanceAs (Decidable (∀ t ∈ turns start actions, t.2.Echoes t.1))

/-- **A run without new typed text** leaves the text following the tree. -/
theorem UpToDate.foldl : ∀ (actions : List Action) {e : Engine}, e.Ready → e.UpToDate →
    OnlyEchoes e actions → (actions.foldl act e).UpToDate
  | [], _, _, h, _ => h
  | action :: actions, _, hr, h, he =>
    foldl actions (hr.act action) ((outcome_act hr action).upToDate hr (he _ List.mem_cons_self) h)
      fun t ht => he t (List.mem_cons_of_mem _ ht)

/-- The action writes the text of the tree. -/
def Writes (t : Engine × Action) : Prop :=
  t.1.stats.serializeRuns < (t.1.act t.2).stats.serializeRuns

/-- What an engine keeps as long as nobody types anything new, with the number of edits that were
accepted and the texts that the view was given. -/
structure Unread (e : Engine) (accepted : Nat) (shown : List Text) : Prop where
  /-- Nothing is half done. -/
  ready : e.Ready
  /-- No typed text waits. -/
  nothing : e.pendingText = none
  /-- Nothing was read. -/
  reads : e.stats.parseRuns = 0
  /-- There is an edit for each writing, the one that is due included. -/
  writes : e.stats.serializeRuns + e.serializeTask.isPending.toNat ≤ accepted
  /-- After an edit the text follows the tree. -/
  current : 0 < accepted → e.UpToDate
  /-- The text of the engine is the one that the view was given last. -/
  last : shown.getLast? = some e.text
  /-- No text was given twice in a row. -/
  distinct : shown.IsChain (· ≠ ·)

section runs

variable {e e' : Engine} {action : Action} {events : List SyncEvent} {accepted : Nat}
  {shown : List Text}

/-- At its start an engine has accepted nothing, and the view shows its text. -/
theorem Unread.of_opened (h : Opened e) : e.Unread 0 [e.text] := by
  have hready := h.ready
  obtain ⟨document, text, config⟩ := h
  exact ⟨hready, rfl, rfl, Nat.le_refl 0, fun hpos => absurd hpos (Nat.lt_irrefl 0), rfl,
    List.IsChain.singleton text⟩

/-- An action that gives the view no text keeps what the view was given. -/
theorem Unread.silent (h : e.Unread accepted shown) (hready : e'.Ready) {more : Nat}
    (hcurrent : 0 < accepted + more → e'.UpToDate) (hnothing : e'.pendingText = none)
    (hreads : e'.stats.parseRuns = e.stats.parseRuns)
    (hwrites : e'.stats.serializeRuns + e'.serializeTask.isPending.toNat ≤
      e.stats.serializeRuns + e.serializeTask.isPending.toNat + more)
    (htext : e'.text = e.text) (hevents : shownTexts events = []) :
    e'.Unread (accepted + more) (shown ++ shownTexts events) where
  ready := hready
  nothing := hnothing
  reads := hreads.trans h.reads
  writes := Nat.le_trans hwrites (Nat.add_le_add_right h.writes more)
  current := hcurrent
  last := by rw [hevents, List.append_nil, htext, h.last]
  distinct := by rw [hevents, List.append_nil]; exact h.distinct

/-- **Writing the text** uses up the writing that was due, and gives the view a text that is new. -/
theorem Unread.writing (h : e.Unread accepted shown) (hdue : e.serializeTask.isPending = true) :
    (runSerialize { e with serializeTask := Debouncer.idle }).1.Unread accepted
      (shown ++ shownTexts (runSerialize { e with serializeTask := Debouncer.idle }).2) := by
  have hwrites := h.writes
  rw [hdue, Bool.toNat_true] at hwrites
  rw [runSerialize_eq (e := { e with serializeTask := Debouncer.idle }) h.ready.closed,
    events_runSerialize (e := { e with serializeTask := Debouncer.idle }) h.ready.closed]
  dsimp only
  have hready : ({ e with
      text := e.document.text e.config.indent
      stats := { e.stats with serializeRuns := e.stats.serializeRuns + 1 }
      serializeTask := Debouncer.idle } : Engine).Ready :=
    ⟨h.ready.closed, h.ready.waits, fun hboth => by cases hboth.2⟩
  refine ⟨hready, h.nothing, h.reads, hwrites, fun _ => ⟨h.nothing, Or.inr rfl⟩, ?_, ?_⟩
  · by_cases hsame : e.document.text e.config.indent = e.text
    · rw [if_pos hsame, shownTexts_nil, List.append_nil, h.last, hsame]
    · rw [if_neg hsame]
      exact List.getLast?_concat
  · by_cases hsame : e.document.text e.config.indent = e.text
    · rw [if_pos hsame, shownTexts_nil, List.append_nil]
      exact h.distinct
    · rw [if_neg hsame]
      refine List.isChain_append.mpr ⟨h.distinct, List.IsChain.singleton _, ?_⟩
      intro earlier hearlier text htext
      rw [h.last] at hearlier
      cases hearlier
      cases htext
      exact fun heq => hsame heq.symm

/-- **One outcome** when nothing new is typed. -/
theorem Unread.outcome (h : e.Unread accepted shown) (ho : Outcome e action e' events)
    (he : action.Echoes e) :
    e'.Unread (accepted + (e.accepts action).toNat) (shown ++ shownTexts events) := by
  have hready := ho.ready h.ready
  have hcurrent : 0 < accepted + (e.accepts action).toNat → e'.UpToDate := by
    intro hpos
    rcases ha : e.accepts action with _ | _
    · rw [ha, Bool.toNat_false, Nat.add_zero] at hpos
      exact ho.upToDate h.ready he (h.current hpos)
    · exact ho.upToDate_of_accepts ha
  cases ho with
  | refused => exact h.silent hready hcurrent h.nothing rfl (Nat.le_add_right _ _) rfl rfl
  | @edited _ document result edits =>
    obtain ⟨active, hactive⟩ := followActive_eq { e with document } result.changes
    have hevents := shownTexts_edited e document result
    rw [hactive] at hready hcurrent ⊢
    refine h.silent hready hcurrent rfl rfl ?_ rfl hevents
    rw [accepts_of_edited edits]
    exact Nat.add_le_add_right (Nat.le_add_right _ _) 1
  | echoed => exact h.silent hready hcurrent h.nothing rfl (Nat.le_add_right _ _) rfl rfl
  | typed news => exact absurd he (news h.nothing)
  | missed => exact h.silent hready hcurrent h.nothing rfl (Nat.le_add_right _ _) rfl rfl
  | @selected i =>
    refine h.silent hready hcurrent h.nothing rfl (Nat.le_add_right _ _) rfl ?_
    split <;> rfl
  | waited _ _ serialize =>
    refine h.silent hready hcurrent h.nothing rfl ?_ rfl rfl
    dsimp only
    rw [serialize]
    exact Nat.le_add_right _ _
  | reads _ waits =>
    rw [h.nothing] at waits
    cases waits
  | writes passive due =>
    rw [accepts_of_passive passive]
    exact h.writing due

/-- **A run** in which nothing new is typed. -/
theorem Unread.run : ∀ (actions : List Action) {e : Engine} {accepted : Nat} {shown : List Text},
    e.Unread accepted shown → OnlyEchoes e actions →
      (actions.foldl act e).Unread (accepted + acceptedEdits e actions)
        (shown ++ shownTexts (history e actions))
  | [], e, accepted, shown, h, _ => by
    rw [show shownTexts (history e []) = [] from rfl, List.append_nil]
    exact h
  | action :: actions, e, accepted, shown, h, he => by
    have hstep := h.outcome (outcome_act h.ready action) (he _ List.mem_cons_self)
    have hrun := hstep.run actions fun t ht => he t (List.mem_cons_of_mem _ ht)
    rw [acceptedEdits_cons, history_cons, shownTexts_append, ← Nat.add_assoc, ← List.append_assoc]
    exact hrun

end runs

/-! ### What is written between two edits -/

section writings

variable {e e' : Engine} {action : Action} {events : List SyncEvent}

/-- **The writing of the text** is due before it is done, at most one is done at a time, and only an
edit that is accepted makes it due. -/
theorem Outcome.serializeRuns (ho : Outcome e action e' events) (hr : e.Ready) :
    e'.stats.serializeRuns = e.stats.serializeRuns ∧
        (e'.serializeTask.isPending = true →
          e.serializeTask.isPending = true ∨ e.accepts action = true) ∨
      e'.stats.serializeRuns = e.stats.serializeRuns + 1 ∧
        e.serializeTask.isPending = true ∧ e'.serializeTask.isPending = false := by
  cases ho with
  | refused => exact Or.inl ⟨rfl, Or.inl⟩
  | @edited _ document result edits =>
    obtain ⟨active, hactive⟩ := followActive_eq { e with document } result.changes
    rw [hactive]
    exact Or.inl ⟨rfl, fun _ => Or.inr (accepts_of_edited edits)⟩
  | echoed => exact Or.inl ⟨rfl, Or.inl⟩
  | typed => exact Or.inl ⟨rfl, fun hdue => by cases hdue⟩
  | missed => exact Or.inl ⟨rfl, Or.inl⟩
  | selected => exact Or.inl ⟨rfl, Or.inl⟩
  | waited _ _ serialize => exact Or.inl ⟨rfl, fun hdue => Or.inl (serialize.symm.trans hdue)⟩
  | reads _ waits =>
    obtain ⟨-, -, -, hserialize, -, hruns⟩ :=
      runParse_due (e := { e with parseTask := Debouncer.idle }) waits
    rw [hserialize, hruns]
    exact Or.inl ⟨rfl, Or.inl⟩
  | writes _ due =>
    rw [runSerialize_eq (e := { e with serializeTask := Debouncer.idle }) hr.closed]
    exact Or.inr ⟨rfl, due, rfl⟩

/-- Where the writing is not due, an edit is accepted before the text is written. -/
theorem exists_accepted_before : ∀ {between later : List (Engine × Action)} {t : Engine × Action}
    {e : Engine} {actions : List Action}, e.Ready → e.serializeTask.isPending = false →
      turns e actions = between ++ t :: later → Writes t →
        ∃ s ∈ between, s.1.accepts s.2 = true
  | between, later, t, e, [], _, _, hturns, _ => by
    rw [turns] at hturns
    exact absurd hturns.symm (List.append_ne_nil_of_right_ne_nil _ (List.cons_ne_nil _ _))
  | between, later, t, e, action :: actions, hr, hidle, hturns, hwrites => by
    have hout := (outcome_act hr action).serializeRuns hr
    rcases between with _ | ⟨s, between⟩
    · obtain ⟨rfl, -⟩ := List.cons.inj hturns
      rcases hout with ⟨hsame, -⟩ | ⟨-, hdue, -⟩
      · exact absurd hwrites (by rw [Writes, hsame]; exact Nat.lt_irrefl _)
      · rw [hidle] at hdue
        cases hdue
    · obtain ⟨rfl, hrest⟩ := List.cons.inj hturns
      rcases ha : e.accepts action with _ | _
      · have hstill : (e.act action).serializeTask.isPending = false := by
          rcases hout with ⟨-, hdue⟩ | ⟨-, hdue, -⟩
          · rw [← Bool.not_eq_true]
            intro hpending
            rcases hdue hpending with hdue | hdue
            · rw [hidle] at hdue
              cases hdue
            · rw [ha] at hdue
              cases hdue
          · rw [hidle] at hdue
            cases hdue
        obtain ⟨s, hs, haccepts⟩ := exists_accepted_before (hr.act action) hstill hrest hwrites
        exact ⟨s, List.mem_cons_of_mem _ hs, haccepts⟩
      · exact ⟨_, List.mem_cons_self, ha⟩

/-- **Between two writings** an edit is accepted. -/
theorem exists_accepted_between {start : Engine} (h : start.Ready) {actions : List Action}
    {earlier between later : List (Engine × Action)} {t t' : Engine × Action}
    (hturns : turns start actions = earlier ++ t :: (between ++ t' :: later)) (ht : Writes t)
    (ht' : Writes t') : ∃ s ∈ between, s.1.accepts s.2 = true := by
  obtain ⟨before, after, -, -, hengine, hrest⟩ := exists_of_turns_eq hturns
  have hready : t.1.Ready := hengine ▸ ready_foldl h before
  refine exists_accepted_before (hready.act t.2) ?_ hrest.symm ht'
  rcases (outcome_act hready t.2).serializeRuns hready with ⟨hsame, -⟩ | ⟨-, -, hdone⟩
  · exact absurd ht (by rw [Writes, hsame]; exact Nat.lt_irrefl _)
  · exact hdone

end writings

/-! ### Runs of edits and echoes -/

/-- In the run edits of the tree become text and nothing comes back. -/
structure Coalesces (start : Engine) (actions : List Action) : Prop where
  /-- An echo is answered with a no, and nothing happens. -/
  echo : ∀ t ∈ turns start actions, ∀ text, t.2 = .type text →
    t.1.editText text = ⟨false, t.1, []⟩
  /-- No text is read. -/
  reads : (actions.foldl act start).stats.parseRuns = 0
  /-- There are at most as many writings as edits that were accepted. -/
  writes : (actions.foldl act start).stats.serializeRuns ≤ acceptedEdits start actions
  /-- An action writes the text once at most. -/
  once : ∀ t ∈ turns start actions,
    (t.1.act t.2).stats.serializeRuns ≤ t.1.stats.serializeRuns + 1
  /-- Between two writings there is an edit that was accepted. -/
  between : ∀ earlier t between t' later,
    turns start actions = earlier ++ t :: (between ++ t' :: later) → Writes t → Writes t' →
      ∃ s ∈ between, s.1.accepts s.2 = true
  /-- A text that is published is another one than the text before it. -/
  news : (start.text :: shownTexts (history start actions)).IsChain (· ≠ ·)
  /-- After an edit, and with nothing due, the text is that of the tree. -/
  current : 0 < acceptedEdits start actions → (actions.foldl act start).isPending = false →
    (actions.foldl act start).text =
      (actions.foldl act start).document.text start.config.indent

/-- **No feedback, and few writings**: when whoever types in a run only repeats the text of the
engine, nothing is read, several edits become one writing, and the text follows the tree. -/
theorem structured_edits_coalesce {start : Engine} (h : Opened start) {actions : List Action}
    (he : OnlyEchoes start actions) : Coalesces start actions := by
  have hunread := (Unread.of_opened h).run actions he
  rw [Nat.zero_add] at hunread
  -- What holds at the end of a run holds at each of its turns.
  have hturn : ∀ t ∈ turns start actions, t.1.Ready ∧ t.1.pendingText = none := by
    intro t ht
    obtain ⟨earlier, later, hturns⟩ := List.append_of_mem ht
    obtain ⟨before, after, rfl, rfl, hengine, -⟩ := exists_of_turns_eq hturns
    have hbefore := (Unread.of_opened h).run before fun s hs => he s ?_
    · rw [hengine]
      exact ⟨hbefore.ready, hbefore.nothing⟩
    · rw [turns_append]
      exact List.mem_append_left _ hs
  constructor
  case echo =>
    intro t ht text htype
    have hsame : text = t.1.text := by
      have hecho := he t ht
      rwa [htype] at hecho
    rw [editText, (hturn t ht).2, if_pos (by simp [hsame])]
  case reads => exact hunread.reads
  case writes => exact Nat.le_trans (Nat.le_add_right _ _) hunread.writes
  case once =>
    intro t ht
    rcases (outcome_act (hturn t ht).1 t.2).serializeRuns (hturn t ht).1 with
      ⟨hsame, -⟩ | ⟨hmore, -⟩
    · exact Nat.le_succ_of_le (Nat.le_of_eq hsame)
    · exact Nat.le_of_eq hmore
  case between =>
    exact fun _ _ _ _ _ hturns ht ht' => exists_accepted_between h.ready hturns ht ht'
  case news => exact hunread.distinct
  case current =>
    intro hpos hidle
    rw [isPending, Bool.or_eq_false_iff] at hidle
    have hconfig : (actions.foldl act start).config = start.config :=
      (Runs.foldl actions .refl).config
    rcases (hunread.current hpos).current with hdue | htext
    · rw [hidle.1] at hdue
      cases hdue
    · rw [htext, hconfig]

/-- A run with an echo, two edits that are written at once, one that is refused, and one that leaves
the text as it is. -/
theorem structured_edits_coalesce_sample : ∃ start actions, Opened start ∧
    OnlyEchoes start actions ∧ acceptedEdits start actions = 3 ∧
      (actions.foldl act start).stats.serializeRuns = 2 ∧ Coalesces start actions := by
  let start? := Engine.ofText Catalog.empty "[A]\n  x = 1\n[]\n".toList {}
  let set (value : Text) : Action := .edit (.setText "/A".toList "x".toList value)
  let actions : List Action :=
    [.type "[A]\n  x = 1\n[]\n".toList, set "2".toList, .sleep 200, set "3".toList, .sleep 400,
      .type "[A]\n  x = 3\n[]\n".toList, .edit (.remove "/B".toList), set "3".toList, .flush]
  have hrun : start?.toOption.map (fun start => decide (OnlyEchoes start actions ∧
      acceptedEdits start actions = 3 ∧
        (actions.foldl act start).stats.serializeRuns = 2)) = some true := by decide +kernel
  rcases hstart : start? with reason | start
  · rw [hstart] at hrun
    cases hrun
  · rw [hstart] at hrun
    obtain ⟨hechoes, haccepted, hruns⟩ := of_decide_eq_true (Option.some.inj hrun)
    have hopened := opened_ofText hstart
    exact ⟨start, actions, hopened, hechoes, haccepted, hruns,
      structured_edits_coalesce hopened hechoes⟩

end Engine

end BlockEdit
