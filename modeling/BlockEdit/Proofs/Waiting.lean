import BlockEdit.Proofs.Engine
import Mathlib.Algebra.GroupWithZero.Nat

/-!
# Flushing and waiting

A flush does what is due in a fixed order, the reading before the writing; a sleep does it in the
order in which the delays end. Both come to the same: not both tasks are due, so a sleep either does
the whole flush or nothing of it, and a task that waits never has more time left than its configured
delay. A wait that is longer than both delays is therefore a flush, also when it is made of several
sleeps.

Main statements:

* **`Engine.sleep_eq_flush_or`**: a sleep is a flush, or it only brings one nearer.
* **`Engine.flush_eq_wait`**: in every run, a wait longer than both delays and a flush lead to the
  same engine by the same events, with nothing due.
-/

namespace BlockEdit

/-! ### The time a task has left -/

namespace Debouncer

variable {α : Type} {d : Debouncer α} {left time : Nat}

/-- A task that waits runs within this time. -/
def Within (d : Debouncer α) (left : Nat) : Prop := ∀ w, d.waiting = some w → w.delay ≤ left

/-- An idle debouncer has nothing that could run late. -/
theorem within_idle (left : Nat) : (idle : Debouncer α).Within left := by
  intro w hw
  cases hw

/-- A debouncer in which nothing waits has nothing that could run late. -/
theorem within_of_not_pending (h : d.isPending = false) (left : Nat) : d.Within left := by
  rw [eq_idle h]
  exact within_idle left

/-- A task that was just scheduled runs within its delay. -/
theorem within_schedule (d : Debouncer α) (delay : Nat) (task : α) :
    (d.schedule delay task).Within delay := by
  intro w hw
  obtain rfl := Option.some.inj hw
  exact Nat.le_refl delay

/-- What runs within some time runs within more. -/
theorem Within.mono (h : d.Within left) {later : Nat} (hle : left ≤ later) : d.Within later :=
  fun w hw => Nat.le_trans (h w hw) hle

/-- **Time that passes** is taken off the time that is left. -/
theorem Within.elapse (h : d.Within left) (time : Nat) : (d.elapse time).1.Within (left - time) := by
  unfold Debouncer.elapse
  split
  · next hw => exact within_of_not_pending (by rw [isPending, hw]; rfl) _
  · next w hw =>
    have hle := h w hw
    split
    · exact within_idle _
    · intro w' hw'
      obtain rfl := Option.some.inj hw'
      exact Nat.sub_le_sub_right hle time

/-- A task that waits on had at least the time left that passed. -/
theorem Within.le_of_waits (h : d.Within left) (hd : d.isPending = true)
    (hwait : (d.elapse time).1.isPending = true) : time ≤ left := by
  obtain ⟨w, hw⟩ := Option.isSome_iff_exists.mp hd
  have hle := h w hw
  by_contra hlt
  rw [Debouncer.elapse, hw] at hwait
  dsimp only at hwait
  rw [if_pos (by omega)] at hwait
  cases hwait

end Debouncer

namespace Engine

variable {e : Engine} {left time : Nat}

/-! ### The order of what is due -/

/-- Writing the text makes nothing due. -/
theorem tasks_runSerialize (e : Engine) : (runSerialize e).1.parseTask = e.parseTask ∧
    (runSerialize e).1.serializeTask = e.serializeTask := by
  unfold runSerialize
  split
  · exact ⟨rfl, rfl⟩
  · dsimp only
    split <;> exact ⟨rfl, rfl⟩

/-- After a flush no task is left. -/
theorem tasks_flush (e : Engine) : e.flush.engine.parseTask = Debouncer.idle ∧
    e.flush.engine.serializeTask = Debouncer.idle := by
  have hparse : (flushParse e).1.parseTask = Debouncer.idle := by
    unfold flushParse
    split
    · exact (tasks_runParse _).1
    · next h => exact Debouncer.eq_idle (Bool.not_eq_true _ ▸ h)
  show (flushSerialize (flushParse e).1).1.parseTask = _ ∧
    (flushSerialize (flushParse e).1).1.serializeTask = _
  unfold flushSerialize
  split
  · obtain ⟨hp, hs⟩ := tasks_runSerialize { (flushParse e).1 with serializeTask := Debouncer.idle }
    exact ⟨hp.trans hparse, hs⟩
  · next h => exact ⟨hparse, Debouncer.eq_idle (Bool.not_eq_true _ ▸ h)⟩

/-- After a flush nothing waits. -/
theorem isPending_flush (e : Engine) : e.flush.engine.isPending = false := by
  obtain ⟨hparse, hserialize⟩ := tasks_flush e
  rw [isPending, hparse, hserialize]
  rfl

/-- An engine with nothing due stays as it is, however long it sleeps. -/
theorem sleep_of_idle (h : e.isPending = false) (time : Nat) : e.sleep time = ⟨(), e, []⟩ := by
  rw [isPending, Bool.or_eq_false_iff] at h
  simp [sleep, Debouncer.elapse_of_not_pending h.1, Debouncer.elapse_of_not_pending h.2]

/-- Only which tasks are due matters to a flush, and not how long they still have to wait. -/
theorem flush_congr (h : e.Ready) {parseTask serializeTask : Debouncer Unit}
    (hp : parseTask.isPending = e.parseTask.isPending)
    (hs : serializeTask.isPending = e.serializeTask.isPending) :
    ({ e with parseTask, serializeTask } : Engine).flush = e.flush := by
  have hready : ({ e with parseTask, serializeTask } : Engine).Ready :=
    ⟨h.closed, hp.trans h.waits, fun hboth => h.single ⟨hp ▸ hboth.1, hs ▸ hboth.2⟩⟩
  by_cases hparse : e.parseTask.isPending = true
  · have hidle := h.serialize_of_parse hparse
    rw [flush_of_parse h hparse, flush_of_parse hready (hp.trans hparse),
      Debouncer.eq_idle hidle, Debouncer.eq_idle (hs.trans hidle)]
  · rw [Bool.not_eq_true] at hparse
    rw [flush_of_not_parse hparse, flush_of_not_parse (hp.trans hparse)]
    obtain rfl : parseTask = e.parseTask :=
      (Debouncer.eq_idle (hp.trans hparse)).trans (Debouncer.eq_idle hparse).symm
    by_cases hserialize : e.serializeTask.isPending = true
    · simp [flushSerialize, hserialize, hs.trans hserialize, Debouncer.cancel]
    · rw [Bool.not_eq_true] at hserialize
      obtain rfl : serializeTask = e.serializeTask :=
        (Debouncer.eq_idle (hs.trans hserialize)).trans (Debouncer.eq_idle hserialize).symm
      rfl

/-! ### The time an engine has left -/

/-- Whatever is due is done within this time. -/
structure DueWithin (e : Engine) (left : Nat) : Prop where
  /-- The typed text is read. -/
  parse : e.parseTask.Within left
  /-- The text is written. -/
  serialize : e.serializeTask.Within left

/-- **A sleep** is a flush, or it only brings one nearer. -/
theorem sleep_eq_flush_or (h : e.Ready) (time : Nat) :
    e.sleep time = e.flush ∨
      (e.sleep time).events = [] ∧ (e.sleep time).engine.flush = e.flush ∧
        ∀ left, e.DueWithin left →
          time ≤ left ∧ (e.sleep time).engine.DueWithin (left - time) := by
  by_cases hp : e.parseTask.isPending = true
  · have hs := h.serialize_of_parse hp
    rw [sleep_of_not_serialize hs]
    dsimp only
    rcases Debouncer.elapse_cases e.parseTask time with ⟨hnone, hwait⟩ | ⟨hsome, hidle, -⟩
    · rw [hnone]
      exact Or.inr ⟨rfl, flush_congr h hwait rfl, fun left hleft =>
        ⟨hleft.parse.le_of_waits hp (hwait.trans hp), hleft.parse.elapse time,
          Debouncer.within_of_not_pending hs _⟩⟩
    · rw [if_pos hsome, hidle, flush_of_parse h hp]
      exact Or.inl rfl
  · rw [Bool.not_eq_true] at hp
    by_cases hs : e.serializeTask.isPending = true
    · rw [sleep_of_not_parse hp]
      dsimp only
      rcases Debouncer.elapse_cases e.serializeTask time with ⟨hnone, hwait⟩ | ⟨hsome, hidle, -⟩
      · rw [hnone]
        exact Or.inr ⟨rfl, flush_congr h rfl hwait, fun left hleft =>
          ⟨hleft.serialize.le_of_waits hs (hwait.trans hs),
            Debouncer.within_of_not_pending hp _, hleft.serialize.elapse time⟩⟩
      · rw [if_pos hsome, hidle, flush_of_not_parse hp, flushSerialize, if_pos hs]
        exact Or.inl rfl
    · rw [sleep_of_idle (by simp [isPending, hp, hs]), flush_of_not_parse hp, flushSerialize,
        if_neg hs]
      exact Or.inl rfl

/-- An engine with nothing due stays as it is in any number of sleeps. -/
theorem sleeps_of_idle (h : e.isPending = false) (times : List Nat) :
    (times.map Action.sleep).foldl act e = e ∧ history e (times.map Action.sleep) = [] := by
  induction times with
  | nil => exact ⟨rfl, rfl⟩
  | cons time times ih =>
    have hact : e.act (.sleep time) = e := by rw [act, sleep_of_idle h]
    rw [List.map_cons, List.foldl_cons, history_cons, hact, published, sleep_of_idle h]
    exact ih

/-- **Sleeps that are longer** than what is due has to wait come to a flush. -/
theorem sleeps_eq_flush {times : List Nat} (h : e.Ready) (hleft : e.DueWithin left)
    (hlt : left < times.sum) :
    (times.map Action.sleep).foldl act e = e.flush.engine ∧
      history e (times.map Action.sleep) = e.flush.events := by
  induction times generalizing e left with
  | nil => cases hlt
  | cons time times ih =>
    rw [List.sum_cons] at hlt
    rw [List.map_cons, List.foldl_cons, history_cons]
    show (times.map Action.sleep).foldl act (e.sleep time).engine = _ ∧
      (e.sleep time).events ++ history (e.sleep time).engine _ = _
    rcases sleep_eq_flush_or h time with hflush | ⟨hevents, hflush, hnearer⟩
    · -- What is due is done in the first sleep, and the others find nothing.
      obtain ⟨hrest, hsilent⟩ := sleeps_of_idle (isPending_flush e) times
      rw [hflush, hrest, hsilent, List.append_nil]
      exact ⟨rfl, rfl⟩
    · obtain ⟨hle, hwithin⟩ := hnearer left hleft
      rw [hevents, List.nil_append, ← hflush]
      exact ih (h.act (.sleep time)) hwithin (by omega)

/-! ### Runs -/

/-- What is due was made due at most the configured delays ago. -/
structure Timed (e : Engine) : Prop where
  /-- The typed text that waits is read within the delay of the reading. -/
  parse : e.parseTask.Within e.config.parseDelay
  /-- The text is written within the delay of the writing. -/
  serialize : e.serializeTask.Within e.config.serializeDelay

/-- At its start an engine has nothing due. -/
theorem Opened.timed (h : Opened e) : e.Timed := by
  obtain ⟨document, text, config⟩ := h
  exact ⟨Debouncer.within_idle _, Debouncer.within_idle _⟩

/-- What someone does makes a task due after its configured delay, if it makes one due. -/
theorem Outcome.timed {action : Action} {e' : Engine} {events : List SyncEvent}
    (ho : Outcome e action e' events) (hactive : action.isPassive = false) (ht : e.Timed) :
    e'.Timed := by
  cases ho with
  | refused | echoed | missed => exact ht
  | @edited _ document result =>
    obtain ⟨active, hfollow⟩ := followActive_eq { e with document } result.changes
    rw [hfollow]
    exact ⟨Debouncer.within_idle _, Debouncer.within_schedule e.serializeTask _ _⟩
  | typed => exact ⟨Debouncer.within_schedule e.parseTask _ _, Debouncer.within_idle _⟩
  | selected => exact ⟨ht.parse, ht.serialize⟩
  | waited passive | reads passive | writes passive =>
    rw [passive] at hactive
    cases hactive

/-- What a task that runs leaves due is what was due before. -/
theorem tasks_ite {run : Engine → Engine × List SyncEvent}
    (hrun : ∀ e, (run e).1.parseTask = e.parseTask ∧ (run e).1.serializeTask = e.serializeTask)
    (e : Engine) (fires : Bool) :
    (if fires then run e else (e, [])).1.parseTask = e.parseTask ∧
      (if fires then run e else (e, [])).1.serializeTask = e.serializeTask := by
  rcases fires with _ | _
  · exact ⟨rfl, rfl⟩
  · exact hrun e

/-- Time that passes is taken off what both tasks have to wait. -/
theorem tasks_sleep (e : Engine) (time : Nat) :
    (e.sleep time).engine.parseTask = (e.parseTask.elapse time).1 ∧
      (e.sleep time).engine.serializeTask = (e.serializeTask.elapse time).1 := by
  rw [sleep_engine]
  dsimp only
  split
  · simp [tasks_ite tasks_runParse, tasks_ite tasks_runSerialize]
  · simp [tasks_ite tasks_runParse, tasks_ite tasks_runSerialize]

/-- **One action** leaves what is due at most the configured delays to wait. -/
theorem Timed.act (ht : e.Timed) (h : e.Ready) (action : Action) : (e.act action).Timed := by
  have hconfig := config_act e action
  by_cases hpassive : action.isPassive = true
  · cases action with
    | edit | type | select => cases hpassive
    | sleep time =>
      obtain ⟨hparse, hserialize⟩ := tasks_sleep e time
      refine ⟨?_, ?_⟩
      · rw [hconfig, Engine.act, hparse]
        exact (ht.parse.elapse time).mono (Nat.sub_le _ _)
      · rw [hconfig, Engine.act, hserialize]
        exact (ht.serialize.elapse time).mono (Nat.sub_le _ _)
    | flush =>
      obtain ⟨hparse, hserialize⟩ := tasks_flush e
      refine ⟨?_, ?_⟩
      · rw [Engine.act, hparse]
        exact Debouncer.within_idle _
      · rw [Engine.act, hserialize]
        exact Debouncer.within_idle _
  · exact (outcome_act h action).timed (Bool.not_eq_true _ ▸ hpassive) ht

/-- Along a run nothing is half done between actions. -/
theorem Runs.ready {start : Engine} (hs : Opened start) (h : Runs start e) : e.Ready := by
  induction h with
  | refl => exact hs.ready
  | act _ action ih => exact ih.act action

/-- Along a run everything is due within its delay. -/
theorem Runs.timed {start : Engine} (hs : Opened start) (h : Runs start e) : e.Timed := by
  induction h with
  | refl => exact hs.timed
  | act before action ih => exact ih.act (before.ready hs) action

/-- **Flushing equals waiting.** In every run, sleeps that together are longer than both delays lead
to the engine that a flush leads to, by the same events in the same order, and then nothing is
due. -/
theorem flush_eq_wait {start : Engine} (hs : Opened start) (h : Runs start e) {times : List Nat}
    (hserialize : e.config.serializeDelay < times.sum) (hparse : e.config.parseDelay < times.sum) :
    (times.map Action.sleep).foldl act e = e.flush.engine ∧
      history e (times.map Action.sleep) = e.flush.events ∧ e.flush.engine.isPending = false := by
  have ht := h.timed hs
  have hleft : e.DueWithin (max e.config.serializeDelay e.config.parseDelay) :=
    ⟨ht.parse.mono (Nat.le_max_right _ _), ht.serialize.mono (Nat.le_max_left _ _)⟩
  obtain ⟨hengine, hevents⟩ := sleeps_eq_flush (h.ready hs) hleft (Nat.max_lt.mpr ⟨hserialize, hparse⟩)
  exact ⟨hengine, hevents, isPending_flush e⟩

/-- Typed text that waits is read in the second of two sleeps, or in a flush. -/
theorem flush_eq_wait_sample : ∃ start e : Engine, Opened start ∧ Runs start e ∧
    e.isPending = true ∧ e.config.serializeDelay < [200, 301].sum ∧
    e.config.parseDelay < [200, 301].sum ∧
    ([200, 301].map Action.sleep).foldl act e = e.flush.engine ∧
      history e ([200, 301].map Action.sleep) = e.flush.events ∧
      e.flush.engine.isPending = false := by
  let start : Engine := .new (.new Catalog.empty) {}
  have hrun : Runs start (start.act (.type "[A]\n[]\n".toList)) := .act .refl _
  exact ⟨start, _, opened_new _ _, hrun, by decide +kernel, by decide, by decide,
    flush_eq_wait (opened_new _ _) hrun (by decide) (by decide)⟩

end Engine

end BlockEdit
