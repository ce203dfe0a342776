/-!
# Delayed tasks

A debouncer holds at most one task, which runs when its delay is over. Whoever schedules another
task, or cancels, before that drops it. Time is counted in milliseconds and moves only when
`elapse` moves it.

Main statements:

* **`elapse_schedule`**: a scheduled task runs as soon as more time than its delay passes.
-/

namespace BlockEdit

/-- A task that waits, and how long it still has to wait. -/
structure Waiting (α : Type) where
  /-- The time that is left. -/
  delay : Nat
  /-- The task. -/
  task : α
deriving DecidableEq, Repr

/-- The task that waits, if there is one. -/
structure Debouncer (α : Type) where
  /-- The task that waits. -/
  waiting : Option (Waiting α)
deriving DecidableEq, Repr

namespace Debouncer

variable {α : Type}

/-- No task waits. -/
def idle : Debouncer α := ⟨none⟩

/-- Whether a task waits. -/
def isPending (d : Debouncer α) : Bool := d.waiting.isSome

/-- Makes a task wait, in place of the one that does. -/
def schedule (_ : Debouncer α) (delay : Nat) (task : α) : Debouncer α := ⟨some ⟨delay, task⟩⟩

/-- Drops the task that waits. -/
def cancel (_ : Debouncer α) : Debouncer α := idle

/-- Lets time pass. A task whose delay is over runs; it is the second part of the result. -/
def elapse (d : Debouncer α) (time : Nat) : Debouncer α × Option (Waiting α) :=
  match d.waiting with
  | none => (d, none)
  | some w => if w.delay < time then (idle, some w) else (⟨some ⟨w.delay - time, w.task⟩⟩, none)

/-! ## Sessions -/

/-- What someone can do with a debouncer, or wait for. -/
inductive Call (α : Type) where
  /-- Schedules a task. -/
  | schedule (delay : Nat) (task : α)
  /-- Drops the task that waits. -/
  | cancel
  /-- Lets time pass. -/
  | sleep (time : Nat)
deriving DecidableEq, Repr

/-- What a call gives. -/
structure Reply (α : Type) where
  /-- The debouncer after the call. -/
  debouncer : Debouncer α
  /-- The answer of a cancel: whether it dropped a task. -/
  cancelled : Option Bool
  /-- The task that ran during the call. -/
  ran : Option α
deriving DecidableEq, Repr

/-- Carries out a call. -/
def act (d : Debouncer α) : Call α → Reply α
  | .schedule delay task => ⟨d.schedule delay task, none, none⟩
  | .cancel => ⟨d.cancel, some d.isPending, none⟩
  | .sleep time => ⟨(d.elapse time).1, none, (d.elapse time).2.map Waiting.task⟩

/-- The debouncer after the calls. -/
def after (d : Debouncer α) : List (Call α) → Debouncer α
  | [] => d
  | call :: rest => after (d.act call).debouncer rest

/-- What the calls give, one after the other. -/
def replies (d : Debouncer α) : List (Call α) → List (Reply α)
  | [] => []
  | call :: rest => d.act call :: replies (d.act call).debouncer rest

/-! ## Laws -/

/-- **A scheduled task runs** as soon as more time than its delay passes. -/
theorem elapse_schedule (d : Debouncer α) {delay time : Nat} (task : α) (h : delay < time) :
    (d.schedule delay task).elapse time = (idle, some ⟨delay, task⟩) := by
  simp [schedule, elapse, h]

/-- A task that has to wait longer waits on for the rest of its delay. -/
theorem elapse_schedule_of_le (d : Debouncer α) {delay time : Nat} (task : α) (h : time ≤ delay) :
    (d.schedule delay task).elapse time = (d.schedule (delay - time) task, none) := by
  simp [schedule, elapse, Nat.not_lt.mpr h]

end Debouncer

end BlockEdit
