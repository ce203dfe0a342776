import BlockEdit.Sync.Debouncer

/-!
# What a debouncer runs

A scheduled task runs when nobody schedules or cancels before its delay is over. Whether that
happens can be read off the calls alone: it depends on how long the calls behind the scheduling one
sleep before one of another kind. To tell the tasks apart, each is numbered with the place of the
call that schedules it; the debouncer does not look at what a task is.

A delay that ends together with a sleep has not ended yet: the task waits for more time to pass.

Main statements:

* **`ran_replies`**: what runs during the calls, whatever waits before them.
* **`isPending_after`**: when a task waits behind the calls.
* **`fires_unfollowed`**: a debouncer runs exactly the tasks that no other call came too soon for,
  each once and in order, and knows at every time whether one waits.
-/

namespace BlockEdit.Debouncer

variable {α : Type} {calls rest : List (Call α)} {i n : Nat} {task : α}

/-! ### What the calls say -/

/-- The time that is slept before the next call that schedules or cancels. -/
def slept : List (Call α) → Nat
  | [] => 0
  | .schedule _ _ :: _ => 0
  | .cancel :: _ => 0
  | .sleep time :: rest => time + slept rest

/-- Nobody schedules or cancels. -/
def Undisturbed (calls : List (Call α)) : Prop := ∀ call ∈ calls, ∃ time, call = .sleep time

/-- The tasks, in order, behind which there is enough sleep. -/
def due : List (Call α) → List α
  | [] => []
  | .schedule delay task :: rest => if delay < slept rest then task :: due rest else due rest
  | .cancel :: rest => due rest
  | .sleep _ :: rest => due rest

/-- The call with a number for its task. -/
def Call.number (n : Nat) : Call α → Call (Nat × α)
  | .schedule delay task => .schedule delay (n, task)
  | .cancel => .cancel
  | .sleep time => .sleep time

/-- The calls with the numbers from `n` on for their tasks. -/
def numbered : Nat → List (Call α) → List (Call (Nat × α))
  | _, [] => []
  | n, call :: rest => call.number n :: numbered (n + 1) rest

/-- The tasks that run during the calls, in the order in which they run, each with the place of the
call that scheduled it. -/
def fired (calls : List (Call α)) : List (Nat × α) :=
  (idle.replies (numbered 0 calls)).filterMap Reply.ran

/-- One of the calls scheduled a task that has not run, and nobody scheduled or cancelled since. -/
def Outstanding (calls : List (Call α)) : Prop :=
  ∃ i delay task, calls[i]? = some (.schedule delay task) ∧ Undisturbed (calls.drop (i + 1)) ∧
    (i, task) ∉ fired calls

/-- A debouncer that starts idle runs exactly the tasks whose calls are not followed too soon. -/
structure FiresUnfollowed (calls : List (Call α)) : Prop where
  /-- A scheduled task runs exactly when there is more sleep than its delay before the next call that
  schedules or cancels. -/
  runs_iff : ∀ i delay task, calls[i]? = some (.schedule delay task) →
    ((i, task) ∈ fired calls ↔ delay < slept (calls.drop (i + 1)))
  /-- Nothing runs that was not scheduled. -/
  scheduled : ∀ i task, (i, task) ∈ fired calls → ∃ delay, calls[i]? = some (.schedule delay task)
  /-- No task runs twice, and tasks run in the order in which they were scheduled. -/
  increasing : (fired calls).Pairwise fun first second => first.1 < second.1
  /-- What ran during the first calls is what ran first. -/
  history : ∀ count, fired (calls.take count) <+: fired calls
  /-- The numbers change nothing about what runs. -/
  tasks : (idle.replies calls).filterMap Reply.ran = (fired calls).map Prod.snd
  /-- A task waits exactly when one was scheduled that neither ran nor was followed by another
  call. -/
  pending_iff : (idle.after calls).isPending = true ↔ Outstanding calls
  /-- A cancel says whether a task waited when it came. -/
  cancelled : ∀ i, calls[i]? = some .cancel → ∃ answer,
    (idle.replies calls)[i]?.map Reply.cancelled = some (some answer) ∧
      (answer = true ↔ Outstanding (calls.take i))

/-! ### What runs -/

/-- The tasks that run when time passes. -/
def overdue (d : Debouncer α) (time : Nat) : List α := ((d.elapse time).2.map Waiting.task).toList

/-- Where nothing waits, nothing runs. -/
theorem overdue_idle (time : Nat) : (idle : Debouncer α).overdue time = [] := rfl

/-- A task that was just scheduled runs when more time passes than its delay. -/
theorem overdue_schedule (d : Debouncer α) (delay time : Nat) (task : α) :
    (d.schedule delay task).overdue time = if delay < time then [task] else [] := by
  rw [overdue]
  split
  · next h => rw [elapse_schedule d task h]; rfl
  · next h => rw [elapse_schedule_of_le d task (Nat.not_lt.mp h)]; rfl

/-- As long as no time passes, nothing runs. -/
theorem overdue_zero (d : Debouncer α) : d.overdue 0 = [] := by
  rcases d with ⟨_ | w⟩
  · rfl
  · exact (overdue_schedule ⟨none⟩ w.delay 0 w.task).trans (if_neg (Nat.not_lt_zero _))

/-- **Time can be cut**: what runs in a sleep runs in the one or the other part of it. -/
theorem overdue_add (d : Debouncer α) (time more : Nat) :
    d.overdue (time + more) = d.overdue time ++ (d.elapse time).1.overdue more := by
  rcases d with ⟨_ | ⟨delay, task⟩⟩
  · rfl
  · show (Debouncer.schedule ⟨none⟩ delay task).overdue _ =
      (Debouncer.schedule ⟨none⟩ delay task).overdue _ ++
        ((Debouncer.schedule ⟨none⟩ delay task).elapse time).1.overdue more
    by_cases h : delay < time
    · rw [overdue_schedule, overdue_schedule, elapse_schedule _ _ h, overdue_idle, if_pos h,
        if_pos (by omega), List.append_nil]
    · rw [elapse_schedule_of_le _ _ (Nat.not_lt.mp h), overdue_schedule, overdue_schedule,
        overdue_schedule, if_neg h, List.nil_append]
      exact ite_congr (by simp; omega) (fun _ => rfl) fun _ => rfl

/-- **What runs during the calls** is what waited before them, if they begin with enough sleep, and
then what they schedule with enough sleep behind it. -/
theorem ran_replies (d : Debouncer α) (calls : List (Call α)) :
    (d.replies calls).filterMap Reply.ran = d.overdue (slept calls) ++ due calls := by
  induction calls generalizing d with
  | nil =>
    rw [slept, overdue_zero]
    rfl
  | cons call rest ih =>
    cases call with
    | schedule delay task =>
      show ((d.schedule delay task).replies rest).filterMap Reply.ran = _
      rw [ih, overdue_schedule, slept, overdue_zero, due]
      split
      · rfl
      · rfl
    | cancel =>
      show (idle.replies rest).filterMap Reply.ran = _
      rw [ih, overdue_idle, slept, overdue_zero, due]
    | sleep time =>
      rw [slept, overdue_add, due, List.append_assoc, ← ih]
      show (d.act (.sleep time) :: (d.elapse time).1.replies rest).filterMap Reply.ran = _
      rw [List.filterMap_cons]
      show (match (d.elapse time).2.map Waiting.task with | none => _ | some _ => _) = _
      rw [overdue]
      rcases (d.elapse time).2.map Waiting.task with _ | task
      · rfl
      · rfl

/-! ### The numbers of the tasks -/

/-- The numbers of the tasks do not matter to the time that passes. -/
theorem slept_numbered (n : Nat) (calls : List (Call α)) : slept (numbered n calls) = slept calls := by
  induction calls generalizing n with
  | nil => rfl
  | cons call rest ih =>
    cases call with
    | schedule delay task => rfl
    | cancel => rfl
    | sleep time => exact congrArg (time + ·) (ih (n + 1))

/-- **A task is due** exactly when enough sleep is behind the call that scheduled it. -/
theorem mem_due_numbered : ∀ {calls : List (Call α)} {n : Nat},
    (i, task) ∈ due (numbered n calls) ↔ ∃ j delay, i = n + j ∧
      calls[j]? = some (.schedule delay task) ∧ delay < slept (calls.drop (j + 1)) := by
  intro calls
  induction calls with
  | nil => simp [numbered, due]
  | cons call rest ih =>
    intro n
    -- a call that schedules nothing is passed over
    have hpass : (∀ delay task, call ≠ .schedule delay task) →
        ((i, task) ∈ due (numbered (n + 1) rest) ↔ ∃ j delay, i = n + j ∧
          (call :: rest)[j]? = some (.schedule delay task) ∧
            delay < slept ((call :: rest).drop (j + 1))) := by
      intro hcall
      rw [ih]
      constructor
      · rintro ⟨j, delay, rfl, hj, hlt⟩
        exact ⟨j + 1, delay, by omega, hj, hlt⟩
      · rintro ⟨_ | j, delay, hi, hj, hlt⟩
        · exact absurd (Option.some.inj hj) (hcall delay task)
        · exact ⟨j, delay, by omega, hj, hlt⟩
    cases call with
    | schedule delay first =>
      rw [numbered, Call.number, due, slept_numbered]
      constructor
      · intro h
        have hcases : (delay < slept rest ∧ (i, task) = (n, first)) ∨
            (i, task) ∈ due (numbered (n + 1) rest) := by
          split at h
          · next hlt => exact (List.mem_cons.mp h).imp_left fun he => ⟨hlt, he⟩
          · exact Or.inr h
        rcases hcases with ⟨hlt, he⟩ | h
        · cases he
          exact ⟨0, delay, rfl, rfl, hlt⟩
        · obtain ⟨j, delay', rfl, hj, hlt⟩ := ih.mp h
          exact ⟨j + 1, delay', by omega, hj, hlt⟩
      · rintro ⟨_ | j, delay', rfl, hj, hlt⟩
        · cases hj
          rw [if_pos (show delay < slept rest from hlt)]
          exact List.mem_cons_self
        · have hrest : (n + (j + 1), task) ∈ due (numbered (n + 1) rest) :=
            ih.mpr ⟨j, delay', by omega, hj, hlt⟩
          split
          · exact List.mem_cons_of_mem _ hrest
          · exact hrest
    | cancel => exact hpass fun _ _ h => by cases h
    | sleep time => exact hpass fun _ _ h => by cases h

/-- Tasks numbered by their calls are due in the order of the calls, each of them once. -/
theorem increasing_due_numbered (n : Nat) (calls : List (Call α)) :
    (due (numbered n calls)).Pairwise fun first second => first.1 < second.1 := by
  induction calls generalizing n with
  | nil => exact .nil
  | cons call rest ih =>
    cases call with
    | schedule delay first =>
      rw [numbered, Call.number, due]
      split
      · refine .cons (fun later hlater => ?_) (ih (n + 1))
        obtain ⟨j, -, hj, -⟩ := mem_due_numbered.mp hlater
        show n < later.1
        omega
      · exact ih (n + 1)
    | cancel => exact ih (n + 1)
    | sleep time => exact ih (n + 1)

/-- Without their numbers, the tasks that are due are those that were due before. -/
theorem map_due_numbered (n : Nat) (calls : List (Call α)) :
    (due (numbered n calls)).map Prod.snd = due calls := by
  induction calls generalizing n with
  | nil => rfl
  | cons call rest ih =>
    cases call with
    | schedule delay first =>
      rw [numbered, Call.number, due, due, slept_numbered]
      split
      · rw [List.map_cons, ih]
      · exact ih (n + 1)
    | cancel => exact ih (n + 1)
    | sleep time => exact ih (n + 1)

/-- What a debouncer that starts idle runs is what is due. -/
theorem fired_eq_due (calls : List (Call α)) : fired calls = due (numbered 0 calls) := by
  rw [fired, ran_replies, overdue_idle, List.nil_append]

/-! ### What waits -/

/-- As long as no time passes, a task waits if it did. -/
theorem isPending_elapse_zero (d : Debouncer α) : (d.elapse 0).1.isPending = d.isPending := by
  rcases d with ⟨_ | ⟨delay, task⟩⟩
  · rfl
  · show ((Debouncer.schedule ⟨none⟩ delay task).elapse 0).1.isPending = _
    rw [elapse_schedule_of_le _ _ (Nat.zero_le delay)]
    rfl

/-- It does not matter to what waits whether time passes at once or in two steps. -/
theorem isPending_elapse_add (d : Debouncer α) (time more : Nat) :
    (d.elapse (time + more)).1.isPending = ((d.elapse time).1.elapse more).1.isPending := by
  rcases d with ⟨_ | ⟨delay, task⟩⟩
  · rfl
  · show ((Debouncer.schedule ⟨none⟩ delay task).elapse _).1.isPending =
      (((Debouncer.schedule ⟨none⟩ delay task).elapse time).1.elapse more).1.isPending
    by_cases h : delay < time
    · rw [elapse_schedule _ _ h, elapse_schedule _ _ (by omega)]
      rfl
    · rw [elapse_schedule_of_le _ _ (Nat.not_lt.mp h)]
      by_cases hmore : delay < time + more
      · rw [elapse_schedule _ _ hmore, elapse_schedule _ _ (by omega)]
      · rw [elapse_schedule_of_le _ _ (by omega), elapse_schedule_of_le _ _ (by omega)]
        rfl

/-- A task that was just scheduled waits until its delay is over. -/
theorem isPending_elapse_schedule (d : Debouncer α) (delay time : Nat) (task : α) :
    ((d.schedule delay task).elapse time).1.isPending = true ↔ time ≤ delay := by
  by_cases h : delay < time
  · rw [elapse_schedule d task h]
    constructor
    · intro hidle
      cases hidle
    · intro hle
      exact absurd hle (Nat.not_le.mpr h)
  · rw [elapse_schedule_of_le d task (Nat.not_lt.mp h)]
    exact ⟨fun _ => Nat.not_lt.mp h, fun _ => rfl⟩

/-- The last call that schedules a task, with nothing but sleep behind it that does not outlast its
delay. -/
def Stands (calls : List (Call α)) : Prop :=
  ∃ i delay task, calls[i]? = some (.schedule delay task) ∧
    Undisturbed (calls.drop (i + 1)) ∧ slept (calls.drop (i + 1)) ≤ delay

/-- Calls are only sleep when the first one is and the rest are. -/
theorem undisturbed_cons {call : Call α} :
    Undisturbed (call :: rest) ↔ (∃ time, call = .sleep time) ∧ Undisturbed rest :=
  List.forall_mem_cons

/-- The last task to be scheduled is the first call's, with only sleep behind it, or one of a later
call. -/
theorem stands_cons {call : Call α} : Stands (call :: rest) ↔
    (∃ delay task, call = .schedule delay task ∧ Undisturbed rest ∧ slept rest ≤ delay) ∨
      Stands rest := by
  constructor
  · rintro ⟨_ | i, delay, task, hi, hrest⟩
    · exact Or.inl ⟨delay, task, Option.some.inj hi, hrest⟩
    · exact Or.inr ⟨i, delay, task, hi, hrest⟩
  · rintro (⟨delay, task, rfl, hrest⟩ | ⟨i, delay, task, hi, hrest⟩)
    · exact ⟨0, delay, task, rfl, hrest⟩
    · exact ⟨i + 1, delay, task, hi, hrest⟩

/-- **A task waits** behind the calls when it waited before them and they only sleep, not longer
than its delay, or when one of them scheduled it and those behind that one do the same. -/
theorem isPending_after (d : Debouncer α) (calls : List (Call α)) :
    (d.after calls).isPending = true ↔
      (Undisturbed calls ∧ (d.elapse (slept calls)).1.isPending = true) ∨ Stands calls := by
  induction calls generalizing d with
  | nil =>
    rw [slept, isPending_elapse_zero]
    refine ⟨fun h => Or.inl ⟨fun _ hmem => (List.not_mem_nil hmem).elim, h⟩, ?_⟩
    rintro (⟨-, h⟩ | ⟨i, delay, task, hi, -⟩)
    · exact h
    · cases hi
  | cons call rest ih =>
    rw [stands_cons, undisturbed_cons]
    cases call with
    | schedule delay task =>
      -- A new task takes the place of the one that waits, so only the calls behind it matter.
      show ((d.schedule delay task).after rest).isPending = true ↔ _
      rw [ih, isPending_elapse_schedule]
      constructor
      · rintro (⟨hrest, hle⟩ | h)
        · exact Or.inr (Or.inl ⟨delay, task, rfl, hrest, hle⟩)
        · exact Or.inr (Or.inr h)
      · rintro (⟨⟨⟨time, htime⟩, -⟩, -⟩ | ⟨delay', task', he, h⟩ | h)
        · cases htime
        · cases he
          exact Or.inl h
        · exact Or.inr h
    | cancel =>
      show ((idle : Debouncer α).after rest).isPending = true ↔ _
      rw [ih]
      constructor
      · rintro (⟨-, h⟩ | h)
        · cases h
        · exact Or.inr (Or.inr h)
      · rintro (⟨⟨⟨time, htime⟩, -⟩, -⟩ | ⟨delay', task', he, -⟩ | h)
        · cases htime
        · cases he
        · exact Or.inr h
    | sleep time =>
      -- Sleep passes for the task that waits as for any later one.
      show ((d.elapse time).1.after rest).isPending = true ↔ _
      rw [ih, slept, isPending_elapse_add]
      constructor
      · rintro (⟨hrest, h⟩ | h)
        · exact Or.inl ⟨⟨⟨time, rfl⟩, hrest⟩, h⟩
        · exact Or.inr (Or.inr h)
      · rintro (⟨⟨-, hrest⟩, h⟩ | ⟨delay', task', he, -⟩ | h)
        · exact Or.inl ⟨hrest, h⟩
        · cases he
        · exact Or.inr h

/-- The reply to a call is what the debouncer does with it after the calls before. -/
theorem getElem?_replies (d : Debouncer α) (calls : List (Call α)) (i : Nat) :
    (d.replies calls)[i]? = calls[i]?.map (d.after (calls.take i)).act := by
  induction calls generalizing d i with
  | nil => rfl
  | cons call rest ih =>
    rcases i with _ | i
    · rfl
    · exact ih _ i

/-! ### A debouncer from its start -/

/-- A scheduled task runs exactly when there is enough sleep behind its call. -/
theorem mem_fired_iff {delay : Nat} (hi : calls[i]? = some (.schedule delay task)) :
    (i, task) ∈ fired calls ↔ delay < slept (calls.drop (i + 1)) := by
  rw [fired_eq_due, mem_due_numbered]
  constructor
  · rintro ⟨j, delay', hj, hcall, hlt⟩
    obtain rfl : i = j := by omega
    cases hi.symm.trans hcall
    exact hlt
  · intro hlt
    exact ⟨i, delay, by omega, hi, hlt⟩

/-- The task that stands is the one that is outstanding: it has not run, since there was not enough
sleep. -/
theorem stands_iff_outstanding (calls : List (Call α)) : Stands calls ↔ Outstanding calls := by
  constructor
  · rintro ⟨i, delay, task, hi, hrest, hle⟩
    exact ⟨i, delay, task, hi, hrest, fun hran => absurd ((mem_fired_iff hi).mp hran) (by omega)⟩
  · rintro ⟨i, delay, task, hi, hrest, hran⟩
    exact ⟨i, delay, task, hi, hrest, Nat.not_lt.mp fun hlt => hran ((mem_fired_iff hi).mpr hlt)⟩

/-- A debouncer that starts idle waits exactly when a task is outstanding. -/
theorem isPending_after_idle (calls : List (Call α)) :
    ((idle : Debouncer α).after calls).isPending = true ↔ Outstanding calls := by
  rw [isPending_after, ← stands_iff_outstanding]
  constructor
  · rintro (⟨-, h⟩ | h)
    · cases h
    · exact h
  · exact Or.inr

/-- The replies to the first calls are the first replies. -/
theorem replies_take (d : Debouncer α) (calls : List (Call α)) (count : Nat) :
    d.replies (calls.take count) = (d.replies calls).take count := by
  induction calls generalizing d count with
  | nil => rw [List.take_nil, replies, List.take_nil]
  | cons call rest ih =>
    rcases count with _ | count
    · rfl
    · exact congrArg (d.act call :: ·) (ih _ count)

/-- Numbering the first calls is the same as the first of the numbered calls. -/
theorem numbered_take (n : Nat) (calls : List (Call α)) (count : Nat) :
    numbered n (calls.take count) = (numbered n calls).take count := by
  induction calls generalizing n count with
  | nil => rw [List.take_nil, numbered, List.take_nil]
  | cons call rest ih =>
    rcases count with _ | count
    · rfl
    · exact congrArg (call.number n :: ·) (ih _ count)

/-- **A debouncer fires exactly the calls that nobody followed too soon**, whatever calls it
gets. -/
theorem fires_unfollowed (calls : List (Call α)) : FiresUnfollowed calls where
  runs_iff i delay task hi := mem_fired_iff hi
  scheduled i task h := by
    rw [fired_eq_due, mem_due_numbered] at h
    obtain ⟨j, delay, hj, hcall, -⟩ := h
    obtain rfl : i = j := by omega
    exact ⟨delay, hcall⟩
  increasing := by
    rw [fired_eq_due]
    exact increasing_due_numbered 0 calls
  history count := by
    rw [fired, numbered_take, replies_take]
    exact (List.take_prefix count _).filterMap _
  tasks := by
    rw [ran_replies, overdue_idle, List.nil_append, fired_eq_due, map_due_numbered]
  pending_iff := isPending_after_idle calls
  cancelled i hi := by
    refine ⟨((idle : Debouncer α).after (calls.take i)).isPending, ?_, isPending_after_idle _⟩
    rw [getElem?_replies, hi]
    rfl

/-- The second task, with the shorter delay, runs in place of the first. -/
example : fired [.schedule 100 'a', .sleep 50, .schedule 10 'b', .sleep 10, .sleep 1, .cancel] =
    [(2, 'b')] := by decide

end BlockEdit.Debouncer
