import StoryPlayer.Machine.State

/-! A queue of tasks that wait for their time.  Times are milliseconds on the host's clock. -/

namespace StoryPlayer

/-- A task and the time from which on it may run. -/
structure Waiting where
  due : Nat
  task : Task
  deriving DecidableEq, Repr

/-- The tasks that wait, in the order in which they came. -/
abbrev Timer := List Waiting

namespace Timer

def schedule (timer : Timer) (due : Nat) (task : Task) : Timer := timer ++ [⟨due, task⟩]

def tasks (timer : Timer) : List Task := timer.map Waiting.task

/-- The part of the queue that is due at a time. -/
def dueAt (timer : Timer) (now : Nat) : Timer := timer.filter fun w => w.due ≤ now

/-- The part of the queue that is not due at a time. -/
def notDueAt (timer : Timer) (now : Nat) : Timer := timer.filter fun w => now < w.due

/-- The earliest time at which a task is due. -/
def earliest? (timer : Timer) : Option Nat := (timer.map Waiting.due).min?

/-- Once a task is due, fewer tasks are left that are not. -/
theorem length_notDueAt_lt {timer : Timer} {due now : Nat} (h : timer.earliest? = some due)
    (hnow : due ≤ now) : (timer.notDueAt now).length < timer.length := by
  obtain ⟨w, hw, rfl⟩ := List.mem_map.mp (List.min?_mem h)
  have hle := List.length_filter_le (fun w : Waiting => now < w.due) timer
  refine Nat.lt_of_le_of_ne hle fun heq => ?_
  have := List.length_filter_eq_length_iff.mp heq w hw
  simp only [decide_eq_true_eq] at this
  omega

end Timer

end StoryPlayer
