import Mathlib.Data.List.Basic
import StoryPlayer.Host.Session

/-! A queue of tasks loses and repeats nothing.  A call takes the tasks that are due for it out of
the queue, wherever they stand, and leaves the others in their order (`run_eq`).  So, whatever the
due times and the clock do, the queue holds the tasks that no later call took, in the order in which
they came (`remaining`), and these and the tasks that were returned are those that were scheduled,
each as often as it was. -/

namespace StoryPlayer

namespace Timer

theorem tasks_append (first second : Timer) :
    tasks (first ++ second) = first.tasks ++ second.tasks := List.map_append

theorem notDueAt_eq (timer : Timer) (now : Nat) :
    timer.notDueAt now = timer.filter fun w => !decide (w.due ≤ now) := by
  refine List.filter_congr fun w _ => ?_
  rw [← decide_not]
  exact decide_eq_decide.mpr Nat.not_le.symm

theorem earliest?_eq_none_iff {timer : Timer} : timer.earliest? = none ↔ timer = [] := by
  simp [earliest?]

theorem earliest?_eq_some_iff {timer : Timer} {first : Nat} :
    timer.earliest? = some first ↔ (∃ w ∈ timer, w.due = first) ∧ ∀ w ∈ timer, first ≤ w.due := by
  simp [earliest?, List.min?_eq_some_iff]

end Timer

/-- What a host does with a queue of tasks. -/
inductive TimerCall where
  | schedule (due : Nat) (task : Task)
  | takeDue (now : Nat)
  | drain

namespace TimerCall

/-- The tasks that a call returns, and the queue after it. -/
def run (timer : Timer) : TimerCall → List Task × Timer
  | schedule due task => ([], timer.schedule due task)
  | takeDue now => ((timer.dueAt now).tasks, timer.notDueAt now)
  | drain => (timer.tasks, [])

/-- What calls return, one after the other, and the queue after them. -/
def runAll (timer : Timer) : List TimerCall → List (List Task) × Timer
  | [] => ([], timer)
  | call :: rest =>
    let (tasks, timer) := call.run timer
    let (others, timer) := runAll timer rest
    (tasks :: others, timer)

/-- What a call adds to the queue. -/
def scheduled? : TimerCall → Option Waiting
  | schedule due task => some ⟨due, task⟩
  | _ => none

/-- Whether a call takes a task that is due at a time. -/
def takes (due : Nat) : TimerCall → Bool
  | schedule _ _ => false
  | takeDue now => due ≤ now
  | drain => true

/-- The tasks that are scheduled and that no later call takes. -/
def remaining : List TimerCall → Timer
  | [] => []
  | call :: rest =>
    (call.scheduled?.toList.filter fun w => !rest.any (takes w.due)) ++ remaining rest

/-! ### One call -/

theorem run_eq (timer : Timer) (call : TimerCall) :
    call.run timer = (Timer.tasks (timer.filter fun w => call.takes w.due),
      (timer.filter fun w => !call.takes w.due) ++ call.scheduled?.toList) := by
  cases call with
  | schedule due task => simp [run, takes, scheduled?, Timer.schedule, Timer.tasks]
  | takeDue now =>
    rw [run, Timer.notDueAt_eq]
    exact congrArg (Prod.mk _) (List.append_nil _).symm
  | drain => simp [run, takes, scheduled?]

theorem run_perm (timer : Timer) (call : TimerCall) :
    ((call.run timer).1 ++ (call.run timer).2.tasks).Perm
      (timer.tasks ++ Timer.tasks call.scheduled?.toList) := by
  have hsplit := (List.filter_append_perm (fun w => call.takes w.due) timer).map Waiting.task
  rw [List.map_append] at hsplit
  rw [run_eq, Timer.tasks_append, ← List.append_assoc]
  exact hsplit.append_right _

/-- A call splits the queue into the due and the others, each in the order of the queue. -/
theorem takeDue_splits (queue : Timer) (now : Nat) :
    let left := ((takeDue now).run queue).2
    ∃ due : Timer, ((takeDue now).run queue).1 = due.tasks ∧ due.Sublist queue ∧
      left.Sublist queue ∧ (due ++ left).Perm queue ∧ (∀ w ∈ due, w.due ≤ now) ∧
      ∀ w ∈ left, now < w.due := by
  refine ⟨queue.dueAt now, rfl, List.filter_sublist, List.filter_sublist, ?_, ?_, ?_⟩
  · rw [run, Timer.notDueAt_eq]
    exact List.filter_append_perm _ queue
  · intro w hw
    simpa using (List.mem_filter.mp hw).2
  · intro w hw
    simpa using (List.mem_filter.mp hw).2

/-! ### Many calls -/

/-- By induction on the calls: a task stays in the queue until the first of them that takes it. -/
theorem queue_runAll (timer : Timer) (calls : List TimerCall) :
    (runAll timer calls).2 =
      (timer.filter fun w => !calls.any (takes w.due)) ++ remaining calls := by
  induction calls generalizing timer with
  | nil => simp [runAll, remaining]
  | cons call rest ih =>
    show (runAll (call.run timer).2 rest).2 = _
    rw [ih, run_eq]
    simp [remaining, List.filter_append, List.filter_filter, Bool.and_comm]

theorem scheduled_cons (call : TimerCall) (rest : List TimerCall) :
    (call :: rest).filterMap scheduled? =
      call.scheduled?.toList ++ rest.filterMap scheduled? := by
  cases call <;> rfl

theorem perm_runAll (timer : Timer) (calls : List TimerCall) :
    ((runAll timer calls).1.flatten ++ (runAll timer calls).2.tasks).Perm
      (timer.tasks ++ Timer.tasks (calls.filterMap scheduled?)) := by
  induction calls generalizing timer with
  | nil => simp [runAll, Timer.tasks]
  | cons call rest ih =>
    have hrest := (ih (call.run timer).2).append_left (call.run timer).1
    have hfirst := (run_perm timer call).append_right (Timer.tasks (rest.filterMap scheduled?))
    simp only [List.append_assoc] at hfirst
    show ((call.run timer).1 ++ (runAll (call.run timer).2 rest).1.flatten ++ _).Perm _
    rw [List.append_assoc, scheduled_cons, Timer.tasks_append]
    exact hrest.trans hfirst

theorem remaining_sublist (calls : List TimerCall) :
    (remaining calls).Sublist (calls.filterMap scheduled?) := by
  induction calls with
  | nil => exact .slnil
  | cons call rest ih =>
    rw [remaining, scheduled_cons]
    exact List.filter_sublist.append ih

/-- Whatever calls are made of an empty queue: what they return and what they leave is what they
schedule; what they leave is what no later call took; and of that, a further call takes what is due,
or everything.  The earliest time is the least of those that wait.  A session makes these calls. -/
theorem timer_conserves (calls : List TimerCall) :
    let returned := (runAll [] calls).1.flatten
    let queue := (runAll [] calls).2
    let scheduled := calls.filterMap scheduled?
    (returned ++ queue.tasks).Perm (Timer.tasks scheduled) ∧
    queue = remaining calls ∧ queue.Sublist scheduled ∧
    (∀ now, let left := ((takeDue now).run queue).2
      ∃ due : Timer, ((takeDue now).run queue).1 = due.tasks ∧ due.Sublist queue ∧
        left.Sublist queue ∧ (due ++ left).Perm queue ∧ (∀ w ∈ due, w.due ≤ now) ∧
        (∀ w ∈ left, now < w.due) ∧ ∀ first, left.earliest? = some first → now < first) ∧
    drain.run queue = (queue.tasks, []) ∧
    queue.length + returned.length = scheduled.length ∧
    (queue.earliest? = none ↔ queue = []) ∧
    (∀ first, queue.earliest? = some first ↔
      (∃ w ∈ queue, w.due = first) ∧ ∀ w ∈ queue, first ≤ w.due) ∧
    ∀ s : Session, s.timer = queue →
      (∀ now, s.deliverDue now =
        { s with timer := ((takeDue now).run queue).2 }.deliver ((takeDue now).run queue).1) ∧
      s.deliverAll = { s with timer := (drain.run queue).2 }.deliver (drain.run queue).1 := by
  intro returned queue scheduled
  have hperm : (returned ++ queue.tasks).Perm (Timer.tasks scheduled) := perm_runAll [] calls
  have hqueue : queue = remaining calls := queue_runAll [] calls
  refine ⟨hperm, hqueue, hqueue ▸ remaining_sublist calls, fun now => ?_, rfl, ?_,
    Timer.earliest?_eq_none_iff, fun first => Timer.earliest?_eq_some_iff, ?_⟩
  · obtain ⟨due, htasks, hdue, hleft, hall, hearly, hlate⟩ := takeDue_splits queue now
    refine ⟨due, htasks, hdue, hleft, hall, hearly, hlate, fun first hfirst => ?_⟩
    obtain ⟨⟨w, hw, rfl⟩, -⟩ := Timer.earliest?_eq_some_iff.mp hfirst
    exact hlate w hw
  · have hlength := hperm.length_eq
    simp only [Timer.tasks, List.length_append, List.length_map] at hlength
    omega
  · intro s hs
    rw [← hs]
    exact ⟨fun now => rfl, rfl⟩

end TimerCall

end StoryPlayer
