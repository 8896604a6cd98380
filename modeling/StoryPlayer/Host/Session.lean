import StoryPlayer.Host.Timer
import StoryPlayer.Machine.Run

/-! A machine with a host: the tasks that the machine schedules wait in the host's queue, by the
host's clock. -/

namespace StoryPlayer

/-- A machine, the tasks that wait, and the time. -/
structure Session where
  machine : Machine
  timer : Timer := []
  now : Nat := 0

namespace Session

/-- Takes the machine's journal, oldest event first, and lets the tasks scheduled in it wait. -/
def collect (s : Session) : List Event × Session :=
  let (events, machine) := s.machine.takeJournal
  let timer := events.foldl (fun timer event =>
    match event with
    | .scheduled task delay => timer.schedule (s.now + delay) task
    | _ => timer) s.timer
  (events, { s with machine, timer })

/-- Runs an operation of the machine and lets the tasks that it scheduled wait. -/
def perform (s : Session) (operation : Machine → Option (Outcome Unit)) :
    Option (Except Fault Unit × Session) := do
  let (result, machine) ← operation s.machine
  return (result, { s with machine }.collect.2)

/-- Gives tasks to the machine, in order; the answers are whether each still counted. -/
def deliver (s : Session) : List Task → List Bool × Session
  | [] => ([], s)
  | task :: rest =>
    let (counted, machine) := s.machine.deliver task
    let (others, s) := deliver { s with machine } rest
    (counted :: others, s)

theorem deliver_timer (s : Session) (tasks : List Task) : (s.deliver tasks).2.timer = s.timer := by
  induction tasks generalizing s with
  | nil => rfl
  | cons task rest ih => exact ih _

/-- Gives the tasks that are due at a time to the machine. -/
def deliverDue (s : Session) (now : Nat) : List Bool × Session :=
  { s with timer := s.timer.notDueAt now }.deliver (s.timer.dueAt now).tasks

/-- Gives all tasks to the machine, due or not. -/
def deliverAll (s : Session) : List Bool × Session := { s with timer := [] }.deliver s.timer.tasks

/-- Waits until no task is left, and gives each to the machine once it is due.  The host sleeps
until the next task is due and may wake up late, by the times in `late`.  The answer lists the tasks
that were given, with the times at which they were. -/
def waitAll (late : List Nat) (s : Session) : List (Nat × Task) × Session :=
  match _ : s.timer.earliest? with
  | none => ([], s)
  | some due =>
    let now := max s.now due + late.headD 0
    let given := (s.timer.dueAt now).tasks.map fun task => (now, task)
    let (others, last) := waitAll late.tail ({ s with now }.deliverDue now).2
    (given ++ others, last)
termination_by s.timer.length
decreasing_by
  rw [deliverDue, deliver_timer]
  exact Timer.length_notDueAt_lt (by assumption) (by omega)

end Session

end StoryPlayer
