import StoryPlayer.Machine.Step

/-! Playing a story from one pause to the next.  A story may run forever, so playing takes a bound
on the number of steps; the answer is `none` if the bound is too small. -/

namespace StoryPlayer

open Markup

namespace Machine

/-- A story of which nothing is loaded. -/
def new (library : Library) (choiceDelay : Nat := defaultChoiceDelay) : Machine :=
  { library, choiceDelay }

/-- A story that is about to run its entry document, at the block with an id or else at the first
block. -/
def opening (library : Library) (file block : Option String)
    (choiceDelay : Nat := defaultChoiceDelay) : Except Fault Machine := do
  let entry ← library.entry file
  match (new library choiceDelay).load entry block with
  | (.ok (), m) => .ok m
  | (.error fault, _) => .error fault

/-- Runs until the story pauses or ends, for fewer than `bound` steps. -/
def play : (bound : Nat) → Machine → Option (Outcome Unit)
  | 0, _ => none
  | bound + 1, m =>
    if m.phase.isPaused then some (.ok (), m)
    else match m.step with
      | (.error fault, m) => some (.error fault, m)
      | (.ok true, m) => play bound m
      | (.ok false, m) => some (.ok (), m)

/-- Adds the line that was kept for the description to it. -/
def flush (m : Machine) : Machine :=
  match m.addition with
  | none => m
  | some line =>
    { m with addition := none }.write .description (m.screen.description ++ " " ++ line)

/-- Leaves a pause: what was kept for the description goes there first. -/
def leavePause (m : Machine) : Machine :=
  { m with
    phase := .running
    generation := m.generation + 1
    journal := .proceeded :: m.journal }.flush

/-- Leaves a pause and plays on. -/
def proceed (bound : Nat) (m : Machine) : Option (Outcome Unit) := m.leavePause.play bound

/-- The reader goes on. -/
def resume (bound : Nat) (m : Machine) : Option (Outcome Unit) :=
  match m.phase with
  | .paused pause =>
    if pause = .choice ∧ m.offers ≠ [] then some (.error .choicePending, m) else m.proceed bound
  | _ => some (.error .notPaused, m)

/-- Enters an option; nothing is on offer any more. -/
def enterOption (m : Machine) (element : Element) : Machine :=
  { m.push element .option with offers := [] }

/-- The reader chooses the option with a label. -/
def choose (bound : Nat) (m : Machine) (label : String) : Option (Outcome Unit) :=
  match m.offers.get? label with
  | none => some (.error (.unknownOption label), m)
  | some element => (m.enterOption element).proceed bound

/-- The host gives a task back; the answer is whether it still counted. -/
def deliver (m : Machine) (task : Task) : Bool × Machine :=
  if task.generation = m.generation then (true, m.write task.surface task.markup) else (false, m)

/-- Sets flags; the answer is whether some of them were clear. -/
def setFlags (m : Machine) (text : String) : Bool × Machine :=
  let (added, flags) := m.flags.setEach text
  (added, { m with flags })

/-- Clears flags; the answer is whether some of them were set. -/
def clearFlags (m : Machine) (text : String) : Bool × Machine :=
  let (removed, flags) := m.flags.clearEach text
  (removed, { m with flags })

/-- What the surface with a name or a style class shows. -/
def readNamed (m : Machine) (word : String) : Except Fault String :=
  match Surface.named? word with
  | some surface => .ok (m.screen.read surface)
  | none => .error (.unknownSurface word)

/-- What happened since the journal was last taken, oldest first, and the machine with an empty
journal. -/
def takeJournal (m : Machine) : List Event × Machine :=
  (m.journal.reverse, { m with journal := [] })

end Machine

end StoryPlayer
