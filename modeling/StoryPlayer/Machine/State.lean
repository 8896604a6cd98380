import StoryPlayer.Machine.Stack
import StoryPlayer.Stage.Interaction
import StoryPlayer.Stage.Surface
import StoryPlayer.Story.Blocks
import StoryPlayer.Story.Flags
import StoryPlayer.Story.Library
import StoryPlayer.Text.Blank

/-! The state of a story that is being played, and the small changes that instructions are made
of. -/

namespace StoryPlayer

open Markup

/-- What the story waits for. -/
inductive Pause where
  | next
  | choice
  deriving DecidableEq, Repr, Inhabited

/-- Where the story stands. -/
inductive Phase where
  | running
  | paused (pause : Pause)
  | finished
  deriving DecidableEq, Repr, Inhabited

/-- Whether the story waits for the reader. -/
def Phase.isPaused : Phase → Bool
  | paused _ => true
  | _ => false

/-- A write to a surface that is put off.  It belongs to one generation of the machine and comes to
nothing in any other. -/
structure Task where
  generation : Nat
  surface : Surface
  markup : String
  deriving DecidableEq, Repr, Inhabited

/-- What a machine does that its host can see. -/
inductive Event where
  /-- An element is taken from the stack. -/
  | ran (element : Element)
  /-- A surface gets new markup. -/
  | wrote (surface : Surface) (markup : String)
  /-- A task is handed to the host, to be given back after some milliseconds. -/
  | scheduled (task : Task) (delay : Nat)
  /-- A document is put in place of the one before. -/
  | installed (file : String)
  /-- The story goes on after a pause. -/
  | proceeded

/-- A story that is being played. -/
structure Machine where
  library : Library
  /-- The milliseconds after which the options of a choice can be picked. -/
  choiceDelay : Nat
  screen : Screen := {}
  flags : Flags := .empty
  blocks : Blocks := {}
  /-- The path of the document that the blocks are from. -/
  file : Option String := none
  stack : Stack := []
  phase : Phase := .running
  /-- The options on offer, by their labels. -/
  offers : Table Element := []
  /-- A line that is to be added to the description when the story goes on. -/
  addition : Option String := none
  /-- Counts the documents installed, the choices shown, and the times the story went on. -/
  generation : Nat := 0
  /-- What happened so far, newest first. -/
  journal : List Event := []

/-- The milliseconds after which the options of a choice can be picked, unless a host says
otherwise. -/
def defaultChoiceDelay : Nat := 300

/-- What the speaker surface shows while no one speaks: a zero-width space. -/
def noSpeaker : String := "\u200B"

namespace Machine

def write (m : Machine) (surface : Surface) (markup : String) : Machine :=
  { m with screen := m.screen.write surface markup, journal := .wrote surface markup :: m.journal }

def schedule (m : Machine) (task : Task) : Machine :=
  { m with journal := .scheduled task m.choiceDelay :: m.journal }

def push (m : Machine) (element : Element) (role : Role) : Machine :=
  { m with stack := m.stack.push element role }

/-- Waits for the reader to go on. -/
def pause (m : Machine) : Machine :=
  { m with phase := .paused .next }.write .interaction Interaction.next.render

/-- Ends the story unless it waits for the reader. -/
def finish (m : Machine) : Machine :=
  if m.phase.isPaused then m else { m with phase := .finished }

/-- Removes the exhausted frames on the top of the stack. -/
def unwind (m : Machine) : Machine := { m with stack := m.stack.unwind }

/-- The labels on offer, in order. -/
def labels (m : Machine) : List String := m.offers.keys

end Machine

end StoryPlayer
