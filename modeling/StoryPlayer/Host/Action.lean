import StoryPlayer.Host.Session

/-! What a reader can do at a pause, and a session that a list of such actions drives. -/

namespace StoryPlayer

/-- What a reader does. -/
inductive Action where
  /-- Goes on. -/
  | next
  /-- Chooses an option. -/
  | choose (label : String)
  deriving DecidableEq, Repr

namespace Action

/-- Reads an action: `next`, or `choose:` and a label that is not empty. -/
def parse? (text : String) : Option Action :=
  if text = "next" then some next
  else if "choose:".toList.isPrefixOf text.toList then
    match text.toList.drop "choose:".toList.length with
    | [] => none
    | label => some (choose (String.ofList label))
  else none

/-- What an action does to the machine. -/
def apply (bound : Nat) : Action → Machine → Option (Outcome Unit)
  | next => Machine.resume bound
  | choose label => fun m => m.choose bound label

end Action

namespace Session

/-- A session that is about to run its entry document. -/
def opening (library : Library) (file block : Option String) (choiceDelay : Nat) :
    Except Fault Session :=
  (Machine.opening library file block choiceDelay).map fun machine =>
    ({ machine } : Session).collect.2

/-- Lets the reader act, and then gives all tasks back at once. -/
def act (bound : Nat) (s : Session) (action : Action) : Option (Except Fault Session) := do
  let (result, s) ← s.perform (action.apply bound)
  return result.map fun _ => s.deliverAll.2

/-- Lets the reader act again and again, up to the first fault. -/
def actAll (bound : Nat) (s : Session) : List Action → Option (Except Fault Session)
  | [] => some (.ok s)
  | action :: rest => do
    match ← s.act bound action with
    | .ok s => actAll bound s rest
    | .error fault => return .error fault

/-- Plays to the first pause and then lets the reader act. -/
def runActions (bound : Nat) (s : Session) (actions : List Action) :
    Option (Except Fault Session) := do
  match ← s.perform (Machine.play bound) with
  | (.ok (), s) => s.deliverAll.2.actAll bound actions
  | (.error fault, _) => return .error fault

end Session

end StoryPlayer
