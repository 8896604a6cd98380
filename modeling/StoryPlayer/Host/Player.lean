import StoryPlayer.Host.Action
import StoryPlayer.Host.Failure
import StoryPlayer.Host.Page
import StoryPlayer.Host.Report
import StoryPlayer.Text.Natural

/-! The line player: at each pause it prints what is new on the screen, asks, and takes a line of
input as an answer or as a command.

A line of input that is no UTF-8 is `none`. -/

namespace StoryPlayer

/-- A session that is played by lines, and what is printed of it. -/
structure Player where
  session : Session
  page : Page := {}
  /-- The times by which the host will wake up late, for each wait that is to come. -/
  late : List (List Nat) := []

/-- What a line of input tells the player. -/
inductive Reading where
  | quit
  /-- To print something and ask again. -/
  | note (text : String)
  | act (action : Action)
  deriving DecidableEq, Repr

namespace Player

/-- The lines printed first. -/
def banner : List String := ["EXIF player", "commands: :flags :help :quit"]

/-- The option that a trimmed line of input names: by its number, counted from 1, or else by its
label. -/
def resolve? (labels : List String) (word : String) : Option String :=
  match Text.natural? word with
  | some 0 => none
  | some (n + 1) => labels[n]?
  | none => labels.find? (· = word)

/-- The line that lists the flags. -/
def flagLine (flags : Flags) : String :=
  if flags.names.isEmpty then "(no flags set)" else "flags: " ++ String.intercalate " " flags.names

/-- What a command, a trimmed line that starts with a colon, tells the player. -/
def readCommand (m : Machine) (word : String) : Reading :=
  match word with
  | ":quit" => .quit
  | ":flags" => .note (flagLine m.flags)
  | ":help" => .note "Enter continues; a number or label picks an option; :flags :quit"
  | _ => .note ("Unknown command: " ++ word)

/-- What a line tells the player while the story waits. -/
def read (m : Machine) (line : String) : Reading :=
  let word := Text.trim line
  if word.toList.head? = some ':' then readCommand m word
  else if m.phase = .paused .choice ∧ m.labels ≠ [] then
    match resolve? m.labels word with
    | some label => .act (.choose label)
    | none => .note ("No option \"" ++ word ++ "\".")
  else .act .next

/-- The lines that list the options, numbered from `n` on. -/
def optionLines (n : Nat) : List String → List String
  | [] => []
  | label :: rest => ("  [" ++ toString n ++ "] " ++ label) :: optionLines (n + 1) rest

/-- Prints what is new when the story has stopped: the lines, and the player after them.  At a
choice the player first waits until the options can be picked. -/
def arrive (p : Player) : List String × Player :=
  match p.session.machine.phase with
  | .paused .next =>
    let (lines, page) := p.page.turn p.session.machine.screen
    (lines, { p with page })
  | .paused .choice =>
    let session := (p.session.waitAll (p.late.headD [])).2
    let (lines, page) := p.page.turn session.machine.screen
    let labels := session.machine.labels
    (lines ++ (if labels.isEmpty then ["(nothing to choose)"] else optionLines 1 labels),
      { session, page, late := p.late.tail })
  | _ =>
    let (lines, page) := p.page.turn p.session.machine.screen
    (lines ++ ["", "[END]"], { p with page })

/-- What the player asks with, or `none` if the story has ended. -/
def prompt? (p : Player) : Option String :=
  match p.session.machine.phase with
  | .paused .next => some "[Enter] "
  | .paused .choice => some "> "
  | _ => none

/-- What comes of a call or of a line of input, and what the reader did by it. -/
inductive Reply where
  /-- The game is over. -/
  | over (actions : List Action) (result : Except Failure Player)
  /-- Lines are printed, and the player asks again. -/
  | again (actions : List Action) (lines : List String) (next : Player)

/-- Makes a call for the reader, and prints what is new when the story has stopped. -/
def advance (p : Player) (actions : List Action) (operation : Machine → Option (Outcome Unit)) :
    Option Reply := do
  match ← p.session.perform operation with
  | (.error fault, _) => return .over actions (.error (.fault fault))
  | (.ok (), session) =>
    let (lines, next) := arrive { p with session }
    return .again actions lines next

/-- Starts to play. -/
def start (bound : Nat) (p : Player) : Option Reply := p.advance [] (Machine.play bound)

/-- Follows a line of input. -/
def follow (bound : Nat) (p : Player) (line : Option String) : Option Reply :=
  match line.map (read p.session.machine) with
  | none => some (.over [] (.error .unreadableInput))
  | some .quit => some (.over [] (.ok p))
  | some (.note text) => some (.again [] [text] p)
  | some (.act action) => p.advance [action] (action.apply bound)

/-- How a game went: what was printed, what the reader did, and the player at the end or why there
is none. -/
structure Game where
  printed : String
  actions : List Action
  result : Except Failure Player

/-- A game with more before it. -/
def Game.after (game : Game) (printed : String) (actions : List Action) : Game :=
  { game with printed := printed ++ game.printed, actions := actions ++ game.actions }

/-- Asks for lines and follows them until the story or the input ends or the reader stops. -/
def converse (bound : Nat) : Player → List (Option String) → Option Game
  | p, [] => some ⟨p.prompt?.getD "", [], .ok p⟩
  | p, line :: rest =>
    match p.prompt? with
    | none => some ⟨"", [], .ok p⟩
    | some prompt => do
      match ← p.follow bound line with
      | .over actions result => return ⟨prompt, actions, result⟩
      | .again actions lines next =>
        return (← converse bound next rest).after (prompt ++ joinLines lines) actions

/-- Plays a session that is about to start, by a host that wakes up late by the times in `late`. -/
def play (bound : Nat) (late : List (List Nat)) (session : Session)
    (lines : List (Option String)) : Option Game := do
  match ← start bound { session, late } with
  | .over actions result => return ⟨joinLines banner, actions, result⟩
  | .again actions first p =>
    return (← converse bound p lines).after (joinLines (banner ++ first)) actions

end Player

end StoryPlayer
