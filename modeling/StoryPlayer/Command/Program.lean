import StoryPlayer.Command.Arguments
import StoryPlayer.Command.Folder
import StoryPlayer.Host.Player

/-! The whole program as a function of its arguments, of what lies where in the file system, and of
its input. -/

namespace StoryPlayer

/-- What a program leaves: its exit status and what it printed. -/
structure Result where
  status : Nat
  printed : String
  deriving DecidableEq, Repr

namespace Result

def success (printed : String) : Result := ⟨0, printed⟩

/-- A failure, reported after what was printed before. -/
def failed (printed : String) (failure : Failure) : Result :=
  ⟨1, printed ++ joinLines failure.lines⟩

/-- A command line that is not understood. -/
def misuse : Result := ⟨2, ""⟩

end Result

namespace Program

/-- The surroundings of a program: the folder it runs in, and what is at each absolute path. -/
structure Surroundings where
  cwd : String
  look : String → Option Node

/-- The documents of the story in a folder. -/
def readStory (around : Surroundings) (folder : String) : Except Failure Library :=
  match Path.absolute? around.cwd folder with
  | some root => Library.ofFolder root (around.look root)
  | none => .error .emptyPath

/-- The session that the options ask for. -/
def openSession (around : Surroundings) (folder : String) (options : Options) (delay : Nat) :
    Except Failure Session := do
  let library ← readStory around folder
  (Session.opening library options.file options.block delay).mapError .fault

/-- Reads the actions of a run. -/
def readActions (texts : List String) : Except Failure (List Action) :=
  texts.mapM fun text =>
    match Action.parse? text with
    | some action => .ok action
    | none => .error (.badAction text)

/-- Follows actions and reports.  Options can be picked at once. -/
def run (bound : Nat) (around : Surroundings) (folder : String) (options : Options) :
    Option Result := do
  let ready : Except Failure (List Action × Session) := do
    let actions ← readActions options.actions
    return (actions, ← openSession around folder options 0)
  match ready with
  | .error failure => return .failed "" failure
  | .ok (actions, session) =>
    match ← session.runActions bound actions with
    | .error fault => return .failed "" (.fault fault)
    | .ok session => return .success (joinLines (Report.ofSession session).lines)

/-- Cuts bytes after each line feed. -/
def cutLines (line : List UInt8) : List UInt8 → List (List UInt8)
  | [] => if line.isEmpty then [] else [line.reverse]
  | byte :: rest =>
    if byte = 10 then (byte :: line).reverse :: cutLines [] rest else cutLines (byte :: line) rest

/-- A line of input without its end, if it is UTF-8. -/
def decodeLine (line : List UInt8) : Option String :=
  (String.fromUTF8? line.toByteArray).map fun text =>
    String.ofList
      (text.toList.reverse.dropWhile fun c => c == '\r' || c == '\n').reverse

def inputLines (input : ByteArray) : List (Option String) :=
  (cutLines [] input.toList).map decodeLine

def play (bound : Nat) (around : Surroundings) (folder : String) (options : Options)
    (input : ByteArray) : Option Result := do
  match openSession around folder options (options.choiceDelay.getD defaultChoiceDelay) with
  | .error failure => return .failed "" failure
  | .ok session =>
    let game ← Player.play bound [] session (inputLines input)
    match game.result with
    | .ok _ => return .success game.printed
    | .error failure => return .failed game.printed failure

/-- What the program does with its arguments and its input; `none` if the story runs for `bound`
steps without a pause. -/
def respond (bound : Nat) (around : Surroundings) (args : List String) (input : ByteArray) :
    Option Result :=
  match Invocation.parse args with
  | .misuse => some .misuse
  | .explain topic => some (.success (joinLines topic.lines))
  | .execute .run folder options => run bound around folder options
  | .execute .play folder options => play bound around folder options input

end Program

end StoryPlayer
