import StoryPlayer.Command.Program

/-! The program: it looks up the story's folder, and either prints a result or talks to the reader
on the terminal. -/

namespace StoryPlayer

/-- A bound on the steps between two pauses that no story comes near. -/
def stepBound : Nat := 1 <<< 62

/-- Reads a folder, with the contents of the story documents in it. -/
partial def readFolder (entries : Array IO.FS.DirEntry) : IO Node := do
  let mut found := #[]
  for entry in entries do
    match (← entry.path.symlinkMetadata).type with
    | .dir => found := found.push (entry.fileName, ← readFolder (← entry.path.readDir))
    | .file =>
      let content ←
        if Node.isDocumentName entry.fileName then IO.FS.readBinFile entry.path
        else pure .empty
      found := found.push (entry.fileName, .file content)
    | _ => pure ()
  return .folder found.toList

def lookUp (path : String) : IO (Option Node) := do
  let place := (← IO.currentDir) / path
  if ← place.isDir then return some (← readFolder (← place.readDir))
  else if ← place.pathExists then return some (.file .empty)
  else return none

/-- The surroundings in which a command runs, as far as it looks at them. -/
def surroundings (folder : String) : IO Program.Surroundings := do
  let cwd := (← IO.currentDir).toString
  let found ← match Path.absolute? cwd folder with
    | some path => lookUp path
    | none => pure none
  return { cwd, look := fun _ => found }

/-- Reads a line of input, up to and with its line feed; nothing is left if it is empty. -/
partial def readLine (input : IO.FS.Stream) (line : List UInt8) : IO (List UInt8) := do
  match (← input.read 1).toList with
  | [] => return line.reverse
  | byte :: _ =>
    if byte = 10 then return (byte :: line).reverse else readLine input (byte :: line)

def fail (failure : Failure) : IO UInt32 := do
  IO.print (joinLines failure.lines)
  return 1

/-- Goes on with a reply, from the player `p` on: once the time has passed that the player waited,
prints its lines and asks, until the story or the input ends or the reader stops. -/
partial def converse (input : IO.FS.Stream) (p : Player) : Option Player.Reply → IO UInt32
  | none => throw (IO.userError "the story does not come to a pause")
  | some (.over _ (.error failure)) => fail failure
  | some (.over _ (.ok _)) => return 0
  | some (.again _ lines next) => do
    IO.sleep (next.session.now - p.session.now).toUInt32
    IO.print (joinLines lines)
    match next.prompt? with
    | none => return 0
    | some prompt =>
      IO.print prompt
      (← IO.getStdout).flush
      match ← readLine input [] with
      | [] => return 0
      | bytes => converse input next (next.follow stepBound (Program.decodeLine bytes))

/-- Plays by lines on the terminal. -/
def playOnTerminal (session : Session) : IO UInt32 := do
  IO.print (joinLines Player.banner)
  let p : Player := { session }
  converse (← IO.getStdin) p (p.start stepBound)

end StoryPlayer

open StoryPlayer in
/-- Runs the program with its arguments. -/
def main (args : List String) : IO UInt32 := do
  match Invocation.parse args with
  | .execute .play folder options =>
    let around ← surroundings folder
    match Program.openSession around folder options
        (options.choiceDelay.getD defaultChoiceDelay) with
    | .ok session => playOnTerminal session
    | .error failure => fail failure
  | .execute .run folder options =>
    match Program.run stepBound (← surroundings folder) folder options with
    | some result =>
      IO.print result.printed
      return result.status.toUInt32
    | none => throw (IO.userError "the story does not come to a pause")
  | .explain topic =>
    IO.print (joinLines topic.lines)
    return 0
  | .misuse => return 2
