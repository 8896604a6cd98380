import StoryPlayer.Machine.State
import StoryPlayer.Text.Natural

/-! The command line: a command, and options that each take a value. -/

namespace StoryPlayer

/-- What the program can do. -/
inductive Command where
  /-- To follow a list of actions and report. -/
  | run
  | play
  deriving DecidableEq, Repr

/-- What can be explained. -/
inductive Topic where
  | program
  | command (command : Command)
  | help
  deriving DecidableEq, Repr

/-- The options of a command as they are given. -/
structure Options where
  folder : Option String := none
  file : Option String := none
  block : Option String := none
  actions : List String := []
  choiceDelay : Option Nat := none
  deriving DecidableEq, Repr

/-- What a command line asks for. -/
inductive Invocation where
  | explain (topic : Topic)
  /-- To run a command on the story in a folder. -/
  | execute (command : Command) (folder : String) (options : Options)
  /-- Nothing: it is not understood. -/
  | misuse
  deriving DecidableEq, Repr

namespace Options

/-- The options with one more, if its name is known to the command, its value is of the right form,
and it is not given already.  Only `action` may be given again. -/
def add? (options : Options) (command : Command) (name value : String) : Option Options :=
  match command, name with
  | _, "scripts-dir" =>
    if options.folder.isSome then none else some { options with folder := value }
  | _, "file" => if options.file.isSome then none else some { options with file := value }
  | _, "block" => if options.block.isSome then none else some { options with block := value }
  | .run, "action" => some { options with actions := options.actions ++ [value] }
  | .play, "choice-delay-ms" =>
    if options.choiceDelay.isSome then none
    else (Text.natural? value).map fun delay => { options with choiceDelay := some delay }
  | _, _ => none

/-- What the complete options ask for. -/
def finish (options : Options) (command : Command) : Invocation :=
  match options.folder with
  | some folder => .execute command folder options
  | none => .misuse

/-- Reads the arguments after a command, from left to right.  An option stands apart from its value
or is joined to it by `=`, and a value that stands apart must not look like an option.  A request
for help ends the reading. -/
def parse (command : Command) (options : Options) : List String → Invocation
  | [] => options.finish command
  | arg :: rest =>
    match arg.toList with
    | ['-', '-'] => if rest.isEmpty then options.finish command else .misuse
    | '-' :: '-' :: chars =>
      match chars.span (· != '=') with
      | (name, []) =>
        if String.ofList name = "help" then .explain (.command command)
        else match rest with
          | [] => .misuse
          | value :: rest =>
            if "-".toList.isPrefixOf value.toList && value ≠ "-" then .misuse
            else match options.add? command (String.ofList name) value with
              | some options => parse command options rest
              | none => .misuse
      | (name, _ :: value) =>
        match options.add? command (String.ofList name) (String.ofList value) with
        | some options => parse command options rest
        | none => .misuse
    | '-' :: 'h' :: _ => .explain (.command command)
    | _ => .misuse

end Options

def Command.named? : String → Option Command
  | "run" => some .run
  | "play" => some .play
  | _ => none

/-- Reads the arguments of the program. -/
def Invocation.parse : List String → Invocation
  | [] => .misuse
  | "help" :: rest =>
    match rest with
    | [] => .explain .program
    | ["help"] => .explain .help
    | [name] =>
      match Command.named? name with
      | some command => .explain (.command command)
      | none => .misuse
    | _ => .misuse
  | "--help" :: _ => .explain .program
  | arg :: rest =>
    match Command.named? arg with
    | some command => Options.parse command {} rest
    | none => if "-h".toList.isPrefixOf arg.toList then .explain .program else .misuse

/-- The explanation of a topic, as lines. -/
def Topic.lines : Topic → List String
  | program =>
    ["EXIF interactive fiction player",
      "",
      "Usage: exif <COMMAND>",
      "",
      "Commands:",
      "  play  Play a story interactively on the terminal",
      "  run   Apply a fixed list of actions and print the resulting surfaces",
      "  help  Print this message or the help of the given subcommand(s)",
      "",
      "Options:",
      "  -h, --help  Print help"]
  | command .run =>
    ["Apply a fixed list of actions and print the resulting surfaces",
      "",
      "Usage: exif run [OPTIONS] --scripts-dir <SCRIPTS_DIR>",
      "",
      "Options:",
      "      --scripts-dir <SCRIPTS_DIR>  ",
      "      --file <FILE>                ",
      "      --block <BLOCK>              ",
      "      --action <ACTIONS>           `next` or `choose:<label>`; applied in order",
      "  -h, --help                       Print help"]
  | command .play =>
    ["Play a story interactively on the terminal",
      "",
      "Usage: exif play [OPTIONS] --scripts-dir <SCRIPTS_DIR>",
      "",
      "Options:",
      "      --scripts-dir <SCRIPTS_DIR>          ",
      "      --file <FILE>                        ",
      "      --block <BLOCK>                      ",
      "      --choice-delay-ms <CHOICE_DELAY_MS>  [default: 300]",
      "  -h, --help                               Print help"]
  | help =>
    ["Print this message or the help of the given subcommand(s)",
      "",
      "Usage: exif help [COMMAND]...",
      "",
      "Arguments:",
      "  [COMMAND]...  Print help for the subcommand(s)"]

end StoryPlayer
