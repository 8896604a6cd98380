import StoryPlayer.Json.Value
import StoryPlayer.Story.Fault

/-! Why a program that plays stories stops without success. -/

namespace StoryPlayer

open Markup

/-- The causes for which the program gives up. -/
inductive Failure where
  /-- The story is at fault, or what the reader did. -/
  | fault (fault : Fault)
  | badAction (text : String)
  | emptyPath
  | noFolder (path : String)
  /-- A file is at the path of the story's folder. -/
  | notFolder (path : String)
  | noDocuments (path : String)
  /-- The document at this path is no UTF-8. -/
  | unreadable (path : String)
  /-- What the reader typed is no UTF-8. -/
  | unreadableInput
  deriving DecidableEq, Repr

namespace Failure

def code : Failure → String
  | fault f => f.code
  | badAction _ => "CLI_ACTION_INVALID"
  | emptyPath => "CLI_SOURCE_NOT_FOUND"
  | noFolder _ => "CLI_SOURCE_NOT_FOUND"
  | notFolder _ => "CLI_SOURCE_NOT_DIR"
  | noDocuments _ => "CLI_SOURCE_EMPTY"
  | unreadable _ => "CLI_SOURCE_READ"
  | unreadableInput => "PLAYER_IO"

def message : Failure → String
  | fault f => f.message
  | badAction text => s!"Unsupported action \"{text}\"; expected next or choose:<label>."
  | emptyPath => ": cannot make an empty path absolute"
  | noFolder path => s!"No story directory at {path}"
  | notFolder path => s!"{path} is a file; --scripts-dir expects the story directory"
  | noDocuments path => s!"{path} holds no .xml story documents"
  | unreadable path => s!"{path}: stream did not contain valid UTF-8"
  | unreadableInput => "terminal: stream did not contain valid UTF-8"

/-- Where the source is at fault, if that is known. -/
def place? : Failure → Option Location
  | fault f => f.span?.map Span.start
  | _ => none

def lines (failure : Failure) : List String :=
  ["RESULT:ERROR", "ERROR_CODE:" ++ failure.code, "ERROR_MSG_JSON:" ++ Json.quote failure.message]
    ++ (failure.place?.map fun place => "ERROR_AT:" ++ place.text).toList

end Failure

end StoryPlayer
