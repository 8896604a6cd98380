import StoryPlayer.Markup.ReadError

/-! What can go wrong while a story is loaded or played. -/

namespace StoryPlayer

open Markup

/-- The name of the document that a story starts with unless another is named. -/
def defaultEntry : String := "main.xml"

/-- Why an operation did not succeed. -/
inductive Fault where
  /-- A tag without an attribute that it needs. -/
  | missingAttribute (tag attr : String) (span : Span)
  | unknownBlock (id : String)
  | unknownSurface (name : String)
  | unknownOption (label : String)
  /-- A document without a block that has an id. -/
  | noBlocks (file : String)
  | choicePending
  | notPaused
  | unknownDocument (path : String)
  | malformed (cause : ReadError)
  /-- The document to start with is not there. -/
  | unknownEntry (file : String)
  /-- No document is named to start with, and none suggests itself. -/
  | noEntry
  /-- A fault that a host reports in its own words. -/
  | reported (code message : String) (span : Option Span)
  deriving DecidableEq, Repr

namespace Fault

def code : Fault → String
  | missingAttribute .. => "ENGINE_MISSING_ATTRIBUTE"
  | unknownBlock _ => "ENGINE_UNKNOWN_BLOCK"
  | unknownSurface _ => "ENGINE_UNKNOWN_TARGET"
  | unknownOption _ => "ENGINE_UNKNOWN_OPTION"
  | noBlocks _ => "ENGINE_NO_BLOCKS"
  | choicePending => "ENGINE_CHOICE_PENDING"
  | notPaused => "ENGINE_NOT_PAUSED"
  | unknownDocument _ => "LOAD_NOT_FOUND"
  | malformed _ => "XML_PARSE_ERROR"
  | unknownEntry _ => "API_ENTRY_FILE_NOT_FOUND"
  | noEntry => "API_ENTRY_MAIN_NOT_FOUND"
  | reported code _ _ => code

def message : Fault → String
  | missingAttribute tag attr _ => s!"<{tag}> tag must have '{attr}' attribute."
  | unknownBlock id => s!"Unknown block: <{id}>"
  | unknownSurface name => s!"Element not found: <{name}>"
  | unknownOption label => s!"Bad option: <{label}>"
  | noBlocks file => s!"Document \"{file}\" declares no block with an id."
  | choicePending => "A choice is pending; choose one of its options."
  | notPaused => "Execution is not paused."
  | unknownDocument path => s!"Document not found: {path}"
  | malformed cause => cause.message
  | unknownEntry file => s!"Entry file \"{file}\" is not among the documents."
  | noEntry => s!"Expected a document named \"{defaultEntry}\" as default entry."
  | reported _ message _ => message

/-- The part of a source that is at fault, if one is known. -/
def span? : Fault → Option Span
  | missingAttribute _ _ span => some span
  | reported _ _ span => span
  | _ => none

/-- The fault in one line. -/
def display (fault : Fault) : String := fault.code ++ ": " ++ fault.message

/-- Whether a document could not be had or read, by the code of the fault. -/
def isLoadFailure (fault : Fault) : Bool :=
  "LOAD_".toList.isPrefixOf fault.code.toList || fault.code = "XML_PARSE_ERROR"

end Fault

end StoryPlayer
