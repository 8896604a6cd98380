import StoryPlayer.Markup.Document
import StoryPlayer.Story.Fault

/-! The documents of a story by their paths. -/

namespace StoryPlayer

open Markup

/-- The sources of the documents by their paths. -/
abbrev Library := Table String

namespace Library

/-- Removes every `./` at the start of a path. -/
def stripDots : List Char → List Char
  | '.' :: '/' :: rest => stripDots rest
  | path => path

/-- The document at a path, which may start with any number of `./`. -/
def fetch (library : Library) (path : String) : Except Fault Element :=
  match library.get? (String.ofList (stripDots path.toList)) with
  | none => .error (.unknownDocument path)
  | some source => (parse source).mapError .malformed

/-- The paths, in increasing order. -/
def paths (library : Library) : List String := library.keys.mergeSort fun a b => decide (a ≤ b)

/-- The document that a story starts with: the one that is named, else `main.xml`, else the only
one. -/
def entry (library : Library) (named : Option String) : Except Fault String :=
  match named with
  | some file => if library.has file then .ok file else .error (.unknownEntry file)
  | none =>
    if library.has defaultEntry then .ok defaultEntry
    else match library with
      | [(only, _)] => .ok only
      | _ => .error .noEntry

end Library

end StoryPlayer
