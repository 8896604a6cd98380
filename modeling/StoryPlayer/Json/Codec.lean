import StoryPlayer.Json.Value
import StoryPlayer.Machine.State

/-! The JSON forms of the types that hosts exchange. -/

namespace StoryPlayer

open Markup

namespace Surface

/-- A surface is written as its name. -/
def toJson (surface : Surface) : Json := .string surface.name

/-- Reads a surface. -/
def ofJson? (json : Json) : Option Surface := do
  let word ← json.name?
  all.find? fun s => s.name = word

end Surface

namespace Role

/-- The name of a role. -/
def name : Role → String
  | standard => "standard"
  | option => "option"
  | toDescription => "toDescription"

/-- All roles. -/
def all : List Role := [standard, option, toDescription]

/-- The role with a name. -/
def named? (word : String) : Option Role := all.find? fun role => role.name = word

/-- A role is written as its name. -/
def toJson (role : Role) : Json := .string role.name

/-- Reads a role. -/
def ofJson? (json : Json) : Option Role := json.name?.bind named?

end Role

namespace Pause

/-- The name of what a story waits for. -/
def name : Pause → String
  | next => "continue"
  | choice => "choice"

/-- A pause is written as its name. -/
def toJson (pause : Pause) : Json := .string pause.name

/-- The pause with a name. -/
def named? (word : String) : Option Pause := [next, choice].find? fun p => p.name = word

/-- Reads a pause. -/
def ofJson? (json : Json) : Option Pause := json.name?.bind named?

end Pause

namespace Phase

/-- A phase is an object that says its kind and, if it is a pause, the reason. -/
def toJson : Phase → Json
  | running => .object [("kind", .string "running")]
  | paused pause => .object [("kind", .string "paused"), ("reason", pause.toJson)]
  | finished => .object [("kind", .string "finished")]

/-- The phase of a kind, `reason` being what is said about the pause. -/
def ofKind? (kind : String) (reason : Option Json) : Option Phase :=
  match kind with
  | "running" => some running
  | "paused" => ((reason.bind Json.innerName?).bind Pause.named?).map paused
  | "finished" => some finished
  | _ => none

/-- Reads a phase: an object, or an array of the kind and just what belongs to it. -/
def ofJson? : Json → Option Phase
  | .object fields => do ofKind? (← (← fields.lookup "kind").string?) (fields.lookup "reason")
  | .array [.string "paused", reason] => ofKind? "paused" (some reason)
  | .array [.string kind] => ofKind? kind none
  | _ => none

end Phase

namespace Markup

/-- A place is an object of its line and column. -/
def Location.toJson (place : Location) : Json :=
  .object [("line", .integer place.line), ("column", .integer place.column)]

/-- Reads a place. -/
def Location.ofJson? (json : Json) : Option Location := do
  match ← json.record? ["line", "column"] with
  | [line, column] => return ⟨← line.word?, ← column.word?⟩
  | _ => none

/-- A span is an object of its two ends. -/
def Span.toJson (span : Span) : Json :=
  .object [("start", span.start.toJson), ("end", span.stop.toJson)]

/-- Reads a span. -/
def Span.ofJson? (json : Json) : Option Span := do
  match ← json.record? ["start", "end"] with
  | [start, stop] => return ⟨← Location.ofJson? start, ← Location.ofJson? stop⟩
  | _ => none

end Markup

namespace Screen

/-- A screen is an object of its surfaces. -/
def toJson (screen : Screen) : Json :=
  .object [("title", .string screen.title), ("description", .string screen.description),
    ("speaker", .string screen.speaker), ("text", .string screen.text),
    ("interaction", .string screen.interaction)]

/-- Reads a screen. -/
def ofJson? (json : Json) : Option Screen := do
  match ← json.record? ["title", "description", "speaker", "text", "interaction"] with
  | [title, description, speaker, text, interaction] =>
    return ⟨← title.string?, ← description.string?, ← speaker.string?, ← text.string?,
      ← interaction.string?⟩
  | _ => none

end Screen

end StoryPlayer
