import StoryPlayer.Host.Session
import StoryPlayer.Json.Codec

/-! The report on a session: where the story stands, what the screen shows, which options are on
offer and which flags are set. -/

namespace StoryPlayer

/-- What is reported of a session. -/
structure Report where
  phase : Phase
  screen : Screen
  options : List String
  flags : List String
  deriving DecidableEq, Repr

/-- The word for a phase in a report. -/
def Phase.label : Phase → String
  | running => "RUNNING"
  | paused .next => "PAUSED_CONTINUE"
  | paused .choice => "PAUSED_CHOICE"
  | finished => "FINISHED"

namespace Report

/-- The report on a session. -/
def ofSession (s : Session) : Report :=
  ⟨s.machine.phase, s.machine.screen, s.machine.labels, s.machine.flags.names⟩

/-- The report as one JSON object. -/
def toJson (report : Report) : Json :=
  .object [("state", report.phase.toJson), ("surfaces", report.screen.toJson),
    ("options", .array (report.options.map .string)), ("flags", .array (report.flags.map .string))]

/-- The lines of the report. -/
def lines (report : Report) : List String :=
  ["RESULT:OK", "STATE:" ++ report.phase.label, "SURFACES_JSON:" ++ report.screen.toJson.render]
    ++ report.options.map (fun label => "OPTION:" ++ Json.quote label)
    ++ report.flags.map (fun flag => "FLAG:" ++ flag)
    ++ ["REPORT_JSON:" ++ report.toJson.render]

end Report

/-- Lines as one text, each closed by a line feed. -/
def joinLines (lines : List String) : String := String.join (lines.map (· ++ "\n"))

end StoryPlayer
