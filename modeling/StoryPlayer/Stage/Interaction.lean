/-! The markup of the interaction surface: what the reader may do next. -/

namespace StoryPlayer

/-- What the interaction surface offers. -/
inductive Interaction where
  | next
  /-- A choice, of options that can be picked or only be seen. -/
  | options (labels : List String) (active : Bool)
  /-- Nothing: the story has ended. -/
  | ending
  deriving DecidableEq, Repr

namespace Interaction

/-- `c` inside an attribute value in double quotes. -/
def escapeChar (c : Char) : List Char :=
  if c = '&' then "&amp;".toList
  else if c = '"' then "&quot;".toList
  else if c = '<' then "&lt;".toList
  else [c]

/-- `text` inside an attribute value in double quotes. -/
def escape (text : String) : String := String.ofList (text.toList.flatMap escapeChar)

def optionLink (active : Bool) (label : String) : String :=
  if active then
    "<a data-exif-action=\"choose\" data-exif-option=\"" ++ escape label ++ "\">" ++ label
      ++ "</a><br/>"
  else "<a data-exif-action=\"none\">" ++ label ++ "</a><br/>"

def render : Interaction → String
  | next => "<a data-exif-action=\"resume\">Next</a>"
  | options labels active => String.join (labels.map (optionLink active))
  | ending => "END"

end Interaction

end StoryPlayer
