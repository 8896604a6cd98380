import StoryPlayer.Markup.Element
import StoryPlayer.Story.Fault
import StoryPlayer.Text.Capital

/-! What an element of a story tells the player to do. -/

namespace StoryPlayer

open Markup

/-- Conditions on flags: names that have to be set, names that have to be clear, and names that are
set by passing. -/
structure Gate where
  ifSet : Option String
  ifClear : Option String
  trip : Option String
  deriving DecidableEq, Repr

/-- The gate that the attributes of an element describe. -/
def Gate.ofElement (e : Element) : Gate :=
  ⟨e.attr? "if-set", e.attr? "if-clear", e.attr? "trip"⟩

/-- One option of a choice: what it is called, when it is offered, and the element to enter when it
is chosen. -/
structure Offer where
  label : String
  gate : Gate
  element : Element

/-- What an element tells the player to do. -/
inductive Instruction where
  /-- Enter the element if its gate lets the reader pass. -/
  | block (gate : Gate)
  | title
  | description
  /-- Show a line, spoken by someone or by no one. -/
  | text (speaker : Option String)
  /-- Enter the element; the lines in it also go to the description. -/
  | toDescription
  /-- Empty every surface. -/
  | clearScreen
  | pause
  | choice (offers : List Offer)
  /-- Set flags, then clear flags. -/
  | flag (set clear : Option String)
  /-- Enter a block and come back. -/
  | call (block : String)
  /-- Enter a block and do not come back. -/
  | goto (block : String)
  | load (file : String) (block : Option String)
  | ignored

/-- The value of an attribute that an element needs. -/
def required (e : Element) (attr : String) : Except Fault String :=
  match e.attr? attr with
  | some value => .ok value
  | none => .error (.missingAttribute e.name attr e.span)

/-- The option that an element describes. -/
def Offer.ofElement (e : Element) : Except Fault Offer := do
  return ⟨← required e "of", .ofElement e, e⟩

/-- Whether a tag is the name of a speaker: any name that starts otherwise than with one of the
letters `a` to `z`. -/
def isSpeakerTag (name : String) : Bool :=
  match name.toList with
  | [] => true
  | c :: _ => !c.isLower

namespace Instruction

/-- The instruction that an element stands for. -/
def ofElement (e : Element) : Except Fault Instruction :=
  match e.name with
  | "block" => .ok (block (.ofElement e))
  | "title" => .ok title
  | "description" => .ok description
  | "text" => .ok (text (e.attr? "speaker"))
  | "to-description" => .ok toDescription
  | "clear-screen" => .ok clearScreen
  | "pause" => .ok pause
  | "choice" => do
    return choice (← (e.children.filter fun child => child.name = "option").mapM Offer.ofElement)
  | "flag" => .ok (flag (e.attr? "set") (e.attr? "clear"))
  | "call" => do return call (← required e "block")
  | "goto" => do return goto (← required e "block")
  | "load" => do return load (← required e "file") (e.attr? "block")
  | name => .ok (if isSpeakerTag name then text (some (Text.spaced name)) else ignored)

end Instruction

end StoryPlayer
