import StoryPlayer.Json.Token

/-! Reading a JSON text token by token.  The arrays and objects that are open are kept in a list,
the innermost first. -/

namespace StoryPlayer.Json

/-- An array or object that is open, with what it holds so far, the last first.  In an object the
value that is read next belongs to `name`. -/
inductive Container where
  | array (items : List Json)
  | object (fields : List (String × Json)) (name : String)

/-- Where a reader stands; `around` are the open arrays and objects. -/
inductive Reading where
  /-- A value has to follow. -/
  | beforeValue (around : List Container)
  /-- An array was opened: an item or its end has to follow. -/
  | beforeItem (around : List Container)
  /-- An object was opened: a name or its end has to follow. -/
  | beforeField (around : List Container)
  /-- Another name has to follow in an object. -/
  | beforeName (fields : List (String × Json)) (around : List Container)
  /-- The colon after a name has to follow. -/
  | beforeColon (fields : List (String × Json)) (name : String) (around : List Container)
  /-- A value has ended. -/
  | afterValue (value : Json) (around : List Container)

namespace Reading

/-- Begins a value. -/
def enter (around : List Container) : Token → Option Reading
  | .string text => some (.afterValue (.string text) around)
  | .plain value => some (.afterValue value around)
  | .openArray => some (.beforeItem around)
  | .openObject => some (.beforeField around)
  | _ => none

/-- Reads a token. -/
def next : Reading → Token → Option Reading
  | .beforeValue around, token => enter around token
  | .beforeItem around, .closeArray => some (.afterValue (.array []) around)
  | .beforeItem around, token => enter (.array [] :: around) token
  | .beforeField around, .closeObject => some (.afterValue (.object []) around)
  | .beforeField around, .string name => some (.beforeColon [] name around)
  | .beforeName fields around, .string name => some (.beforeColon fields name around)
  | .beforeColon fields name around, .colon => some (.beforeValue (.object fields name :: around))
  | .afterValue value (.array items :: around), .comma =>
    some (.beforeValue (.array (value :: items) :: around))
  | .afterValue value (.array items :: around), .closeArray =>
    some (.afterValue (.array (value :: items).reverse) around)
  | .afterValue value (.object fields name :: around), .comma =>
    some (.beforeName ((name, value) :: fields) around)
  | .afterValue value (.object fields name :: around), .closeObject =>
    some (.afterValue (.object ((name, value) :: fields).reverse) around)
  | _, _ => none

end Reading

/-- The value that a text stands for. -/
def parse? (text : String) : Option Json := do
  match ← (← Token.scan [] text.toList).foldlM Reading.next (.beforeValue []) with
  | .afterValue value [] => some value
  | _ => none

end StoryPlayer.Json
