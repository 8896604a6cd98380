/-! JSON values and their compact text. -/

namespace StoryPlayer

/-- A JSON value.  A number is an integer, or it is written with a fraction or an exponent and is
then `digits * 10 ^ exponent`. -/
inductive Json where
  | null
  | bool (value : Bool)
  | integer (value : Int)
  | decimal (digits exponent : Int)
  | string (text : String)
  | array (items : List Json)
  | object (fields : List (String × Json))
  deriving Inhabited, Repr

namespace Json

/-- The two lowercase hexadecimal digits of a number below 256. -/
def hexPair (n : Nat) : List Char := [Nat.digitChar (n / 16), Nat.digitChar (n % 16)]

/-- A character inside a JSON string: the quote, the backslash and the characters below U+0020 are
escaped. -/
def escapeChar (c : Char) : List Char :=
  match c with
  | '"' => ['\\', '"']
  | '\\' => ['\\', '\\']
  | '\n' => ['\\', 'n']
  | '\r' => ['\\', 'r']
  | '\t' => ['\\', 't']
  | '\x08' => ['\\', 'b']
  | '\x0c' => ['\\', 'f']
  | c => if c.toNat < 0x20 then ['\\', 'u', '0', '0'] ++ hexPair c.toNat else [c]

/-- `text` as a JSON string. -/
def quote (text : String) : String :=
  "\"" ++ String.ofList (text.toList.flatMap escapeChar) ++ "\""

mutual

/-- The text of a value, without spaces, fields in order. -/
def render : Json → String
  | null => "null"
  | bool value => if value then "true" else "false"
  | integer value => toString value
  | decimal digits exponent => toString digits ++ "e" ++ toString exponent
  | string text => quote text
  | array items => "[" ++ String.intercalate "," (renderItems items) ++ "]"
  | object fields => "\x7b" ++ String.intercalate "," (renderFields fields) ++ "\x7d"

/-- The texts of the items of an array. -/
def renderItems : List Json → List String
  | [] => []
  | item :: rest => render item :: renderItems rest

/-- The texts of the fields of an object. -/
def renderFields : List (String × Json) → List String
  | [] => []
  | (name, value) :: rest => (quote name ++ ":" ++ render value) :: renderFields rest

end

/-- The text of a string value. -/
def string? : Json → Option String
  | string text => some text
  | _ => none

/-- A natural number below `2^64`. -/
def word? : Json → Option Nat
  | integer value => if 0 ≤ value ∧ value.toNat < UInt64.size then some value.toNat else none
  | _ => none

/-- A name out of a list of names: a string, or an object whose only field has that name and the
value `null`. -/
def name? : Json → Option String
  | string text => some text
  | object [(name, null)] => some name
  | _ => none

/-- A name inside a larger value: the only field of the object may also hold an empty object. -/
def innerName? : Json → Option String
  | object [(name, object [])] => some name
  | json => json.name?

/-- The values of the fields `names` of a record: an object that has these fields, or an array of
just these values in order. -/
def record? (names : List String) : Json → Option (List Json)
  | object fields => names.mapM fun name => fields.lookup name
  | array items => if items.length = names.length then some items else none
  | _ => none

end Json

end StoryPlayer
