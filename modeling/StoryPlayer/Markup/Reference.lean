import StoryPlayer.Markup.Name

/-! References in text and attribute values: a character by its number, or one of five names. -/

namespace StoryPlayer.Markup

/-- What a reference is written as. -/
inductive Reference where
  | character (c : Char)
  | entity (name : String)
  deriving DecidableEq, Repr

namespace Reference

/-- The value of a digit, decimal or hexadecimal. -/
def digitValue (c : Char) : Nat :=
  if c.isDigit then c.toNat - 0x30
  else if 'a' ≤ c && c ≤ 'f' then c.toNat - 0x61 + 10
  else c.toNat - 0x41 + 10

/-- Decimal digits and the letters `a` to `f` in both cases. -/
def isHexDigit (c : Char) : Bool := c.isDigit || ('a' ≤ c && c ≤ 'f') || ('A' ≤ c && c ≤ 'F')

/-- The character with the number `n`: numbers fit in 32 bits, and those without a character stand
for U+FFFD. -/
def character? (n : Nat) : Option Char :=
  if n < UInt32.size then
    let c := if n.isValidChar then Char.ofNat n else Char.ofNat 0xFFFD
    if isAllowed c then some c else none
  else none

/-- The reference whose number has the digits `digits`. -/
def ofDigits? (base : Nat) (digits : List Char) : Option Reference :=
  if digits.isEmpty then none
  else (character? (digits.foldl (fun n d => n * base + digitValue d) 0)).map character

/-- Reads a reference from the characters after its ampersand: the reference, and how many
characters it takes, the final semicolon left out. -/
def read? (cs : List Char) : Option (Reference × Nat) :=
  let (reference, width) :=
    match cs with
    | '#' :: 'x' :: rest =>
      let digits := rest.takeWhile isHexDigit
      (ofDigits? 16 digits, digits.length + 2)
    | '#' :: rest =>
      let digits := rest.takeWhile Char.isDigit
      (ofDigits? 10 digits, digits.length + 1)
    | _ =>
      let chars := leadingName cs
      (if chars.isEmpty then none else some (entity (String.ofList chars)), chars.length)
  match reference, cs.drop width with
  | some reference, ';' :: _ => some (reference, width)
  | _, _ => none

/-- The characters that have a name. -/
def predefined : List (String × Char) :=
  [("quot", '"'), ("amp", '&'), ("apos", '\''), ("lt", '<'), ("gt", '>')]

/-- The character that a reference at `place` stands for. -/
def resolve (place : Location) : Reference → Except ReadError Char
  | character c => .ok c
  | entity name =>
    match predefined.lookup name with
    | some c => .ok c
    | none => .error (.unknownReference name place)

end Reference

/-- The text at `c` with its references replaced, and with each line break and tab outside
references made a space. -/
def normalized (c : Cursor) : Except ReadError (List Char) :=
  match _ : c.rest with
  | [] => .ok []
  | '&' :: rest =>
    match Reference.read? rest with
    | none => .error (.badReference c.location)
    | some (reference, width) => do
      let char ← reference.resolve c.location
      return char :: (← normalized (c.advance (width + 2)))
  | '\r' :: '\n' :: _ => return ' ' :: (← normalized (c.advance 2))
  | x :: _ => return (if isSpace x then ' ' else x) :: (← normalized (c.advance 1))
termination_by c.rest.length
decreasing_by all_goals simp only [Cursor.advance, List.length_drop, *, List.length_cons]; omega

end StoryPlayer.Markup
