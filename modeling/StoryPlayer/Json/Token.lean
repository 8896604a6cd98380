import StoryPlayer.Json.Value
import StoryPlayer.Text.Natural

/-! The tokens of a JSON text: brackets, commas, colons, strings, and the words that are values by
themselves. -/

namespace StoryPlayer.Json

/-- A token. -/
inductive Token where
  | openArray
  | closeArray
  | openObject
  | closeObject
  | comma
  | colon
  | string (text : String)
  /-- A number, `true`, `false` or `null`. -/
  | plain (value : Json)
  deriving Inhabited, Repr

/-! ### Numbers and words -/

/-- Whether digits are the whole part of a number: there is one, and the first is a zero only if it
is the only one. -/
def isWhole : List Char → Bool
  | [] => false
  | ['0'] => true
  | d :: _ => d ≠ '0'

/-- A natural number with a sign. -/
def signed (negative : Bool) (n : Nat) : Int := if negative then -n else n

/-- The digits after a point, if there is one, and what is left. -/
def takePlaces : List Char → Option (List Char × List Char)
  | '.' :: rest =>
    match rest.takeWhile Char.isDigit with
    | [] => none
    | places => some (places, rest.dropWhile Char.isDigit)
  | rest => some ([], rest)

/-- The exponent, zero if there is none. -/
def exponent? : List Char → Option Int
  | [] => some 0
  | mark :: rest =>
    let digits := match rest with
      | '+' :: digits => digits
      | '-' :: digits => digits
      | digits => digits
    if (mark = 'e' || mark = 'E') && !digits.isEmpty && digits.all Char.isDigit then
      some (signed (rest.head? == some '-') (Text.digitsValue digits))
    else none

/-- The number that a word stands for.  It is an integer if it has neither fraction nor exponent;
zero with a minus sign is none. -/
def number? (word : List Char) : Option Json := do
  let negative := word.head? == some '-'
  let magnitude := if negative then word.tail else word
  let whole := magnitude.takeWhile Char.isDigit
  if !isWhole whole then none
  else match magnitude.dropWhile Char.isDigit with
    | [] =>
      if negative && whole = ['0'] then some (.decimal 0 0)
      else some (.integer (signed negative (Text.digitsValue whole)))
    | rest =>
      let (places, rest) ← takePlaces rest
      let exponent ← exponent? rest
      some (.decimal (signed negative (Text.digitsValue (whole ++ places)))
        (exponent - places.length))

/-- The value that a word stands for. -/
def ofWord? (word : List Char) : Option Json :=
  if word = "null".toList then some null
  else if word = "true".toList then some (bool true)
  else if word = "false".toList then some (bool false)
  else number? word

/-- The characters of words. -/
def isWordCharacter (c : Char) : Bool := c.isAlphanum || c = '+' || c = '-' || c = '.'

/-! ### Strings -/

/-- The value of a hexadecimal digit. -/
def hexDigit? (c : Char) : Option Nat :=
  if c.isDigit then some (c.toNat - '0'.toNat)
  else if 'a' ≤ c && c ≤ 'f' then some (c.toNat - 'a'.toNat + 10)
  else if 'A' ≤ c && c ≤ 'F' then some (c.toNat - 'A'.toNat + 10)
  else none

/-- The number that hexadecimal digits stand for. -/
def hexValue? (digits : List Char) : Option Nat :=
  digits.foldlM (fun n c => (hexDigit? c).map (n * 16 + ·)) 0

/-- The character that a letter after a backslash stands for. -/
def escaped? : Char → Option Char
  | '"' => some '"'
  | '\\' => some '\\'
  | '/' => some '/'
  | 'b' => some '\x08'
  | 'f' => some '\x0c'
  | 'n' => some '\n'
  | 'r' => some '\r'
  | 't' => some '\t'
  | _ => none

/-- The code units of a string up to its closing quote, and what is left after that; `units` are
those before, the last first.  A character that is written as such is one unit. -/
def takeUnits (units : List Nat) : List Char → Option (List Nat × List Char)
  | [] => none
  | '"' :: rest => some (units.reverse, rest)
  | '\\' :: 'u' :: a :: b :: c :: d :: rest =>
    match hexValue? [a, b, c, d] with
    | some unit => takeUnits (unit :: units) rest
    | none => none
  | '\\' :: c :: rest =>
    match escaped? c with
    | some c => takeUnits (c.toNat :: units) rest
    | none => none
  | c :: rest => if c.toNat < 0x20 then none else takeUnits (c.toNat :: units) rest

/-- The rest after a string is shorter than the text. -/
theorem length_lt_of_takeUnits {text rest : List Char} {before units : List Nat}
    (h : takeUnits before text = some (units, rest)) : rest.length < text.length := by
  fun_induction takeUnits before text with
  | case1 => simp at h
  | case2 => simp_all
  | case3 before a b c d tail unit hex ih => have := ih h; simp; omega
  | case4 => simp at h
  | case5 before c tail _ c' esc ih => have := ih h; simp; omega
  | case6 => simp at h
  | case7 => simp at h
  | case8 before c tail _ _ _ _ ih => have := ih h; simp; omega

/-- The character with a number. -/
def character? (n : Nat) : Option Char := if n.isValidChar then some (Char.ofNat n) else none

/-- The characters of code units: a first half of a pair and a second half right after it are one
character, and no half stands alone.  `done` are the characters before, the last first. -/
def joinUnits (done : List Char) : List Nat → Option (List Char)
  | [] => some done.reverse
  | high :: low :: rest =>
    if 0xD800 ≤ high && high < 0xDC00 && 0xDC00 ≤ low && low < 0xE000 then
      joinUnits (Char.ofNat (0x10000 + (high - 0xD800) * 0x400 + (low - 0xDC00)) :: done) rest
    else match character? high with
      | some c => joinUnits (c :: done) (low :: rest)
      | none => none
  | [unit] => (character? unit).map fun c => (c :: done).reverse

/-! ### Texts -/

/-- The blanks between tokens. -/
def isSpace (c : Char) : Bool := c = ' ' || c = '\t' || c = '\n' || c = '\r'

/-- The token that is a single character. -/
def Token.ofCharacter? : Char → Option Token
  | '[' => some openArray
  | ']' => some closeArray
  | '\x7b' => some openObject
  | '\x7d' => some closeObject
  | ',' => some comma
  | ':' => some colon
  | _ => none

/-- The tokens of a text after those of `done`, the last first. -/
def Token.scan (done : List Token) (text : List Char) : Option (List Token) :=
  match text with
  | [] => some done.reverse
  | c :: rest =>
    if isSpace c then scan done rest
    else match ofCharacter? c with
      | some token => scan (token :: done) rest
      | none =>
        if c = '"' then
          match _h : takeUnits [] rest with
          | some (units, rest) =>
            match joinUnits [] units with
            | some text => scan (.string (String.ofList text) :: done) rest
            | none => none
          | none => none
        else if isWordCharacter c then
          match ofWord? (c :: rest.takeWhile isWordCharacter) with
          | some value => scan (.plain value :: done) (rest.dropWhile isWordCharacter)
          | none => none
        else none
termination_by text.length
decreasing_by
  · simp
  · simp
  · have := length_lt_of_takeUnits _h
    simp
    omega
  · have := (List.dropWhile_sublist (l := rest) isWordCharacter).length_le
    simp
    omega

end StoryPlayer.Json
