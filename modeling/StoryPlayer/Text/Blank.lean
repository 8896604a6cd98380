/-! Blank characters, trimming, and the words of a text: the maximal runs of characters that are
not blank. -/

namespace StoryPlayer.Text

/-- The characters with the Unicode property `White_Space`. -/
def isBlank (c : Char) : Bool :=
  let n := c.toNat
  (0x09 ≤ n && n ≤ 0x0D) || n == 0x20 || n == 0x85 || n == 0xA0 || n == 0x1680
    || (0x2000 ≤ n && n ≤ 0x200A) || n == 0x2028 || n == 0x2029 || n == 0x202F || n == 0x205F
    || n == 0x3000

/-- `text` without the blanks at its two ends. -/
def trim (text : String) : String :=
  String.ofList ((text.toList.dropWhile isBlank).reverse.dropWhile isBlank).reverse

/-- The word whose characters, newest first, are `word`, if it has any. -/
def finished (word : List Char) : List String :=
  if word.isEmpty then [] else [String.ofList word.reverse]

/-- The words of a text whose last word so far has the characters `word`, newest first. -/
def wordsAfter (word : List Char) : List Char → List String
  | [] => finished word
  | c :: rest =>
    if isBlank c then finished word ++ wordsAfter [] rest else wordsAfter (c :: word) rest

/-- The words of `text`, in order, repeats included. -/
def words (text : String) : List String := wordsAfter [] text.toList

end StoryPlayer.Text
