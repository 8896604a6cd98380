/-! Places in a source text.  Lines end at line feeds, and columns count characters; both start
at 1. -/

namespace StoryPlayer.Markup

/-- The place before a character of a source. -/
structure Location where
  line : Nat
  column : Nat
  deriving DecidableEq, Repr, Inhabited

namespace Location

/-- The place before the first character. -/
def start : Location := ⟨1, 1⟩

/-- The place after the character `c` at `place`. -/
def next (place : Location) (c : Char) : Location :=
  if c = '\n' then ⟨place.line + 1, 1⟩ else ⟨place.line, place.column + 1⟩

/-- The place after the characters `cs` from `place` on. -/
def after (place : Location) (cs : List Char) : Location := cs.foldl next place

theorem after_append (place : Location) (cs ds : List Char) :
    place.after (cs ++ ds) = (place.after cs).after ds := List.foldl_append

/-- A place as messages show it. -/
def text (place : Location) : String := toString place.line ++ ":" ++ toString place.column

end Location

/-- The part of a source from `start` to `stop`. -/
structure Span where
  start : Location
  stop : Location
  deriving DecidableEq, Repr, Inhabited

/-- The span of something that stands in no source. -/
def Span.synthetic : Span := ⟨.start, .start⟩

end StoryPlayer.Markup
