import StoryPlayer.Markup.Cursor

/-! Names in documents: plain names, and the names of tags and attributes, which may stand in a name
space. -/

namespace StoryPlayer.Markup

/-- Whether `cs` starts with a character that may start a name. -/
def startsName (cs : List Char) : Bool :=
  match cs with
  | [] => false
  | c :: _ => isNameStart c

/-- The longest name at the start of `cs`, empty if there is none. -/
def leadingName (cs : List Char) : List Char :=
  if startsName cs then cs.takeWhile isNameChar else []

/-- A name within a name space; the name space is empty if none is written. -/
structure QName where
  space : String
  base : String
  deriving DecidableEq, Repr, Inhabited

namespace QName

/-- A name as it is written. -/
def text (name : QName) : String :=
  if name.space.isEmpty then name.base else name.space ++ ":" ++ name.base

/-- The name written as `cs`: at most one colon, after which the name proper starts; both parts have
to start as names do, and the part before the colon may be empty. -/
def ofChars? (cs : List Char) : Option QName :=
  match cs.span (· != ':') with
  | (base, []) => if startsName base then some ⟨"", String.ofList base⟩ else none
  | (space, _ :: base) =>
    if (space.isEmpty || startsName space) && startsName base && !base.contains ':' then
      some ⟨String.ofList space, String.ofList base⟩
    else none

theorem ofChars?_nil : ofChars? [] = none := rfl

end QName

/-- Reads a plain name. -/
def readName : Scan String := do
  let c ← get
  match leadingName c.rest with
  | [] => throw (.badName c.location)
  | chars =>
    let _ ← take chars.length
    return String.ofList chars

/-- Reads the name of a tag or an attribute. -/
def readQName : Scan QName := do
  let start ← place
  let chars ← takeWhile isNameChar
  match QName.ofChars? chars with
  | some name => return name
  | none => throw (.badName start)

theorem readName_moves : Moves readName := by
  refine .bind .get fun c => ?_
  split
  · exact .fail _
  · exact .bind (take_moves _) fun _ => .pure _

theorem readQName_eats : Eats readQName := by
  refine Moves.eats place_moves fun start => ?_
  intro c q d h
  change (match QName.ofChars? (c.rest.take (c.rest.takeWhile isNameChar).length) with
    | some name => pure name
    | none => throw (.badName start) : Scan QName)
      (c.advance (c.rest.takeWhile isNameChar).length) = _ at h
  cases hn : (c.rest.takeWhile isNameChar).length with
  | zero =>
    rw [hn, List.take_zero, QName.ofChars?_nil] at h
    cases h
  | succ n =>
    rw [hn] at h
    have hne : c.rest ≠ [] := by rintro e; simp [e] at hn
    cases hq : QName.ofChars? (c.rest.take (n + 1)) with
    | none => rw [hq] at h; cases h
    | some q => rw [hq] at h; cases h; exact Cursor.passes_advance n hne

theorem readQName_moves : Moves readQName := readQName_eats.moves

end StoryPlayer.Markup
