import StoryPlayer.Markup.Tree

/-! Documents: one root element, with nothing but comments, processing instructions and spaces
around it, after an optional XML declaration. -/

namespace StoryPlayer.Markup

/-- In an XML declaration, passes over spaces, which have to come unless the declaration ends. -/
def skipDeclarationSpaces : Scan Unit := do
  let c ← get
  match c.rest with
  | [] => return
  | x :: _ =>
    if isSpace x then skipSpaces
    else if c.startsWith "?>" then return
    else throw (.expectedSpace (leadByte x) c.location)

/-- Reads an XML declaration.  Its values are not looked at. -/
def readDeclaration : Scan Unit := do
  let _ ← take 5
  skipSpaces
  if ← ahead "version" then
    let _ ← readWritten
    skipDeclarationSpaces
    if ← ahead "encoding" then
      let _ ← readWritten
      skipDeclarationSpaces
    if ← ahead "standalone" then
      let _ ← readWritten
    skipSpaces
    expectText "?>"
  else throw (.expectedText "version" (← place))

/-- Passes over spaces, comments and processing instructions. -/
def skipMisc (c : Cursor) : Except ReadError Cursor :=
  let d := c.advance (c.rest.takeWhile isSpace).length
  if _ : d.startsWith "<!--" then
    match _ : readComment d.location d with
    | .error e => .error e
    | .ok (_, e) => skipMisc e
  else if _ : d.startsWith "<?" then
    match _ : readInstruction d with
    | .error e => .error e
    | .ok (_, e) => skipMisc e
  else .ok d
termination_by c.rest.length
decreasing_by
  all_goals
    have hd : d.rest.length ≤ c.rest.length := (c.reaches_advance _).length_le
    have hne : d.rest ≠ [] := by
      intro h
      simp_all [Cursor.startsWith]
  · exact Nat.lt_of_lt_of_le (readComment_passes hne (by assumption)).length_lt hd
  · exact Nat.lt_of_lt_of_le (readInstruction_passes hne (by assumption)).length_lt hd

/-- Passes over a byte order mark. -/
def skipMark (c : Cursor) : Cursor := if c.startsWith "\uFEFF" then c.advance 1 else c

/-- Passes over an XML declaration. -/
def skipDeclaration (c : Cursor) : Except ReadError Cursor :=
  if c.startsWith "<?xml " then (readDeclaration c).map Prod.snd else .ok c

/-- The root element of a document. -/
def parse (source : String) : Except ReadError Element := do
  let c ← skipDeclaration (skipMark (.start source.toList))
  let c ← skipMisc c
  if c.startsWith "<!DOCTYPE" then .error .doctype
  else if c.startsWith "<" then
    let (root, c) ← readRoot c
    let c ← skipMisc c
    if c.rest.isEmpty then return root else .error (.unknownToken c.location)
  else if c.rest.isEmpty then .error .noRoot
  else .error (.unknownToken c.location)

end StoryPlayer.Markup
