import StoryPlayer.Markup.Reference
import StoryPlayer.Table

/-! Start tags: a name, attributes, and declarations of name spaces.  A declaration is checked when
it is read; the names of the tag and of its attributes are checked against all declarations in force
once the tag is complete. -/

namespace StoryPlayer.Markup

/-- An attribute as it is written: its name, and a cursor over the text between its quotes. -/
structure WrittenAttribute where
  name : QName
  value : Cursor
  place : Location

/-- An attribute with its value in normal form. -/
structure Attribute where
  name : QName
  value : String
  place : Location
  deriving DecidableEq, Repr

/-- Reads an attribute as it is written. -/
def readWritten : Scan WrittenAttribute := do
  let start ← place
  let name ← readQName
  skipSpaces
  expect '='
  skipSpaces
  let mark ← quote
  let opened ← get
  let chars ← takeUpTo fun rest => rest.head? == some mark || rest.head? == some '<'
  expect mark
  return ⟨name, { opened with rest := chars }, start⟩

/-- Reads an attribute. -/
def readAttribute : Scan Attribute := do
  let written ← readWritten
  let value ← normalized written.value
  return ⟨written.name, String.ofList value, written.place⟩

/-- The URI of the name space `xml`. -/
def xmlUri : String := "http://www.w3.org/XML/1998/namespace"

/-- The URI of the name space `xmlns`. -/
def xmlnsUri : String := "http://www.w3.org/2000/xmlns/"

/-- A start tag: its name with the place of the name, its attributes, and the name spaces that it
declares with their URIs. -/
structure Tag where
  name : QName
  place : Location
  attributes : List Attribute
  spaces : List (String × String)
  /-- Whether the tag is the whole element. -/
  empty : Bool
  deriving Repr

namespace Tag

/-- The tag with one attribute more, which may be a declaration of a name space. -/
def add (tag : Tag) (a : Attribute) : Except ReadError Tag :=
  if a.name.space = "xmlns" then
    if a.value = xmlnsUri then .error (.reservedUri a.place)
    else if a.name.base = "xml" then
      if a.value = xmlUri then .ok tag else .error (.wrongXmlUri a.place)
    else if a.value = xmlUri then .error (.strayXmlUri a.place)
    else if (tag.spaces.lookup a.name.base).isSome then
      .error (.repeatedSpace a.name.base a.place)
    else .ok { tag with spaces := tag.spaces ++ [(a.name.base, a.value)] }
  else if a.name.base = "xmlns" then
    if a.value = xmlUri then .error (.strayXmlUri a.place)
    else if a.value = xmlnsUri then .error (.reservedUri a.place)
    else .ok tag
  else .ok { tag with attributes := tag.attributes ++ [a] }

/-- The URI that the name space of an attribute stands for, `scope` being the declarations in
force, innermost first. -/
def uriOf (scope : List (String × String)) (a : Attribute) : Except ReadError (Option String) :=
  if a.name.space = "xml" then .ok (some xmlUri)
  else if a.name.space.isEmpty then .ok none
  else match scope.lookup a.name.space with
    | some uri => .ok (some uri)
    | none => .error (.unknownSpace a.name.space a.place)

/-- Checks that the attributes have known name spaces and differ from each other and from `seen`,
each by its URI and its name within the name space. -/
def checkAttributes (scope : List (String × String)) (seen : List (Option String × String)) :
    List Attribute → Except ReadError Unit
  | [] => .ok ()
  | a :: rest => do
    let uri ← uriOf scope a
    if seen.contains (uri, a.name.base) then .error (.repeatedAttribute a.name.base a.place)
    else checkAttributes scope ((uri, a.name.base) :: seen) rest

/-- The declarations in force inside the tag's element: its own come first, and so hide those of
`outer`. -/
def scope (tag : Tag) (outer : List (String × String)) : List (String × String) :=
  tag.spaces ++ outer

/-- Checks the names in the tag against the declarations in force. -/
def check (tag : Tag) (outer : List (String × String)) : Except ReadError Unit := do
  checkAttributes (tag.scope outer) [] tag.attributes
  if !tag.name.space.isEmpty && ((tag.scope outer).lookup tag.name.space).isNone then
    .error (.unknownSpace tag.name.space tag.place)

/-- The values of the attributes by their names within their name spaces; of two with the same name
the later one counts. -/
def values (tag : Tag) : Table String :=
  tag.attributes.foldl (fun table a => table.put a.name.base a.value) []

end Tag

theorem readWritten_eats : Eats readWritten := by
  refine Moves.eats place_moves fun _ => Eats.bind readQName_eats fun _ => ?_
  refine .bind skipSpaces_moves fun _ => .bind (expect_moves _) fun _ => ?_
  refine .bind skipSpaces_moves fun _ => .bind quote_moves fun _ => .bind .get fun _ => ?_
  exact .bind (takeUpTo_moves _) fun _ => .bind (expect_moves _) fun _ => .pure _

theorem readAttribute_eats : Eats readAttribute :=
  .bind readWritten_eats fun _ => .bind (.lift _) fun _ => .pure _

/-- Reads the rest of a start tag, `tag` being what is read of it.  The answer is `none` if the
source ends before the tag does, without a space after its last part. -/
def restOfTag (tag : Tag) (c : Cursor) : Except ReadError (Option Tag × Cursor) :=
  if c.rest.isEmpty then .ok (none, c)
  else
    let d := c.advance (c.rest.takeWhile isSpace).length
    match d.rest with
    | [] => .error .endOfStream
    | '/' :: _ => (do expect '>'; return some { tag with empty := true } : Scan _) (d.advance 1)
    | '>' :: _ => .ok (some { tag with empty := false }, d.advance 1)
    | x :: _ =>
      if c.rest.takeWhile isSpace = [] then .error (.expectedSpace (leadByte x) d.location)
      else match _ : readAttribute d with
        | .error e => .error e
        | .ok (a, e) => do restOfTag (← tag.add a) e
termination_by c.rest.length
decreasing_by
  have h1 := (readAttribute_eats _ _ _ (by assumption)).length_lt
  have h2 : d.rest.length ≤ c.rest.length := (c.reaches_advance _).length_le
  omega

theorem restOfTag_reaches {tag : Tag} {c d : Cursor} {result : Option Tag}
    (h : restOfTag tag c = .ok (result, d)) : c.Reaches d := by
  fun_induction restOfTag tag c with
  | case1 => cases h; exact .refl _
  | case2 => cases h
  | case3 tag c _ e =>
    refine ((c.reaches_advance _).trans (e.reaches_advance 1)).trans ?_
    exact Moves.bind (expect_moves _) (fun _ => .pure _) _ _ _ h
  | case4 tag c _ e => cases h; exact (c.reaches_advance _).trans (e.reaches_advance 1)
  | case5 => cases h
  | case6 => cases h
  | case7 tag c _ e _ _ _ _ _ _ a f hf ih =>
    cases ht : tag.add a with
    | error err => rw [ht] at h; cases h
    | ok t =>
      rw [ht] at h
      exact ((c.reaches_advance _).trans (readAttribute_eats _ _ _ hf).reaches).trans (ih t h)

/-- Reads a start tag, if the source does not end inside it. -/
def readStartTag : Scan (Option Tag) := do
  let _ ← take 1
  let start ← place
  let name ← readQName
  if name.space = "xmlns" then throw (.reservedSpace start)
  else restOfTag ⟨name, start, [], [], false⟩

end StoryPlayer.Markup
