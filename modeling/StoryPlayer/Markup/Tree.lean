import StoryPlayer.Markup.Element
import StoryPlayer.Markup.Item

/-! From the items of a source to an element.  The reader keeps the elements whose end tags are
still to come, innermost first, and adds each item to the innermost one.

A piece of text directly after another one belongs to the same node, and that node keeps the source
range of its first piece. -/

namespace StoryPlayer.Markup

/-- The content of an element as far as it is read. -/
structure Content where
  /-- The cursor at the first node, and the offset at which the last node ends. -/
  range : Option (Cursor × Nat) := none
  /-- Whether the last node is text. -/
  afterText : Bool := false
  /-- The child elements, newest first. -/
  children : List Element := []

namespace Content

/-- The range extended by a node between two cursors. -/
def extended (content : Content) (start stop : Cursor) : Option (Cursor × Nat) :=
  match content.range with
  | none => some (start, stop.offset)
  | some (first, _) => some (first, stop.offset)

/-- Adds a comment or a processing instruction. -/
def addNode (content : Content) (start stop : Cursor) : Content :=
  { content with range := content.extended start stop, afterText := false }

/-- Adds a piece of text. -/
def addText (content : Content) (start stop : Cursor) : Content :=
  if content.afterText then content
  else { content with range := content.extended start stop, afterText := true }

/-- Adds a child element. -/
def addElement (content : Content) (start stop : Cursor) (e : Element) : Content :=
  { range := content.extended start stop, afterText := false, children := e :: content.children }

/-- The source from the first node to the last. -/
def markup (content : Content) : String :=
  match content.range with
  | none => ""
  | some (first, stop) => String.ofList (first.rest.take (stop - first.offset))

end Content

/-- An element whose end tag is still to come. -/
structure Opened where
  tag : Tag
  /-- The declarations of name spaces in force inside the element. -/
  scope : List (String × String)
  /-- The cursor at the start tag. -/
  start : Cursor
  content : Content := {}

/-- The element that ends at `stop`. -/
def Opened.close (o : Opened) (stop : Cursor) : Element where
  name := o.tag.name.base
  attributes := o.tag.values
  children := o.content.children.reverse
  markup := o.content.markup
  span := ⟨o.start.location, stop.location⟩

/-- Reads the rest of the root element, in which `inner` is the innermost open element and `outer`
are those around it: the element, and the cursor after it. -/
def restOfElement (inner : Opened) (outer : List Opened) (c : Cursor) :
    Except ReadError (Element × Cursor) :=
  if _ : c.rest = [] then .error .unclosedRoot
  else match _ : readItem c with
    | .error e => .error e
    | .ok (.comment, d) | .ok (.instruction, d) =>
      restOfElement { inner with content := inner.content.addNode c d } outer d
    | .ok (.characters, d) =>
      restOfElement { inner with content := inner.content.addText c d } outer d
    | .ok (.cutTag, d) => restOfElement inner outer d
    | .ok (.startTag tag, d) => do
      tag.check inner.scope
      let opened : Opened := { tag, scope := tag.scope inner.scope, start := c }
      if tag.empty then
        let content := inner.content.addElement c d (opened.close d)
        restOfElement { inner with content } outer d
      else restOfElement opened (inner :: outer) d
    | .ok (.endTag name, d) =>
      if name ≠ inner.tag.name then
        .error (.wrongEndTag inner.tag.name.text name.text c.location)
      else match outer with
        | [] => .ok (inner.close d, d)
        | parent :: rest =>
          let content := parent.content.addElement inner.start d (inner.close d)
          restOfElement { parent with content } rest d
termination_by c.rest.length
decreasing_by all_goals exact (readItem_passes (by assumption) (by assumption)).length_lt

/-- Reads the root element, if the source does not end inside its start tag. -/
def readRoot : Scan Element := fun c => do
  match ← readStartTag c with
  | (none, _) => .error .noRoot
  | (some tag, d) =>
    tag.check []
    let opened : Opened := { tag, scope := tag.scope [], start := c }
    if tag.empty then .ok (opened.close d, d) else restOfElement opened [] d

end StoryPlayer.Markup
