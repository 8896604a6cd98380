import StoryPlayer.Markup.Tag

/-! The items that the content of an element is made of: comments, processing instructions, text,
CDATA sections, and tags. -/

namespace StoryPlayer.Markup

/-- An item of content. -/
inductive Item where
  | comment
  | instruction
  /-- Text or a CDATA section. -/
  | characters
  | startTag (tag : Tag)
  /-- A start tag that the source ends in. -/
  | cutTag
  | endTag (name : QName)
  deriving Repr

/-- Whether `pattern` stands somewhere in `cs`. -/
def occursIn (pattern : List Char) (cs : List Char) : Bool :=
  pattern.isPrefixOf cs || match cs with
    | [] => false
    | _ :: rest => occursIn pattern rest

/-- Reads a comment that starts at `start`. -/
def readComment (start : Location) : Scan Item := do
  let _ ← take 4
  let content ← takeUpToText "-->"
  expectText "-->"
  if occursIn ['-', '-'] content || content.getLast? = some '-' then throw (.hyphens start)
  else return .comment

/-- Reads a processing instruction. -/
def readInstruction : Scan Item := do
  if ← ahead "<?xml " then throw (.lateDeclaration (← place))
  else
    let _ ← take 2
    let _ ← readName
    skipSpaces
    let _ ← takeUpToText "?>"
    expectText "?>"
    return .instruction

/-- Reads a CDATA section. -/
def readCdata : Scan Item := do
  let _ ← take 9
  let _ ← takeUpToText "]]>"
  expectText "]]>"
  return .characters

/-- Reads an end tag. -/
def readEndTag : Scan Item := do
  let _ ← take 2
  let name ← readQName
  skipSpaces
  expect '>'
  return .endTag name

/-- Reads text from `start` up to the next markup.  It must not hold the end mark of a CDATA
section, and its references are checked. -/
def readText (start : Cursor) : Scan Item := do
  let chars ← takeUpToText "<"
  if occursIn [']', ']', '>'] chars then throw (.strayCdataEnd (← place))
  else
    let _ ← normalized { start with rest := chars }
    return .characters

/-- Reads the next item. -/
def readItem : Scan Item := fun c =>
  if c.startsWith "<!--" then readComment c.location c
  else if c.startsWith "<![CDATA[" then readCdata c
  else if c.startsWith "<!" then .error (.unknownToken c.location)
  else if c.startsWith "<?" then readInstruction c
  else if c.startsWith "</" then readEndTag c
  else if c.startsWith "<" then
    if c.rest.tail.isEmpty then .error (.unknownToken c.location)
    else (do
      match ← readStartTag with
      | some tag => return .startTag tag
      | none => return .cutTag : Scan Item) c
  else readText c c

/-! ### Reading an item passes over it -/

theorem readComment_passes {c d : Cursor} {i : Item} {start : Location} (hne : c.rest ≠ [])
    (h : readComment start c = .ok (i, d)) : c.Passes d := by
  refine passes_of_take (n := 3) hne (fun _ => ?_) h
  refine .bind (takeUpToText_moves _) fun _ => .bind (expectText_moves _) fun _ => ?_
  exact .ite (.fail _) (.pure _)

theorem readInstruction_passes {c d : Cursor} {i : Item} (hne : c.rest ≠ [])
    (h : readInstruction c = .ok (i, d)) : c.Passes d := by
  change (if c.startsWith "<?xml " then _ else _ : Scan Item) c = _ at h
  split at h
  · cases h
  · refine passes_of_take (n := 1) hne (fun _ => ?_) h
    refine .bind readName_moves fun _ => .bind skipSpaces_moves fun _ => ?_
    exact .bind (takeUpToText_moves _) fun _ => .bind (expectText_moves _) fun _ => .pure _

theorem readCdata_passes {c d : Cursor} {i : Item} (hne : c.rest ≠ [])
    (h : readCdata c = .ok (i, d)) : c.Passes d := by
  refine passes_of_take (n := 8) hne (fun _ => ?_) h
  exact .bind (takeUpToText_moves _) fun _ => .bind (expectText_moves _) fun _ => .pure _

theorem readEndTag_passes {c d : Cursor} {i : Item} (hne : c.rest ≠ [])
    (h : readEndTag c = .ok (i, d)) : c.Passes d := by
  refine passes_of_take (n := 1) hne (fun _ => ?_) h
  refine .bind readQName_moves fun _ => .bind skipSpaces_moves fun _ => ?_
  exact .bind (expect_moves _) fun _ => .pure _

theorem readStartTag_passes {c d : Cursor} {t : Option Tag} (hne : c.rest ≠ [])
    (h : readStartTag c = .ok (t, d)) : c.Passes d := by
  refine passes_of_take (n := 0) hne (fun _ => ?_) h
  refine .bind place_moves fun _ => .bind readQName_moves fun _ => .ite (.fail _) ?_
  exact fun _ _ _ => restOfTag_reaches

theorem readText_passes {c d start : Cursor} {i : Item} (hne : c.rest ≠ [])
    (hs : c.startsWith "<" = false) (h : readText start c = .ok (i, d)) : c.Passes d := by
  obtain ⟨cs, e, he, hd⟩ := Scan.of_bind h
  refine (takeUpTo_passes hne hs he).then (Moves.ite ?_ ?_ _ _ _ hd)
  · exact .bind place_moves fun _ => .fail _
  · exact .bind (.lift _) fun _ => .pure _

theorem readItem_passes {c d : Cursor} {i : Item} (hne : c.rest ≠ [])
    (h : readItem c = .ok (i, d)) : c.Passes d := by
  unfold readItem at h
  split at h
  · exact readComment_passes hne h
  split at h
  · exact readCdata_passes hne h
  split at h
  · cases h
  split at h
  · exact readInstruction_passes hne h
  split at h
  · exact readEndTag_passes hne h
  split at h
  · split at h
    · cases h
    · obtain ⟨t, e, he, hd⟩ := Scan.of_bind h
      cases t <;> cases hd <;> exact readStartTag_passes hne he
  · next hlt => exact readText_passes hne (by simpa using hlt) h

end StoryPlayer.Markup
