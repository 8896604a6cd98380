import StoryPlayer.Markup.Location

/-! Why a text is no document.  Reading stops at the first error from the left. -/

namespace StoryPlayer.Markup

/-- The causes for which a text is rejected, with the place to report. -/
inductive ReadError where
  /-- The text ends inside a construct. -/
  | endOfStream
  /-- A character that no document may hold. -/
  | forbidden (found : Char) (place : Location)
  /-- Another character than the one that has to come. -/
  | expected (wanted found : Char) (place : Location)
  /-- The text that has to come does not. -/
  | expectedText (wanted : String) (place : Location)
  | expectedSpace (found : Char) (place : Location)
  | expectedQuote (found : Char) (place : Location)
  /-- No name, or a name that may not be written so. -/
  | badName (place : Location)
  | doctype
  /-- Nothing that may come here. -/
  | unknownToken (place : Location)
  | noRoot
  | unclosedRoot
  /-- A comment that holds two hyphens or ends in a hyphen. -/
  | hyphens (place : Location)
  /-- An XML declaration that is not at the start. -/
  | lateDeclaration (place : Location)
  /-- A tag with the reserved name space `xmlns`. -/
  | reservedSpace (place : Location)
  /-- A reference that is neither a character nor a name. -/
  | badReference (place : Location)
  | unknownReference (name : String) (place : Location)
  /-- A declaration of the URI reserved for `xmlns`. -/
  | reservedUri (place : Location)
  /-- The name space `xml` bound to a URI that is not its own. -/
  | wrongXmlUri (place : Location)
  /-- The URI of `xml` bound to another name space. -/
  | strayXmlUri (place : Location)
  | repeatedSpace (name : String) (place : Location)
  | unknownSpace (name : String) (place : Location)
  | repeatedAttribute (name : String) (place : Location)
  /-- The end tag of another element than the open one. -/
  | wrongEndTag (wanted found : String) (place : Location)
  /-- The end mark of a CDATA section in plain text. -/
  | strayCdataEnd (place : Location)
  deriving DecidableEq, Repr

/-- A character that no document may hold, as messages show it: NUL as `\0`, any other by its
code point. -/
def escaped (c : Char) : String :=
  if c.toNat = 0 then "'\\0'"
  else "'\\u\x7b" ++ String.ofList (Nat.toDigits 16 c.toNat) ++ "\x7d'"

/-- The text of an error. -/
def ReadError.message : ReadError → String
  | endOfStream => "unexpected end of stream"
  | forbidden found p => "a non-XML character " ++ escaped found ++ " found at " ++ p.text
  | expected wanted found p => s!"expected '{wanted}' not '{found}' at " ++ p.text
  | expectedText wanted p => s!"expected '{wanted}' at " ++ p.text
  | expectedSpace found p => s!"expected a whitespace not '{found}' at " ++ p.text
  | expectedQuote found p => s!"expected a quote not '{found}' at " ++ p.text
  | badName p => "invalid name token at " ++ p.text
  | doctype => "XML with DTD detected"
  | unknownToken p => "unknown token at " ++ p.text
  | noRoot => "the document does not have a root node"
  | unclosedRoot => "the root node was opened but never closed"
  | hyphens p => "comment at " ++ p.text ++ " contains '--'"
  | lateDeclaration p => "unexpected XML declaration at " ++ p.text
  | reservedSpace p => "the 'xmlns' prefix is used at " ++ p.text ++ ", but it must not be"
  | badReference p => "malformed entity reference at " ++ p.text
  | unknownReference name p => s!"unknown entity reference '{name}' at " ++ p.text
  | reservedUri p => "the 'xmlns' URI is used at " ++ p.text ++ ", but it must not be declared"
  | wrongXmlUri p => "'xml' namespace prefix mapped to wrong URI at " ++ p.text
  | strayXmlUri p => "the 'xml' namespace URI is used for not 'xml' prefix at " ++ p.text
  | repeatedSpace name p => s!"namespace '{name}' at " ++ p.text ++ " is already defined"
  | unknownSpace name p => s!"an unknown namespace prefix '{name}' at " ++ p.text
  | repeatedAttribute name p => s!"attribute '{name}' at " ++ p.text ++ " is already defined"
  | wrongEndTag wanted found p => s!"expected '{wanted}' tag, not '{found}' at " ++ p.text
  | strayCdataEnd p => "']]>' at " ++ p.text ++ " is not allowed inside a character data"

end StoryPlayer.Markup
