import StoryPlayer.Machine.State

/-! What the line player has printed.  Each surface is printed again only when it has changed. -/

namespace StoryPlayer

/-- The title, the description, and the speaker and text of the line that were last printed. -/
structure Page where
  title : String := ""
  description : String := ""
  line : String × String := ("", "")
  deriving DecidableEq, Repr

namespace Page

/-- Prints the title if it has changed. -/
def turnTitle (page : Page) (screen : Screen) : List String × Page :=
  if screen.title = page.title then ([], page)
  else
    (if screen.title = "" then [] else ["", "== " ++ Text.trim screen.title ++ " =="],
      { page with title := screen.title })

/-- Prints the description if it has changed. -/
def turnDescription (page : Page) (screen : Screen) : List String × Page :=
  if screen.description = page.description then ([], page)
  else
    (if screen.description = "" then [] else [Text.trim screen.description],
      { page with description := screen.description })

/-- Prints the line of text if it or its speaker has changed; an empty line is never printed. -/
def turnLine (page : Page) (screen : Screen) : List String × Page :=
  if (screen.speaker, screen.text) = page.line ∨ screen.text = "" then ([], page)
  else
    (["", if screen.speaker = "" ∨ screen.speaker = noSpeaker then screen.text
          else screen.speaker ++ ": " ++ screen.text],
      { page with line := (screen.speaker, screen.text) })

/-- Prints what has changed: the lines to print, and the page after them. -/
def turn (page : Page) (screen : Screen) : List String × Page :=
  let (title, page) := page.turnTitle screen
  let (description, page) := page.turnDescription screen
  let (line, page) := page.turnLine screen
  (title ++ description ++ line, page)

end Page

end StoryPlayer
