/-! The five surfaces on which a story is shown, and a screen that holds the markup of each. -/

namespace StoryPlayer

/-- A place on the screen that one markup text fills. -/
inductive Surface where
  | title
  | description
  | speaker
  | text
  | interaction
  deriving DecidableEq, Repr, Inhabited

namespace Surface

/-- All surfaces, in the order in which they are cleared and listed. -/
def all : List Surface := [title, description, speaker, text, interaction]

def name : Surface → String
  | title => "TITLE"
  | description => "DESCRIPTION"
  | speaker => "SPEAKER"
  | text => "DEFAULT"
  | interaction => "INTERACTION"

/-- The style class of the part of a page that shows a surface. -/
def styleClass : Surface → String
  | title => "exif-title"
  | description => "exif-desc"
  | speaker => "exif-speaker"
  | text => "exif-text"
  | interaction => "exif-buttons"

/-- The surface with a name or a style class. -/
def named? (word : String) : Option Surface :=
  all.find? fun s => s.name = word || s.styleClass = word

end Surface

/-- What each surface shows. -/
structure Screen where
  title : String := ""
  description : String := ""
  speaker : String := ""
  text : String := ""
  interaction : String := ""
  deriving DecidableEq, Repr, Inhabited

namespace Screen

def read (screen : Screen) : Surface → String
  | .title => screen.title
  | .description => screen.description
  | .speaker => screen.speaker
  | .text => screen.text
  | .interaction => screen.interaction

def write (screen : Screen) (surface : Surface) (markup : String) : Screen :=
  match surface with
  | .title => { screen with title := markup }
  | .description => { screen with description := markup }
  | .speaker => { screen with speaker := markup }
  | .text => { screen with text := markup }
  | .interaction => { screen with interaction := markup }

theorem read_write (screen : Screen) (s t : Surface) (markup : String) :
    (screen.write s markup).read t = if t = s then markup else screen.read t := by
  cases s <;> cases t <;> rfl

end Screen

end StoryPlayer
