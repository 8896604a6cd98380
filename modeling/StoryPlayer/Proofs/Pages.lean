import Mathlib.Data.List.Induction
import StoryPlayer.Host.Page

/-! What the line player prints of a sequence of screens.  The title and the description are printed
when they differ from those of the screen before.  The line of text is compared with the last line
that was printed, which an empty line does not replace: a line that comes back after the text was
cleared is not printed again. -/

namespace StoryPlayer

/-- The speaker and the text of a screen. -/
def Screen.line (screen : Screen) : String × String := (screen.speaker, screen.text)

/-- A line of text as it is printed. -/
def Screen.spoken (screen : Screen) : String :=
  if screen.speaker = "" ∨ screen.speaker = noSpeaker then screen.text
  else screen.speaker ++ ": " ++ screen.text

namespace Page

/-- The page after some screens. -/
def after (page : Page) (shown : List Screen) : Page :=
  shown.foldl (fun page screen => (page.turn screen).2) page

/-- The line of the last screen that has a text. -/
def lastLine (shown : List Screen) : String × String :=
  ((shown.filter fun screen => screen.text ≠ "").getLast?.map Screen.line).getD ("", "")

/-! What is new on a screen, given the last title, description and line. -/

def newTitle (last : String) (screen : Screen) : List String :=
  if screen.title ≠ "" ∧ screen.title ≠ last then ["", "== " ++ Text.trim screen.title ++ " =="]
  else []

def newDescription (last : String) (screen : Screen) : List String :=
  if screen.description ≠ "" ∧ screen.description ≠ last then [Text.trim screen.description] else []

def newLine (last : String × String) (screen : Screen) : List String :=
  if screen.text ≠ "" ∧ screen.line ≠ last then ["", screen.spoken] else []

/-- What is new on a screen that follows another. -/
def changes (last screen : Screen) : List String :=
  newTitle last.title screen ++ newDescription last.description screen ++ newLine last.line screen

/-! ### One screen -/

theorem turnTitle_eq (page : Page) (screen : Screen) :
    page.turnTitle screen = (newTitle page.title screen, { page with title := screen.title }) := by
  unfold turnTitle newTitle
  by_cases hsame : screen.title = page.title
  · simp [hsame]
  · simp [hsame, ite_not]

theorem turnDescription_eq (page : Page) (screen : Screen) :
    page.turnDescription screen =
      (newDescription page.description screen,
        { page with description := screen.description }) := by
  unfold turnDescription newDescription
  by_cases hsame : screen.description = page.description
  · simp [hsame]
  · simp [hsame, ite_not]

theorem turnLine_eq (page : Page) (screen : Screen) :
    page.turnLine screen =
      (newLine page.line screen,
        { page with line := if screen.text = "" then page.line else screen.line }) := by
  unfold turnLine newLine Screen.line Screen.spoken
  by_cases hsame : (screen.speaker, screen.text) = page.line
  · simp [hsame]
  · by_cases hempty : screen.text = "" <;> simp [hsame, hempty]

theorem turn_eq (page : Page) (screen : Screen) :
    page.turn screen =
      (newTitle page.title screen ++ newDescription page.description screen ++
        newLine page.line screen,
      { title := screen.title, description := screen.description,
        line := if screen.text = "" then page.line else screen.line }) := by
  simp only [turn, turnTitle_eq, turnDescription_eq, turnLine_eq]

/-! ### Many screens -/

theorem lastLine_concat (shown : List Screen) (screen : Screen) :
    lastLine (shown ++ [screen]) = if screen.text = "" then lastLine shown else screen.line := by
  unfold lastLine
  by_cases hempty : screen.text = "" <;> simp [List.filter_append, hempty]

/-- The page holds the title and the description of the last screen, but not always its line. -/
theorem after_eq (shown : List Screen) :
    after {} shown =
      ⟨(shown.getLastD {}).title, (shown.getLastD {}).description, lastLine shown⟩ := by
  induction shown using List.reverseRecOn with
  | nil => rfl
  | append_singleton shown screen ih =>
    have hstep : after {} (shown ++ [screen]) = ((after {} shown).turn screen).2 := by
      simp [after]
    rw [hstep, turn_eq, ih, lastLine_concat]
    simp

/-- The lines differ only where the last screen has no text. -/
theorem lastLine_eq {shown : List Screen} (h : (shown.getLastD {}).text ≠ "") :
    lastLine shown = (shown.getLastD {}).line := by
  induction shown using List.reverseRecOn with
  | nil => exact absurd rfl h
  | append_singleton shown screen _ =>
    have htext : screen.text ≠ "" := by simpa using h
    simp [lastLine_concat, htext]

/-- A text is new after a screen without one. -/
theorem newLine_of_empty {last screen : Screen} (hlast : last.text = "")
    (htext : screen.text ≠ "") : newLine last.line screen = ["", screen.spoken] := by
  have hline : screen.line ≠ last.line := by
    intro hsame
    exact htext ((congrArg Prod.snd hsame).trans hlast)
  simp [newLine, htext, hline]

/-- What is printed of a screen, whatever was shown before it: what is new since the last screen,
but for a line that comes back after the text was cleared. -/
theorem prints_changes (shown : List Screen) (screen : Screen) :
    let last := shown.getLastD {}
    let printed := ((after {} shown).turn screen).1
    let returns := last.text = "" ∧ screen.text ≠ "" ∧ screen.line = lastLine shown
    printed = newTitle last.title screen ++ newDescription last.description screen ++
      (if returns then [] else newLine last.line screen) ∧
    (printed = changes last screen ↔ ¬returns) := by
  intro last printed returns
  have hline : newLine (lastLine shown) screen =
      if returns then [] else newLine last.line screen := by
    by_cases hlast : last.text = ""
    · by_cases htext : screen.text = ""
      · simp [newLine, htext]
      · rw [newLine_of_empty hlast htext]
        simp [newLine, returns, hlast, htext]
    · have hreturns : ¬returns := fun h => hlast h.1
      rw [if_neg hreturns, lastLine_eq hlast]
  have hprinted : printed = newTitle last.title screen ++ newDescription last.description screen ++
      (if returns then [] else newLine last.line screen) := by
    rw [← hline]
    show ((after {} shown).turn screen).1 = _
    rw [after_eq, turn_eq]
  refine ⟨hprinted, ?_⟩
  rw [hprinted, changes, List.append_cancel_left_eq]
  by_cases h : returns
  · simp [h, newLine_of_empty h.1 h.2.1]
  · simp [h]

/-- A line that is shown, cleared and shown again is new, and is not printed. -/
theorem returning_line_not_printed :
    ¬ ∀ (shown : List Screen) (screen : Screen),
      ((after {} shown).turn screen).1 = changes (shown.getLastD {}) screen := by
  intro h
  have hprinted := h [{ text := "A" }, {}] { text := "A" }
  revert hprinted
  decide

end Page

end StoryPlayer
