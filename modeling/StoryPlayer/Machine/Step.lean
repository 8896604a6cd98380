import StoryPlayer.Machine.State
import StoryPlayer.Story.Instruction

/-! One step of a story: the next element is taken from the stack and does what it tells. -/

namespace StoryPlayer

open Markup

/-- What an operation leaves: its answer or the fault that stopped it, and the machine after it. -/
abbrev Outcome (α : Type) := Except Fault α × Machine

namespace Gate

/-- Whether the flags are as `if-set` and `if-clear` ask. -/
def admits (gate : Gate) (flags : Flags) : Bool :=
  gate.ifSet.all flags.areSet && gate.ifClear.all flags.areClear

/-- The flags after entering a block, or `none` if the block is passed over.  A block with `trip` is
passed over once all flags that `trip` names are set. -/
def enterBlock? (gate : Gate) (flags : Flags) : Option Flags :=
  if gate.admits flags then
    match gate.trip with
    | none => some flags
    | some trip => if flags.areSet trip then none else some (flags.set trip)
  else none

/-- The flags after an option is offered, or `none` if it is not.  An option with `trip` is offered
only if none of the flags that `trip` names is set and setting them adds one. -/
def offer? (gate : Gate) (flags : Flags) : Option Flags :=
  if gate.admits flags then
    match gate.trip with
    | none => some flags
    | some trip =>
      let (added, after) := flags.setEach trip
      if flags.areClear trip && added then some after else none
  else none

/-- Setting flags adds one unless all of them are set. -/
theorem offer?_eq (gate : Gate) (flags : Flags) :
    gate.offer? flags =
      if gate.admits flags then
        match gate.trip with
        | none => some flags
        | some trip =>
          if flags.areClear trip && !flags.areSet trip then some (flags.set trip) else none
      else none := by
  simp only [offer?, Flags.setEach_eq]

end Gate

/-- The options on offer and the flags after one option more is considered. -/
def consider (state : Table Element × Flags) (offer : Offer) : Table Element × Flags :=
  match offer.gate.offer? state.2 with
  | some flags => (state.1.put offer.label offer.element, flags)
  | none => state

namespace Machine

/-- Enters a block by its id. -/
def call (m : Machine) (id : String) : Outcome Unit :=
  match m.blocks.get? id with
  | some block => (.ok (), m.push block .standard)
  | none => (.error (.unknownBlock id), m)

/-- Puts the document with the root element `root` in place of the one before; nothing is left to
run or on offer. -/
def withDocument (m : Machine) (file : String) (root : Element) : Machine :=
  { m with
    blocks := .ofRoot root
    file := some file
    stack := []
    offers := []
    generation := m.generation + 1
    phase := .running
    journal := .installed file :: m.journal }

/-- Goes on in the document with the root element `root`, at the block with an id or else at the
first block. -/
def install (m : Machine) (file : String) (root : Element) (block : Option String) : Outcome Unit :=
  match block.or (Blocks.ofRoot root).first? with
  | some id => (m.withDocument file root).call id
  | none => (.error (.noBlocks file), m.withDocument file root)

/-- Goes on in the document at a path. -/
def load (m : Machine) (file : String) (block : Option String) : Outcome Unit :=
  match m.library.fetch file with
  | .ok root => m.install file root block
  | .error fault => (.error fault, m)

/-- A line as the screen shows it: in quotes if someone speaks it. -/
def shownLine (markup : String) (speaker : Option String) : String :=
  if speaker.isSome then "\"" ++ Text.trim markup ++ "\"" else Text.trim markup

/-- Puts a line on the screen.  It is also kept for the description if it stands in a part that goes
there. -/
def putLine (m : Machine) (markup : String) (speaker : Option String) : Machine :=
  let m := m.write .speaker (speaker.getD noSpeaker)
  let m := m.write .text (shownLine markup speaker)
  if m.stack.hasRole .toDescription then { m with addition := some (Text.trim markup) } else m

/-- Shows a line.  The story then waits for the reader, unless nothing follows, or a choice does. -/
def showText (m : Machine) (markup : String) (speaker : Option String) : Machine :=
  let m := m.putLine markup speaker
  match m.stack.upcoming? with
  | none => m.write .interaction Interaction.ending.render
  | some following => if following.name = "choice" then m else m.pause

/-- Offers a choice: the options are shown, and the task that makes them active is handed to the
host. -/
def showChoice (m : Machine) (offers : List Offer) : Machine :=
  let (table, flags) := offers.foldl consider ([], m.flags)
  let m := { m with
    offers := table
    flags
    generation := m.generation + 1
    phase := .paused .choice }
  let m := m.write .interaction (Interaction.options table.keys false).render
  m.schedule ⟨m.generation, .interaction, (Interaction.options table.keys true).render⟩

/-- Does what an instruction tells; `e` is the element that it came from. -/
def perform (m : Machine) (e : Element) : Instruction → Outcome Unit
  | .block gate =>
    match gate.enterBlock? m.flags with
    | some flags => (.ok (), { m with flags }.push e .standard)
    | none => (.ok (), m)
  | .title => (.ok (), m.write .title e.markup)
  | .description => (.ok (), m.write .description e.markup)
  | .text speaker => (.ok (), m.showText e.markup speaker)
  | .toDescription => (.ok (), m.push e .toDescription)
  | .clearScreen => (.ok (), Surface.all.foldl (fun m surface => m.write surface "") m)
  | .pause => (.ok (), m.pause)
  | .choice offers => (.ok (), m.showChoice offers)
  | .flag set clear =>
    let flags := set.elim m.flags m.flags.set
    (.ok (), { m with flags := clear.elim flags flags.clear })
  | .call block => m.call block
  | .goto block => { m with stack := [] }.call block
  | .load file block => m.load file block
  | .ignored => (.ok (), m)

/-- Runs an element. -/
def execute (m : Machine) (e : Element) : Outcome Unit :=
  match Instruction.ofElement e with
  | .ok instruction => m.perform e instruction
  | .error fault => (.error fault, m)

/-- Takes an element from the stack, which leaves `stack`. -/
def take (m : Machine) (e : Element) (stack : Stack) : Machine :=
  { m with stack, journal := .ran e :: m.journal }

/-- What a step answers once its element has run. -/
def settle : Outcome Unit → Outcome Bool
  | (.error fault, m) => (.error fault, m)
  | (.ok (), m) =>
    if m.unwind.stack.isEmpty then (.ok false, m.unwind.finish) else (.ok true, m.unwind)

/-- Runs the next element; the answer is whether anything is left to run. -/
def step (m : Machine) : Outcome Bool :=
  match m.unwind.stack.pop? with
  | none => (.ok false, m.unwind.finish)
  | some (e, stack) => settle ((m.take e stack).execute e)

end Machine

end StoryPlayer
