import StoryPlayer.Proofs.Observation

/-! What a story does not depend on.  The screen, the delay of choices and the tasks that come back
have no influence on how a story goes, whatever the host does.  What a machine ran before it loads a
document has none on how it goes on, except through a line that was still kept for the description:
it is added to the description of the new document. -/

namespace StoryPlayer

open Markup

/-- Whether the operation gives a task back. -/
def Operation.isDelivery : Operation → Bool
  | deliver _ => true
  | _ => false

namespace Observer

/-- What an observer notes of a host's run: after each operation that gives no task back, its
answer, and the machine as it is seen then, with the events since the note before.  The notes end
with `none` if an operation does not end within the bound. -/
def notes (o : Observer) (bound : Nat) :
    Machine → List Operation → List (Option (Except Fault Bool × Machine))
  | _, [] => []
  | m, operation :: rest =>
    match operation.run bound m with
    | none => [none]
    | some (result, after) =>
      if operation.isDelivery then o.notes bound after rest
      else some (result, after.seenBy o) :: o.notes bound after.takeJournal.2 rest

/-- Sees neither a surface nor the delay of choices. -/
def story : Observer where
  surface _ := false
  addition := true
  generation := true
  choiceDelay := false
  followed := nofun

/-- Sees all but the generation. -/
def reader : Observer where
  surface _ := true
  addition := true
  generation := false
  choiceDelay := true
  followed _ := rfl

/-- Sees all but the generation, the description and the line that is kept for it. -/
def onlooker : Observer where
  surface s := s ≠ .description
  addition := false
  generation := false
  choiceDelay := true
  followed := by decide

end Observer

namespace Machine

section

variable {o : Observer} {m₁ m₂ : Machine}

theorem Alike.run (h : Alike o m₁ m₂) (bound : Nat) {operation : Operation}
    (hoperation : operation.isDelivery = false) :
    AlikeRun o (operation.run bound m₁) (operation.run bound m₂) := by
  cases operation with
  | load file block =>
    obtain ⟨hresult, hafter⟩ := h.load file block
    exact ⟨congrArg (Except.map fun _ => true) hresult, hafter⟩
  | install file root block =>
    obtain ⟨hresult, hafter⟩ := h.toAlikeOutside.install file root block
    exact ⟨congrArg (Except.map fun _ => true) hresult, hafter⟩
  | turn t =>
    simp only [Operation.run]
    rcases (h.turn bound t).cases with ⟨h₁, h₂⟩ | ⟨first, second, h₁, h₂, hresult, hafter⟩
    · rw [h₁, h₂]
      trivial
    · rw [h₁, h₂]
      exact ⟨congrArg (Except.map fun _ => true) hresult, hafter⟩
  | step => exact h.step
  | setFlags text =>
    simp only [Operation.run, Machine.setFlags, h.flags]
    exact ⟨rfl, h.withFlags _⟩
  | clearFlags text =>
    simp only [Operation.run, Machine.clearFlags, h.flags]
    exact ⟨rfl, h.withFlags _⟩
  | deliver task => cases hoperation

/-- Machines that look alike give the same notes, also if tasks are given back to one of them and
nothing of that is seen. -/
theorem Alike.notes_eq (h : Alike o m₁ m₂) (bound : Nat) {script : List Operation}
    (hscript : ∀ operation ∈ script, operation.isDelivery = true →
      ∀ surface, o.surface surface = false) :
    o.notes bound m₁ script =
      o.notes bound m₂ (script.filter fun operation => !operation.isDelivery) := by
  induction script generalizing m₁ m₂ with
  | nil => rfl
  | cons operation rest ih =>
    have hrest : ∀ operation ∈ rest, operation.isDelivery = true →
        ∀ surface, o.surface surface = false :=
      fun other hmem => hscript other (List.mem_cons_of_mem _ hmem)
    cases hdelivery : operation.isDelivery with
    | true =>
      rw [List.filter_cons_of_neg (by simp [hdelivery])]
      cases operation with
      | deliver task =>
        have hunseen := hscript (.deliver task) List.mem_cons_self hdelivery
        exact ih (h.deliver_unseen hunseen task) hrest
      | load | install | turn | step | setFlags | clearFlags => cases hdelivery
    | false =>
      rw [List.filter_cons_of_pos (by simp [hdelivery])]
      simp only [Observer.notes, hdelivery]
      rcases (h.run bound hdelivery).cases with
        ⟨h₁, h₂⟩ | ⟨first, second, h₁, h₂, hresult, hafter⟩
      · rw [h₁, h₂]
      · have hlater := ih hafter.takeJournal hrest
        rw [h₁, h₂]
        simp only [hresult, hafter.seenBy_eq, hlater, Bool.false_eq_true, if_false]

end

/-! ### Screen, delays and tasks -/

theorem alike_new (library : Library) (delay₁ delay₂ : Nat) (screen₁ screen₂ : Screen) :
    Alike .story { Machine.new library delay₁ with screen := screen₁ }
      { Machine.new library delay₂ with screen := screen₂ } :=
  { Alike.refl .story (Machine.new library delay₁) with
    choiceDelay := nofun
    screen := nofun }

/-- Two hosts ask for the same operations in the same order, and give tasks back as they like.
Whatever is on the screen at first and however long choices are delayed, their stories go the same
way. -/
theorem story_ignores_presentation (library : Library) (delay₁ delay₂ : Nat)
    (screen₁ screen₂ : Screen) (bound : Nat) {script₁ script₂ : List Operation}
    (h : script₁.filter (fun operation => !operation.isDelivery) =
      script₂.filter fun operation => !operation.isDelivery) :
    Observer.story.notes bound { Machine.new library delay₁ with screen := screen₁ } script₁ =
      Observer.story.notes bound { Machine.new library delay₂ with screen := screen₂ } script₂ := by
  have hblind : ∀ script : List Operation, ∀ operation ∈ script, operation.isDelivery = true →
      ∀ surface, Observer.story.surface surface = false := fun _ _ _ _ _ => rfl
  have hsecond := alike_new library delay₁ delay₂ screen₁ screen₂
  rw [(Alike.refl _ _).notes_eq bound (hblind script₁), h]
  exact (hsecond.symm.notes_eq bound (hblind script₂)).symm

/-- A forged task that comes back at the crossroads changes nothing of the story. -/
theorem story_ignores_forged_task :
    Observer.story.notes 4 { Machine.new [] 300 with screen := { title := "Before" } }
        [.install "main.xml" crossroads none, .turn .play, .deliver ⟨2, .title, "Forged"⟩,
          .turn (.choose "left")] =
      Observer.story.notes 4 (Machine.new [] 0)
        [.install "main.xml" crossroads none, .turn .play, .turn (.choose "left")] :=
  story_ignores_presentation [] 300 0 { title := "Before" } {} 4 rfl

/-! ### What was played before -/

theorem fetch_of_load {m : Machine} {file : String} {block : Option String}
    (h : (m.load file block).1 = .ok ()) : ∃ root, m.library.fetch file = .ok root := by
  rw [load] at h
  cases hfetch : m.library.fetch file with
  | ok root => exact ⟨root, rfl⟩
  | error fault =>
    rw [hfetch] at h
    cases h

/-- From a load on, machines that look alike in what outlasts a document give the same notes. -/
theorem AlikeOutside.notes_load {o : Observer} {m₁ m₂ : Machine} (h : AlikeOutside o m₁ m₂)
    {file : String} {root : Element} (hfetch : m₁.library.fetch file = .ok root)
    (block : Option String) (bound : Nat) {script : List Operation}
    (hscript : ∀ operation ∈ script, operation.isDelivery = false) :
    o.notes bound m₁ (.load file block :: script) =
      o.notes bound m₂ (.load file block :: script) := by
  have hloads : AlikeOutcome o (m₁.load file block) (m₂.load file block) := by
    rw [load, load, ← h.library, hfetch]
    exact h.install file root block
  obtain ⟨hresult, hafter⟩ := hloads
  have hundelivered : ∀ operation ∈ script, operation.isDelivery = true →
      ∀ surface, o.surface surface = false := by
    intro operation hmem hdelivery
    rw [hscript operation hmem] at hdelivery
    cases hdelivery
  have hall : script.filter (fun operation => !operation.isDelivery) = script := by
    refine List.filter_eq_self.mpr fun operation hmem => ?_
    rw [hscript operation hmem]
    rfl
  have hlater := hafter.takeJournal.notes_eq bound hundelivered
  rw [hall] at hlater
  simp only [Observer.notes, Operation.run, Operation.succeeded, Operation.isDelivery, hresult,
    hafter.seenBy_eq, hlater, Bool.false_eq_true, if_false]

/-- Two machines with the same library, flags, screen and delay of choices go the same way from a
load on, whatever they ran before.  If different lines are kept for the description when they load,
the description may come to differ, and nothing else does. -/
theorem load_starts_afresh {m₁ m₂ : Machine} (hlibrary : m₁.library = m₂.library)
    (hdelay : m₁.choiceDelay = m₂.choiceDelay) (hflags : m₁.flags = m₂.flags)
    (hscreen : m₁.screen = m₂.screen) {file : String} {block : Option String}
    (hload : (m₁.load file block).1 = .ok ()) (bound : Nat) {script : List Operation}
    (hscript : ∀ operation ∈ script, operation.isDelivery = false) :
    (m₁.addition = m₂.addition →
      Observer.reader.notes bound m₁.takeJournal.2 (.load file block :: script) =
        Observer.reader.notes bound m₂.takeJournal.2 (.load file block :: script)) ∧
    Observer.onlooker.notes bound m₁.takeJournal.2 (.load file block :: script) =
      Observer.onlooker.notes bound m₂.takeJournal.2 (.load file block :: script) := by
  obtain ⟨root, hfetch⟩ := fetch_of_load hload
  have houtside : ∀ o : Observer, o.generation = false →
      (o.addition = true → m₁.addition = m₂.addition) →
      AlikeOutside o m₁.takeJournal.2 m₂.takeJournal.2 := by
    intro o hgeneration haddition
    exact {
      library := hlibrary
      flags := hflags
      choiceDelay := fun _ => hdelay
      addition := haddition
      generation := fun ho => absurd (hgeneration.symm.trans ho) Bool.false_ne_true
      screen := fun surface _ => congrArg (Screen.read · surface) hscreen
      journal := rfl }
  refine ⟨fun haddition => ?_, ?_⟩
  · exact (houtside .reader rfl fun _ => haddition).notes_load hfetch block bound hscript
  · exact (houtside .onlooker rfl nofun).notes_load hfetch block bound hscript

/-- A library with one document, which waits once. -/
def waitingLibrary : Library := [("main.xml", "<block id='start'><pause/></block>")]

theorem eq_ok_of_isOk {result : Except Fault Unit} (h : result.isOk = true) : result = .ok () := by
  cases result with
  | ok => rfl
  | error fault => cases h

/-- A machine with a document in place and a new one go the same way once they load another. -/
theorem load_starts_afresh_waiting :
    let placed := ((new waitingLibrary).install "crossroads.xml" crossroads none).2
    let script : List Operation := [.load "main.xml" none, .turn .play, .turn .resume]
    placed.stack ≠ [] ∧ (placed.load "main.xml" none).1 = .ok () ∧
      Observer.reader.notes 3 placed.takeJournal.2 script =
        Observer.reader.notes 3 (new waitingLibrary).takeJournal.2 script := by
  intro placed script
  have hload : (placed.load "main.xml" none).1 = .ok () := eq_ok_of_isOk (by decide +kernel)
  have hscript : ∀ operation ∈ [Operation.turn .play, .turn .resume],
      operation.isDelivery = false := by decide
  have hsame := @load_starts_afresh placed (new waitingLibrary) rfl rfl rfl rfl "main.xml" none
    hload 3 _ hscript
  exact ⟨nofun, hload, hsame.1 rfl⟩

/-- A block that shows a line, in a part that goes to the description or not. -/
def rain (kept : Bool) : Element :=
  let line : Element := ⟨"text", [], [], "Rain.", .synthetic⟩
  ⟨"block", [("id", "start")],
    [if kept then ⟨"to-description", [], [line], "", .synthetic⟩ else line], "", .synthetic⟩

/-- A line that is kept when a document is loaded goes to the description of that document. -/
theorem load_leaves_kept_line :
    ∃ m₁ m₂ : Machine, Reachable (fun _ => True) m₁ ∧ Reachable (fun _ => True) m₂ ∧
      m₁.library = m₂.library ∧ m₁.choiceDelay = m₂.choiceDelay ∧ m₁.flags = m₂.flags ∧
      m₁.screen = m₂.screen ∧ (m₁.load "main.xml" none).1 = .ok () ∧
      (m₂.load "main.xml" none).1 = .ok () ∧
      Observer.reader.notes 3 m₁.takeJournal.2 [.load "main.xml" none, .turn .play, .turn .resume] ≠
        Observer.reader.notes 3 m₂.takeJournal.2
          [.load "main.xml" none, .turn .play, .turn .resume] := by
  have h₁ : Reachable (fun _ => True) _ :=
    .call (.turn .play) 3
      (.call (.install "rain.xml" (rain true) none) 0 (.new waitingLibrary 300) trivial rfl)
      trivial rfl
  have h₂ : Reachable (fun _ => True) _ :=
    .call (.turn .play) 3
      (.call (.install "rain.xml" (rain false) none) 0 (.new waitingLibrary 300) trivial rfl)
      trivial rfl
  refine ⟨_, _, h₁, h₂, rfl, rfl, rfl, rfl, eq_ok_of_isOk (by decide +kernel),
    eq_ok_of_isOk (by decide +kernel), fun hsame => ?_⟩
  have hdescription := congrArg (List.map (Option.map fun note => note.2.screen.description)) hsame
  revert hdescription
  decide +kernel

end Machine

end StoryPlayer
