import StoryPlayer.Proofs.Operations

/-! Machines that look alike.  An observer follows the story, and as much of its presentation as it
cares for: some of the surfaces, the line kept for the description, the generation, the delay of
choices.  Machines that look alike to an observer answer every operation alike and stay alike: what
an observer does not see has no influence on what it sees. -/

namespace StoryPlayer

open Markup

/-- What is seen of a machine besides the story itself.  The line that is kept ends in the
description, so that the description is seen together with it. -/
structure Observer where
  surface : Surface → Bool
  addition : Bool
  generation : Bool
  choiceDelay : Bool
  followed : surface .description = true → addition = true

/-- An event as an observer sees it. -/
def Event.seenBy (o : Observer) : Event → Option Event
  | wrote surface markup => if o.surface surface then some (wrote surface markup) else none
  | scheduled task delay =>
    some (scheduled { task with generation := if o.generation then task.generation else 0 }
      (if o.choiceDelay then delay else 0))
  | event => some event

def Screen.seenBy (o : Observer) (screen : Screen) : Screen :=
  let seen (surface : Surface) := if o.surface surface then screen.read surface else ""
  ⟨seen .title, seen .description, seen .speaker, seen .text, seen .interaction⟩

theorem ite_eq_of_seen {α : Type} {seen : Bool} {a b hidden : α} (h : seen = true → a = b) :
    (if seen then a else hidden) = if seen then b else hidden :=
  ite_congr rfl h fun _ => rfl

theorem Screen.seenBy_eq {o : Observer} {s t : Screen}
    (h : ∀ surface, o.surface surface = true → s.read surface = t.read surface) :
    s.seenBy o = t.seenBy o := by
  simp only [seenBy, ite_eq_of_seen (h _)]

theorem Screen.eq_of_read {s t : Screen} (h : ∀ surface, s.read surface = t.read surface) :
    s = t := by
  have htitle : s.title = t.title := h .title
  have hdescription : s.description = t.description := h .description
  have hspeaker : s.speaker = t.speaker := h .speaker
  have htext : s.text = t.text := h .text
  have hinteraction : s.interaction = t.interaction := h .interaction
  cases s
  cases t
  simp_all

namespace Machine

/-- A machine as an observer sees it. -/
def seenBy (o : Observer) (m : Machine) : Machine :=
  { m with
    choiceDelay := if o.choiceDelay then m.choiceDelay else 0
    screen := m.screen.seenBy o
    addition := if o.addition then m.addition else none
    generation := if o.generation then m.generation else 0
    journal := m.journal.filterMap (Event.seenBy o) }

/-- The machines look alike to an observer in all that outlasts a document. -/
structure AlikeOutside (o : Observer) (m₁ m₂ : Machine) : Prop where
  library : m₁.library = m₂.library
  flags : m₁.flags = m₂.flags
  choiceDelay : o.choiceDelay = true → m₁.choiceDelay = m₂.choiceDelay
  addition : o.addition = true → m₁.addition = m₂.addition
  generation : o.generation = true → m₁.generation = m₂.generation
  screen : ∀ surface, o.surface surface = true →
    m₁.screen.read surface = m₂.screen.read surface
  journal : m₁.journal.filterMap (Event.seenBy o) = m₂.journal.filterMap (Event.seenBy o)

/-- The machines look alike to an observer. -/
structure Alike (o : Observer) (m₁ m₂ : Machine) : Prop extends AlikeOutside o m₁ m₂ where
  blocks : m₁.blocks = m₂.blocks
  file : m₁.file = m₂.file
  stack : m₁.stack = m₂.stack
  phase : m₁.phase = m₂.phase
  offers : m₁.offers = m₂.offers

theorem Alike.refl (o : Observer) (m : Machine) : Alike o m m where
  library := rfl
  flags := rfl
  choiceDelay _ := rfl
  addition _ := rfl
  generation _ := rfl
  screen _ _ := rfl
  journal := rfl
  blocks := rfl
  file := rfl
  stack := rfl
  phase := rfl
  offers := rfl

section

variable {o : Observer} {m₁ m₂ : Machine}

theorem Alike.symm (h : Alike o m₁ m₂) : Alike o m₂ m₁ where
  library := h.library.symm
  flags := h.flags.symm
  choiceDelay ho := (h.choiceDelay ho).symm
  addition ho := (h.addition ho).symm
  generation ho := (h.generation ho).symm
  screen surface ho := (h.screen surface ho).symm
  journal := h.journal.symm
  blocks := h.blocks.symm
  file := h.file.symm
  stack := h.stack.symm
  phase := h.phase.symm
  offers := h.offers.symm

theorem Alike.seenBy_eq (h : Alike o m₁ m₂) : m₁.seenBy o = m₂.seenBy o := by
  simp only [seenBy, h.library, h.flags, h.blocks, h.file, h.stack, h.phase, h.offers, h.journal,
    ite_eq_of_seen h.choiceDelay, ite_eq_of_seen h.addition, ite_eq_of_seen h.generation,
    Screen.seenBy_eq h.screen]

/-! ### Small changes -/

theorem Alike.note (h : Alike o m₁ m₂) (event : Event) :
    Alike o { m₁ with journal := event :: m₁.journal }
      { m₂ with journal := event :: m₂.journal } :=
  { h with journal := by simp only [List.filterMap_cons, h.journal] }

theorem Alike.write (h : Alike o m₁ m₂) (surface : Surface) (markup : String) :
    Alike o (m₁.write surface markup) (m₂.write surface markup) := by
  refine { h.note (.wrote surface markup) with screen := fun other ho => ?_ }
  show (m₁.screen.write surface markup).read other = (m₂.screen.write surface markup).read other
  rw [Screen.read_write, Screen.read_write, h.screen other ho]

/-- A write to a surface that is not seen is not seen. -/
theorem Alike.write_unseen (h : Alike o m₁ m₂) {surface : Surface}
    (hunseen : o.surface surface = false) (markup : String) :
    Alike o (m₁.write surface markup) m₂ := by
  refine { h with screen := fun other ho => ?_, journal := ?_ }
  · have hne : other ≠ surface := by
      rintro rfl
      rw [hunseen] at ho
      cases ho
    show (m₁.screen.write surface markup).read other = m₂.screen.read other
    rw [Screen.read_write, if_neg hne, h.screen other ho]
  · show List.filterMap _ (.wrote surface markup :: m₁.journal) = _
    rw [List.filterMap_cons, Event.seenBy, hunseen]
    exact h.journal

theorem Alike.withStack (h : Alike o m₁ m₂) (stack : Stack) :
    Alike o { m₁ with stack } { m₂ with stack } :=
  { h with stack := rfl }

theorem Alike.withFlags (h : Alike o m₁ m₂) (flags : Flags) :
    Alike o { m₁ with flags } { m₂ with flags } :=
  { h with flags := rfl }

theorem Alike.withPhase (h : Alike o m₁ m₂) (phase : Phase) :
    Alike o { m₁ with phase } { m₂ with phase } :=
  { h with phase := rfl }

theorem Alike.withAddition (h : Alike o m₁ m₂) (addition : Option String) :
    Alike o { m₁ with addition } { m₂ with addition } :=
  { h with addition := fun _ => rfl }

theorem Alike.push (h : Alike o m₁ m₂) (element : Element) (role : Role) :
    Alike o (m₁.push element role) (m₂.push element role) :=
  { h with stack := congrArg (fun stack : Stack => stack.push element role) h.stack }

theorem Alike.unwind (h : Alike o m₁ m₂) : Alike o m₁.unwind m₂.unwind :=
  { h with stack := congrArg Stack.unwind h.stack }

theorem Alike.take (h : Alike o m₁ m₂) (e : Element) (stack : Stack) :
    Alike o (m₁.take e stack) (m₂.take e stack) :=
  (h.note (.ran e)).withStack stack

theorem Alike.pause (h : Alike o m₁ m₂) : Alike o m₁.pause m₂.pause :=
  (h.withPhase _).write _ _

theorem Alike.finish (h : Alike o m₁ m₂) : Alike o m₁.finish m₂.finish := by
  rw [Machine.finish, Machine.finish, h.phase]
  split
  · exact h
  · exact h.withPhase _

theorem Alike.takeJournal (h : Alike o m₁ m₂) : Alike o m₁.takeJournal.2 m₂.takeJournal.2 :=
  { h with journal := rfl }

/-! ### One element -/

/-- The outcomes of an operation look alike: there is one answer, and the machines after it look
alike. -/
def AlikeOutcome (o : Observer) {α : Type} (first second : Outcome α) : Prop :=
  first.1 = second.1 ∧ Alike o first.2 second.2

theorem Alike.call (h : Alike o m₁ m₂) (id : String) :
    AlikeOutcome o (m₁.call id) (m₂.call id) := by
  rw [Machine.call, Machine.call, h.blocks]
  cases m₂.blocks.get? id with
  | none => exact ⟨rfl, h⟩
  | some block => exact ⟨rfl, h.push block _⟩

/-- A document makes machines alike that differ in what they ran before it. -/
theorem AlikeOutside.withDocument (h : AlikeOutside o m₁ m₂) (file : String) (root : Element) :
    Alike o (m₁.withDocument file root) (m₂.withDocument file root) where
  library := h.library
  flags := h.flags
  choiceDelay := h.choiceDelay
  addition := h.addition
  generation ho := congrArg (· + 1) (h.generation ho)
  screen := h.screen
  journal := congrArg (List.cons (Event.installed file)) h.journal
  blocks := rfl
  file := rfl
  stack := rfl
  phase := rfl
  offers := rfl

theorem AlikeOutside.install (h : AlikeOutside o m₁ m₂) (file : String) (root : Element)
    (block : Option String) :
    AlikeOutcome o (m₁.install file root block) (m₂.install file root block) := by
  have hplaced := h.withDocument file root
  rw [Machine.install, Machine.install]
  cases block.or (Blocks.ofRoot root).first? with
  | none => exact ⟨rfl, hplaced⟩
  | some id => exact hplaced.call id

theorem Alike.load (h : Alike o m₁ m₂) (file : String) (block : Option String) :
    AlikeOutcome o (m₁.load file block) (m₂.load file block) := by
  rw [Machine.load, Machine.load, h.library]
  cases m₂.library.fetch file with
  | ok root => exact h.toAlikeOutside.install file root block
  | error fault => exact ⟨rfl, h⟩

theorem Alike.putLine (h : Alike o m₁ m₂) (markup : String) (speaker : Option String) :
    Alike o (m₁.putLine markup speaker) (m₂.putLine markup speaker) := by
  have hshown := (h.write .speaker (speaker.getD noSpeaker)).write .text (shownLine markup speaker)
  show Alike o (if m₁.stack.hasRole .toDescription then _ else _)
    (if m₂.stack.hasRole .toDescription then _ else _)
  rw [h.stack]
  split
  · exact hshown.withAddition _
  · exact hshown

theorem Alike.showText (h : Alike o m₁ m₂) (markup : String) (speaker : Option String) :
    Alike o (m₁.showText markup speaker) (m₂.showText markup speaker) := by
  have hline := h.putLine markup speaker
  simp only [Machine.showText, hline.stack]
  split
  · exact hline.write _ _
  · split
    · exact hline
    · exact hline.pause

theorem Alike.schedule (h : Alike o m₁ m₂) {task₁ task₂ : Task}
    (hgeneration : o.generation = true → task₁.generation = task₂.generation)
    (hsurface : task₁.surface = task₂.surface) (hmarkup : task₁.markup = task₂.markup) :
    Alike o (m₁.schedule task₁) (m₂.schedule task₂) := by
  have hevent : Event.seenBy o (.scheduled task₁ m₁.choiceDelay) =
      Event.seenBy o (.scheduled task₂ m₂.choiceDelay) := by
    simp only [Event.seenBy, hsurface, hmarkup, ite_eq_of_seen hgeneration,
      ite_eq_of_seen h.choiceDelay]
  refine { h with journal := ?_ }
  show List.filterMap _ (_ :: m₁.journal) = List.filterMap _ (_ :: m₂.journal)
  rw [List.filterMap_cons, List.filterMap_cons, hevent, h.journal]

theorem Alike.showChoice (h : Alike o m₁ m₂) (offers : List Offer) :
    Alike o (m₁.showChoice offers) (m₂.showChoice offers) := by
  have hoffered : Alike o
      { m₁ with
        offers := (offers.foldl consider ([], m₁.flags)).1
        flags := (offers.foldl consider ([], m₁.flags)).2
        generation := m₁.generation + 1
        phase := .paused .choice }
      { m₂ with
        offers := (offers.foldl consider ([], m₂.flags)).1
        flags := (offers.foldl consider ([], m₂.flags)).2
        generation := m₂.generation + 1
        phase := .paused .choice } := by
    rw [h.flags]
    exact { h with
      flags := rfl
      offers := rfl
      generation := fun ho => congrArg (· + 1) (h.generation ho)
      phase := rfl }
  have hkeys := congrArg Table.keys hoffered.offers
  simp only at hkeys
  simp only [Machine.showChoice, hkeys]
  exact (hoffered.write _ _).schedule hoffered.generation rfl rfl

theorem Alike.writes (h : Alike o m₁ m₂) (surfaces : List Surface) (markup : String) :
    Alike o (surfaces.foldl (fun m surface => m.write surface markup) m₁)
      (surfaces.foldl (fun m surface => m.write surface markup) m₂) := by
  induction surfaces generalizing m₁ m₂ with
  | nil => exact h
  | cons surface rest ih => exact ih (h.write surface markup)

theorem Alike.perform (h : Alike o m₁ m₂) (e : Element) (i : Instruction) :
    AlikeOutcome o (m₁.perform e i) (m₂.perform e i) := by
  cases i with
  | block gate =>
    simp only [Machine.perform, h.flags]
    cases gate.enterBlock? m₂.flags with
    | none => exact ⟨rfl, h⟩
    | some flags => exact ⟨rfl, (h.withFlags flags).push e _⟩
  | title => exact ⟨rfl, h.write _ _⟩
  | description => exact ⟨rfl, h.write _ _⟩
  | text speaker => exact ⟨rfl, h.showText _ _⟩
  | toDescription => exact ⟨rfl, h.push e _⟩
  | clearScreen => exact ⟨rfl, h.writes _ _⟩
  | pause => exact ⟨rfl, h.pause⟩
  | choice offers => exact ⟨rfl, h.showChoice offers⟩
  | flag set clear =>
    simp only [Machine.perform, h.flags]
    exact ⟨rfl, h.withFlags _⟩
  | call block => exact h.call block
  | goto block => exact (h.withStack []).call block
  | load file block => exact h.load file block
  | ignored => exact ⟨rfl, h⟩

theorem Alike.execute (h : Alike o m₁ m₂) (e : Element) :
    AlikeOutcome o (m₁.execute e) (m₂.execute e) := by
  rw [Machine.execute, Machine.execute]
  cases Instruction.ofElement e with
  | ok i => exact h.perform e i
  | error fault => exact ⟨rfl, h⟩

/-! ### Steps and operations -/

theorem AlikeOutcome.settle {first second : Outcome Unit} (h : AlikeOutcome o first second) :
    AlikeOutcome o (settle first) (settle second) := by
  obtain ⟨result, m₁⟩ := first
  obtain ⟨other, m₂⟩ := second
  obtain ⟨hresult, hm⟩ := h
  obtain rfl : result = other := hresult
  have hunwind := Alike.unwind hm
  cases result with
  | error fault => exact ⟨rfl, hm⟩
  | ok =>
    simp only [Machine.settle, hunwind.stack]
    split
    · exact ⟨rfl, hunwind.finish⟩
    · exact ⟨rfl, hunwind⟩

theorem Alike.step (h : Alike o m₁ m₂) : AlikeOutcome o m₁.step m₂.step := by
  have hunwind := h.unwind
  rw [Machine.step, Machine.step, hunwind.stack]
  cases m₂.unwind.stack.pop? with
  | none => exact ⟨rfl, hunwind.finish⟩
  | some taken =>
    obtain ⟨e, stack⟩ := taken
    exact ((h.take e stack).execute e).settle

/-- Runs look alike: neither comes to an end within its bound, or their outcomes look alike. -/
def AlikeRun (o : Observer) {α : Type} : Option (Outcome α) → Option (Outcome α) → Prop
  | none, none => True
  | some first, some second => AlikeOutcome o first second
  | _, _ => False

theorem AlikeRun.cases {α : Type} {first second : Option (Outcome α)}
    (h : AlikeRun o first second) :
    first = none ∧ second = none ∨
      ∃ one other, first = some one ∧ second = some other ∧ AlikeOutcome o one other := by
  cases first with
  | none =>
    cases second with
    | none => exact .inl ⟨rfl, rfl⟩
    | some other => exact absurd h id
  | some one =>
    cases second with
    | none => exact absurd h id
    | some other => exact .inr ⟨one, other, rfl, rfl, h⟩

theorem Alike.play (bound : Nat) (h : Alike o m₁ m₂) :
    AlikeRun o (m₁.play bound) (m₂.play bound) := by
  induction bound generalizing m₁ m₂ with
  | zero => trivial
  | succ bound ih =>
    have hstep := h.step
    rw [Machine.play, Machine.play, h.phase]
    split
    · exact ⟨rfl, h⟩
    · rcases h₁ : m₁.step with ⟨result, n₁⟩
      rcases h₂ : m₂.step with ⟨other, n₂⟩
      rw [h₁, h₂] at hstep
      obtain ⟨hresult, hn⟩ := hstep
      obtain rfl : result = other := hresult
      cases result with
      | error fault => exact ⟨rfl, hn⟩
      | ok more =>
        cases more with
        | true => exact ih hn
        | false => exact ⟨rfl, hn⟩

/-- Whoever does not see what is kept does not see the description to which it is added. -/
theorem Alike.flush (h : Alike o m₁ m₂) : Alike o m₁.flush m₂.flush := by
  by_cases haddition : o.addition = true
  · rw [Machine.flush, Machine.flush, h.addition haddition]
    cases m₂.addition with
    | none => exact h
    | some line =>
      have hkept := h.withAddition none
      by_cases hseen : o.surface .description = true
      · rw [show m₁.screen.description = m₂.screen.description from h.screen .description hseen]
        exact hkept.write _ _
      · have hunseen := Bool.eq_false_iff.mpr hseen
        exact ((hkept.write_unseen hunseen _).symm.write_unseen hunseen _).symm
  · have hunseen : o.surface .description = false :=
      Bool.eq_false_iff.mpr fun hseen => haddition (o.followed hseen)
    have hone : ∀ {n₁ n₂ : Machine}, Alike o n₁ n₂ → Alike o n₁.flush n₂ := by
      intro n₁ n₂ hn
      rw [Machine.flush]
      split
      · exact hn
      · refine Alike.write_unseen ?_ hunseen _
        exact { hn with addition := fun ho => absurd ho haddition }
    exact (hone (hone h).symm).symm

theorem Alike.leavePause (h : Alike o m₁ m₂) : Alike o m₁.leavePause m₂.leavePause := by
  have hleft : Alike o
      { m₁ with
        phase := .running
        generation := m₁.generation + 1
        journal := .proceeded :: m₁.journal }
      { m₂ with
        phase := .running
        generation := m₂.generation + 1
        journal := .proceeded :: m₂.journal } :=
    { h.note .proceeded with
      phase := rfl
      generation := fun ho => congrArg (· + 1) (h.generation ho) }
  exact hleft.flush

theorem Alike.enterOption (h : Alike o m₁ m₂) (option : Element) :
    Alike o (m₁.enterOption option) (m₂.enterOption option) :=
  { h.push option .option with offers := rfl }

theorem Alike.turn (h : Alike o m₁ m₂) (bound : Nat) (turn : Turn) :
    AlikeRun o (turn.run bound m₁) (turn.run bound m₂) := by
  cases turn with
  | play => exact h.play bound
  | resume =>
    simp only [Turn.run, Machine.resume, h.phase, h.offers]
    cases m₂.phase with
    | running => exact ⟨rfl, h⟩
    | finished => exact ⟨rfl, h⟩
    | paused pause =>
      simp only
      split
      · exact ⟨rfl, h⟩
      · exact h.leavePause.play bound
  | choose label =>
    simp only [Turn.run, Machine.choose, h.offers]
    cases m₂.offers.get? label with
    | none => exact ⟨rfl, h⟩
    | some option => exact (h.enterOption option).leavePause.play bound

theorem Alike.deliver (h : Alike o m₁ m₂) (hgeneration : o.generation = true) (task : Task) :
    (m₁.deliver task).1 = (m₂.deliver task).1 ∧
      Alike o (m₁.deliver task).2 (m₂.deliver task).2 := by
  rw [Machine.deliver, Machine.deliver, h.generation hgeneration]
  split
  · exact ⟨rfl, h.write _ _⟩
  · exact ⟨rfl, h⟩

/-- Who sees no surface does not see that a task comes back. -/
theorem Alike.deliver_unseen (h : Alike o m₁ m₂) (hunseen : ∀ surface, o.surface surface = false)
    (task : Task) : Alike o (m₁.deliver task).2 m₂ := by
  rw [Machine.deliver]
  split
  · exact h.write_unseen (hunseen _) _
  · exact h

end

end Machine

end StoryPlayer
