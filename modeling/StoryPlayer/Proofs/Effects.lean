import StoryPlayer.Machine.Run
import StoryPlayer.Proofs.Continuation

/-! What running an element can do to a machine.  Most elements are quiet: they change the stack,
the flags, the screen and the line kept for the description, and nothing else.  The others wait for
the reader, show a choice, or install a document.  `execute_effect` says so of every element, and
`step_stepped` says what a step does around it; facts about whole runs are proved from these two. -/

namespace StoryPlayer

open Markup

/-- The element that an event takes from the stack. -/
def Event.element? : Event → Option Element
  | ran element => some element
  | _ => none

namespace Machine

/-- `after` agrees with `before` on where the story stands, and the journal has new writes only. -/
structure Quiet (before after : Machine) : Prop where
  library : after.library = before.library
  choiceDelay : after.choiceDelay = before.choiceDelay
  blocks : after.blocks = before.blocks
  file : after.file = before.file
  offers : after.offers = before.offers
  phase : after.phase = before.phase
  generation : after.generation = before.generation
  journal : ∃ writes : List (Surface × String),
    after.journal = writes.map (fun w => .wrote w.1 w.2) ++ before.journal

theorem Quiet.refl (m : Machine) : Quiet m m := ⟨rfl, rfl, rfl, rfl, rfl, rfl, rfl, [], rfl⟩

theorem Quiet.trans {m₁ m₂ m₃ : Machine} (h₁ : Quiet m₁ m₂) (h₂ : Quiet m₂ m₃) : Quiet m₁ m₃ := by
  obtain ⟨early, he⟩ := h₁.journal
  obtain ⟨late, hl⟩ := h₂.journal
  exact ⟨h₂.library.trans h₁.library, h₂.choiceDelay.trans h₁.choiceDelay,
    h₂.blocks.trans h₁.blocks, h₂.file.trans h₁.file, h₂.offers.trans h₁.offers,
    h₂.phase.trans h₁.phase, h₂.generation.trans h₁.generation, late ++ early, by
      rw [hl, he, List.map_append, List.append_assoc]⟩

theorem quiet_stack (m : Machine) (stack : Stack) : Quiet m { m with stack } :=
  ⟨rfl, rfl, rfl, rfl, rfl, rfl, rfl, [], rfl⟩

theorem quiet_flags (m : Machine) (flags : Flags) : Quiet m { m with flags } :=
  ⟨rfl, rfl, rfl, rfl, rfl, rfl, rfl, [], rfl⟩

theorem quiet_addition (m : Machine) (addition : Option String) : Quiet m { m with addition } :=
  ⟨rfl, rfl, rfl, rfl, rfl, rfl, rfl, [], rfl⟩

theorem quiet_write (m : Machine) (surface : Surface) (markup : String) :
    Quiet m (m.write surface markup) :=
  ⟨rfl, rfl, rfl, rfl, rfl, rfl, rfl, [(surface, markup)], rfl⟩

theorem quiet_writes (m : Machine) (surfaces : List Surface) (markup : String) :
    Quiet m (surfaces.foldl (fun m surface => m.write surface markup) m) := by
  induction surfaces generalizing m with
  | nil => exact Quiet.refl m
  | cons surface rest ih => exact (m.quiet_write surface markup).trans (ih _)

theorem quiet_call (m : Machine) (id : String) : Quiet m (m.call id).2 := by
  rw [call]
  split
  · exact m.quiet_stack _
  · exact Quiet.refl m

/-- Entering a block changes the stack and nothing else. -/
theorem call_agrees (m : Machine) (id : String) :
    (m.call id).2 = { m with stack := (m.call id).2.stack } := by
  rw [call]
  split <;> rfl

theorem install_agrees (m : Machine) (file : String) (root : Element) (block : Option String) :
    (m.install file root block).2 =
      { m.withDocument file root with stack := (m.install file root block).2.stack } := by
  rw [install]
  split
  · exact call_agrees _ _
  · rfl

theorem quiet_install (m : Machine) (file : String) (root : Element) (block : Option String) :
    Quiet (m.withDocument file root) (m.install file root block).2 := by
  rw [install]
  split
  · exact quiet_call _ _
  · exact Quiet.refl _

theorem install_journal (m : Machine) (file : String) (root : Element) (block : Option String) :
    ∃ writes : List (Surface × String), (m.install file root block).2.journal =
      writes.map (fun w => .wrote w.1 w.2) ++ .installed file :: m.journal :=
  (m.quiet_install file root block).journal

theorem quiet_flush (m : Machine) : Quiet m m.flush := by
  rw [flush]
  split
  · exact Quiet.refl m
  · exact (m.quiet_addition none).trans (quiet_write _ _ _)

theorem flush_stack (m : Machine) : m.flush.stack = m.stack := by
  rw [flush]
  split <;> rfl

theorem quiet_leavePause (m : Machine) :
    Quiet { m with
      phase := .running
      generation := m.generation + 1
      journal := .proceeded :: m.journal } m.leavePause :=
  quiet_flush _

theorem leavePause_journal (m : Machine) :
    ∃ writes : List (Surface × String), m.leavePause.journal =
      writes.map (fun w => .wrote w.1 w.2) ++ .proceeded :: m.journal :=
  m.quiet_leavePause.journal

@[simp] theorem putLine_stack (m : Machine) (markup : String) (speaker : Option String) :
    (m.putLine markup speaker).stack = m.stack := by
  simp only [putLine]
  split <;> rfl

theorem quiet_putLine (m : Machine) (markup : String) (speaker : Option String) :
    Quiet m (m.putLine markup speaker) := by
  have hwrites := (m.quiet_write .speaker (speaker.getD noSpeaker)).trans
    (quiet_write _ .text (shownLine markup speaker))
  simp only [putLine]
  split
  · exact hwrites.trans (quiet_addition _ _)
  · exact hwrites

@[simp] theorem showText_stack (m : Machine) (markup : String) (speaker : Option String) :
    (m.showText markup speaker).stack = m.stack := by
  have hline := m.putLine_stack markup speaker
  simp only [showText]
  split
  · exact hline
  · split
    · exact hline
    · exact hline

/-- What running the element `e` can do. -/
inductive Effect (m : Machine) (e : Element) : Except Fault Unit → Machine → Prop
  | quiet {result : Except Fault Unit} {after : Machine} :
      Quiet m after → Effect m e result after
  | paused {after : Machine} : Quiet m after → Effect m e (.ok ()) after.pause
  | choice {offers : List Offer} :
      Instruction.ofElement e = .ok (.choice offers) → Effect m e (.ok ()) (m.showChoice offers)
  | installed {file : String} {block : Option String} {root : Element}
      {result : Except Fault Unit} {after : Machine} :
      Instruction.ofElement e = .ok (.load file block) → m.library.fetch file = .ok root →
      m.install file root block = (result, after) → Effect m e result after

theorem showText_effect (m : Machine) (e : Element) (markup : String) (speaker : Option String) :
    Effect m e (.ok ()) (m.showText markup speaker) := by
  have hline := m.quiet_putLine markup speaker
  simp only [showText]
  split
  · exact .quiet (hline.trans (quiet_write _ _ _))
  · split
    · exact .quiet hline
    · exact .paused hline

theorem perform_effect (m : Machine) (e : Element) {i : Instruction}
    (h : Instruction.ofElement e = .ok i) : Effect m e (m.perform e i).1 (m.perform e i).2 := by
  cases i with
  | block gate =>
    simp only [perform]
    split
    · exact .quiet ((m.quiet_flags _).trans (quiet_stack _ _))
    · exact .quiet (Quiet.refl m)
  | title => exact .quiet (m.quiet_write _ _)
  | description => exact .quiet (m.quiet_write _ _)
  | text speaker => exact m.showText_effect e e.markup speaker
  | toDescription => exact .quiet (m.quiet_stack _)
  | clearScreen => exact .quiet (m.quiet_writes _ _)
  | pause => exact .paused (Quiet.refl m)
  | choice offers => exact .choice h
  | flag set clear => exact .quiet (m.quiet_flags _)
  | call block => exact .quiet (m.quiet_call block)
  | goto block => exact .quiet ((m.quiet_stack []).trans (quiet_call _ block))
  | load file block =>
    simp only [perform, load]
    cases hfetch : m.library.fetch file with
    | ok root => exact .installed h hfetch rfl
    | error fault => exact .quiet (Quiet.refl m)
  | ignored => exact .quiet (Quiet.refl m)

theorem execute_effect (m : Machine) (e : Element) :
    Effect m e (m.execute e).1 (m.execute e).2 := by
  rw [execute]
  split
  · next i h => exact m.perform_effect e h
  · exact .quiet (Quiet.refl m)

theorem Effect.journal {m after : Machine} {e : Element} {result : Except Fault Unit}
    (h : Effect m e result after) :
    ∃ shown, after.journal = shown ++ m.journal ∧ ∀ x, Event.ran x ∉ shown := by
  cases h with
  | quiet hquiet =>
    obtain ⟨writes, hw⟩ := hquiet.journal
    exact ⟨_, hw, by simp⟩
  | @paused after hquiet =>
    obtain ⟨writes, hw⟩ := hquiet.journal
    refine ⟨.wrote .interaction Interaction.next.render :: writes.map fun w => .wrote w.1 w.2,
      ?_, by simp⟩
    exact congrArg (List.cons _) hw
  | choice => exact ⟨[.scheduled _ _, .wrote _ _], rfl, by simp⟩
  | @installed file block root _ _ _ _ hinstall =>
    obtain ⟨writes, hw⟩ := m.install_journal file root block
    rw [hinstall, List.append_cons] at hw
    exact ⟨_, hw, by simp⟩

theorem Effect.library {m after : Machine} {e : Element} {result : Except Fault Unit}
    (h : Effect m e result after) : after.library = m.library := by
  cases h with
  | quiet hquiet => exact hquiet.library
  | paused hquiet => exact hquiet.library
  | choice => rfl
  | @installed file block root _ _ _ _ hinstall =>
    have hquiet := m.quiet_install file root block
    rw [hinstall] at hquiet
    exact hquiet.library

theorem finish_eq (m : Machine) :
    m.finish = { m with phase := if m.phase.isPaused then m.phase else .finished } := by
  rw [finish]
  split <;> rfl

/-- Settling changes nothing but the stack, from which it takes exhausted frames, and the phase. -/
theorem settle_agrees (outcome : Outcome Unit) :
    ∃ phase, (settle outcome).2 =
      { outcome.2 with stack := (settle outcome).2.stack, phase } := by
  obtain ⟨_ | _, m⟩ := outcome
  · exact ⟨m.phase, rfl⟩
  · rw [settle]
    split
    · rw [finish_eq]
      exact ⟨_, rfl⟩
    · exact ⟨m.phase, rfl⟩

theorem settle_journal (outcome : Outcome Unit) :
    (settle outcome).2.journal = outcome.2.journal := by
  obtain ⟨phase, h⟩ := settle_agrees outcome
  rw [h]

theorem settle_screen (outcome : Outcome Unit) :
    (settle outcome).2.screen = outcome.2.screen := by
  obtain ⟨phase, h⟩ := settle_agrees outcome
  rw [h]

theorem settle_stack {outcome : Outcome Unit} (h : outcome.1 = .ok ()) :
    (settle outcome).2.stack = outcome.2.stack.unwind := by
  obtain ⟨result, m⟩ := outcome
  obtain rfl : result = .ok () := h
  rw [settle]
  split
  · rw [finish_eq]
    rfl
  · rfl

theorem settle_library (outcome : Outcome Unit) :
    (settle outcome).2.library = outcome.2.library := by
  obtain ⟨phase, h⟩ := settle_agrees outcome
  rw [h]

theorem settle_of_true {outcome : Outcome Unit} (h : (settle outcome).1 = .ok true) :
    outcome.2.stack.unwind ≠ [] ∧ (settle outcome).2 = outcome.2.unwind := by
  obtain ⟨_ | _, m⟩ := outcome
  · cases h
  · rw [settle] at h ⊢
    split at h
    · cases h
    · next hleft =>
      rw [if_neg hleft]
      exact ⟨fun hnil => hleft (List.isEmpty_iff.mpr hnil), rfl⟩

theorem step_eq_finish {m : Machine} (h : m.stack.unwind = []) :
    m.step = (.ok false, m.unwind.finish) := by
  rw [step, show m.unwind.stack = [] from h]
  rfl

theorem step_eq_settle {m : Machine} {e : Element} {left : Stack}
    (h : m.stack.unwind.pop? = some (e, left)) : m.step = settle ((m.take e left).execute e) := by
  rw [step, show m.unwind.stack.pop? = some (e, left) from h]

/-- What a step can answer and leave. -/
inductive Stepped (m : Machine) : Except Fault Bool → Machine → Prop
  | idle : m.stack.unwind = [] → Stepped m (.ok false) m.unwind.finish
  | failed {e : Element} {stack : Stack} {fault : Fault} {after : Machine} :
      m.stack.unwind.pop? = some (e, stack) →
      (m.take e stack).execute e = (.error fault, after) → Stepped m (.error fault) after
  | last {e : Element} {stack : Stack} {after : Machine} :
      m.stack.unwind.pop? = some (e, stack) → (m.take e stack).execute e = (.ok (), after) →
      after.stack.unwind = [] → Stepped m (.ok false) after.unwind.finish
  | more {e : Element} {stack : Stack} {after : Machine} :
      m.stack.unwind.pop? = some (e, stack) → (m.take e stack).execute e = (.ok (), after) →
      after.stack.unwind ≠ [] → Stepped m (.ok true) after.unwind

theorem step_stepped (m : Machine) : Stepped m m.step.1 m.step.2 := by
  rw [step]
  cases hpop : m.unwind.stack.pop? with
  | none => exact .idle (Stack.unwind_eq_nil_of_pop? hpop)
  | some taken =>
    obtain ⟨e, stack⟩ := taken
    cases hrun : (m.take e stack).execute e with
    | mk result after =>
      cases result with
      | error fault =>
        simp only [hrun, settle]
        exact .failed hpop hrun
      | ok =>
        simp only [hrun, settle]
        split
        · next hempty => exact .last hpop hrun (List.isEmpty_iff.mp hempty)
        · next hleft => exact .more hpop hrun fun h => hleft (List.isEmpty_iff.mpr h)

/-- What holds whatever the element does, and is not changed by taking exhausted frames away or by
ending the story, holds after a step. -/
theorem step_keeps {P : Machine → Prop} {m : Machine} (hidle : m.stack.unwind = [] → P m)
    (hexecute : ∀ {e left result after}, m.stack.unwind.pop? = some (e, left) →
      (m.take e left).execute e = (result, after) → P after)
    (hunwind : ∀ {after}, P after → P after.unwind)
    (hfinish : ∀ {after}, P after → P after.finish) : P m.step.2 := by
  have hstepped := m.step_stepped
  generalize m.step = outcome at hstepped ⊢
  obtain ⟨result, after⟩ := outcome
  cases hstepped with
  | idle hnil => exact hfinish (hunwind (hidle hnil))
  | failed hpop hrun => exact hexecute hpop hrun
  | last hpop hrun => exact hfinish (hunwind (hexecute hpop hrun))
  | more hpop hrun => exact hunwind (hexecute hpop hrun)

/-! ### Elements that ran -/

/-- `elements` are the elements that ran, oldest first, on the way from `before` to `after`. -/
def Ran (before after : Machine) (elements : List Element) : Prop :=
  ∃ events : List Event, after.journal = events.reverse ++ before.journal ∧
    events.filterMap Event.element? = elements

theorem Ran.trans {m₁ m₂ m₃ : Machine} {early late : List Element} (h₁ : Ran m₁ m₂ early)
    (h₂ : Ran m₂ m₃ late) : Ran m₁ m₃ (early ++ late) := by
  obtain ⟨first, hfirst, rfl⟩ := h₁
  obtain ⟨second, hsecond, rfl⟩ := h₂
  refine ⟨first ++ second, ?_, List.filterMap_append⟩
  rw [hsecond, hfirst, List.reverse_append, List.append_assoc]

theorem Ran.unique {before after : Machine} {elements others : List Element}
    (h : Ran before after elements) (h' : Ran before after others) : elements = others := by
  obtain ⟨events, hevents, rfl⟩ := h
  obtain ⟨events', hevents', rfl⟩ := h'
  rw [hevents, List.append_left_inj, List.reverse_inj] at hevents'
  rw [hevents']

theorem Ran.of_shown {before after : Machine} {shown : List Event}
    (hjournal : after.journal = shown ++ before.journal) (hran : ∀ x, Event.ran x ∉ shown) :
    Ran before after [] := by
  refine ⟨shown.reverse, by rw [hjournal, List.reverse_reverse], ?_⟩
  rw [List.filterMap_eq_nil_iff]
  intro event hmem
  cases event with
  | ran x => exact absurd (List.mem_reverse.mp hmem) (hran x)
  | wrote | scheduled | installed | proceeded => rfl

theorem Quiet.ran {m after : Machine} (h : Quiet m after) : Ran m after [] := by
  obtain ⟨writes, hwrites⟩ := h.journal
  exact .of_shown hwrites (by simp)

theorem ran_execute {m post : Machine} {e : Element} {stack : Stack} {result : Except Fault Unit}
    (h : (m.take e stack).execute e = (result, post)) : Ran m post [e] := by
  obtain ⟨shown, hjournal, hran⟩ := ((m.take e stack).execute_effect e).journal
  rw [h] at hjournal
  have htake : Ran m (m.take e stack) [e] := ⟨[.ran e], rfl, rfl⟩
  exact htake.trans (.of_shown hjournal hran)

end Machine

end StoryPlayer
