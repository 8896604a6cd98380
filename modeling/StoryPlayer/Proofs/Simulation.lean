import StoryPlayer.Proofs.Effects

/-! The frames of a machine do not show.  `remainder` says what is left to run after an element
without mentioning frames, and a step of the machine follows it on the continuation of its stack.
Two machines with the same continuation that agree on all else take the same steps, so that playing
them gives the same results. -/

namespace StoryPlayer

open Markup

namespace Blocks

/-- The block with an id, which has to be there. -/
def target (blocks : Blocks) (id : String) : Except Fault Element :=
  match blocks.get? id with
  | some block => .ok block
  | none => .error (.unknownBlock id)

/-- The block at which the document in `file` starts: the one with an id, or else the first. -/
def entrance (blocks : Blocks) (file : String) (block : Option String) : Except Fault Element :=
  match block.or blocks.first? with
  | some id => blocks.target id
  | none => .error (.noBlocks file)

end Blocks

namespace Machine

/-- What is left to run after the element `e`, before which `(e, inDescription) :: rest` was. -/
def remainder (m : Machine) (e : Element) (inDescription : Bool) (rest : Todo) :
    Instruction → Except Fault Todo
  | .block gate =>
    .ok (if (gate.enterBlock? m.flags).isSome then .part inDescription e.children ++ rest else rest)
  | .toDescription => .ok (.part true e.children ++ rest)
  | .call block =>
    (m.blocks.target block).map fun target => .part inDescription target.children ++ rest
  | .goto block => (m.blocks.target block).map fun target => .part false target.children
  | .load file block =>
    match m.library.fetch file with
    | .ok root =>
      ((Blocks.ofRoot root).entrance file block).map fun target => .part false target.children
    | .error fault => .error fault
  | _ => .ok rest

/-! ### One element -/

theorem call_eq (m : Machine) (id : String) :
    m.call id = match m.blocks.target id with
      | .ok block => (.ok (), m.push block .standard)
      | .error fault => (.error fault, m) := by
  rw [call, Blocks.target]
  cases m.blocks.get? id <;> rfl

theorem install_eq (m : Machine) (file : String) (root : Element) (block : Option String) :
    m.install file root block = match (Blocks.ofRoot root).entrance file block with
      | .ok target => (.ok (), (m.withDocument file root).push target .standard)
      | .error fault => (.error fault, m.withDocument file root) := by
  rw [install, Blocks.entrance]
  cases block.or (Blocks.ofRoot root).first? with
  | none => rfl
  | some id => exact (m.withDocument file root).call_eq id

@[simp] theorem writes_stack (m : Machine) (surfaces : List Surface) (markup : String) :
    (surfaces.foldl (fun m surface => m.write surface markup) m).stack = m.stack := by
  induction surfaces generalizing m with
  | nil => rfl
  | cons surface rest ih => exact ih _

/-- An instruction fails as `remainder` does, and otherwise leaves what `remainder` says. -/
theorem perform_remainder (m : Machine) (e : Element) (i : Instruction) :
    match m.remainder e (m.stack.hasRole .toDescription) m.stack.continuation i with
    | .ok todo => (m.perform e i).1 = .ok () ∧ (m.perform e i).2.stack.continuation = todo
    | .error fault => (m.perform e i).1 = .error fault := by
  cases i with
  | block gate =>
    simp only [remainder, perform]
    cases gate.enterBlock? m.flags with
    | none => exact ⟨rfl, rfl⟩
    | some flags => exact ⟨rfl, Stack.continuation_push _ _ _⟩
  | text speaker => exact ⟨rfl, congrArg Stack.continuation (m.showText_stack e.markup speaker)⟩
  | toDescription => exact ⟨rfl, Stack.continuation_push _ _ _⟩
  | clearScreen => exact ⟨rfl, congrArg Stack.continuation (m.writes_stack _ _)⟩
  | call block =>
    simp only [remainder, perform, call_eq]
    cases m.blocks.target block with
    | error fault => rfl
    | ok target => exact ⟨rfl, Stack.continuation_push _ _ _⟩
  | goto block =>
    simp only [remainder, perform, call_eq]
    cases m.blocks.target block with
    | error fault => rfl
    | ok target => exact ⟨rfl, Stack.continuation_singleton target⟩
  | load file block =>
    simp only [remainder, perform, load]
    cases m.library.fetch file with
    | error fault => rfl
    | ok root =>
      simp only [install_eq]
      cases (Blocks.ofRoot root).entrance file block with
      | error fault => rfl
      | ok target => exact ⟨rfl, Stack.continuation_singleton target⟩
  | title | description | pause | choice | flag | ignored => exact ⟨rfl, rfl⟩

/-! ### One step -/

theorem step_idle {m : Machine} (h : m.stack.continuation = []) :
    m.step = (.ok false, m.unwind.finish) :=
  step_eq_finish (m.stack.continuation_eq_nil_iff.mp h)

theorem step_dispatch {m : Machine} {e : Element} {inDescription : Bool} {rest : Todo}
    (h : m.stack.continuation = (e, inDescription) :: rest) :
    ∃ left : Stack, left.hasRole .toDescription = inDescription ∧ left.continuation = rest ∧
      m.step = settle ((m.take e left).execute e) := by
  obtain ⟨left, hpop, hrole, hrest⟩ := Stack.pop?_unwind h
  exact ⟨left, hrole, hrest, step_eq_settle hpop⟩

theorem settle_addition (outcome : Outcome Unit) :
    (settle outcome).2.addition = outcome.2.addition := by
  obtain ⟨phase, h⟩ := settle_agrees outcome
  rw [h]

theorem settle_continuation (outcome : Outcome Unit) :
    (settle outcome).2.stack.continuation = outcome.2.stack.continuation := by
  obtain ⟨_ | _, m⟩ := outcome
  · rfl
  · rw [settle]
    split
    · rw [finish_eq]
      exact m.stack.continuation_unwind
    · exact m.stack.continuation_unwind

theorem isEmpty_unwind (m : Machine) :
    m.unwind.stack.isEmpty = m.stack.continuation.isEmpty := by
  rw [Bool.eq_iff_iff, List.isEmpty_iff, List.isEmpty_iff]
  exact m.stack.continuation_eq_nil_iff.symm

theorem settle_ok (m : Machine) :
    (settle (.ok (), m)).1 = .ok (!m.stack.continuation.isEmpty) := by
  rw [settle, isEmpty_unwind]
  split
  · next h => rw [h]; rfl
  · next h => rw [Bool.eq_false_iff.mpr h]; rfl

/-- A step runs the head of the continuation and no other element. -/
theorem step_journal {m : Machine} {e : Element} {inDescription : Bool} {rest : Todo}
    (h : m.stack.continuation = (e, inDescription) :: rest) :
    ∃ shown, m.step.2.journal = shown ++ .ran e :: m.journal ∧ ∀ x, Event.ran x ∉ shown := by
  obtain ⟨left, -, -, hstep⟩ := step_dispatch h
  obtain ⟨shown, hjournal, hran⟩ := ((m.take e left).execute_effect e).journal
  exact ⟨shown, by rw [hstep, settle_journal, hjournal]; rfl, hran⟩

theorem remainder_take (m : Machine) (e : Element) (left : Stack) :
    (m.take e left).remainder = m.remainder := by
  funext e inDescription rest i
  cases i <;> rfl

/-- A step fails as `remainder` does; otherwise it leaves what `remainder` says, and answers whether
that is anything. -/
theorem step_remainder {m : Machine} {e : Element} {inDescription : Bool} {rest : Todo}
    (h : m.stack.continuation = (e, inDescription) :: rest) :
    match Instruction.ofElement e >>= m.remainder e inDescription rest with
    | .ok todo => m.step.1 = .ok (!todo.isEmpty) ∧ m.step.2.stack.continuation = todo
    | .error fault => m.step.1 = .error fault := by
  obtain ⟨left, rfl, rfl, hstep⟩ := step_dispatch h
  rw [hstep, settle_continuation]
  cases hread : Instruction.ofElement e with
  | error fault =>
    simp only [execute, hread]
    rfl
  | ok i =>
    have hperform := (m.take e left).perform_remainder e i
    rw [show (m.take e left).stack = left from rfl, remainder_take] at hperform
    have hexecute : (m.take e left).execute e = (m.take e left).perform e i := by
      simp only [execute, hread]
    rw [hexecute, show (Except.ok i >>= m.remainder e _ _ : Except Fault Todo) =
      m.remainder e _ _ i from rfl]
    generalize (m.take e left).perform e i = outcome at hperform ⊢
    obtain ⟨result, after⟩ := outcome
    cases hleft : m.remainder e (left.hasRole .toDescription) left.continuation i with
    | ok todo =>
      rw [hleft] at hperform
      obtain ⟨rfl, rfl⟩ := hperform
      exact ⟨settle_ok after, rfl⟩
    | error fault =>
      rw [hleft] at hperform
      obtain rfl := hperform
      rfl

theorem showText_addition (m : Machine) (markup : String) (speaker : Option String) :
    (m.showText markup speaker).addition =
      if m.stack.hasRole .toDescription then some (Text.trim markup) else m.addition := by
  have hline : (m.putLine markup speaker).addition =
      if m.stack.hasRole .toDescription then some (Text.trim markup) else m.addition := by
    show (if m.stack.hasRole .toDescription then _ else _ : Machine).addition = _
    split <;> rfl
  simp only [showText]
  split
  · exact hline
  · split
    · exact hline
    · exact hline

/-- A line is kept for the description exactly if the continuation says that it goes there. -/
theorem step_addition {m : Machine} {e : Element} {inDescription : Bool} {rest : Todo}
    (h : m.stack.continuation = (e, inDescription) :: rest) {speaker : Option String}
    (htext : Instruction.ofElement e = .ok (.text speaker)) :
    m.step.2.addition = if inDescription then some (Text.trim e.markup) else m.addition := by
  obtain ⟨left, rfl, -, hstep⟩ := step_dispatch h
  rw [hstep, settle_addition, execute, htext]
  exact (m.take e left).showText_addition e.markup speaker

/-! ### Machines with the same continuation -/

/-- A machine without its frames: all else, and what is left to run. -/
def unframed (m : Machine) : Machine × Todo := ({ m with stack := [] }, m.stack.continuation)

/-- What an operation answers and leaves, without frames. -/
def withoutFrames {α : Type} (outcome : Outcome α) : Except Fault α × Machine × Todo :=
  (outcome.1, outcome.2.unframed)

theorem unframed_write (m : Machine) (surface : Surface) (markup : String) :
    (m.write surface markup).unframed = (m.unframed.1.write surface markup, m.unframed.2) := rfl

theorem unframed_pause (m : Machine) : m.pause.unframed = (m.unframed.1.pause, m.unframed.2) := rfl

theorem unframed_unwind (m : Machine) : m.unwind.unframed = m.unframed :=
  congrArg (Prod.mk _) m.stack.continuation_unwind

theorem unframed_finish (m : Machine) :
    m.finish.unframed = (m.unframed.1.finish, m.unframed.2) := by
  show (if m.phase.isPaused then m else _).unframed = (if m.phase.isPaused then _ else _, _)
  split <;> rfl

/-- Machines that agree but for their frames are one machine with two stacks. -/
theorem exists_of_unframed_eq {m₁ m₂ : Machine} (h : m₁.unframed = m₂.unframed) :
    m₁ = { m₂ with stack := m₁.stack } ∧ m₁.stack.continuation = m₂.stack.continuation := by
  obtain ⟨hothers, hrest⟩ := Prod.mk.inj h
  cases m₁
  cases m₂
  simp_all

section Unframed

variable {s t : Stack} (hrole : s.hasRole .toDescription = t.hasRole .toDescription)
  (hrest : s.continuation = t.continuation) (m : Machine)
include hrest

theorem unframed_stack : { m with stack := s }.unframed = { m with stack := t }.unframed :=
  congrArg (Prod.mk _) hrest

include hrole

theorem unframed_push (e : Element) (role : Role) :
    ({ m with stack := s }.push e role).unframed =
      ({ m with stack := t }.push e role).unframed := by
  simp only [unframed, push, Stack.continuation_push, hrole, hrest]

theorem unframed_call (block : String) :
    withoutFrames ({ m with stack := s }.call block) =
      withoutFrames ({ m with stack := t }.call block) := by
  simp only [call_eq]
  cases m.blocks.target block with
  | error fault => exact congrArg (Prod.mk _) (unframed_stack hrest m)
  | ok target => exact congrArg (Prod.mk _) (unframed_push hrole hrest m target _)

theorem unframed_putLine (markup : String) (speaker : Option String) :
    ({ m with stack := s }.putLine markup speaker).unframed =
      ({ m with stack := t }.putLine markup speaker).unframed := by
  show (if s.hasRole .toDescription then _ else _ : Machine).unframed =
    (if t.hasRole .toDescription then _ else _ : Machine).unframed
  rw [hrole]
  split
  · exact congrArg (Prod.mk _) hrest
  · exact congrArg (Prod.mk _) hrest

theorem unframed_showText (markup : String) (speaker : Option String) :
    ({ m with stack := s }.showText markup speaker).unframed =
      ({ m with stack := t }.showText markup speaker).unframed := by
  have hnext : s.upcoming? = t.upcoming? := by
    rw [Stack.upcoming?_eq_head?, Stack.upcoming?_eq_head?, hrest]
  have hline := unframed_putLine hrole hrest m markup speaker
  simp only [showText, putLine_stack, hnext]
  split
  · rw [unframed_write, unframed_write, hline]
  · split
    · exact hline
    · rw [unframed_pause, unframed_pause, hline]

/-- An instruction sees no more of the frames than the continuation and whether lines go to the
description. -/
theorem unframed_perform (e : Element) (i : Instruction) :
    withoutFrames ({ m with stack := s }.perform e i) =
      withoutFrames ({ m with stack := t }.perform e i) := by
  cases i with
  | block gate =>
    simp only [perform]
    split
    · next flags _ => exact congrArg (Prod.mk _) (unframed_push hrole hrest { m with flags } e _)
    · exact congrArg (Prod.mk _) (unframed_stack hrest m)
  | text speaker => exact congrArg (Prod.mk _) (unframed_showText hrole hrest m e.markup speaker)
  | toDescription => exact congrArg (Prod.mk _) (unframed_push hrole hrest m e _)
  | call block => exact unframed_call hrole hrest m block
  | goto block => rfl
  | load file block =>
    simp only [perform, load]
    split
    · rfl
    · exact congrArg (Prod.mk _) (unframed_stack hrest m)
  | title | description | clearScreen | pause | choice | flag | ignored =>
    exact congrArg (Prod.mk _) (congrArg (Prod.mk _) hrest)

theorem unframed_execute (e : Element) :
    withoutFrames ({ m with stack := s }.execute e) =
      withoutFrames ({ m with stack := t }.execute e) := by
  simp only [execute]
  split
  · exact unframed_perform hrole hrest m e _
  · exact congrArg (Prod.mk _) (unframed_stack hrest m)

end Unframed

theorem unframed_settle {first second : Outcome Unit}
    (h : withoutFrames first = withoutFrames second) :
    withoutFrames (settle first) = withoutFrames (settle second) := by
  obtain ⟨result, m₁⟩ := first
  obtain ⟨other, m₂⟩ := second
  obtain ⟨hresult, hm⟩ := Prod.mk.inj h
  obtain rfl : result = other := hresult
  cases result with
  | error fault => exact congrArg (Prod.mk _) hm
  | ok =>
    have hempty : m₁.unwind.stack.isEmpty = m₂.unwind.stack.isEmpty := by
      rw [isEmpty_unwind, isEmpty_unwind]
      exact congrArg List.isEmpty (Prod.mk.inj hm).2
    simp only [settle, hempty]
    split
    · simp only [withoutFrames, unframed_finish, unframed_unwind, hm]
    · simp only [withoutFrames, unframed_unwind, hm]

/-- A step takes machines that agree but for their frames to such machines, with one answer. -/
theorem unframed_step {m₁ m₂ : Machine} (h : m₁.unframed = m₂.unframed) :
    withoutFrames m₁.step = withoutFrames m₂.step := by
  obtain ⟨hothers, hrest⟩ := exists_of_unframed_eq h
  cases hc : m₂.stack.continuation with
  | nil =>
    rw [step_idle hc, step_idle (hrest.trans hc)]
    simp only [withoutFrames, unframed_finish, unframed_unwind, h]
  | cons first rest =>
    obtain ⟨e, inDescription⟩ := first
    obtain ⟨left₁, hrole₁, hrest₁, hstep₁⟩ := step_dispatch (hrest.trans hc)
    obtain ⟨left₂, hrole₂, hrest₂, hstep₂⟩ := step_dispatch hc
    have htake : m₁.take e left₁ = { m₂.take e left₂ with stack := left₁ } := by
      rw [hothers]
      rfl
    rw [hstep₁, hstep₂, htake]
    exact unframed_settle (unframed_execute (hrole₁.trans hrole₂.symm) (hrest₁.trans hrest₂.symm)
      (m₂.take e left₂) e)

theorem unframed_play (bound : Nat) {m₁ m₂ : Machine} (h : m₁.unframed = m₂.unframed) :
    (m₁.play bound).map withoutFrames = (m₂.play bound).map withoutFrames := by
  induction bound generalizing m₁ m₂ with
  | zero => rfl
  | succ bound ih =>
    have hphase : m₁.phase = m₂.phase := congrArg (fun u => u.1.phase) h
    have hstep := unframed_step h
    simp only [play, hphase]
    split
    · exact congrArg (fun u => some (Except.ok (), u)) h
    · rcases h₁ : m₁.step with ⟨result, n₁⟩
      rcases h₂ : m₂.step with ⟨_, n₂⟩
      rw [h₁, h₂] at hstep
      obtain ⟨rfl, hn⟩ := Prod.mk.inj hstep
      match result with
      | .error fault => exact congrArg (fun u => some (Except.error fault, u)) hn
      | .ok true => exact ih hn
      | .ok false => exact congrArg (fun u => some (Except.ok (), u)) hn

/-! ### The machine without frames -/

theorem continuation_choose (m : Machine) (option : Element) :
    (m.enterOption option).leavePause.stack.continuation =
      .part (m.stack.hasRole .toDescription) option.children ++ m.stack.continuation := by
  rw [leavePause, flush_stack]
  exact Stack.continuation_push m.stack option .option

theorem choose_eq_play {m : Machine} {label : String} {option : Element}
    (h : m.offers.get? label = some option) (bound : Nat) :
    m.choose bound label = (m.enterOption option).leavePause.play bound := by
  rw [choose, h]
  rfl

/-- The machine is simulated by one without frames, which keeps the continuation in their place.
Its head is seen ahead and runs next, what that element leaves is its remainder, a chosen option is
put in front of it, and all else depends on the frames through it only. -/
theorem step_follows_continuation (m : Machine) :
    m.stack.upcoming? = m.stack.continuation.head?.map Prod.fst ∧
    (m.stack.upcoming? = none ↔ m.stack.continuation = []) ∧
    (m.step.1 = .ok false ∧ m.step.2.journal = m.journal ↔ m.stack.continuation = []) ∧
    (∀ e inDescription rest, m.stack.continuation = (e, inDescription) :: rest →
      (∃ shown, m.step.2.journal = shown ++ .ran e :: m.journal ∧ ∀ x, Event.ran x ∉ shown) ∧
      (match Instruction.ofElement e >>= m.remainder e inDescription rest with
        | .ok todo => m.step.1 = .ok (!todo.isEmpty) ∧ m.step.2.stack.continuation = todo
        | .error fault => m.step.1 = .error fault) ∧
      (∀ speaker, Instruction.ofElement e = .ok (.text speaker) →
        m.step.2.addition = if inDescription then some (Text.trim e.markup) else m.addition)) ∧
    (∀ label option, m.offers.get? label = some option →
      (∀ bound, m.choose bound label = (m.enterOption option).leavePause.play bound) ∧
      (m.enterOption option).leavePause.stack.continuation =
        .part (m.stack.hasRole .toDescription) option.children ++ m.stack.continuation) ∧
    (∀ other : Machine, m.unframed = other.unframed →
      withoutFrames m.step = withoutFrames other.step ∧
      ∀ bound, (m.play bound).map withoutFrames = (other.play bound).map withoutFrames) := by
  have hahead := m.stack.upcoming?_eq_head?
  refine ⟨hahead, ?_, ⟨fun ⟨_, hquiet⟩ => ?_, fun hnil => ?_⟩, fun e inDescription rest h => ?_,
    fun label option h => ⟨choose_eq_play h, m.continuation_choose option⟩,
    fun other h => ⟨unframed_step h, fun bound => unframed_play bound h⟩⟩
  · rw [hahead, Option.map_eq_none_iff, List.head?_eq_none_iff]
  · cases hc : m.stack.continuation with
    | nil => rfl
    | cons first rest =>
      obtain ⟨shown, hjournal, -⟩ := step_journal hc
      have hlength := congrArg List.length (hjournal.symm.trans hquiet)
      simp only [List.length_append, List.length_cons] at hlength
      omega
  · rw [step_idle hnil, finish_eq]
    exact ⟨rfl, rfl⟩
  · exact ⟨step_journal h, step_remainder h, fun speaker htext => step_addition h htext⟩

end Machine

end StoryPlayer
