import StoryPlayer.Proofs.Faults
import StoryPlayer.Proofs.Protocol
import StoryPlayer.Proofs.Stops

/-! What a failure leaves behind.  A call that is refused changes nothing, and a host can tell a
refusal by its code, for no element raises a fault of such a code.  An element that fails has been
taken from the stack, and that is all, but for two exceptions: a `goto` has given up the frames
under way before it looks for its block, and a `load` has put its document in place before it looks
for the block to enter.  In no case does it touch the flags, the screen, the line kept for the
description or the queue of tasks. -/

namespace StoryPlayer

open Markup

namespace Session

theorem foldl_of_no_task {f : Timer → Event → Timer}
    (hother : ∀ timer event, event.task? = none → f timer event = timer) {events : List Event}
    (h : ∀ event ∈ events, event.task? = none) (timer : Timer) : events.foldl f timer = timer := by
  induction events with
  | nil => rfl
  | cons event rest ih =>
    rw [List.foldl_cons, hother timer event (h event List.mem_cons_self)]
    exact ih fun other hmem => h other (List.mem_cons_of_mem _ hmem)

/-- The queue of a host gets nothing from events in which no task is scheduled. -/
theorem collect_timer_eq {m after : Machine} {fresh : List Event}
    (h : after.journal = fresh ++ m.journal) (hfresh : ∀ event ∈ fresh, event.task? = none)
    (timer : Timer) (now : Nat) :
    (collect ⟨after, timer, now⟩).2.timer = (collect ⟨m, timer, now⟩).2.timer := by
  simp only [collect, Machine.takeJournal, h, List.reverse_append, List.foldl_append]
  refine foldl_of_no_task (fun timer event hnone => ?_) (by simpa using hfresh) _
  cases event with
  | scheduled => cases hnone
  | ran | wrote | installed | proceeded => rfl

end Session

namespace Machine

/-! ### Elements that fail -/

/-- What is left of `m` when the element `e`, which was taken from the stack and left `left`, has
failed. -/
inductive Aborted (m : Machine) (e : Element) (left : Stack) : Fault → Machine → Prop
  /-- Nothing happened but that the element was taken. -/
  | inPlace {fault : Fault} : (∀ id, Instruction.ofElement e ≠ .ok (.goto id)) →
      (∀ file, ¬m.library.Installs e file) →
      Aborted m e left fault { m with stack := left, journal := .ran e :: m.journal }
  /-- No frame is left to go back to. -/
  | nowhere {id : String} : Instruction.ofElement e = .ok (.goto id) → m.blocks.get? id = none →
      Aborted m e left (.unknownBlock id)
        { m with stack := [], journal := .ran e :: m.journal }
  /-- The new document is in place, and none of its blocks is entered. -/
  | unentered {file : String} {block : Option String} {root : Element} {fault : Fault} :
      Instruction.ofElement e = .ok (.load file block) → m.library.fetch file = .ok root →
      (fault = .noBlocks file ∨ ∃ id, fault = .unknownBlock id) →
      Aborted m e left fault
        { m with
          blocks := .ofRoot root
          file := some file
          stack := []
          offers := []
          generation := m.generation + 1
          phase := .running
          journal := .installed file :: .ran e :: m.journal }

theorem call_eq_error {m after : Machine} {id : String} {fault : Fault}
    (h : m.call id = (.error fault, after)) :
    m.blocks.get? id = none ∧ fault = .unknownBlock id ∧ after = m := by
  rw [call] at h
  split at h
  · cases h
  · next hnone =>
    cases h
    exact ⟨hnone, rfl, rfl⟩

theorem install_eq_error {m after : Machine} {file : String} {root : Element}
    {block : Option String} {fault : Fault}
    (h : m.install file root block = (.error fault, after)) :
    (fault = .noBlocks file ∨ ∃ id, fault = .unknownBlock id) ∧
      after = m.withDocument file root := by
  rw [install] at h
  split at h
  · next id _ =>
    obtain ⟨-, hfault, hafter⟩ := call_eq_error h
    exact ⟨.inr ⟨id, hfault⟩, hafter⟩
  · cases h
    exact ⟨.inl rfl, rfl⟩

theorem execute_aborted {m after : Machine} {e : Element} {left : Stack} {fault : Fault}
    (h : (m.take e left).execute e = (.error fault, after)) : Aborted m e left fault after := by
  rw [execute] at h
  cases hread : Instruction.ofElement e with
  | error cause =>
    rw [hread] at h
    cases h
    exact .inPlace (by simp [hread]) (by simp [Library.Installs, hread])
  | ok i =>
    simp only [hread] at h
    cases i with
    | call id =>
      obtain ⟨-, -, rfl⟩ := call_eq_error h
      exact .inPlace (by simp [hread]) (by simp [Library.Installs, hread])
    | goto id =>
      obtain ⟨hnone, rfl, rfl⟩ := call_eq_error h
      exact .nowhere hread hnone
    | load file block =>
      simp only [perform, load] at h
      split at h
      · next root hfetch =>
        obtain ⟨hfault, rfl⟩ := install_eq_error h
        exact .unentered hread hfetch hfault
      · next hfetch =>
        cases h
        refine .inPlace (by simp [hread]) ?_
        rintro other ⟨_, root, hother, hroot⟩
        rw [hread] at hother
        cases hother
        cases hfetch.symm.trans hroot
    | block gate =>
      simp only [perform] at h
      split at h <;> cases h
    | title | description | text | toDescription | clearScreen | pause | choice | flag | ignored =>
      cases h

theorem step_aborted {m after : Machine} {fault : Fault} (h : m.step = (.error fault, after)) :
    ∃ frame rest e, m.stack.unwind = frame :: rest ∧ frame.next? = some e ∧
      Aborted m e (frame.advanced :: rest) fault after := by
  have hstepped := m.step_stepped
  rw [h] at hstepped
  cases hstepped with
  | failed hpop hexecute =>
    obtain ⟨frame, rest, hstack, hnext, rfl⟩ := Stack.eq_cons_of_pop? hpop
    exact ⟨frame, rest, _, hstack, hnext, execute_aborted hexecute⟩

theorem Aborted.journal {m after : Machine} {e : Element} {left : Stack} {fault : Fault}
    (h : Aborted m e left fault after) :
    ∃ notes : List Event, after.journal = notes ++ m.journal ∧
      ∀ event ∈ notes, event.task? = none := by
  cases h with
  | inPlace | nowhere => exact ⟨[.ran e], rfl, by simp [Event.task?]⟩
  | @unentered file => exact ⟨[.installed file, .ran e], rfl, by simp [Event.task?]⟩

/-- An element that fails leaves what the reader and the flags have to do with as it was, and of all
else it changes only what `Aborted` says. -/
theorem failed_step_leaves {m after : Machine} {fault : Fault}
    (h : m.step = (.error fault, after)) :
    (after.flags = m.flags ∧ after.screen = m.screen ∧ after.addition = m.addition ∧
      ∀ timer now, (Session.collect ⟨after, timer, now⟩).2.timer =
        (Session.collect ⟨m, timer, now⟩).2.timer) ∧
    ∃ frame rest e, m.stack.unwind = frame :: rest ∧ frame.next? = some e ∧
      Aborted m e (frame.advanced :: rest) fault after := by
  obtain ⟨frame, rest, e, hstack, hnext, haborted⟩ := step_aborted h
  obtain ⟨notes, hjournal, hnotes⟩ := haborted.journal
  refine ⟨?_, frame, rest, e, hstack, hnext, haborted⟩
  have htimer := Session.collect_timer_eq hjournal hnotes
  cases haborted with
  | inPlace | nowhere | unentered => exact ⟨rfl, rfl, rfl, htimer⟩

/-- A choice whose first option sets a flag when it is offered, and whose second has no label. -/
def booth : Element :=
  ⟨"block", [("id", "start")],
    [⟨"choice", [],
        [⟨"option", [("of", "buy"), ("trip", "bought")], [], "", .synthetic⟩,
          ⟨"option", [], [], "", .synthetic⟩], "", .synthetic⟩],
    "", .synthetic⟩

/-- The choice fails as a whole: the first option is not offered, and its flag is not set. -/
theorem failed_step_leaves_booth :
    ∃ m after : Machine, m.step = (.error (.missingAttribute "option" "of" .synthetic), after) ∧
      after.flags = m.flags ∧ after.screen = m.screen ∧ after.offers = m.offers ∧
      ∃ frame rest, m.stack.unwind = frame :: rest ∧ after.stack = frame.advanced :: rest := by
  have hstep : ((new [] 300).install "main.xml" booth none).2.step =
    (.error (.missingAttribute "option" "of" .synthetic), _) := rfl
  obtain ⟨⟨hflags, hscreen, -⟩, frame, rest, e, hstack, hnext, haborted⟩ := failed_step_leaves hstep
  refine ⟨_, _, hstep, hflags, hscreen, ?_⟩
  obtain ⟨rfl, rfl⟩ := List.cons.inj hstack
  obtain rfl := Option.some.inj hnext
  exact ⟨rfl, _, _, rfl, rfl⟩

end Machine

/-! ### Calls that are refused -/

/-- The codes that tell a host that it asked for something that cannot be had. -/
def refusalCodes : List String :=
  ["ENGINE_UNKNOWN_OPTION", "ENGINE_CHOICE_PENDING", "ENGINE_NOT_PAUSED", "ENGINE_UNKNOWN_TARGET"]

theorem not_mem_refusalCodes {code : String} (h : code ∈ elementCodes) : code ∉ refusalCodes := by
  revert code
  decide

/-- The fault with which a call is refused, if it is. -/
def Turn.refusal? (m : Machine) : Turn → Option Fault
  | play => none
  | resume =>
    if m.phase.isPaused then
      if m.phase = .paused .choice ∧ m.offers ≠ [] then some .choicePending else none
    else some .notPaused
  | choose label => if label ∈ m.labels then none else some (.unknownOption label)

/-- The call returned, and failed with a fault of the code. -/
def FailsWith (code : String) (returned : Option (Outcome Unit)) : Prop :=
  ∃ fault after, returned = some (.error fault, after) ∧ fault.code = code

namespace Machine

theorem code_of_step {m after : Machine} {fault : Fault} (h : m.step = (.error fault, after)) :
    fault.code ∈ elementCodes := by
  have hstepped := m.step_stepped
  rw [h] at hstepped
  cases hstepped with
  | failed _ hexecute => exact code_of_execute (by rw [hexecute])

theorem Plays.code {m after : Machine} {result : Except Fault Unit} (h : Plays m result after)
    {fault : Fault} (hfault : result = .error fault) : fault.code ∈ elementCodes := by
  induction h with
  | paused => cases hfault
  | failed _ hstep =>
    cases hfault
    exact code_of_step hstep
  | ended => cases hfault
  | more _ _ _ ih => exact ih hfault

theorem Starts.code {m start after : Machine} {turn : Turn} (h : Starts m turn start) {bound : Nat}
    {fault : Fault} (hrun : turn.run bound m = some (.error fault, after)) :
    fault.code ∈ elementCodes := by
  rw [h.run_eq] at hrun
  exact (plays_of_play hrun).code rfl

theorem refusal?_eq_none {m : Machine} {turn : Turn} (h : turn.refusal? m = none) :
    ∃ start, Starts m turn start := by
  cases turn with
  | play => exact ⟨m, .play⟩
  | resume =>
    simp only [Turn.refusal?] at h
    split at h
    · next hpaused =>
      split at h
      · cases h
      · next hfree =>
        refine ⟨_, .resume hpaused fun hphase => ?_⟩
        exact Classical.byContradiction fun hoffers => hfree ⟨hphase, hoffers⟩
    · cases h
  | choose label =>
    simp only [Turn.refusal?] at h
    split at h
    · next hlabel => exact (m.passes_iff _).mp ((m.passes_choose_iff label).mpr hlabel)
    · cases h

theorem run_eq_of_refusal? {m : Machine} {turn : Turn} {fault : Fault}
    (h : turn.refusal? m = some fault) (bound : Nat) :
    turn.run bound m = some (.error fault, m) := by
  cases turn with
  | play => cases h
  | resume =>
    simp only [Turn.refusal?] at h
    split at h
    · split at h
      · next hpending =>
        cases h
        simp [Turn.run, resume, hpending]
      · cases h
    · next hrunning =>
      cases h
      show m.resume bound = _
      rw [resume]
      split
      · next hphase =>
        rw [hphase] at hrunning
        exact absurd rfl hrunning
      · rfl
  | choose label =>
    simp only [Turn.refusal?] at h
    split at h
    · cases h
    · next hlabel =>
      cases h
      simp [Turn.run, choose, Table.get?_eq_none_iff.mpr hlabel]

/-- A call fails with the code of a refusal exactly if it is refused: what it plays otherwise fails
by some element. -/
theorem failsWith_iff_refusal? {m : Machine} {turn : Turn} {bound : Nat} {code : String}
    (hcode : code ∈ refusalCodes) :
    FailsWith code (turn.run bound m) ↔
      ∃ fault, turn.refusal? m = some fault ∧ fault.code = code := by
  constructor
  · rintro ⟨fault, after, hrun, rfl⟩
    cases hrefusal : turn.refusal? m with
    | none =>
      obtain ⟨start, hstart⟩ := refusal?_eq_none hrefusal
      exact absurd hcode (not_mem_refusalCodes (hstart.code hrun))
    | some other =>
      rw [run_eq_of_refusal? hrefusal] at hrun
      cases hrun
      exact ⟨fault, rfl, rfl⟩
  · rintro ⟨fault, hrefusal, hfault⟩
    exact ⟨fault, m, run_eq_of_refusal? hrefusal bound, hfault⟩

theorem run_eq_of_code {m after : Machine} {turn : Turn} {bound : Nat} {fault : Fault}
    (hrun : turn.run bound m = some (.error fault, after)) (hcode : fault.code ∈ refusalCodes) :
    after = m := by
  obtain ⟨other, hrefusal, -⟩ := (failsWith_iff_refusal? hcode).mp ⟨fault, after, hrun, rfl⟩
  rw [run_eq_of_refusal? hrefusal] at hrun
  cases hrun
  rfl

theorem load_eq_of_fetch {m : Machine} {file : String} {fault : Fault}
    (h : m.library.fetch file = .error fault) (block : Option String) :
    m.load file block = (.error fault, m) := by
  rw [load, h]

/-- A document that cannot be entered fails with other codes than one that cannot be had. -/
theorem failsWith_load_iff {m : Machine} {file code : String} (block : Option String)
    (hcode : code = "LOAD_NOT_FOUND" ∨ code = "XML_PARSE_ERROR") :
    FailsWith code (some (m.load file block)) ↔
      ∃ fault, m.library.fetch file = .error fault ∧ fault.code = code := by
  constructor
  · rintro ⟨fault, after, hload, hfault⟩
    cases hfetch : m.library.fetch file with
    | error other =>
      rw [load_eq_of_fetch hfetch] at hload
      cases hload
      exact ⟨fault, rfl, hfault⟩
    | ok root =>
      rw [load, hfetch] at hload
      rcases (install_eq_error (Option.some.inj hload)).1 with rfl | ⟨id, rfl⟩
      · rcases hcode with rfl | rfl <;> simp [Fault.code] at hfault
      · rcases hcode with rfl | rfl <;> simp [Fault.code] at hfault
  · rintro ⟨fault, hfetch, hfault⟩
    exact ⟨fault, m, by rw [load_eq_of_fetch hfetch], hfault⟩

theorem choose_unknownOption_iff (m : Machine) (bound : Nat) (label : String) :
    FailsWith "ENGINE_UNKNOWN_OPTION" (m.choose bound label) ↔ label ∉ m.labels := by
  rw [show m.choose bound label = Turn.run bound m (.choose label) from rfl,
    failsWith_iff_refusal? (by decide)]
  by_cases hlabel : label ∈ m.labels
  · simp [Turn.refusal?, hlabel]
  · simp [Turn.refusal?, hlabel, Fault.code]

theorem resume_choicePending_iff (m : Machine) (bound : Nat) :
    FailsWith "ENGINE_CHOICE_PENDING" (m.resume bound) ↔
      m.phase = .paused .choice ∧ m.offers ≠ [] := by
  rw [show m.resume bound = Turn.run bound m .resume from rfl, failsWith_iff_refusal? (by decide)]
  by_cases hpending : m.phase = .paused .choice ∧ m.offers ≠ []
  · simp [Turn.refusal?, hpending, Phase.isPaused, Fault.code]
  · by_cases hpaused : m.phase.isPaused = true
    · simp [Turn.refusal?, hpending, hpaused]
    · simp [Turn.refusal?, hpending, hpaused, Fault.code]

theorem resume_notPaused_iff (m : Machine) (bound : Nat) :
    FailsWith "ENGINE_NOT_PAUSED" (m.resume bound) ↔ m.phase.isPaused = false := by
  rw [show m.resume bound = Turn.run bound m .resume from rfl, failsWith_iff_refusal? (by decide)]
  by_cases hpaused : m.phase.isPaused = true
  · by_cases hpending : m.phase = .paused .choice ∧ m.offers ≠ []
    · simp [Turn.refusal?, hpending, Phase.isPaused, Fault.code]
    · simp [Turn.refusal?, hpending, hpaused]
  · simp [Turn.refusal?, hpaused, Fault.code]

/-- When a call is refused, that a refused call changes nothing, and that nothing else fails with
the codes of refusals, however long a story is played.  A host's load fails as the fetch of its
file does. -/
theorem refusals_exact (m : Machine) :
    (∀ bound label, FailsWith "ENGINE_UNKNOWN_OPTION" (m.choose bound label) ↔ label ∉ m.labels) ∧
    (∀ bound, FailsWith "ENGINE_CHOICE_PENDING" (m.resume bound) ↔
      m.phase = .paused .choice ∧ m.offers ≠ []) ∧
    (∀ bound, FailsWith "ENGINE_NOT_PAUSED" (m.resume bound) ↔ m.phase.isPaused = false) ∧
    (∀ bound turn fault after, Turn.run bound m turn = some (.error fault, after) →
      fault.code ∈ refusalCodes → after = m) ∧
    (∀ file block code, code = "LOAD_NOT_FOUND" ∨ code = "XML_PARSE_ERROR" →
      (FailsWith code (some (m.load file block)) ↔
        ∃ fault, m.library.fetch file = .error fault ∧ fault.code = code)) ∧
    (∀ file block fault, m.library.fetch file = .error fault →
      m.load file block = (.error fault, m)) ∧
    (∀ fault after, m.step = (.error fault, after) →
      fault.code ∈ elementCodes ∧ fault.code ∉ refusalCodes) ∧
    (∀ bound turn fault after, m.Passes turn →
      Turn.run bound m turn = some (.error fault, after) →
      fault.code ∈ elementCodes ∧ fault.code ∉ refusalCodes) := by
  refine ⟨m.choose_unknownOption_iff, m.resume_choicePending_iff, m.resume_notPaused_iff,
    fun bound turn fault after => run_eq_of_code, fun file block code => failsWith_load_iff block,
    fun file block fault h => load_eq_of_fetch h block, fun fault after hstep => ?_,
    fun bound turn fault after hpasses hrun => ?_⟩
  · have hcode := code_of_step hstep
    exact ⟨hcode, not_mem_refusalCodes hcode⟩
  · obtain ⟨start, hstart⟩ := (m.passes_iff turn).mp hpasses
    have hcode := hstart.code hrun
    exact ⟨hcode, not_mem_refusalCodes hcode⟩

end Machine

end StoryPlayer
