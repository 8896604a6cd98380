import StoryPlayer.Proofs.History
import StoryPlayer.Proofs.Simulation

/-! Frames that wait.  An element that enters a block puts a frame on top of those under way, and
until that frame and all that came above it are used up, no step, pause or choice touches a frame
below: the stack is some frames with something to run, above the frames that wait.  The step in
which nothing of the upper part is left removes the waiting frames that are used up too, and what
runs next is what follows the element.  Only `goto` and `load` give the waiting frames up, and a
`goto` leaves the same machine whatever they were. -/

namespace StoryPlayer

open Markup

/-- Whether an element gives up the frames under way. -/
def jumps (e : Element) : Bool :=
  match Instruction.ofElement e with
  | .ok (.goto _) => true
  | .ok (.load _ _) => true
  | _ => false

/-! ### Frames above other frames -/

namespace Stack

theorem unwind_append (frames callers : Stack) :
    unwind (frames ++ callers) =
      if frames.unwind = [] then callers.unwind else frames.unwind ++ callers := by
  rw [unwind, List.dropWhile_append]
  simp only [List.isEmpty_iff]
  rfl

theorem unwind_unwind (stack : Stack) : stack.unwind.unwind = stack.unwind := by
  rcases stack.unwind_cases with hnil | ⟨frame, rest, hcons, hleft⟩
  · rw [hnil]
    rfl
  · rw [hcons, unwind_cons, hleft]
    rfl

theorem length_unwind_le (stack : Stack) : stack.unwind.length ≤ stack.length :=
  (List.dropWhile_sublist _).length_le

theorem continuation_of_pop? {stack left : Stack} {e : Element}
    (h : stack.unwind.pop? = some (e, left)) :
    stack.continuation = (e, left.hasRole .toDescription) :: left.continuation := by
  cases hcont : stack.continuation with
  | nil =>
    rw [continuation_eq_nil_iff] at hcont
    rw [hcont] at h
    cases h
  | cons first rest =>
    obtain ⟨taken, inDescription⟩ := first
    obtain ⟨other, hpop, hrole, hrest⟩ := pop?_unwind hcont
    rw [h] at hpop
    cases hpop
    rw [hrole, hrest]

/-- The stack is that of `callers` with frames above, which have something to run. -/
def Above (callers stack : Stack) : Prop := ∃ frames, stack = frames ++ callers ∧ frames.unwind ≠ []

theorem Above.suffix {callers stack : Stack} (h : Above callers stack) : callers <:+ stack := by
  obtain ⟨frames, rfl, -⟩ := h
  exact List.suffix_append frames callers

theorem Above.length_lt {callers stack : Stack} (h : Above callers stack) :
    callers.length < stack.length := by
  obtain ⟨frames, rfl, hleft⟩ := h
  have hne : frames ≠ [] := fun hnil => hleft (by rw [hnil]; rfl)
  have hpos := List.length_pos_iff.mpr hne
  rw [List.length_append]
  omega

theorem Above.push {callers stack : Stack} (h : Above callers stack) (e : Element) (role : Role) :
    Above callers (stack.push e role) := by
  obtain ⟨frames, rfl, hleft⟩ := h
  refine ⟨{ element := e, role } :: frames, rfl, ?_⟩
  rw [unwind_cons]
  split
  · exact hleft
  · exact List.cons_ne_nil _ _

/-- Unwinding stops above the callers, or it has come to them and goes on there. -/
theorem above_or_unwind (frames callers : Stack) :
    Above callers (unwind (frames ++ callers)) ∨ unwind (frames ++ callers) = callers.unwind := by
  rw [unwind_append]
  split
  · exact .inr rfl
  · next hleft => exact .inl ⟨frames.unwind, rfl, by rwa [unwind_unwind]⟩

theorem above_of_length_lt {callers stack : Stack}
    (h : Above callers stack ∨ stack = callers.unwind)
    (hhigh : callers.length < stack.length) : Above callers stack := by
  rcases h with habove | rfl
  · exact habove
  · exact absurd hhigh (Nat.not_lt.mpr callers.length_unwind_le)

/-- While there are frames above, what is taken is taken from them. -/
theorem Above.pop? {callers stack left : Stack} {e : Element} (h : Above callers stack)
    (hpop : stack.unwind.pop? = some (e, left)) : ∃ frames, left = frames ++ callers := by
  obtain ⟨frames, rfl, hleft⟩ := h
  rw [unwind_append, if_neg hleft] at hpop
  obtain ⟨frame, rest, hstack, -, rfl⟩ := eq_cons_of_pop? hpop
  obtain ⟨top, others, hframes⟩ := List.exists_cons_of_ne_nil hleft
  rw [hframes, List.cons_append] at hstack
  obtain ⟨rfl, rfl⟩ := List.cons.inj hstack
  exact ⟨top.advanced :: others, rfl⟩

end Stack

namespace Machine

/-! ### One step -/

/-- An element that is no jump adds to the stack at most. -/
theorem execute_stack (m : Machine) {e : Element} (h : jumps e = false) :
    ∃ frames, (m.execute e).2.stack = frames ++ m.stack := by
  rw [execute]
  rw [jumps] at h
  cases hread : Instruction.ofElement e with
  | error fault => exact ⟨[], rfl⟩
  | ok i =>
    rw [hread] at h
    cases i with
    | goto | load => cases h
    | block gate =>
      simp only [perform]
      split
      · exact ⟨[_], rfl⟩
      · exact ⟨[], rfl⟩
    | call id =>
      simp only [perform, call]
      split
      · exact ⟨[_], rfl⟩
      · exact ⟨[], rfl⟩
    | toDescription => exact ⟨[_], rfl⟩
    | text speaker => exact ⟨[], m.showText_stack e.markup speaker⟩
    | title | description | clearScreen | pause | choice | flag | ignored => exact ⟨[], rfl⟩

theorem settle_above {outcome : Outcome Unit} {callers : Stack} (hok : outcome.1 = .ok ())
    (frames : Stack) (hstack : outcome.2.stack = frames ++ callers) :
    callers.Above (settle outcome).2.stack ∨ (settle outcome).2.stack = callers.unwind := by
  rw [settle_stack hok, hstack]
  exact Stack.above_or_unwind frames callers

theorem execute_ok_of_step {m : Machine} {e : Element} {left : Stack} {answer : Bool}
    (hpop : m.stack.unwind.pop? = some (e, left)) (hok : m.step.1 = .ok answer) :
    ((m.take e left).execute e).1 = .ok () := by
  rw [step_eq_settle hpop] at hok
  generalize (m.take e left).execute e = outcome at hok ⊢
  obtain ⟨_ | _, after⟩ := outcome
  · cases hok
  · rfl

/-- A step of what is above leaves the callers as they are, or unwinds them.  What is above has
something to run, so that the stack is not used up. -/
theorem step_above {m : Machine} {callers : Stack} {answer : Bool} (h : callers.Above m.stack)
    (hok : m.step.1 = .ok answer) (hstays : ∀ e, m.stack.upcoming? = some e → jumps e = false) :
    callers.Above m.step.2.stack ∨ m.step.2.stack = callers.unwind := by
  cases hpop : m.stack.unwind.pop? with
  | none =>
    obtain ⟨frames, hstack, hleft⟩ := h
    have hnil := Stack.unwind_eq_nil_of_pop? hpop
    rw [hstack, Stack.unwind_append, if_neg hleft] at hnil
    exact absurd (List.append_eq_nil_iff.mp hnil).1 hleft
  | some taken =>
    obtain ⟨e, left⟩ := taken
    obtain ⟨frames, rfl⟩ := h.pop? hpop
    have hjump := hstays e (Stack.upcoming?_of_pop? hpop)
    obtain ⟨pushed, hpushed⟩ := (m.take e (frames ++ callers)).execute_stack hjump
    rw [step_eq_settle hpop]
    refine settle_above (execute_ok_of_step hpop hok) (pushed ++ frames) (hpushed.trans ?_)
    exact (List.append_assoc pushed frames callers).symm

/-- The element `e` enters `entered`, and what is under way waits until that is done. -/
inductive Enters (m : Machine) (e : Element) : Element → Role → Prop
  | call {id : String} {block : Element} : Instruction.ofElement e = .ok (.call id) →
      m.blocks.get? id = some block → Enters m e block .standard
  | block {gate : Gate} {flags : Flags} : Instruction.ofElement e = .ok (.block gate) →
      gate.enterBlock? m.flags = some flags → Enters m e e .standard
  | toDescription : Instruction.ofElement e = .ok .toDescription → Enters m e e .toDescription

theorem Enters.execute {m : Machine} {e entered : Element} {role : Role}
    (h : Enters m e entered role) (callers : Stack) :
    ((m.take e callers).execute e).1 = .ok () ∧
      ((m.take e callers).execute e).2.stack = callers.push entered role := by
  cases h with
  | call hread hblock =>
    simp only [Machine.execute, hread, perform, Machine.call, take, hblock]
    exact ⟨trivial, rfl⟩
  | block hread hgate =>
    simp only [Machine.execute, hread, perform, take, hgate]
    exact ⟨trivial, rfl⟩
  | toDescription hread =>
    simp only [Machine.execute, hread]
    exact ⟨rfl, rfl⟩

theorem Enters.step_above {m : Machine} {e entered : Element} {role : Role} {callers : Stack}
    (h : Enters m e entered role) (hpop : m.stack.unwind.pop? = some (e, callers)) :
    callers.Above m.step.2.stack ∨ m.step.2.stack = callers.unwind := by
  obtain ⟨hok, hstack⟩ := h.execute callers
  rw [step_eq_settle hpop]
  exact settle_above hok [⟨entered, role, 0⟩] hstack

/-- A `goto` to a block that is there leaves one frame, and nothing that hangs on what was under
way. -/
theorem execute_goto {m : Machine} {e block : Element} {id : String}
    (hread : Instruction.ofElement e = .ok (.goto id)) (hblock : m.blocks.get? id = some block)
    (left : Stack) :
    (m.take e left).execute e =
      (.ok (), { m with stack := [⟨block, .standard, 0⟩], journal := .ran e :: m.journal }) := by
  simp only [execute, hread, perform, call, take, hblock]
  rfl

end Machine

/-! ### Whole runs -/

namespace Moment

/-- The stack after a step. -/
def stack? : Moment → Option Stack
  | step m => some m.step.2.stack
  | _ => none

/-- Whether the frames under way are not given up: no element fails, none of them jumps, and the
host puts no document in place. -/
def keepsCallers : Moment → Bool
  | step m => m.step.1.isOk && m.stack.upcoming?.all fun e => !jumps e
  | install _ => false
  | clear _ _ => true

theorem step_of_keepsCallers {m : Machine} (h : (step m).keepsCallers = true) :
    (∃ answer, m.step.1 = .ok answer) ∧ ∀ e, m.stack.upcoming? = some e → jumps e = false := by
  rw [keepsCallers, Bool.and_eq_true] at h
  obtain ⟨hok, hstays⟩ := h
  refine ⟨?_, fun e hahead => ?_⟩
  · cases hanswer : m.step.1 with
    | ok answer => exact ⟨answer, rfl⟩
    | error fault =>
      rw [hanswer] at hok
      cases hok
  · rw [hahead] at hstays
    simpa using hstays

end Moment

namespace Stack

/-- Of the stacks that were seen, those before the first that is no higher than `callers` stand on
`callers`, and that one is what unwinding leaves of `callers`. -/
structure Suspended (callers : Stack) (seen : List Stack) : Prop where
  before : ∀ stack ∈ seen.takeWhile fun stack => callers.length < stack.length, callers <:+ stack
  first : ∀ stack, (seen.find? fun stack => stack.length ≤ callers.length) = some stack →
    stack = callers.unwind

theorem suspended_nil (callers : Stack) : callers.Suspended [] := ⟨nofun, nofun⟩

theorem suspended_cons_iff {callers stack : Stack} {seen : List Stack} :
    callers.Suspended (stack :: seen) ↔
      if callers.length < stack.length then callers <:+ stack ∧ callers.Suspended seen
      else stack = callers.unwind := by
  split
  · next hhigh =>
    have hlow : ¬stack.length ≤ callers.length := by omega
    constructor
    · rintro ⟨hbefore, hfirst⟩
      simp only [List.takeWhile_cons, List.find?_cons, hhigh, hlow, decide_true, decide_false,
        if_true] at hbefore hfirst
      exact ⟨hbefore stack List.mem_cons_self,
        fun other hother => hbefore other (List.mem_cons_of_mem _ hother), hfirst⟩
    · rintro ⟨hstack, hseen⟩
      refine ⟨fun other hother => ?_, fun other hother => ?_⟩
      · simp only [List.takeWhile_cons, hhigh, decide_true, if_true] at hother
        rcases List.mem_cons.mp hother with rfl | hrest
        · exact hstack
        · exact hseen.before other hrest
      · simp only [List.find?_cons, hlow, decide_false] at hother
        exact hseen.first other hother
  · next hhigh =>
    have hlow : stack.length ≤ callers.length := by omega
    constructor
    · rintro ⟨-, hfirst⟩
      exact hfirst stack (by simp [hlow])
    · rintro rfl
      refine ⟨fun other hother => ?_, fun other hother => ?_⟩
      · simp [hhigh] at hother
      · simpa [List.find?_cons, hlow, eq_comm] using hother

/-- One more stack is seen: it matters only if all before it were higher than `callers`. -/
theorem Suspended.snoc {callers stack : Stack} {seen : List Stack} (h : callers.Suspended seen)
    (hnext : (∀ other ∈ seen, callers.length < other.length) →
      callers.Above stack ∨ stack = callers.unwind) : callers.Suspended (seen ++ [stack]) := by
  induction seen with
  | nil =>
    rw [List.nil_append, suspended_cons_iff]
    rcases hnext nofun with habove | rfl
    · rw [if_pos habove.length_lt]
      exact ⟨habove.suffix, callers.suspended_nil⟩
    · rw [if_neg (Nat.not_lt.mpr callers.length_unwind_le)]
  | cons first rest ih =>
    rw [List.cons_append, suspended_cons_iff]
    rw [suspended_cons_iff] at h
    split
    · next hhigh =>
      rw [if_pos hhigh] at h
      refine ⟨h.1, ih h.2 fun hrest => hnext ?_⟩
      exact List.forall_mem_cons.mpr ⟨hhigh, hrest⟩
    · next hhigh => rwa [if_neg hhigh] at h

end Stack

namespace Machine

/-- From `start` a host came to a machine by some operations, and the moments are what they were
made of, oldest first. -/
inductive Onward (start : Machine) : List Moment → Machine → Prop
  | here : Onward start [] start
  | call {m after : Machine} {past : List Moment} {result : Except Fault Bool}
      (operation : Operation) (bound : Nat) : Onward start past m →
      operation.run bound m = some (result, after) →
      Onward start (past ++ operation.moments bound m) after

theorem Tracked.onward {Q : List Moment → Machine → Prop} (h : Tracked Q) {start m : Machine}
    {past : List Moment} (hstart : Q [] start) (hm : Onward start past m) : Q past m := by
  induction hm with
  | here => exact hstart
  | call operation bound _ hrun ih =>
    obtain ⟨last, hlast, hends⟩ := h.operation operation bound ih
    rw [← hends _ _ hrun]
    exact hlast

theorem Starts.above {m start : Machine} {turn : Turn} {callers : Stack} (h : Starts m turn start)
    (hm : callers.Above m.stack) : callers.Above start.stack := by
  cases h with
  | play => exact hm
  | resume =>
    rw [leavePause, flush_stack]
    exact hm
  | @choose _ option =>
    rw [leavePause, flush_stack]
    exact hm.push option .option

/-- The frames that wait are suspended in all that was seen, and while they are, frames with
something to run are above them. -/
structure Watched (callers : Stack) (seen : List Stack) (m : Machine) : Prop where
  suspended : callers.Suspended seen
  now : (∀ stack ∈ seen, callers.length < stack.length) → callers.Above m.stack

theorem Watched.of_stack {callers : Stack} {seen : List Stack} {m after : Machine}
    (h : Watched callers seen m) (hstack : callers.Above m.stack → callers.Above after.stack) :
    Watched callers seen after :=
  ⟨h.suspended, fun hseen => hstack (h.now hseen)⟩

theorem Watched.snoc {callers stack : Stack} {seen : List Stack} {m after : Machine}
    (h : Watched callers seen m) (hstack : after.stack = stack)
    (hnext : callers.Above m.stack → callers.Above stack ∨ stack = callers.unwind) :
    Watched callers (seen ++ [stack]) after := by
  refine ⟨h.suspended.snoc fun hseen => hnext (h.now hseen), fun hseen => ?_⟩
  rw [List.forall_mem_append] at hseen
  rw [hstack]
  exact Stack.above_of_length_lt (hnext (h.now hseen.1)) (hseen.2 _ List.mem_cons_self)

theorem watched_tracked (callers first : Stack) :
    Tracked fun past m => (∀ moment ∈ past, moment.keepsCallers = true) →
      Watched callers (first :: past.filterMap Moment.stack?) m where
  step {past m} hm hkeeps := by
    rw [List.forall_mem_append] at hkeeps
    obtain ⟨⟨answer, hok⟩, hstays⟩ :=
      Moment.step_of_keepsCallers (hkeeps.2 _ List.mem_cons_self)
    rw [List.filterMap_append, ← List.cons_append]
    exact (hm hkeeps.1).snoc rfl fun habove => step_above habove hok hstays
  install file root block hm hkeeps := by
    cases hkeeps (.install root) (by simp)
  start hm hstart hkeeps := (hm hkeeps).of_stack hstart.above
  set text hm hkeeps := (hm hkeeps).of_stack id
  clear {past m} text hm hkeeps := by
    rw [List.forall_mem_append] at hkeeps
    rw [List.filterMap_append, List.filterMap_cons_none rfl, List.filterMap_nil, List.append_nil]
    exact (hm hkeeps.1).of_stack id
  write surface markup hm hkeeps := (hm hkeeps).of_stack id

theorem Enters.watched {m : Machine} {e entered : Element} {role : Role} {callers : Stack}
    (h : Enters m e entered role) (hpop : m.stack.unwind.pop? = some (e, callers)) :
    Watched callers [m.step.2.stack] m.step.2 := by
  have hstep := h.step_above hpop
  exact ⟨callers.suspended_nil.snoc fun _ => hstep,
    fun hseen => Stack.above_of_length_lt hstep (hseen _ List.mem_cons_self)⟩

/-- Frames wait intact.  When an element enters a block, the frames under way are at the bottom of
every stack that later steps leave, until one leaves no frame above them; that stack is what is not
used up of them, and it goes on after the element.  The last operation may be one that never
returns.  A `goto` leaves one frame, and whatever was under way the same machine. -/
theorem callers_suspended {m : Machine} {e : Element} {callers : Stack}
    (hpop : m.stack.unwind.pop? = some (e, callers)) :
    (∀ entered role, Enters m e entered role →
      ((m.take e callers).execute e).2.stack = callers.push entered role ∧
        m.stack.continuation =
          (e, callers.hasRole .toDescription) :: callers.unwind.continuation ∧
        ∀ past last (operation : Operation) bound, Onward m.step.2 past last →
          (∀ moment ∈ past ++ operation.moments bound last, moment.keepsCallers = true) →
          callers.Suspended (m.step.2.stack ::
            (past ++ operation.moments bound last).filterMap Moment.stack?)) ∧
      ∀ id block, Instruction.ofElement e = .ok (.goto id) → m.blocks.get? id = some block →
        ((m.take e callers).execute e).2.stack = [⟨block, .standard, 0⟩] ∧
          m.step.2.stack = Stack.unwind [⟨block, .standard, 0⟩] ∧
          ∀ other left : Stack, other.unwind.pop? = some (e, left) →
            { m with stack := other }.step = m.step := by
  refine ⟨fun entered role henters => ⟨(henters.execute callers).2, ?_, ?_⟩, ?_⟩
  · rw [Stack.continuation_unwind]
    exact Stack.continuation_of_pop? hpop
  · intro past last operation bound honward hkeeps
    have htracked := watched_tracked callers m.step.2.stack
    have hlast := htracked.onward (fun _ => henters.watched hpop) honward
    obtain ⟨reached, hreached, -⟩ := htracked.operation operation bound hlast
    exact (hreached hkeeps).suspended
  · intro id block hread hblock
    have hexecute := execute_goto hread hblock
    refine ⟨by rw [hexecute], ?_, fun other left hother => ?_⟩
    · rw [step_eq_settle hpop, hexecute]
      exact settle_stack rfl
    · have hmoved := execute_goto (m := { m with stack := other }) hread hblock left
      rw [step_eq_settle hpop, step_eq_settle hother, hexecute, hmoved]

/-- A block that calls another, in which a choice and a pause stand. -/
def attic : Element :=
  ⟨"story", [],
    [⟨"block", [("id", "hall")],
        [⟨"call", [("block", "attic")], [], "", .synthetic⟩, ⟨"title", [], [], "Hall", .synthetic⟩],
        "", .synthetic⟩,
      ⟨"block", [("id", "attic")],
        [⟨"choice", [], [⟨"option", [("of", "look")],
            [⟨"text", [], [], "Dark.", .synthetic⟩], "", .synthetic⟩], "", .synthetic⟩,
          ⟨"pause", [], [], "", .synthetic⟩],
        "", .synthetic⟩],
    "", .synthetic⟩

/-- The hall waits while the choice is made and its line is read, and is all that the pause
leaves. -/
theorem callers_suspended_attic :
    ∃ (m : Machine) (e : Element) (callers : Stack) (past : List Moment) (last after : Machine),
      m.stack.unwind.pop? = some (e, callers) ∧ Onward m.step.2 past last ∧
      Turn.run 5 last .resume = some (.ok (), after) ∧
      (past.filterMap Moment.stack?).map List.length = [2, 2] ∧
      (∀ stack ∈ past.filterMap Moment.stack?, callers <:+ stack) ∧
      after.stack = callers.unwind ∧ after.stack.upcoming?.map Element.name = some "title" := by
  have hpop : ((new [] 300).install "main.xml" attic none).2.stack.unwind.pop? = some (_, _) := rfl
  have hplayed : Operation.run 5 ((new [] 300).install "main.xml" attic none).2.step.2
    (.turn .play) = some (.ok true, _) := rfl
  have honward := Onward.call (.turn (.choose "look")) 5 (.call (.turn .play) 5 .here hplayed)
    (show _ = some (.ok true, _) from rfl)
  obtain ⟨-, -, hwaits⟩ := (callers_suspended hpop).1 _ .standard (.call rfl rfl)
  have hsuspended := hwaits _ _ (.turn .resume) 5 honward (by decide +kernel)
  exact ⟨_, _, _, _, _, _, hpop, honward, rfl, rfl,
    fun stack hstack => hsuspended.before stack (List.mem_cons_of_mem _ hstack),
    hsuspended.first _ rfl, rfl⟩

end Machine

end StoryPlayer
