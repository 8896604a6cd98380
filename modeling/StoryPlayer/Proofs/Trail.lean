import StoryPlayer.Proofs.Course
import StoryPlayer.Proofs.Protocol
import StoryPlayer.Proofs.References

/-! Trails.  A trail says of each element that is still to run by which elements the story came to
it: the blocks and to-descriptions that were entered, the options that were chosen and their
choices, and the calls that were followed.  It is kept without looking at the frames of the machine,
and it tells all that matters of them: what is to run, and which lines go to the description. -/

namespace StoryPlayer

open Markup

/-- Elements to run, in order, each with the elements by which the story came to it, innermost
first. -/
abbrev Route := List (Element × List Element)

/-- How the story came to what is still to run. -/
structure Trail where
  todo : Route := []
  /-- The choice of which the options are on offer, with the elements by which the story came to
  it. -/
  choice : List Element := []

namespace Trail

/-- The children of an element that the story enters. -/
def enter (e : Element) (path : List Element) : Route :=
  e.children.map fun child => (child, e :: path)

/-- What is to run when a story goes on at a block and forgets all else. -/
def opening : Except Fault Element → Route
  | .ok block => enter block []
  | .error _ => []

/-- What is to run after the element `e`, before which `(e, path) :: rest` was. -/
def onward (m : Machine) (e : Element) (path : List Element) (rest : Route) :
    Instruction → Route
  | .block gate => if (gate.enterBlock? m.flags).isSome then enter e path ++ rest else rest
  | .toDescription => enter e path ++ rest
  | .call block =>
    match m.blocks.target block with
    | .ok target => enter target (e :: path) ++ rest
    | .error _ => rest
  | .goto block => opening (m.blocks.target block)
  | .load file block =>
    match m.library.fetch file with
    | .ok root => opening ((Blocks.ofRoot root).entrance file block)
    | .error _ => rest
  | _ => rest

/-- The trail after a step of the machine that it is the trail of. -/
def step (trail : Trail) (m : Machine) : Trail :=
  match trail.todo with
  | [] => trail
  | (e, path) :: rest =>
    match Instruction.ofElement e with
    | .ok (.choice _) => ⟨rest, e :: path⟩
    | .ok i => { trail with todo := onward m e path rest i }
    | .error _ => { trail with todo := rest }

/-- The trail once a call is past its guard, before the call makes its steps. -/
def begin (trail : Trail) (call : Call) : Trail :=
  match call.operation with
  | .load file block =>
    match call.machine.library.fetch file with
    | .ok root => { todo := opening ((Blocks.ofRoot root).entrance file block) }
    | .error _ => trail
  | .install file root block => { todo := opening ((Blocks.ofRoot root).entrance file block) }
  | .turn (.choose label) =>
    match call.machine.offers.get? label with
    | some option => { todo := enter option trail.choice ++ trail.todo }
    | none => trail
  | _ => trail

/-- The trail after some steps. -/
def follow (trail : Trail) (steps : List Machine) : Trail := steps.foldl step trail

/-- The trail that calls leave, from a new machine on. -/
def after (calls : List Call) : Trail :=
  calls.foldl (fun trail call => (trail.begin call).follow call.steps) {}

/-- A path leads into a to-description, with no option in between. -/
def direct (path : List Element) : Bool :=
  (path.takeWhile fun e => e.name ≠ "option").any fun e => e.name = "to-description"

/-- Something that is to run stands in a to-description, with no option in between. -/
def described (todo : Route) : Bool := todo.any fun entry => direct entry.2

/-- What is to run, without the paths: each with whether it or something after it is described. -/
def lines : Route → Todo
  | [] => []
  | (e, path) :: rest => (e, described ((e, path) :: rest)) :: lines rest

/-- An element stands in another, or was called by it. -/
def Link (e parent : Element) : Prop := e ∈ parent.children ∨ parent.name = "call"

/-! ### Paths -/

theorem direct_cons (e : Element) (path : List Element) :
    direct (e :: path) =
      (decide (e.name ≠ "option") && (decide (e.name = "to-description") || direct path)) := by
  unfold direct
  by_cases hoption : e.name = "option" <;> simp [hoption]

theorem direct_block {e : Element} (h : e.name = "block") (path : List Element) :
    direct (e :: path) = direct path := by
  simp [direct_cons, h]

theorem direct_append {above below : List Element} {part : Element}
    (hpart : part.name = "to-description") (habove : ∀ e ∈ above, e.name ≠ "option") :
    direct (above ++ part :: below) = true := by
  induction above with
  | nil => simp [direct_cons, hpart]
  | cons e above ih =>
    have hrest := ih fun other hmem => habove other (List.mem_cons_of_mem _ hmem)
    simp [direct_cons, habove e List.mem_cons_self, hrest]

/-- By the links of a path: what stands in a to-description by way of other elements than calls is a
part of it. -/
theorem mem_preorder_of_chain {above below : List Element} {e part : Element}
    (hchain : (e :: (above ++ part :: below)).IsChain Link) (hpart : part.name = "to-description")
    (habove : ∀ other ∈ above, other.name ≠ "call") : e ∈ part.preorder := by
  have hself : part ∈ part.preorder :=
    Element.mem_preorder.mpr ⟨0, Element.self_mem_outline 0 part⟩
  induction above generalizing e with
  | nil =>
    rcases (List.isChain_cons_cons.mp hchain).1 with hchild | hcall
    · exact Element.child_mem_preorder hself hchild
    · rw [hpart] at hcall
      exact absurd hcall (by decide)
  | cons parent above ih =>
    obtain ⟨hlink, hrest⟩ := List.isChain_cons_cons.mp hchain
    have hparent := ih hrest fun other hmem => habove other (List.mem_cons_of_mem _ hmem)
    rcases hlink with hchild | hcall
    · exact Element.child_mem_preorder hparent hchild
    · exact absurd hcall (habove parent List.mem_cons_self)

theorem head?_lines (todo : Route) :
    (lines todo).head?.any Prod.snd = described todo := by
  cases todo <;> rfl

theorem lines_enter (e : Element) (path : List Element) (rest : Route) :
    lines (enter e path ++ rest) =
      .part (direct (e :: path) || described rest) e.children ++ lines rest := by
  unfold enter
  induction e.children with
  | nil => rfl
  | cons child others ih =>
    have hfirst : described ((child, e :: path) :: (others.map fun c => (c, e :: path)) ++ rest) =
        (direct (e :: path) || described rest) := by
      cases hdirect : direct (e :: path) <;> simp [described, hdirect]
    simp only [List.map_cons, List.cons_append, lines, ih] at hfirst ⊢
    rw [hfirst]
    rfl

/-- A story that goes on at a block and forgets all else is in no description. -/
theorem lines_opening {block : Element} (h : block.name = "block") :
    lines (enter block []) = (Stack.push [] block .standard).continuation := by
  have hlines := lines_enter block [] []
  rw [List.append_nil, direct_block h] at hlines
  rw [hlines, Stack.continuation_singleton]
  exact List.append_nil _

/-! ### One step -/

/-- The trail is that of the machine: it says what is to run and where the options on offer
stand. -/
structure Leads (trail : Trail) (m : Machine) : Prop where
  continuation : m.stack.continuation = lines trail.todo
  nested : ∀ entry ∈ trail.todo, (entry.1 :: entry.2).IsChain Link
  offers : ∀ entry ∈ m.offers, (entry.2 :: trail.choice).IsChain Link
  coherent : m.Coherent
  wellFormed : ∃ document, m.WellFormed document

theorem target_name {m : Machine} (h : ∃ document, m.WellFormed document) {id : String}
    {block : Element} (htarget : m.blocks.target id = .ok block) : block.name = "block" := by
  obtain ⟨document, hdocument⟩ := h
  have hblock := Blocks.get?_of_target htarget
  rw [hdocument.blocks] at hblock
  cases document with
  | none => cases hblock
  | some root => exact (Blocks.get?_ofRoot hblock).2

theorem entrance_name {root : Element} {file : String} {id : Option String} {block : Element}
    (h : (Blocks.ofRoot root).entrance file id = .ok block) : block.name = "block" := by
  obtain ⟨start, -, hblock⟩ := Blocks.get?_of_entrance h
  exact (Blocks.get?_ofRoot hblock).2

theorem lines_install (m : Machine) (file : String) (root : Element) (id : Option String) :
    (m.install file root id).2.stack.continuation =
      lines (opening ((Blocks.ofRoot root).entrance file id)) := by
  rw [Machine.install_eq]
  cases hentrance : (Blocks.ofRoot root).entrance file id with
  | error fault => rfl
  | ok block => exact (lines_opening (entrance_name hentrance)).symm

theorem name_of_call {e : Element} {id : String} (h : Instruction.ofElement e = .ok (.call id)) :
    e.name = "call" := by
  unfold Instruction.ofElement at h
  split at h
  case h_10 hname => exact hname
  case h_8 | h_11 | h_12 =>
    obtain ⟨value, -, heq⟩ := bind_eq_ok h
    cases heq
  case h_13 => split at h <;> cases h
  all_goals cases h

section Perform

variable {m : Machine} {e : Element} {path : List Element} {rest : Route}
  (hrest : m.stack.continuation = lines rest)
  (hrole : m.stack.hasRole .toDescription = described ((e, path) :: rest))
include hrest hrole

/-- What is entered as a block is described as far as the element that enters it is. -/
theorem lines_push {block : Element} {entered : List Element}
    (hdirect : direct (block :: entered) = direct path) :
    (m.stack.push block .standard).continuation = lines (enter block entered ++ rest) := by
  rw [Stack.continuation_push, lines_enter, hdirect, hrest, hrole]
  rfl

theorem lines_perform (hblocks : ∀ id block, m.blocks.target id = .ok block → block.name = "block")
    {i : Instruction} (hread : Instruction.ofElement e = .ok i) :
    (m.perform e i).2.stack.continuation = lines (onward m e path rest i) := by
  have hfrom := Instruction.from_of_ofElement hread
  cases i with
  | block gate =>
    simp only [Machine.perform, onward]
    cases gate.enterBlock? m.flags with
    | none => exact hrest
    | some flags => exact lines_push hrest hrole (direct_block hfrom.1 path)
  | text speaker =>
    exact (congrArg Stack.continuation (m.showText_stack e.markup speaker)).trans hrest
  | toDescription =>
    have hname : e.name = "to-description" := hfrom
    have hdirect : direct (e :: path) = true := by simp [direct_cons, hname]
    show (m.stack.push e .toDescription).continuation = _
    rw [Stack.continuation_push, onward, lines_enter, hdirect, hrest]
    rfl
  | clearScreen => exact (congrArg Stack.continuation (m.writes_stack _ _)).trans hrest
  | call id =>
    simp only [Machine.perform, onward, Machine.call_eq]
    cases htarget : m.blocks.target id with
    | error fault => exact hrest
    | ok target =>
      have hcall := name_of_call hread
      refine lines_push hrest hrole ?_
      simp [direct_block (hblocks id target htarget), direct_cons, hcall]
  | goto id =>
    simp only [Machine.perform, onward, Machine.call_eq]
    cases htarget : m.blocks.target id with
    | error fault => rfl
    | ok target => exact (lines_opening (hblocks id target htarget)).symm
  | load file id =>
    simp only [Machine.perform, Machine.load, onward]
    cases m.library.fetch file with
    | error fault => exact hrest
    | ok root => exact lines_install m file root id
  | title | description | pause | choice | flag | ignored => exact hrest

end Perform

/-! The links of a path. -/

theorem nested_enter {e : Element} {path : List Element} (h : (e :: path).IsChain Link) :
    ∀ entry ∈ enter e path, (entry.1 :: entry.2).IsChain Link := by
  intro entry hmem
  obtain ⟨child, hchild, rfl⟩ := List.mem_map.mp hmem
  exact List.isChain_cons_cons.mpr ⟨.inl hchild, h⟩

theorem nested_opening (target : Except Fault Element) :
    ∀ entry ∈ opening target, (entry.1 :: entry.2).IsChain Link := by
  cases target with
  | error fault => exact List.forall_mem_nil _
  | ok block => exact nested_enter (List.isChain_singleton block)

theorem nested_onward {m : Machine} {e : Element} {path : List Element}
    {rest : Route} (h : (e :: path).IsChain Link)
    (hrest : ∀ entry ∈ rest, (entry.1 :: entry.2).IsChain Link) {i : Instruction}
    (hread : Instruction.ofElement e = .ok i) :
    ∀ entry ∈ onward m e path rest i, (entry.1 :: entry.2).IsChain Link := by
  have henter {entered : Element} {way : List Element} (hway : (entered :: way).IsChain Link) :
      ∀ entry ∈ enter entered way ++ rest, (entry.1 :: entry.2).IsChain Link := by
    intro entry hmem
    exact (List.mem_append.mp hmem).elim (nested_enter hway entry) (hrest entry)
  cases i with
  | block gate =>
    rw [onward]
    split
    · exact henter h
    · exact hrest
  | toDescription => exact henter h
  | call id =>
    rw [onward]
    split
    · exact henter (List.isChain_cons_cons.mpr ⟨.inr (name_of_call hread), h⟩)
    · exact hrest
  | goto id => exact nested_opening _
  | load file id =>
    rw [onward]
    split
    · exact nested_opening _
    · exact hrest
  | title | description | text | clearScreen | pause | choice | flag | ignored => exact hrest

theorem todo_step {trail : Trail} {e : Element} {path : List Element}
    {rest : Route} (h : trail.todo = (e, path) :: rest) (m : Machine) :
    (trail.step m).todo = match Instruction.ofElement e with
      | .ok i => onward m e path rest i
      | .error _ => rest := by
  simp only [step, h]
  cases Instruction.ofElement e with
  | error fault => rfl
  | ok i => cases i <;> rfl

theorem choice_step {trail : Trail} {e : Element} {path : List Element}
    {rest : Route} (h : trail.todo = (e, path) :: rest) (m : Machine) :
    (trail.step m).choice = match Instruction.ofElement e with
      | .ok (.choice _) => e :: path
      | _ => trail.choice := by
  simp only [step, h]
  cases Instruction.ofElement e with
  | error fault => rfl
  | ok i => cases i <;> rfl

/-- Only a choice puts something on offer. -/
theorem offers_execute {m : Machine} {e : Element}
    (hchoice : ∀ offers, Instruction.ofElement e ≠ .ok (.choice offers))
    {entry : String × Element} (hmem : entry ∈ (m.execute e).2.offers) : entry ∈ m.offers := by
  have heffect := m.execute_effect e
  generalize m.execute e = outcome at heffect hmem
  obtain ⟨result, after⟩ := outcome
  cases heffect with
  | quiet hquiet => exact hquiet.offers ▸ hmem
  | paused hquiet => exact hquiet.offers ▸ hmem
  | choice hread => exact absurd hread (hchoice _)
  | @installed file block root _ _ _ _ hinstall =>
    have hquiet := m.quiet_install file root block
    rw [hinstall] at hquiet
    rw [hquiet.offers] at hmem
    cases hmem

section Step

variable {trail : Trail} {m : Machine} (h : trail.Leads m) {e : Element} {path : List Element}
  {rest : Route} (htodo : trail.todo = (e, path) :: rest)
include h htodo

theorem Leads.ahead :
    m.stack.continuation = (e, described ((e, path) :: rest)) :: lines rest := by
  rw [h.continuation, htodo]
  rfl

theorem Leads.links :
    (e :: path).IsChain Link ∧ ∀ entry ∈ rest, (entry.1 :: entry.2).IsChain Link := by
  have hnested := h.nested
  rw [htodo] at hnested
  exact List.forall_mem_cons.mp hnested

theorem Leads.continuation_step : m.step.2.stack.continuation = lines (trail.step m).todo := by
  obtain ⟨left, hrole, hleft, hstep⟩ := Machine.step_dispatch (h.ahead htodo)
  rw [hstep, Machine.settle_continuation, todo_step htodo, Machine.execute]
  cases hread : Instruction.ofElement e with
  | error fault => exact hleft
  | ok i =>
    have hblocks : ∀ id block, (m.take e left).blocks.target id = .ok block →
      block.name = "block" := fun _ _ => target_name h.wellFormed
    exact lines_perform hleft hrole hblocks hread

/-- The options on offer are children of the choice. -/
theorem Leads.offers_step :
    ∀ entry ∈ m.step.2.offers, (entry.2 :: (trail.step m).choice).IsChain Link := by
  intro entry hmem
  obtain ⟨left, -, -, hstep⟩ := Machine.step_dispatch (h.ahead htodo)
  obtain ⟨phase, hsettle⟩ := Machine.settle_agrees ((m.take e left).execute e)
  rw [hstep, hsettle] at hmem
  rw [choice_step htodo]
  split
  · next offers hread =>
    rw [Machine.execute_choice hread] at hmem
    rcases mem_foldl_consider hmem with hnone | ⟨offer, hoffer, rfl⟩
    · cases hnone
    · have hoption := (Offer.from_of_choice hread hoffer).mem
      exact List.isChain_cons_cons.mpr ⟨.inl hoption, (h.links htodo).1⟩
  · next hchoice =>
    have hbefore : entry ∈ (m.take e left).offers := offers_execute hchoice hmem
    exact h.offers entry hbefore

end Step

/-- The trail goes with the machine, whether the step succeeds or not. -/
theorem Leads.step {trail : Trail} {m : Machine} (h : trail.Leads m)
    (hrunning : m.phase.isPaused = false) : (trail.step m).Leads m.step.2 := by
  have hcoherent := (Machine.coherent_step h.coherent hrunning).1
  have hformed : ∃ document, m.step.2.WellFormed document := by
    obtain ⟨document, hdocument⟩ := h.wellFormed
    exact ⟨_, hdocument.step⟩
  cases htodo : trail.todo with
  | nil =>
    have hnil : m.stack.continuation = [] := by rw [h.continuation, htodo]; rfl
    have hsame : trail.step m = trail := by simp only [Trail.step, htodo]
    rw [Machine.step_idle hnil, Machine.finish_eq] at hcoherent hformed ⊢
    rw [hsame]
    exact ⟨m.stack.continuation_unwind.trans h.continuation, h.nested, h.offers, hcoherent,
      hformed⟩
  | cons entry rest =>
    obtain ⟨e, path⟩ := entry
    obtain ⟨hpath, hrest⟩ := h.links htodo
    refine ⟨h.continuation_step htodo, ?_, h.offers_step htodo, hcoherent, hformed⟩
    rw [todo_step htodo]
    cases hread : Instruction.ofElement e with
    | error fault => exact hrest
    | ok i => exact nested_onward hpath hrest hread

end Trail

end StoryPlayer
