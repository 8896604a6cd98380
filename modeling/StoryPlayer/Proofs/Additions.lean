import Mathlib.Data.List.Forall2
import StoryPlayer.Proofs.Course
import StoryPlayer.Proofs.Lines
import StoryPlayer.Proofs.Simulation

/-! Lines that go to the description.  A machine has room for one of them.  It is never needed for a
second: while a line is kept there, the story waits, or a choice is all that can run, and to go on
after a pause takes the line out.  So the lines reach the description in the order in which they
were shown, each once, as long as no element fails and the host puts no document in place while a
line is kept. -/

namespace StoryPlayer

open Markup

namespace Machine

/-- The line that the next step keeps for the description: that of the element that it takes, if
this shows a line in a part that goes to the description. -/
def keptLine? (m : Machine) : Option String :=
  match m.unwind.stack.pop? with
  | some (e, left) =>
    if isLine e && left.hasRole .toDescription then some (Text.trim e.markup) else none
  | none => none

/-- While a line is kept, the story waits or nothing but a choice can run. -/
def Holds (m : Machine) : Prop :=
  m.addition ≠ none → m.phase.isPaused = true ∨
    ∀ e, m.stack.upcoming? = some e → e.name = "choice"

theorem holds_of_none {m : Machine} (h : m.addition = none) : m.Holds := fun hsome =>
  absurd h hsome

/-! ### One step -/

theorem install_addition (m : Machine) (file : String) (root : Element) (block : Option String) :
    (m.install file root block).2.addition = m.addition := by
  rw [install_agrees]
  rfl

/-- Only an element that shows a line changes what is kept. -/
theorem execute_addition {m : Machine} {e : Element} (h : isLine e = false) :
    (m.execute e).2.addition = m.addition := by
  rw [execute]
  split
  · next i hread =>
    cases i with
    | block gate =>
      simp only [perform]
      split <;> rfl
    | text speaker =>
      rw [isLine_eq_true_iff.mpr ⟨speaker, hread⟩] at h
      cases h
    | call block =>
      show (m.call block).2.addition = m.addition
      rw [call_agrees]
    | goto block =>
      show (call _ block).2.addition = m.addition
      rw [call_agrees]
    | load file block =>
      simp only [perform, load]
      split
      · exact m.install_addition file _ block
      · rfl
    | title | description | toDescription | clearScreen | pause | choice | flag | ignored => rfl
  · rfl

theorem step_stack_of_false {m : Machine} (h : m.step.1 = .ok false) : m.step.2.stack = [] := by
  have hstepped := m.step_stepped
  rw [h] at hstepped
  generalize m.step.2 = after at hstepped ⊢
  cases hstepped with
  | idle hnil =>
    rw [finish_eq]
    exact hnil
  | last _ _ hnil =>
    rw [finish_eq]
    exact hnil

/-- A line that is about to be shown finds no other line kept. -/
theorem Holds.addition_eq_none {m : Machine} (h : m.Holds) (hrunning : m.phase.isPaused = false)
    {e : Element} {left : Stack} (hpop : m.stack.unwind.pop? = some (e, left))
    (hname : e.name ≠ "choice") : m.addition = none := by
  refine Classical.byContradiction fun hsome => ?_
  rcases h hsome with hpaused | hahead
  · rw [hrunning] at hpaused
    cases hpaused
  · exact hname (hahead e (Stack.upcoming?_of_pop? hpop))

theorem keptLine?_of_pop {m : Machine} {e : Element} {left : Stack}
    (h : m.stack.unwind.pop? = some (e, left)) :
    m.keptLine? =
      if isLine e && left.hasRole .toDescription then some (Text.trim e.markup) else none := by
  rw [keptLine?, show m.unwind.stack.pop? = some (e, left) from h]

/-- What was kept and what a step keeps, together, are what is kept after it: there is room. -/
theorem Holds.step_addition {m : Machine} (h : m.Holds) (hrunning : m.phase.isPaused = false) :
    m.step.2.addition.toList = m.addition.toList ++ m.keptLine?.toList := by
  cases hpop : m.stack.unwind.pop? with
  | none =>
    rw [step_eq_finish (Stack.unwind_eq_nil_of_pop? hpop), finish_eq, keptLine?,
      show m.unwind.stack.pop? = none from hpop]
    exact (List.append_nil _).symm
  | some taken =>
    obtain ⟨e, left⟩ := taken
    rw [step_eq_settle hpop, settle_addition, keptLine?_of_pop hpop]
    cases hline : isLine e with
    | false =>
      rw [execute_addition hline]
      exact (List.append_nil _).symm
    | true =>
      have hnone : m.addition = none := h.addition_eq_none hrunning hpop fun hname => by
        rw [isLine_eq_false_of_choice hname] at hline
        cases hline
      obtain ⟨speaker, htext⟩ := isLine_eq_true_iff.mp hline
      rw [execute_line htext, showText_addition, show (m.take e left).addition = none from hnone,
        hnone]
      rfl

/-- A line looks ahead, so that the story waits after it unless a choice follows.  Nothing is kept
when another element comes to run, and it keeps nothing. -/
theorem Holds.step {m : Machine} (h : m.Holds) (hrunning : m.phase.isPaused = false)
    {more : Bool} (hok : m.step.1 = .ok more) : m.step.2.Holds := by
  cases more with
  | false =>
    intro _
    rw [step_stack_of_false hok]
    exact .inr nofun
  | true =>
    cases hpop : m.stack.unwind.pop? with
    | none =>
      rw [step_eq_finish (Stack.unwind_eq_nil_of_pop? hpop)] at hok
      cases hok
    | some taken =>
      obtain ⟨e, left⟩ := taken
      cases hline : isLine e with
      | true =>
        intro _
        obtain ⟨speaker, htext⟩ := isLine_eq_true_iff.mp hline
        refine (step_line_ahead hpop htext hok).imp_right ?_
        rintro ⟨choice, hahead, hname⟩ e he
        rw [hahead] at he
        cases he
        exact hname
      | false =>
        by_cases hname : e.name = "choice"
        · exact fun _ => .inl ((step_choice hpop hname).2.2 hok)
        · refine holds_of_none ?_
          rw [step_eq_settle hpop, settle_addition, execute_addition hline]
          exact h.addition_eq_none hrunning hpop hname

/-! ### Playing -/

/-- One line at most is kept: what was there, or what comes in. -/
theorem room {before line after : Option String}
    (h : after.toList = before.toList ++ line.toList) :
    (∀ kept, before = some kept → after = some kept) ∧
    (∀ kept, line = some kept → before = none ∧ after = some kept) ∧
    (line = none → after = before) := by
  cases before <;> cases line <;> cases after <;> simp_all

/-- By induction on the bound: however far the steps go, what they keep stays kept. -/
theorem Holds.steps {m : Machine} (h : m.Holds) (bound : Nat)
    (hok : ∀ s ∈ m.steps bound, ∃ more, s.step.1 = .ok more) :
    (∀ s ∈ m.steps bound, s.Holds ∧ s.phase.isPaused = false ∧
      ∀ line, m.addition = some line → s.addition = some line) ∧
    ∃ last : Machine, last.Holds ∧
      last.addition.toList = m.addition.toList ++ (m.steps bound).filterMap keptLine? ∧
      ∀ result after, m.play bound = some (result, after) → last = after := by
  induction bound generalizing m with
  | zero =>
    rw [Machine.steps, Machine.play]
    refine ⟨List.forall_mem_nil _, m, h, (List.append_nil _).symm, fun result after hplay => ?_⟩
    cases hplay
  | succ bound ih =>
    rw [Machine.steps] at hok ⊢
    rw [Machine.play]
    split
    · refine ⟨List.forall_mem_nil _, m, h, (List.append_nil _).symm, fun result after hplay => ?_⟩
      cases hplay
      rfl
    · next hpaused =>
      have hrunning := Bool.eq_false_iff.mpr hpaused
      rw [if_neg hpaused] at hok
      obtain ⟨more, hmore⟩ := hok m List.mem_cons_self
      have hnext := h.step hrunning hmore
      have hkept := h.step_addition hrunning
      rcases hresult : m.step with ⟨result, next⟩
      rw [hresult] at hmore hnext hkept hok
      obtain rfl : result = .ok more := hmore
      cases more with
      | false =>
        refine ⟨?_, next, hnext, ?_, fun result after hplay => ?_⟩
        · intro s hs
          rw [List.mem_singleton.mp hs]
          exact ⟨h, hrunning, fun line hline => hline⟩
        · rw [hkept, List.filterMap_cons]
          cases m.keptLine? <;> rfl
        · cases hplay
          rfl
      | true =>
        obtain ⟨hbefore, last, hlast, hlines, hends⟩ :=
          ih hnext fun s hs => hok s (List.mem_cons_of_mem _ hs)
        refine ⟨?_, last, hlast, ?_, hends⟩
        · intro s hs
          rcases List.mem_cons.mp hs with rfl | hs
          · exact ⟨h, hrunning, fun line hline => hline⟩
          · obtain ⟨hs, hruns, hstays⟩ := hbefore s hs
            exact ⟨hs, hruns, fun line hline => hstays line ((room hkept).1 line hline)⟩
        · rw [hlines, hkept, List.append_assoc, List.filterMap_cons]
          cases m.keptLine? <;> rfl

/-- What is written if the story goes on after a pause: the line that is kept, behind the
description. -/
def flushed (m : Machine) : List Event :=
  (m.addition.map fun line =>
    .wrote .description (m.screen.description ++ " " ++ line)).toList

/-- To go on after a pause takes the line out, and writes it before anything else. -/
theorem leavePause_flush (m : Machine) : m.leavePause.addition = none ∧
    m.leavePause.journal = m.flushed ++ .proceeded :: m.journal := by
  rw [leavePause, flush, flushed]
  split
  · next h => exact ⟨h, by rw [show m.addition = none from h]; rfl⟩
  · next line h => exact ⟨rfl, by rw [show m.addition = some line from h]; rfl⟩

theorem Starts.flush {m start : Machine} {turn : Turn} (h : Starts m turn start)
    (hturn : turn ≠ .play) : start.addition = none ∧
      start.journal = m.flushed ++ .proceeded :: m.journal := by
  cases h with
  | play => exact absurd rfl hturn
  | resume => exact m.leavePause_flush
  | @choose _ option => exact (m.enterOption option).leavePause_flush

theorem Starts.holds {m start : Machine} {turn : Turn} (h : Starts m turn start) (hm : m.Holds) :
    start.Holds := by
  by_cases hturn : turn = .play
  · subst hturn
    cases h
    exact hm
  · exact holds_of_none (h.flush hturn).1

end Machine

namespace Call

open Machine

/-! ### One call -/

/-- The host lets the story run as a whole, no element fails, and no document is put in place while
a line is kept. -/
structure Smooth (call : Call) : Prop where
  whole : call.operation ≠ .step
  succeeds : ∀ m ∈ call.steps, ∃ more, m.step.1 = .ok more
  ready : ∀ root, .install root ∈ call.moments → call.machine.addition = none

/-- The lines that the call keeps for the description, in order. -/
def kept (call : Call) : List String := call.steps.filterMap keptLine?

/-- What the description shows when the call goes on after a pause, and what the call makes of it
then, if it does, before anything runs. -/
def rewrite? (call : Call) : Option (String × String) :=
  match call.goesOn?.map Machine.journal with
  | some (.wrote .description markup :: .proceeded :: _) =>
    some (call.machine.screen.description, markup)
  | _ => none

/-- How a call treats the line that is kept. -/
structure Orderly (call : Call) : Prop where
  keeps : ∀ m ∈ call.steps, ∀ line, m.keptLine? = some line →
    m.addition = none ∧ m.step.2.addition = some line
  leaves : ∀ m ∈ call.steps, m.keptLine? = none → m.step.2.addition = m.addition
  waits : ∀ line, call.machine.addition = some line → call.goesOn? = none →
    (∀ m ∈ call.steps, m.addition = some line) ∧
      ∀ result after, call.run = some (result, after) → after.addition = some line
  flushes : ∀ start, call.goesOn? = some start → start.addition = none ∧
    start.journal = call.machine.flushed ++ .proceeded :: call.machine.journal

/-- A call that plays is smooth if its steps succeed, which can be computed. -/
theorem smooth_turn {m : Machine} {turn : Turn} {bound : Nat}
    (h : (steps ⟨m, .turn turn, bound⟩).all (fun s => s.step.1.isOk) = true) :
    Smooth ⟨m, .turn turn, bound⟩ where
  whole := nofun
  succeeds s hs := by
    have hok := List.all_eq_true.mp h s hs
    cases hresult : s.step.1 with
    | ok more => exact ⟨more, rfl⟩
    | error fault =>
      rw [hresult] at hok
      cases hok
  ready root hmem := by
    simp only [moments, Operation.moments] at hmem
    split at hmem
    · obtain ⟨s, -, hs⟩ := List.mem_map.mp hmem
      cases hs
    · cases hmem

/-- The line that is kept when the call begins to play. -/
def carried (call : Call) : Option String :=
  (call.goesOn?.getD call.machine).addition

theorem goesOn?_turn {m start : Machine} {turn : Turn} {bound : Nat} :
    goesOn? ⟨m, .turn turn, bound⟩ = some start ↔ turn ≠ .play ∧ Starts m turn start := by
  rw [← start?_eq_some_iff]
  cases turn with
  | play => exact iff_of_false nofun fun h => h.1 rfl
  | resume => exact (and_iff_right nofun).symm
  | choose label => exact (and_iff_right nofun).symm

theorem carried_turn {m start : Machine} {turn : Turn} (h : Starts m turn start) (bound : Nat) :
    carried ⟨m, .turn turn, bound⟩ = start.addition := by
  by_cases hturn : turn = .play
  · subst hturn
    cases h
    rfl
  · rw [carried, goesOn?_turn.mpr ⟨hturn, h⟩]
    rfl

/-- What is kept along a call that ends in `last`, if it ends. -/
structure Carries (call : Call) (last : Machine) : Prop where
  before : ∀ m ∈ call.steps, m.Holds ∧ m.phase.isPaused = false ∧
    ∀ line, call.carried = some line → m.addition = some line
  holds : last.Holds
  lines : last.addition.toList = call.carried.toList ++ call.kept
  returns : ∀ result after, call.run = some (result, after) → last = after

/-- A call that plays nothing carries what there is. -/
theorem carries_of_brief {call : Call} {last : Machine} (hsteps : call.steps = [])
    (hgoes : call.goesOn? = none) (hlast : last.Holds)
    (haddition : last.addition = call.machine.addition)
    (hreturns : ∀ result after, call.run = some (result, after) → last = after) :
    call.Carries last := by
  refine ⟨by rw [hsteps]; exact List.forall_mem_nil _, hlast, ?_, hreturns⟩
  rw [haddition, kept, hsteps, carried, hgoes]
  exact (List.append_nil _).symm

theorem Smooth.carries {call : Call} (h : call.Smooth) (hm : call.machine.Holds) :
    ∃ last, call.Carries last := by
  obtain ⟨m, operation, bound⟩ := call
  cases operation with
  | load file block =>
    refine ⟨(m.load file block).2, ?_⟩
    cases hfetch : m.library.fetch file with
    | ok root =>
      have hnone : m.addition = none := h.ready root (by simp [moments, Operation.moments, hfetch])
      have haddition : (m.load file block).2.addition = m.addition := by
        simp only [Machine.load, hfetch, install_addition]
      refine carries_of_brief ?_ rfl (holds_of_none (haddition.trans hnone)) haddition
        fun _ _ => snd_eq_of_some
      simp [steps, moments, Operation.moments, hfetch, Moment.machine?]
    | error fault =>
      have hsame : (m.load file block).2 = m := by simp only [Machine.load, hfetch]
      refine carries_of_brief ?_ rfl (by rwa [hsame]) (by rw [hsame]) fun _ _ => snd_eq_of_some
      simp [steps, moments, Operation.moments, hfetch]
  | install file root block =>
    have hnone : m.addition = none := h.ready root List.mem_cons_self
    have haddition := m.install_addition file root block
    exact ⟨_, carries_of_brief rfl rfl (holds_of_none (haddition.trans hnone)) haddition
      fun _ _ => snd_eq_of_some⟩
  | turn t =>
    cases hstart : t.start? m with
    | some start =>
      have hstarts := start?_eq_some_iff.mp hstart
      have hsteps := hstarts.steps_eq bound
      have hcarried := carried_turn hstarts bound
      have hsucceeds := h.succeeds
      rw [hsteps] at hsucceeds
      obtain ⟨hbefore, last, hlast, hlines, hends⟩ := (hstarts.holds hm).steps bound hsucceeds
      refine ⟨last, by rwa [hsteps, hcarried], hlast, by rwa [kept, hsteps, hcarried],
        fun result after hrun => ?_⟩
      obtain ⟨⟨answer, m'⟩, hturn, heq⟩ := Option.map_eq_some_iff.mp hrun
      rw [hstarts.run_eq] at hturn
      rw [hends answer m' hturn]
      exact congrArg Prod.snd heq
    | none =>
      refine ⟨m, carries_of_brief ?_ ?_ hm rfl fun result after hrun => ?_⟩
      · simp only [steps, moments, Operation.moments, hstart, List.filterMap_nil]
      · refine Option.eq_none_iff_forall_ne_some.mpr fun start hgoes => ?_
        rw [start?_eq_some_iff.mpr (goesOn?_turn.mp hgoes).2] at hstart
        cases hstart
      · obtain ⟨⟨answer, m'⟩, hturn, heq⟩ := Option.map_eq_some_iff.mp hrun
        rw [← start?_eq_none hstart hturn]
        exact congrArg Prod.snd heq
  | step => exact absurd rfl h.whole
  | setFlags text =>
    exact ⟨(m.setFlags text).2, carries_of_brief rfl rfl hm rfl fun _ _ => snd_eq_of_some⟩
  | clearFlags text =>
    exact ⟨(m.clearFlags text).2, carries_of_brief rfl rfl hm rfl fun _ _ => snd_eq_of_some⟩
  | deliver task =>
    refine ⟨(m.deliver task).2, carries_of_brief rfl rfl ?_ ?_ fun _ _ => snd_eq_of_some⟩
    · rw [Machine.deliver]
      split
      · exact hm
      · exact hm
    · rw [Machine.deliver]
      split <;> rfl

theorem Carries.orderly {call : Call} {last : Machine} (h : call.Carries last) :
    call.Orderly := by
  have hroom : ∀ m ∈ call.steps, _ := fun m hm =>
    room ((h.before m hm).1.step_addition (h.before m hm).2.1)
  refine ⟨fun m hm => (hroom m hm).2.1, fun m hm => (hroom m hm).2.2, fun line hline hgoes => ?_,
    fun start hgoes => ?_⟩
  · have hcarried : call.carried = some line := by rw [carried, hgoes]; exact hline
    refine ⟨fun m hm => (h.before m hm).2.2 line hcarried, fun result after hrun => ?_⟩
    have hlines := h.lines
    rw [hcarried, h.returns result after hrun] at hlines
    cases hafter : after.addition with
    | none =>
      rw [hafter] at hlines
      cases hlines
    | some other =>
      rw [hafter] at hlines
      rw [(List.cons.inj hlines).1]
  · obtain ⟨m, operation, bound⟩ := call
    cases operation with
    | turn t =>
      obtain ⟨hturn, hstart⟩ := goesOn?_turn.mp hgoes
      exact hstart.flush hturn
    | load | install | step | setFlags | clearFlags | deliver => cases hgoes

/-- The second text is the first with a line behind it. -/
def Adds (texts : String × String) (line : String) : Prop :=
  texts.2 = texts.1 ++ " " ++ line

/-- What was kept before a call is written behind the description by it, or carried on. -/
theorem Orderly.rewrite {call : Call} (h : call.Orderly) :
    ∃ added, List.Forall₂ Adds call.rewrite?.toList added ∧
      call.machine.addition.toList = added ++ call.carried.toList := by
  cases hgoes : call.goesOn? with
  | none => exact ⟨[], by rw [rewrite?, hgoes]; exact .nil, by rw [carried, hgoes]; rfl⟩
  | some start =>
    obtain ⟨hnone, hjournal⟩ := h.flushes start hgoes
    have hcarried : call.carried = none := by rw [carried, hgoes]; exact hnone
    rw [rewrite?, hgoes, Option.map_some, hjournal, hcarried, flushed]
    cases call.machine.addition with
    | none => exact ⟨[], .nil, rfl⟩
    | some line => exact ⟨[line], .cons rfl .nil, rfl⟩

/-! ### Courses of calls -/

/-- The lines that `calls` wrote behind the description, and the one that is still kept, are those
that the calls kept. -/
def Balanced (calls : List Call) (pending : Option String) : Prop :=
  ∃ added, List.Forall₂ Adds (calls.filterMap rewrite?) added ∧
    calls.flatMap kept = added ++ pending.toList

theorem Balanced.snoc {calls : List Call} {call : Call} {last : Machine}
    (h : Balanced calls call.machine.addition) (hcall : call.Carries last) :
    Balanced (calls ++ [call]) last.addition := by
  obtain ⟨added, hadds, hkept⟩ := h
  obtain ⟨more, hmore, hbefore⟩ := hcall.orderly.rewrite
  refine ⟨added ++ more, ?_, ?_⟩
  · rw [List.filterMap_append]
    refine List.rel_append hadds ?_
    rw [List.filterMap_cons]
    cases hrewrite : call.rewrite? with
    | none => rwa [hrewrite] at hmore
    | some texts => rwa [hrewrite] at hmore
  · rw [List.flatMap_append, hkept, List.flatMap_singleton, hbefore, hcall.lines]
    simp only [List.append_assoc]

theorem course_balanced {calls : List Call} {m : Machine} (h : Course calls m)
    (hcalls : ∀ call ∈ calls, call.Smooth) :
    m.Holds ∧ Balanced calls m.addition ∧ ∀ call ∈ calls, call.Orderly := by
  refine h.keeps (Q := fun calls m => m.Holds ∧ Balanced calls m.addition ∧
    ∀ call ∈ calls, call.Orderly) (fun _ _ => ?_) (fun hbefore hsmooth hrun => ?_) hcalls
  · exact ⟨holds_of_none rfl, ⟨[], .nil, rfl⟩, List.forall_mem_nil _⟩
  · obtain ⟨hm, hbalanced, horderly⟩ := hbefore
    obtain ⟨last, hlast⟩ := hsmooth.carries hm
    obtain rfl := hlast.returns _ _ hrun
    exact ⟨hlast.holds, hbalanced.snoc hlast, by simpa [or_imp, forall_and] using
      ⟨horderly, hlast.orderly⟩⟩

end Call

namespace Machine

/-- However a host lets a story run, call after call, the last of which need not return: a line for
the description finds no other line kept, stays kept until the story goes on after a pause, and is
then written behind the description before anything runs.  So the lines written are the lines kept,
in order, but for a last one that may still be kept. -/
theorem additions_kept_once {calls : List Call} {last : Call} (h : Course calls last.machine)
    (hsmooth : ∀ call ∈ calls ++ [last], call.Smooth) :
    (∀ call ∈ calls ++ [last], call.Orderly) ∧
    ∃ added pending, List.Forall₂ Call.Adds ((calls ++ [last]).filterMap Call.rewrite?) added ∧
      (calls ++ [last]).flatMap Call.kept = added ++ Option.toList pending ∧
      ∀ result after, last.run = some (result, after) → after.addition = pending := by
  obtain ⟨hm, hbalanced, horderly⟩ :=
    Call.course_balanced h fun call hmem => hsmooth call (List.mem_append_left _ hmem)
  obtain ⟨final, hfinal⟩ :=
    (hsmooth last (List.mem_append_right _ List.mem_cons_self)).carries hm
  obtain ⟨added, hadds, hkept⟩ := hbalanced.snoc hfinal
  refine ⟨fun call hmem => ?_, added, final.addition, hadds, hkept, fun result after hrun => ?_⟩
  · rcases List.mem_append.mp hmem with hmem | hmem
    · exact horderly call hmem
    · rw [List.mem_singleton.mp hmem]
      exact hfinal.orderly
  · rw [hfinal.returns result after hrun]

/-- A day of which the morning and the evening go to the description. -/
def diary : Element :=
  ⟨"block", [("id", "day")],
    [⟨"to-description", [], [⟨"text", [], [], " Rain. ", .synthetic⟩], "", .synthetic⟩,
      ⟨"text", [], [], "Noon.", .synthetic⟩,
      ⟨"to-description", [], [⟨"text", [], [], "Dusk.", .synthetic⟩], "", .synthetic⟩],
    "", .synthetic⟩

/-- To go on twice writes the morning behind the description, and the evening stays kept. -/
theorem additions_kept_once_diary :
    ∃ calls last, Course calls last.machine ∧ (∀ call ∈ calls ++ [last], call.Smooth) ∧
      (calls ++ [last]).filterMap Call.rewrite? = [("", " Rain.")] ∧
      ∃ added pending, List.Forall₂ Call.Adds [("", " Rain.")] added ∧
        added ++ Option.toList pending = ["Rain.", "Dusk."] := by
  let opened : Machine := ((new [] 300).install "diary.xml" diary none).2
  let morning : Machine := ((opened.play 9).map Prod.snd).getD opened
  let noon : Machine := ((morning.resume 9).map Prod.snd).getD morning
  let calls : List Call := [⟨new [] 300, .install "diary.xml" diary none, 0⟩,
    ⟨opened, .turn .play, 9⟩, ⟨morning, .turn .resume, 9⟩]
  let last : Call := ⟨noon, .turn .resume, 9⟩
  have hcourse : Course calls last.machine :=
    .call (.turn .resume) 9 (.call (.turn .play) 9
      (.call (.install "diary.xml" diary none) 0 (.new [] 300) rfl) rfl) rfl
  have hcomputed : (calls ++ [last]).filterMap Call.rewrite? = [("", " Rain.")] ∧
      (calls ++ [last]).flatMap Call.kept = ["Rain.", "Dusk."] := by decide +kernel
  have hsmooth : ∀ call ∈ calls ++ [last], call.Smooth := by
    have hfirst : Call.Smooth ⟨new [] 300, .install "diary.xml" diary none, 0⟩ :=
      ⟨nofun, List.forall_mem_nil _, fun _ _ => rfl⟩
    have hplay : Call.Smooth ⟨opened, .turn .play, 9⟩ := Call.smooth_turn (by decide +kernel)
    have hresume : Call.Smooth ⟨morning, .turn .resume, 9⟩ := Call.smooth_turn (by decide +kernel)
    have hlast : last.Smooth := Call.smooth_turn (by decide +kernel)
    simpa [calls] using ⟨hfirst, hplay, hresume, hlast⟩
  obtain ⟨hrewrites, hkept⟩ := hcomputed
  obtain ⟨-, added, pending, hadds, hlines, -⟩ := additions_kept_once hcourse hsmooth
  rw [hrewrites] at hadds
  rw [hkept] at hlines
  exact ⟨calls, last, hcourse, hsmooth, hrewrites, added, pending, hadds, hlines.symm⟩

end Machine

end StoryPlayer
