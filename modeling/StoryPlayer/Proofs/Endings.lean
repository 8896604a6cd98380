import StoryPlayer.Proofs.History
import StoryPlayer.Proofs.Protocol
import StoryPlayer.Proofs.Simulation
import StoryPlayer.Proofs.Stops

/-! What a story that has ended still offers.  The interaction surface is written when a story comes
to wait, when a line is the last thing in it, and when the screen is cleared, but not when the story
ends.  So a call in which the story ends leaves the word for the end if it showed a line, and an
empty surface if it only cleared the screen.  If it did neither, what the surface offered before the
call is offered still, although no call takes it. -/

namespace StoryPlayer

open Markup

/-- Whether an element clears the screen. -/
def clearsScreen (e : Element) : Bool :=
  match Instruction.ofElement e with
  | .ok .clearScreen => true
  | _ => false

namespace Interaction

/-- The markup holds something for the reader to follow: the link that leads on, or options. -/
def Offers (markup : String) : Prop :=
  markup = next.render ∨ ∃ labels active, labels ≠ [] ∧ markup = (options labels active).render

theorem head?_optionLink (active : Bool) (label : String) :
    (optionLink active label).toList.head? = some '<' := by
  rw [optionLink]
  split
  · simp [String.toList_append]
  · simp [String.toList_append]

theorem Offers.head? {markup : String} (h : Offers markup) : markup.toList.head? = some '<' := by
  rcases h with rfl | ⟨labels, active, hlabels, rfl⟩
  · rfl
  · obtain ⟨label, rest, rfl⟩ := List.exists_cons_of_ne_nil hlabels
    simp [render, String.toList_join, head?_optionLink]

/-- What the surface holds after the last of `elements`, if the story has ended there. -/
def atEnd (elements : List Element) (before : String) : String :=
  if elements.any isLine then ending.render
  else if elements.any clearsScreen then "" else before

theorem atEnd_cons {e : Element} (h : isLine e = false) (rest : List Element) (before : String) :
    atEnd (e :: rest) before = atEnd rest (if clearsScreen e then "" else before) := by
  simp only [atEnd, List.any_cons, h, Bool.false_or]
  by_cases hclears : clearsScreen e = true
  · simp [hclears]
  · simp [hclears]

theorem not_offers_ending : ¬Offers ending.render := fun h => absurd h.head? (by decide)

theorem not_offers_empty : ¬Offers "" := fun h => absurd h.head? (by decide)

theorem offers_atEnd_iff (elements : List Element) (before : String) :
    Offers (atEnd elements before) ↔
      elements.any isLine = false ∧ elements.any clearsScreen = false ∧ Offers before := by
  rw [atEnd]
  cases elements.any isLine with
  | true => simp [not_offers_ending]
  | false =>
    cases elements.any clearsScreen with
    | true => simp [not_offers_empty]
    | false => simp

end Interaction

theorem Reachable.turn {allowed : Operation → Prop} {m : Machine} (h : Reachable allowed m)
    {turn : Turn} (hallowed : allowed (.turn turn)) {bound : Nat}
    (hreturns : (turn.run bound m).isSome = true) :
    Reachable allowed (((turn.run bound m).map Prod.snd).getD m) := by
  obtain ⟨outcome, houtcome⟩ := Option.isSome_iff_exists.mp hreturns
  have hrun : Operation.run bound m (.turn turn) = some (Operation.succeeded outcome) := by
    rw [Operation.run, houtcome]
    rfl
  rw [houtcome]
  exact .call (.turn turn) bound h hallowed hrun

namespace Machine

/-! ### One step -/

/-- An element that shows no line and after which the story does not wait leaves the interaction
surface as it is, unless it clears the screen. -/
theorem execute_interaction {m : Machine} {e : Element} (hline : isLine e = false)
    (hrunning : (m.execute e).2.phase.isPaused = false) :
    (m.execute e).2.screen.interaction =
      if clearsScreen e then "" else m.screen.interaction := by
  rw [execute] at hrunning ⊢
  rw [clearsScreen]
  cases hread : Instruction.ofElement e with
  | error fault => rfl
  | ok i =>
    rw [hread] at hrunning
    cases i with
    | block gate =>
      simp only [perform]
      split <;> rfl
    | text speaker =>
      rw [isLine_eq_true_iff.mpr ⟨speaker, hread⟩] at hline
      cases hline
    | pause => cases hrunning
    | choice offers => cases hrunning
    | call block =>
      show (m.call block).2.screen.interaction = m.screen.interaction
      rw [call_agrees]
    | goto block =>
      show (call _ block).2.screen.interaction = m.screen.interaction
      rw [call_agrees]
    | load file block =>
      simp only [perform, load]
      split
      · rw [install_agrees]
        rfl
      · rfl
    | title | description | toDescription | clearScreen | flag | ignored => rfl

theorem settle_isPaused (outcome : Outcome Unit) :
    (settle outcome).2.phase.isPaused = outcome.2.phase.isPaused := by
  obtain ⟨_ | _, m⟩ := outcome
  · rfl
  · rw [settle]
    split
    · rw [finish_eq]
      show (if m.phase.isPaused then m.phase else .finished).isPaused = m.phase.isPaused
      split
      · rfl
      · next h => rw [Bool.eq_false_iff.mpr h]; rfl
    · rfl

theorem step_interaction {m : Machine} {e : Element} {left : Stack}
    (hpop : m.stack.unwind.pop? = some (e, left)) (hline : isLine e = false)
    (hrunning : m.step.2.phase.isPaused = false) :
    m.step.2.screen.interaction = if clearsScreen e then "" else m.screen.interaction := by
  rw [step_eq_settle hpop, settle_isPaused] at hrunning
  rw [step_eq_settle hpop, settle_screen]
  exact execute_interaction hline hrunning

/-- A line after which nothing is left says that the story has ended. -/
theorem step_last_line {m : Machine} {e : Element} {left : Stack} {speaker : Option String}
    (hpop : m.stack.unwind.pop? = some (e, left))
    (htext : Instruction.ofElement e = .ok (.text speaker)) (hlast : m.step.1 = .ok false) :
    m.step.2.screen.interaction = Interaction.ending.render := by
  rw [step_eq_settle hpop, execute_line htext, settle_ok, showText_stack] at hlast
  have hnone : left.upcoming? = none := by
    have hempty : (!left.continuation.isEmpty) = false := Except.ok.inj hlast
    have hnil : left.continuation = [] := by simpa using hempty
    rw [Stack.upcoming?_eq_head?, hnil]
    rfl
  rw [step_eq_settle hpop, execute_line htext, settle_screen]
  simp only [showText, putLine_stack, show (m.take e left).stack = left from rfl, hnone]
  rfl

/-- A story waits after a choice that can be read. -/
theorem step_choice_waits {m : Machine} {choice : Element} {left : Stack} {more : Bool}
    (hpop : m.stack.unwind.pop? = some (choice, left)) (hname : choice.name = "choice")
    (hok : m.step.1 = .ok more) : m.step.2.phase.isPaused = true := by
  rw [step_eq_settle hpop, execute] at hok
  rw [step_eq_settle hpop, settle_isPaused, execute]
  rcases ofElement_of_choice hname with ⟨offers, hread⟩ | ⟨fault, hread⟩
  · rw [hread]
    rfl
  · rw [hread] at hok
    cases hok

/-! ### Whole calls -/

theorem Plays.not_finished_of_choice {m after : Machine} {result : Except Fault Unit}
    (h : Plays m result after) (hm : m.Coherent) (hrunning : m.phase.isPaused = false)
    {choice : Element} (hahead : m.stack.upcoming? = some choice) (hname : choice.name = "choice") :
    after.phase ≠ .finished := by
  obtain ⟨left, hpop⟩ := Stack.pop?_of_upcoming? hahead
  intro hfinished
  cases h with
  | paused hpaused =>
    rw [hrunning] at hpaused
    cases hpaused
  | failed hrunning hstep =>
    have hafter := (Plays.failed hrunning hstep).underway hm rfl
    cases hafter.running.symm.trans hfinished
  | ended _ hstep =>
    have hwaits := step_choice_waits hpop hname (congrArg Prod.fst hstep)
    rw [hstep, hfinished] at hwaits
    cases hwaits
  | more _ hstep hplays =>
    have hwaits := step_choice_waits hpop hname (congrArg Prod.fst hstep)
    rw [hstep] at hwaits
    rw [hplays.eq_of_paused hwaits] at hfinished
    rw [hfinished] at hwaits
    cases hwaits

/-- By induction on the steps.  A line can only be the last element of a story that ends: what
follows it in a call is a choice, at which the story waits. -/
theorem Plays.interaction {m after : Machine} {result : Except Fault Unit}
    (h : Plays m result after) (hm : m.Coherent) (hfinished : after.phase = .finished) :
    ∃ elements, Ran m after elements ∧
      after.screen.interaction = Interaction.atEnd elements m.screen.interaction := by
  induction h with
  | paused hpaused =>
    rw [hfinished] at hpaused
    cases hpaused
  | failed hrunning hstep =>
    have hafter := (Plays.failed hrunning hstep).underway hm rfl
    cases hafter.running.symm.trans hfinished
  | @ended m after hrunning hstep =>
    have hafter : m.step.2 = after := congrArg Prod.snd hstep
    rw [← hafter] at hfinished ⊢
    cases hpop : m.stack.unwind.pop? with
    | none =>
      have hnil := Stack.unwind_eq_nil_of_pop? hpop
      refine ⟨[], ran_idle hnil, ?_⟩
      rw [step_eq_finish hnil, finish_eq]
      rfl
    | some taken =>
      obtain ⟨e, left⟩ := taken
      refine ⟨[e], ran_step hpop, ?_⟩
      cases hline : isLine e with
      | true =>
        obtain ⟨speaker, htext⟩ := isLine_eq_true_iff.mp hline
        rw [step_last_line hpop htext (congrArg Prod.fst hstep), Interaction.atEnd,
          List.any_cons, hline]
        rfl
      | false =>
        rw [Interaction.atEnd_cons hline, step_interaction hpop hline (by rw [hfinished]; rfl)]
        rfl
  | @more m next after result hrunning hstep hplays ih =>
    have hnext : m.step.2 = next := congrArg Prod.snd hstep
    have hcoherent := (coherent_step hm hrunning).1
    rw [hnext] at hcoherent
    have hplaying : next.phase.isPaused = false := by
      refine Bool.eq_false_iff.mpr fun hpaused => ?_
      rw [hplays.eq_of_paused hpaused] at hfinished
      rw [hfinished] at hpaused
      cases hpaused
    cases hpop : m.stack.unwind.pop? with
    | none =>
      rw [step_eq_finish (Stack.unwind_eq_nil_of_pop? hpop)] at hstep
      cases hstep
    | some taken =>
      obtain ⟨e, left⟩ := taken
      cases hline : isLine e with
      | true =>
        obtain ⟨speaker, htext⟩ := isLine_eq_true_iff.mp hline
        have hahead := step_line_ahead hpop htext (congrArg Prod.fst hstep)
        rw [hnext, hplaying] at hahead
        obtain ⟨choice, hchoice, hname⟩ := hahead.resolve_left Bool.false_ne_true
        exact absurd hfinished (hplays.not_finished_of_choice hcoherent hplaying hchoice hname)
      | false =>
        obtain ⟨elements, hran, hshown⟩ := ih hcoherent hfinished
        have hfirst := ran_step hpop
        have hbefore := step_interaction hpop hline (by rw [hnext, hplaying])
        rw [hnext] at hfirst hbefore
        refine ⟨e :: elements, hfirst.trans hran, ?_⟩
        rw [hshown, hbefore, Interaction.atEnd_cons hline]

theorem leavePause_interaction (m : Machine) :
    m.leavePause.screen.interaction = m.screen.interaction := by
  rw [leavePause, flush]
  split <;> rfl

theorem Starts.interaction {m start : Machine} {turn : Turn} (h : Starts m turn start) :
    start.screen.interaction = m.screen.interaction := by
  cases h with
  | play => rfl
  | resume => exact m.leavePause_interaction
  | @choose _ option => exact (m.enterOption option).leavePause_interaction

/-! ### Tasks that still count -/

/-- A task that still counts belongs to a choice at which the story waits. -/
def Awaited (m : Machine) : Prop :=
  ∀ task ∈ m.tasks, task.generation = m.generation → m.phase = .paused .choice

theorem Timely.le_of_mem_tasks {m : Machine} (h : m.Timely) {task : Task} (hmem : task ∈ m.tasks) :
    task.generation ≤ m.generation := by
  obtain ⟨event, hevent, htask⟩ := List.mem_filterMap.mp hmem
  cases event with
  | scheduled other delay =>
    obtain rfl : other = task := Option.some.inj htask
    obtain ⟨newer, older, hsplit⟩ := List.append_of_mem hevent
    exact h.le (hsplit ▸ List.suffix_append newer _)
  | ran | wrote | installed | proceeded => cases htask

/-- A machine with a later generation has no task that still counts but the new ones. -/
theorem awaited_of_lt {m after : Machine} (hm : m.Timely) (htasks : after.tasks = m.tasks)
    (hlater : m.generation < after.generation) : after.Awaited := by
  intro task hmem hnow
  rw [htasks] at hmem
  have hle := hm.le_of_mem_tasks hmem
  omega

theorem Ran.generation_le {m after : Machine} {elements : List Element} (h : Ran m after elements)
    (hm : m.Timely) (hafter : after.Timely) : m.generation ≤ after.generation := by
  obtain ⟨events, hjournal, -⟩ := h
  rw [hm.counted, hafter.counted, hjournal]
  exact (List.suffix_append _ _).sublist.countP_le

/-- No task of a machine that does not wait still counts, and no step makes it count again. -/
theorem Awaited.step {m : Machine} (h : m.Awaited) (hm : m.Timely)
    (hrunning : m.phase.isPaused = false) : m.step.2.Awaited := by
  intro task hmem hnow
  rcases m.step_schedules with hnone | ⟨fresh, -, hphase⟩
  · rw [hnone] at hmem
    obtain ⟨elements, hran, -⟩ := m.linesKept_step
    have hgeneration := hran.generation_le hm (hm.stepped m.step_stepped)
    have hle := hm.le_of_mem_tasks hmem
    have hphase := h task hmem (by omega)
    rw [hphase] at hrunning
    cases hrunning
  · exact hphase

theorem awaited_kept : Kept (· ≠ .step) fun m => m.Timely ∧ m.Awaited where
  step := by
    rintro m ⟨htimely, hawaited⟩ hrunning
    rcases hrunning with hrunning | hstep
    · exact ⟨htimely.stepped m.step_stepped, hawaited.step htimely hrunning⟩
    · exact absurd rfl hstep
  install := by
    rintro m file root block ⟨htimely, -⟩
    refine ⟨htimely.install file root block,
      awaited_of_lt htimely (m.tasks_install file root block) ?_⟩
    rw [(m.quiet_install file root block).generation]
    exact Nat.lt_succ_self _
  start := by
    rintro m start turn ⟨htimely, hawaited⟩ hstart
    refine ⟨htimely.start hstart, ?_⟩
    cases hstart with
    | play => exact hawaited
    | resume hpaused hfree =>
      refine awaited_of_lt htimely (Starts.resume hpaused hfree).tasks_eq ?_
      rw [m.quiet_leavePause.generation]
      exact Nat.lt_succ_self _
    | @choose _ option hoption =>
      refine awaited_of_lt htimely (Starts.choose hoption).tasks_eq ?_
      rw [(m.enterOption option).quiet_leavePause.generation]
      exact Nat.lt_succ_self _
  flags := by
    rintro m flags ⟨htimely, hawaited⟩
    exact ⟨(m.quiet_flags flags).timely htimely, hawaited⟩
  write := by
    rintro m surface markup ⟨htimely, hawaited⟩
    exact ⟨(m.quiet_write surface markup).timely htimely, hawaited⟩

theorem reachable_awaited {m : Machine} (h : Reachable (· ≠ .step) m) : m.Awaited := by
  refine (awaited_kept.reachable (fun library choiceDelay => ⟨?_, ?_⟩) h).2
  · exact reachable_timely (.new library choiceDelay)
  · exact List.forall_mem_nil _

/-! ### Stories that have ended -/

/-- The host lets the story run as a whole, and gives back no task but those that it got. -/
structure Honest (m : Machine) (operation : Operation) : Prop where
  whole : operation ≠ .step
  task : ∀ task, operation = .deliver task → task ∈ m.tasks

theorem install_not_finished (m : Machine) (file : String) (root : Element)
    (block : Option String) : (m.install file root block).2.phase ≠ .finished := by
  rw [(m.quiet_install file root block).phase]
  show Phase.running ≠ .finished
  decide

theorem load_finished {m : Machine} {file : String} {block : Option String}
    (h : (m.load file block).2.phase = .finished) : (m.load file block).2 = m := by
  rw [load] at h ⊢
  split at h
  · exact absurd h (m.install_not_finished file _ block)
  · rfl

/-- A task that comes back once the story has ended comes to nothing. -/
theorem deliver_finished {m : Machine} (h : m.Awaited) {task : Task} (htask : task ∈ m.tasks)
    (hfinished : (m.deliver task).2.phase = .finished) : (m.deliver task).2 = m := by
  rw [deliver] at hfinished ⊢
  split at hfinished
  · next hnow => cases (h task htask hnow).symm.trans hfinished
  · next hlate => rw [if_neg hlate]

theorem turn_interaction {bound : Nat} {m after : Machine} {turn : Turn}
    {result : Except Fault Unit} (hm : m.Coherent)
    (hrun : turn.run bound m = some (result, after)) (hfinished : after.phase = .finished) :
    ∃ elements, Ran m after elements ∧
      after.screen.interaction = Interaction.atEnd elements m.screen.interaction := by
  rcases m.starts_or_refused turn with ⟨start, hstart⟩ | ⟨fault, hrefused⟩
  · rw [hstart.run_eq] at hrun
    obtain ⟨elements, hran, hshown⟩ :=
      (plays_of_play hrun).interaction (hstart.coherent hm) hfinished
    rw [hstart.interaction] at hshown
    exact ⟨elements, hstart.ran.trans hran, hshown⟩
  · rw [hrefused] at hrun
    cases hrun
    exact ⟨[], (Quiet.refl m).ran, rfl⟩

/-- Whatever a host did before: a call after which the story has ended leaves what `atEnd` says of
the elements that ran in it, so that something is offered exactly if something was offered before
and the call showed no line and cleared no screen. -/
theorem finished_interaction {m after : Machine} (h : Reachable (· ≠ .step) m) {bound : Nat}
    {operation : Operation} {result : Except Fault Bool} (hhonest : Honest m operation)
    (hrun : operation.run bound m = some (result, after)) (hfinished : after.phase = .finished) :
    ∃ elements, Ran m after elements ∧
      after.screen.interaction = Interaction.atEnd elements m.screen.interaction ∧
      (Interaction.Offers after.screen.interaction ↔
        elements.any isLine = false ∧ elements.any clearsScreen = false ∧
          Interaction.Offers m.screen.interaction) := by
  have hsame : after = m → ∃ elements, Ran m after elements ∧
      after.screen.interaction = Interaction.atEnd elements m.screen.interaction := by
    rintro rfl
    exact ⟨[], (Quiet.refl after).ran, rfl⟩
  suffices hshown : ∃ elements, Ran m after elements ∧
      after.screen.interaction = Interaction.atEnd elements m.screen.interaction by
    obtain ⟨elements, hran, hshown⟩ := hshown
    refine ⟨elements, hran, hshown, ?_⟩
    rw [hshown]
    exact Interaction.offers_atEnd_iff elements _
  cases operation with
  | load file block =>
    obtain rfl := snd_eq_of_some hrun
    exact hsame (load_finished hfinished)
  | install file root block =>
    obtain rfl := snd_eq_of_some hrun
    exact absurd hfinished (m.install_not_finished file root block)
  | turn t =>
    obtain ⟨⟨answer, m'⟩, hturn, heq⟩ := Option.map_eq_some_iff.mp hrun
    obtain ⟨-, rfl⟩ := Prod.mk.inj heq
    exact turn_interaction (reachable_coherent h) hturn hfinished
  | step => exact absurd rfl hhonest.whole
  | setFlags text =>
    obtain rfl := snd_eq_of_some hrun
    exact ⟨[], (m.quiet_flags _).ran, rfl⟩
  | clearFlags text =>
    obtain rfl := snd_eq_of_some hrun
    exact ⟨[], (m.quiet_flags _).ran, rfl⟩
  | deliver task =>
    obtain rfl := snd_eq_of_some hrun
    exact hsame (deliver_finished (reachable_awaited h) (hhonest.task task rfl) hfinished)

/-- To choose a way at the crossroads, where no way leads on, ends the story, and no element runs,
so that both ways are offered still. -/
theorem finished_interaction_crossroads :
    ∃ m after, Reachable (· ≠ .step) m ∧ Honest m (.turn (.choose "left")) ∧
      Operation.run 2 m (.turn (.choose "left")) = some (.ok true, after) ∧
      after.phase = .finished ∧ Interaction.Offers after.screen.interaction := by
  have hm : Reachable (· ≠ .step) _ :=
    .call (.turn .play) 4
      (.call (.install "main.xml" crossroads none) 0 (.new [] 300) nofun rfl) nofun rfl
  obtain ⟨elements, hran, -, hoffers⟩ :=
    @finished_interaction _ _ hm 2 (.turn (.choose "left")) (.ok true) ⟨nofun, nofun⟩ rfl rfl
  have helements : elements = [] := hran.unique ⟨[.proceeded], rfl, rfl⟩
  rw [helements] at hoffers
  refine ⟨_, _, hm, ⟨nofun, nofun⟩, rfl, rfl, hoffers.mpr ⟨rfl, rfl, .inr ?_⟩⟩
  exact ⟨["left", "right"], false, nofun, rfl⟩

/-- A story that ends with a flag, after its one line. -/
def epilogue : Library :=
  [("main.xml", "<block id='start'><text>A</text><flag set='x'/></block>")]

/-- After the line the story waits; to go on then runs the flag and ends the story, and the link
that was followed is offered still, although it leads nowhere. -/
theorem finished_offers_epilogue :
    ∃ m, Reachable (· ≠ .step) m ∧ m.phase = .finished ∧
      Interaction.Offers m.screen.interaction ∧
      ∀ bound, m.resume bound = some (.error .notPaused, m) := by
  let loaded : Machine := ((new epilogue 300).load "main.xml" none).2
  let shown : Machine := ((Turn.run 9 loaded .play).map Prod.snd).getD loaded
  let ended : Machine := ((Turn.run 9 shown .resume).map Prod.snd).getD shown
  have hcomputed : (Turn.run 9 loaded .play).isSome = true ∧
      (Turn.run 9 shown .resume).isSome = true ∧ ended.phase = .finished ∧
      ended.screen.interaction = Interaction.next.render := by decide +kernel
  obtain ⟨hplays, hresumes, hphase, hlink⟩ := hcomputed
  have hloaded : Reachable (· ≠ .step) loaded :=
    .call (.load "main.xml" none) 0 (.new epilogue 300) nofun rfl
  have hended : Reachable (· ≠ .step) ended := (hloaded.turn nofun hplays).turn nofun hresumes
  refine ⟨ended, hended, hphase, .inl hlink, fun bound => ?_⟩
  rw [resume, hphase]

end Machine

end StoryPlayer
