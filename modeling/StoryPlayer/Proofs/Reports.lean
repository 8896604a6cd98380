import StoryPlayer.Host.Report
import StoryPlayer.Proofs.Protocol
import StoryPlayer.Proofs.Stops

/-! What a report can say.  A report is put together from four parts of a session that change at
different times: the phase, the options on offer, the screen and the queue of tasks.  Where a story
stops they agree.  A pause writes the link that leads on, and a choice leaves one task, which
belongs to the generation at the stop; once that task has come back, the interaction surface shows
the options that are reported. -/

namespace StoryPlayer

open Markup

namespace Machine

/-! ### What a stop leaves to the host -/

/-- The task that makes the options on offer active. -/
def activation (m : Machine) : Task :=
  ⟨m.generation, .interaction, (Interaction.options m.labels true).render⟩

/-- If the story has come to wait on the way, the link that leads on is shown, or the options are
left to be made active. -/
structure Signals (before after : Machine) : Prop where
  next : after.phase = .paused .next → after.screen.interaction = Interaction.next.render
  choice : after.phase = .paused .choice → after.tasks = after.activation :: before.tasks

theorem signals_of_not_paused {m after : Machine} (h : after.phase.isPaused = false) :
    Signals m after := by
  constructor
  · intro hphase
    rw [hphase] at h
    cases h
  · intro hphase
    rw [hphase] at h
    cases h

theorem Effect.signals {m after : Machine} {e : Element} {result : Except Fault Unit}
    (h : Effect m e result after) (hrunning : m.phase.isPaused = false) : Signals m after := by
  cases h with
  | quiet hquiet =>
    apply signals_of_not_paused
    rw [hquiet.phase]
    exact hrunning
  | paused hquiet =>
    refine ⟨fun _ => rfl, fun hphase => ?_⟩
    cases hphase
  | choice =>
    refine ⟨fun hphase => ?_, fun _ => rfl⟩
    cases hphase
  | @installed file block root _ _ _ _ hinstall =>
    have hphase := (m.quiet_install file root block).phase
    rw [hinstall] at hphase
    apply signals_of_not_paused
    rw [hphase]
    rfl

theorem Signals.unwind {m after : Machine} (h : Signals m after) : Signals m after.unwind :=
  ⟨h.next, h.choice⟩

theorem Signals.finish {m after : Machine} (h : Signals m after) : Signals m after.finish := by
  rw [Machine.finish]
  split
  · exact h
  · exact signals_of_not_paused rfl

theorem step_signals {m : Machine} (hrunning : m.phase.isPaused = false) :
    Signals m m.step.2 := by
  refine step_keeps (fun _ => signals_of_not_paused hrunning) ?_ (·.unwind) (·.finish)
  intro e left result after _ hrun
  have heffect := (m.take e left).execute_effect e
  rw [hrun] at heffect
  have hsignals := heffect.signals hrunning
  exact ⟨hsignals.next, hsignals.choice⟩

/-- A story that goes on has left no task behind. -/
theorem Plays.signals {m after : Machine} {result : Except Fault Unit} (h : Plays m result after)
    (hrunning : m.phase.isPaused = false) : Signals m after := by
  induction h with
  | paused hpaused =>
    rw [hpaused] at hrunning
    cases hrunning
  | failed _ hstep =>
    have hsignals := step_signals hrunning
    rwa [hstep] at hsignals
  | ended _ hstep =>
    have hsignals := step_signals hrunning
    rwa [hstep] at hsignals
  | @more m next after _ _ hstep hplays ih =>
    have hsignals := step_signals hrunning
    have hschedules := m.step_schedules
    rw [hstep] at hsignals hschedules
    cases hpaused : next.phase.isPaused with
    | true =>
      rw [hplays.eq_of_paused hpaused]
      exact hsignals
    | false =>
      have htasks : next.tasks = m.tasks := by
        rcases hschedules with hnone | ⟨task, -, hphase⟩
        · exact hnone
        · rw [hphase] at hpaused
          cases hpaused
      have hrest := ih hpaused
      exact ⟨hrest.next, fun hphase => (hrest.choice hphase).trans (by rw [htasks])⟩

theorem Schedules.tasks_eq {m after : Machine} (h : Schedules m after)
    (hphase : after.phase ≠ .paused .choice) : after.tasks = m.tasks := by
  rcases h with hnone | ⟨task, -, hchoice⟩
  · exact hnone
  · exact absurd hchoice hphase

theorem Starts.isPaused_eq_false {m start : Machine} {turn : Turn} (h : Starts m turn start)
    (hplay : turn = .play → m.phase.isPaused = false) : start.phase.isPaused = false := by
  cases h with
  | play => exact hplay rfl
  | resume => rw [m.quiet_leavePause.phase]; rfl
  | @choose _ option => rw [(m.enterOption option).quiet_leavePause.phase]; rfl

theorem opening_underway {library : Library} {file block : Option String} {delay : Nat}
    {m : Machine} (h : opening library file block delay = .ok m) : m.Underway := by
  obtain ⟨entry, root, -, hinstall⟩ := install_of_opening h
  have hquiet := (new library delay).quiet_install entry root block
  rw [hinstall] at hquiet
  exact hquiet.underway ⟨rfl, rfl⟩

end Machine

namespace Session

/-! ### Stops of a session -/

/-- The session is ready for a call: no task waits. -/
structure Idle (s : Session) : Prop where
  timer : s.timer = []
  tasks : s.machine.tasks = []
  coherent : s.machine.Coherent

/-- The session stands at a stop, all tasks have come back, and the interaction surface shows what
the reader can do. -/
structure Settled (s : Session) : Prop extends Idle s where
  stopped : s.machine.phase ≠ .running
  next : s.machine.phase = .paused .next →
    s.machine.screen.interaction = Interaction.next.render
  choice : s.machine.phase = .paused .choice →
    s.machine.screen.interaction = (Interaction.options s.machine.labels true).render

/-- The one task that waits belongs to this generation, so that it is taken. -/
theorem settled_collect {s : Session} {before : Machine} (hbefore : before.tasks = [])
    (hschedules : Machine.Schedules before s.machine) (hsignals : Machine.Signals before s.machine)
    (htimer : s.timer = []) (hcoherent : s.machine.Coherent)
    (hstopped : s.machine.phase ≠ .running) : Settled s.collect.2.deliverAll.2 := by
  have hcollected := s.collect_tasks
  rw [htimer] at hcollected
  by_cases hphase : s.machine.phase = .paused .choice
  · rw [hsignals.choice hphase, hbefore] at hcollected
    obtain ⟨w, hw, htask⟩ := timer_eq_of_tasks hcollected
    have hgiven : s.collect.2.deliverAll.2 =
        ⟨s.collect.2.machine.write .interaction s.machine.activation.markup, [], s.now⟩ := by
      rw [deliverAll, hw, Timer.tasks, List.map_singleton, htask]
      have hnow : s.machine.activation.generation = s.collect.2.machine.generation := rfl
      simp only [deliver, Machine.deliver, if_pos hnow]
      rfl
    rw [hgiven]
    refine ⟨⟨rfl, rfl, ?_⟩, hstopped, fun hnext => ?_, fun _ => rfl⟩
    · exact ⟨hcoherent.offered, hcoherent.finished, hcoherent.ready⟩
    · cases hphase.symm.trans hnext
  · rw [hschedules.tasks_eq hphase, hbefore] at hcollected
    rw [deliverAll_of_nil (List.map_eq_nil_iff.mp hcollected)]
    refine ⟨⟨List.map_eq_nil_iff.mp hcollected, rfl, ?_⟩, hstopped, hsignals.next,
      fun hchoice => ?_⟩
    · exact ⟨hcoherent.offered, hcoherent.finished, hcoherent.ready⟩
    · exact absurd hchoice hphase

theorem Idle.turn {s t : Session} (h : Idle s) {bound : Nat} {turn : Turn}
    (hplay : turn = .play → s.machine.phase.isPaused = false)
    (hrun : s.perform (fun m => turn.run bound m) = some (.ok (), t)) : Settled t.deliverAll.2 := by
  obtain ⟨after, hafter, rfl⟩ := perform_eq_some hrun
  rcases s.machine.starts_or_refused turn with ⟨start, hstart⟩ | ⟨fault, hrefused⟩
  · rw [hstart.run_eq] at hafter
    have hplays := Machine.plays_of_play hafter
    have hrunning := hstart.isPaused_eq_false hplay
    exact @settled_collect { s with machine := after } start (hstart.tasks_eq.trans h.tasks)
      hplays.schedules (hplays.signals hrunning) h.timer
      (Machine.coherent_kept.plays (hstart.coherent h.coherent) hplays)
      (hplays.phase_ne_running rfl)
  · rw [hrefused] at hafter
    cases hafter

theorem idle_opening {library : Library} {file block : Option String} {delay : Nat}
    {session : Session} (h : opening library file block delay = .ok session) :
    Idle session ∧ session.machine.phase.isPaused = false := by
  obtain ⟨fresh, -, hagree⟩ := opening_agree h delay
  obtain ⟨m, hopening, rfl⟩ := collect_of_opening h
  have hunderway := Machine.opening_underway hopening
  have hcoherent := hunderway.coherent
  refine ⟨⟨hagree.timer₁, hagree.tasks, ?_⟩, ?_⟩
  · exact ⟨hcoherent.offered, hcoherent.finished, hcoherent.ready⟩
  · show m.phase.isPaused = false
    rw [hunderway.running]
    rfl

/-! ### Scripted runs -/

theorem Settled.act {s t : Session} (h : Settled s) {bound : Nat} {action : Action}
    (hrun : s.act bound action = some (.ok t)) : Settled t := by
  rw [Session.act, Action.apply_eq] at hrun
  obtain ⟨⟨result, after⟩, hperform, heq⟩ := Option.bind_eq_some_iff.mp hrun
  cases result with
  | error fault => cases heq
  | ok =>
    cases heq
    refine h.toIdle.turn (fun hturn => ?_) hperform
    cases action with
    | next => cases hturn
    | choose label => cases hturn

theorem Settled.actAll {s t : Session} (h : Settled s) {bound : Nat} {actions : List Action}
    (hrun : s.actAll bound actions = some (.ok t)) : Settled t := by
  induction actions generalizing s with
  | nil =>
    obtain rfl := Except.ok.inj (Option.some.inj hrun)
    exact h
  | cons action rest ih =>
    rw [Session.actAll] at hrun
    obtain ⟨result, hact, hrest⟩ := Option.bind_eq_some_iff.mp hrun
    cases result with
    | error fault => cases hrest
    | ok next => exact ih (h.act hact) hrest

/-- Whatever the story, its entry and the actions, a run that succeeds leaves no task, has stopped,
and is reported as it stands: the link that leads on at a pause, the options, all active, at a
choice, and neither options nor anything left to run at the end. -/
theorem reports_consistent {library : Library} {file block : Option String} {delay : Nat}
    {session : Session} (hopening : opening library file block delay = .ok session) {bound : Nat}
    {actions : List Action} {s : Session} (hrun : session.runActions bound actions = some (.ok s)) :
    let report := Report.ofSession s
    s.timer = [] ∧ report.phase ≠ .running ∧
    (report.phase = .paused .next →
      report.options = [] ∧ report.screen.interaction = Interaction.next.render) ∧
    (report.phase = .paused .choice →
      report.screen.interaction = (Interaction.options report.options true).render) ∧
    (report.phase = .finished → report.options = [] ∧ s.machine.stack = []) := by
  have hs : Settled s := by
    obtain ⟨hidle, hrunning⟩ := idle_opening hopening
    obtain ⟨⟨result, started⟩, hplay, hrest⟩ := Option.bind_eq_some_iff.mp hrun
    cases result with
    | error fault => cases hrest
    | ok =>
      have hfirst : Settled started.deliverAll.2 :=
        @Idle.turn _ _ hidle bound .play (fun _ => hrunning) hplay
      exact hfirst.actAll hrest
  have hnone : s.machine.phase ≠ .paused .choice → s.machine.labels = [] := by
    intro hphase
    rw [Machine.labels, hs.coherent.offers_eq_nil hphase]
    rfl
  refine ⟨hs.timer, hs.stopped, fun hphase => ⟨hnone ?_, hs.next hphase⟩, hs.choice,
    fun hphase => ⟨hnone ?_, hs.coherent.finished hphase⟩⟩
  · rw [show s.machine.phase = .paused .next from hphase]
    decide
  · rw [show s.machine.phase = .finished from hphase]
    decide

/-- A story that waits and then lets the reader choose. -/
def stileLibrary : Library :=
  [("main.xml",
    "<block id='start'><pause/><choice><option of='up'/><option of='down'/></choice></block>")]

/-- After one step on, the report shows both options, and both can be picked. -/
theorem reports_consistent_stile :
    ∃ session s, opening stileLibrary none none 300 = .ok session ∧
      session.runActions 3 [.next] = some (.ok s) ∧ s.timer = [] ∧
      (Report.ofSession s).screen.interaction =
        (Interaction.options ["up", "down"] true).render := by
  have hgoes : ((opening stileLibrary none none 300).toOption.bind fun session =>
      (session.runActions 3 [.next]).bind fun result =>
        result.toOption.map fun s => (s.machine.phase, s.machine.labels)) =
      some (.paused .choice, ["up", "down"]) := by decide +kernel
  cases hopening : opening stileLibrary none none 300 with
  | error fault =>
    rw [hopening] at hgoes
    cases hgoes
  | ok session =>
    rw [hopening, Except.toOption, Option.bind_some] at hgoes
    obtain ⟨result, hrun, hstands⟩ := Option.bind_eq_some_iff.mp hgoes
    cases result with
    | error fault => cases hstands
    | ok s =>
      obtain ⟨hphase, hlabels⟩ := Prod.mk.inj (Option.some.inj hstands)
      obtain ⟨htimer, -, -, hchoice, -⟩ := reports_consistent hopening hrun
      rw [← hlabels]
      exact ⟨session, s, rfl, hrun, htimer, hchoice hphase⟩

end Session

end StoryPlayer
