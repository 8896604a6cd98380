import StoryPlayer.Host.Action
import StoryPlayer.Proofs.Activation
import StoryPlayer.Proofs.Lines
import StoryPlayer.Proofs.Observation

/-! Stops of a story, and the tasks that are left to its host there.  From one stop to the next a
story schedules at most one task, and only if it stops at a choice.  So it is the same whether a
host waits for its tasks at choices only or gives all of them back at every stop, and how long
choices are delayed. -/

namespace StoryPlayer

open Markup

/-- Sees all but the delay of choices. -/
def Observer.patient : Observer where
  surface _ := true
  addition := true
  generation := true
  choiceDelay := false
  followed _ := rfl

namespace Machine

/-! ### Tasks between two stops -/

/-- At most one task is scheduled on the way, and then the story waits for a choice. -/
def Schedules (before after : Machine) : Prop :=
  after.tasks = before.tasks ∨
    ∃ task, after.tasks = task :: before.tasks ∧ after.phase = .paused .choice

theorem tasks_eq_of_fresh {m after : Machine} {fresh : List Event}
    (h : after.journal = fresh ++ m.journal)
    (hfresh : ∀ task delay, .scheduled task delay ∉ fresh) : after.tasks = m.tasks := by
  have hnone := List.filterMap_eq_nil_iff.mpr (Event.task?_eq_none hfresh)
  rw [tasks, h, List.filterMap_append, hnone]
  rfl

theorem Quiet.tasks_eq {m after : Machine} (h : Quiet m after) : after.tasks = m.tasks := by
  obtain ⟨writes, hwrites⟩ := h.journal
  exact tasks_eq_of_fresh hwrites (by simp)

theorem tasks_install (m : Machine) (file : String) (root : Element) (block : Option String) :
    (m.install file root block).2.tasks = m.tasks :=
  (m.quiet_install file root block).tasks_eq

theorem tasks_load (m : Machine) (file : String) (block : Option String) :
    (m.load file block).2.tasks = m.tasks := by
  rw [load]
  split
  · exact m.tasks_install file _ block
  · rfl

theorem Effect.schedules {m after : Machine} {e : Element} {result : Except Fault Unit}
    (h : Effect m e result after) : Schedules m after := by
  cases h with
  | quiet hquiet => exact .inl hquiet.tasks_eq
  | paused hquiet => exact .inl hquiet.tasks_eq
  | choice => exact .inr ⟨_, rfl, rfl⟩
  | @installed file block root _ _ _ _ hinstall =>
    have htasks := m.tasks_install file root block
    rw [hinstall] at htasks
    exact .inl htasks

theorem Schedules.unwind {m after : Machine} (h : Schedules m after) : Schedules m after.unwind := h

theorem Schedules.finish {m after : Machine} (h : Schedules m after) :
    Schedules m after.finish := by
  rw [finish_eq]
  rcases h with hnone | ⟨task, htask, hphase⟩
  · exact .inl hnone
  · refine .inr ⟨task, htask, ?_⟩
    show (if after.phase.isPaused then after.phase else .finished) = _
    rw [hphase]
    rfl

theorem step_schedules (m : Machine) : Schedules m m.step.2 := by
  refine step_keeps (fun _ => .inl rfl) ?_ (·.unwind) (·.finish)
  intro e left result after _ hrun
  have heffect := (m.take e left).execute_effect e
  rw [hrun] at heffect
  exact heffect.schedules

/-- A story that has scheduled a task stops, so that no second one follows. -/
theorem Plays.schedules {m after : Machine} {result : Except Fault Unit}
    (h : Plays m result after) : Schedules m after := by
  induction h with
  | paused => exact .inl rfl
  | @failed m _ _ _ hstep =>
    have hschedules := m.step_schedules
    rwa [hstep] at hschedules
  | @ended m _ _ hstep =>
    have hschedules := m.step_schedules
    rwa [hstep] at hschedules
  | @more m next after _ _ hstep hplays ih =>
    have hschedules := m.step_schedules
    rw [hstep] at hschedules
    rcases hschedules with hnone | ⟨task, htask, hphase⟩
    · simp only [Schedules, hnone] at ih
      exact ih
    · have hstops : after = next := hplays.eq_of_paused (by rw [hphase]; rfl)
      rw [hstops]
      exact .inr ⟨task, htask, hphase⟩

theorem Starts.tasks_eq {m start : Machine} {turn : Turn} (h : Starts m turn start) :
    start.tasks = m.tasks := by
  rcases h.cases with ⟨-, rfl⟩ | ⟨-, -, writes, hwrites⟩
  · rfl
  · rw [List.append_cons] at hwrites
    exact tasks_eq_of_fresh hwrites (by simp)

theorem turn_schedules {bound : Nat} {m after : Machine} {turn : Turn}
    {result : Except Fault Unit} (h : turn.run bound m = some (result, after)) :
    Schedules m after := by
  rcases m.starts_or_refused turn with ⟨start, hstart⟩ | ⟨fault, hrefused⟩
  · rw [hstart.run_eq] at h
    have hplays := (plays_of_play h).schedules
    rwa [Schedules, hstart.tasks_eq] at hplays
  · rw [hrefused] at h
    cases h
    exact .inl rfl

theorem Alike.tasks_eq {m₁ m₂ : Machine} (h : Alike .patient m₁ m₂) : m₁.tasks = m₂.tasks := by
  have hseen : ∀ m : Machine,
      m.tasks = (m.journal.filterMap (Event.seenBy .patient)).filterMap Event.task? := by
    intro m
    rw [tasks, List.filterMap_filterMap]
    congr 1
    funext event
    cases event <;> rfl
  rw [hseen, hseen, h.journal]

/-- A story that opens does so whatever the delay of its choices. -/
theorem opening_alike {library : Library} {file block : Option String} {delay : Nat} {m : Machine}
    (h : opening library file block delay = .ok m) (other : Nat) :
    ∃ m', opening library file block other = .ok m' ∧ Alike .patient m m' ∧ m.tasks = [] := by
  have hnew : Alike .patient (new library delay) (new library other) :=
    { Alike.refl .patient (new library delay) with choiceDelay := nofun }
  rw [opening] at h ⊢
  cases hentry : library.entry file with
  | error fault =>
    rw [hentry] at h
    cases h
  | ok entry =>
    have htasks := (new library delay).tasks_load entry block
    have hload := hnew.load entry block
    simp only [hentry, bind, Except.bind] at h ⊢
    generalize (new library delay).load entry block = first at h htasks hload
    generalize (new library other).load entry block = second at hload ⊢
    obtain ⟨result, m₁⟩ := first
    obtain ⟨other, m₂⟩ := second
    obtain ⟨hresult, halike⟩ := hload
    obtain rfl : result = other := hresult
    cases result with
    | error fault => cases h
    | ok =>
      obtain rfl := Except.ok.inj h
      exact ⟨m₂, rfl, halike, htasks⟩

end Machine

/-! ### Sessions -/

/-- The call that an action makes. -/
def Action.turn : Action → Turn
  | next => .resume
  | choose label => .choose label

theorem Action.apply_eq (bound : Nat) (action : Action) :
    action.apply bound = fun m => action.turn.run bound m := by
  cases action with
  | next => rfl
  | choose label => rfl

namespace Session

/-- `f` is what a session does with an event: it puts the tasks that are scheduled in its queue. -/
theorem foldl_tasks {f : Timer → Event → Timer} {now : Nat}
    (hscheduled : ∀ timer task delay, f timer (.scheduled task delay) =
      timer.schedule (now + delay) task)
    (hother : ∀ timer event, event.task? = none → f timer event = timer) (events : List Event)
    (timer : Timer) :
    (events.foldl f timer).tasks = timer.tasks ++ events.filterMap Event.task? := by
  induction events generalizing timer with
  | nil => simp
  | cons event rest ih =>
    rw [List.foldl_cons, ih]
    cases event with
    | scheduled task delay => simp [hscheduled, Timer.schedule, Timer.tasks, Event.task?]
    | ran | wrote | installed | proceeded =>
      rw [hother timer _ rfl]
      rfl

theorem collect_tasks (s : Session) :
    s.collect.2.timer.tasks = s.timer.tasks ++ s.machine.tasks.reverse := by
  rw [Machine.tasks, ← List.filterMap_reverse]
  refine foldl_tasks (fun _ _ _ => rfl) (fun timer event hnone => ?_) _ _
  cases event with
  | scheduled => cases hnone
  | ran | wrote | installed | proceeded => rfl

theorem waitAll_of_nil {s : Session} (h : s.timer = []) (late : List Nat) :
    s.waitAll late = ([], s) := by
  rw [waitAll]
  split
  · rfl
  · next hdue =>
    rw [h] at hdue
    cases hdue

theorem deliverAll_of_nil {s : Session} (h : s.timer = []) : s.deliverAll.2 = s := by
  obtain ⟨machine, timer, now⟩ := s
  obtain rfl : timer = [] := h
  rfl

/-- The host wakes up when the one task is due or later, and then nothing else waits. -/
theorem waitAll_of_singleton {s : Session} {w : Waiting} (h : s.timer = [w]) (late : List Nat) :
    (s.waitAll late).2.machine = (s.machine.deliver w.task).2 ∧
      (s.waitAll late).2.timer = [] := by
  rw [waitAll]
  split
  · next hdue =>
    rw [h] at hdue
    cases hdue
  · next due hdue =>
    have hw : w.due = due := by
      rw [h] at hdue
      exact Option.some.inj hdue
    have hdueAt : s.timer.dueAt (max s.now due + late.headD 0) = [w] := by
      rw [h, Timer.dueAt, List.filter_cons_of_pos]
      · rfl
      · simp only [decide_eq_true_eq]
        omega
    have hnotDueAt : s.timer.notDueAt (max s.now due + late.headD 0) = [] := by
      rw [h, Timer.notDueAt, List.filter_cons_of_neg]
      · rfl
      · simp only [decide_eq_true_eq]
        omega
    simp only [deliverDue, hdueAt, hnotDueAt]
    rw [waitAll_of_nil rfl]
    exact ⟨rfl, rfl⟩

/-- The session once the line player has waited for what it waits for. -/
def arrived (late : List Nat) (s : Session) : Session :=
  if s.machine.phase = .paused .choice then (s.waitAll late).2 else s

/-- The sessions stand at one stop of one story, and no task is left. -/
structure Agree (s₁ s₂ : Session) : Prop where
  machine : Machine.Alike .patient s₁.machine s₂.machine
  tasks : s₁.machine.tasks = []
  timer₁ : s₁.timer = []
  timer₂ : s₂.timer = []

theorem agree_of_nil {s₁ s₂ : Session} (hmachine : Machine.Alike .patient s₁.machine s₂.machine)
    (htasks : s₁.machine.tasks = []) (h₁ : s₁.timer = []) (h₂ : s₂.timer = []) (late : List Nat) :
    Agree (s₁.arrived late) s₂.deliverAll.2 := by
  have harrived : s₁.arrived late = s₁ := by
    rw [arrived, waitAll_of_nil h₁]
    split
    · rfl
    · rfl
  rw [harrived, deliverAll_of_nil h₂]
  exact ⟨hmachine, htasks, h₁, h₂⟩

/-- At a choice the one task that was scheduled is given back on both sides, however late. -/
theorem agree_of_singleton {s₁ s₂ : Session}
    (hmachine : Machine.Alike .patient s₁.machine s₂.machine) (htasks : s₁.machine.tasks = [])
    {w₁ w₂ : Waiting} (h₁ : s₁.timer = [w₁]) (h₂ : s₂.timer = [w₂]) (hw : w₁.task = w₂.task)
    (hphase : s₁.machine.phase = .paused .choice) (late : List Nat) :
    Agree (s₁.arrived late) s₂.deliverAll.2 := by
  obtain ⟨hgiven, hempty⟩ := waitAll_of_singleton h₁ late
  have hall : s₂.deliverAll.2.machine = (s₂.machine.deliver w₂.task).2 := by
    rw [deliverAll, h₂]
    rfl
  have hafter := hmachine.deliver rfl w₁.task
  rw [arrived, if_pos hphase]
  refine ⟨?_, ?_, hempty, deliver_timer _ _⟩
  · rw [hgiven, hall, ← hw]
    exact hafter.2
  · rw [hgiven, Machine.deliver]
    split
    · exact (s₁.machine.quiet_write _ _).tasks_eq.trans htasks
    · exact htasks

theorem timer_eq_of_tasks {timer : Timer} {task : Task} (h : timer.tasks = [task]) :
    ∃ w : Waiting, timer = [w] ∧ w.task = task := List.map_eq_singleton_iff.mp h

/-- What a machine leaves to its session: at most one task, and that only at a choice. -/
theorem agree_collect {s₁ s₂ : Session} (hmachine : Machine.Alike .patient s₁.machine s₂.machine)
    (h₁ : s₁.timer = []) (h₂ : s₂.timer = [])
    (htasks : s₁.machine.tasks = [] ∨
      ∃ task, s₁.machine.tasks = [task] ∧ s₁.machine.phase = .paused .choice) (late : List Nat) :
    Agree (s₁.collect.2.arrived late) s₂.collect.2.deliverAll.2 := by
  have hcollected : Machine.Alike .patient s₁.collect.2.machine s₂.collect.2.machine :=
    hmachine.takeJournal
  have htimer₁ := s₁.collect_tasks
  have htimer₂ := s₂.collect_tasks
  rw [h₁] at htimer₁
  rw [h₂, ← hmachine.tasks_eq] at htimer₂
  rcases htasks with hnone | ⟨task, hone, hphase⟩
  · rw [hnone] at htimer₁ htimer₂
    exact agree_of_nil hcollected rfl (List.map_eq_nil_iff.mp htimer₁)
      (List.map_eq_nil_iff.mp htimer₂) late
  · rw [hone] at htimer₁ htimer₂
    obtain ⟨w₁, hw₁, htask₁⟩ := timer_eq_of_tasks htimer₁
    obtain ⟨w₂, hw₂, htask₂⟩ := timer_eq_of_tasks htimer₂
    exact agree_of_singleton hcollected rfl hw₁ hw₂ (htask₁.trans htask₂.symm) hphase late

theorem collect_of_opening {library : Library} {file block : Option String} {delay : Nat}
    {session : Session} (h : opening library file block delay = .ok session) :
    ∃ m, Machine.opening library file block delay = .ok m ∧
      session = ({ machine := m } : Session).collect.2 := by
  rw [opening] at h
  cases hopening : Machine.opening library file block delay with
  | error fault =>
    rw [hopening] at h
    cases h
  | ok m =>
    rw [hopening] at h
    exact ⟨m, rfl, (Except.ok.inj h).symm⟩

/-- Sessions of one story stand at its beginning, whatever the delay of choices. -/
theorem opening_agree {library : Library} {file block : Option String} {delay : Nat}
    {session : Session} (h : opening library file block delay = .ok session) (other : Nat) :
    ∃ fresh, opening library file block other = .ok fresh ∧ Agree session fresh := by
  obtain ⟨m, hopening, rfl⟩ := collect_of_opening h
  obtain ⟨m', hopening', halike, htasks⟩ := Machine.opening_alike hopening other
  have htimer := ({ machine := m } : Session).collect_tasks
  have htimer' := ({ machine := m' } : Session).collect_tasks
  simp only [htasks] at htimer
  simp only [← halike.tasks_eq, htasks] at htimer'
  refine ⟨({ machine := m' } : Session).collect.2, by rw [opening, hopening']; rfl, ?_⟩
  exact ⟨halike.takeJournal, rfl, List.map_eq_nil_iff.mp htimer, List.map_eq_nil_iff.mp htimer'⟩

theorem perform_eq_some {s t : Session} {operation : Machine → Option (Outcome Unit)}
    {result : Except Fault Unit} (h : s.perform operation = some (result, t)) :
    ∃ after, operation s.machine = some (result, after) ∧
      t = { s with machine := after }.collect.2 := by
  rw [perform] at h
  obtain ⟨⟨answer, after⟩, hoperation, heq⟩ := Option.bind_eq_some_iff.mp h
  obtain ⟨rfl, rfl⟩ := Prod.mk.inj (Option.some.inj heq)
  exact ⟨after, hoperation, rfl⟩

/-- From one stop to the next. -/
theorem Agree.turn {s₁ s₂ t₁ : Session} (h : Agree s₁ s₂) {bound : Nat} {turn : Turn}
    {result : Except Fault Unit}
    (hrun : s₁.perform (fun m => turn.run bound m) = some (result, t₁)) (late : List Nat) :
    ∃ t₂, s₂.perform (fun m => turn.run bound m) = some (result, t₂) ∧
      Agree (t₁.arrived late) t₂.deliverAll.2 := by
  obtain ⟨after₁, hafter₁, rfl⟩ := perform_eq_some hrun
  rcases (h.machine.turn bound turn).cases with
    ⟨hnone, -⟩ | ⟨first, ⟨other, after₂⟩, hfirst, hafter₂, hresult, halike⟩
  · rw [hafter₁] at hnone
    cases hnone
  · obtain rfl : first = (result, after₁) := Option.some.inj (hfirst.symm.trans hafter₁)
    obtain rfl : result = other := hresult
    have hschedules := Machine.turn_schedules hafter₁
    rw [Machine.Schedules, h.tasks] at hschedules
    refine ⟨{ s₂ with machine := after₂ }.collect.2, ?_, ?_⟩
    · rw [perform, hafter₂]
      rfl
    · exact @agree_collect { s₁ with machine := after₁ } { s₂ with machine := after₂ } halike
        h.timer₁ h.timer₂ hschedules late

theorem Agree.act {s₁ s₂ t₁ : Session} (h : Agree s₁ s₂) {bound : Nat} {action : Action}
    {result : Except Fault Unit} (hrun : s₁.perform (action.apply bound) = some (result, t₁))
    (late : List Nat) :
    ∃ t₂, s₂.act bound action = some (result.map fun _ => t₂) ∧ Agree (t₁.arrived late) t₂ := by
  rw [Action.apply_eq] at hrun
  obtain ⟨t₂, ht₂, hagree⟩ := h.turn hrun late
  refine ⟨t₂.deliverAll.2, ?_, hagree⟩
  rw [Session.act, Action.apply_eq, ht₂]
  rfl

end Session

end StoryPlayer
