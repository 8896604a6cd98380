import StoryPlayer.Proofs.Activation

/-! A choice that is pending.  `resume` refuses to go on from a choice while options are on offer,
but it looks for that at what the story waits for, and a host that runs single steps can have this
replaced: a line or a pause that is stepped over after the choice lets `resume` pass it by.  Nothing
else does. -/

namespace StoryPlayer

open Markup

/-- Whether the story may wait for the reader to go on after an element. -/
def mayWait (e : Element) : Bool :=
  match Instruction.ofElement e with
  | .ok (.text _) | .ok .pause => true
  | _ => false

namespace Machine

/-- What happened since a choice was last shown, newest first. -/
def sinceChoice (m : Machine) : List Event := m.journal.takeWhile fun event => event.task?.isNone

theorem sinceChoice_eq {m after : Machine} {fresh : List Event}
    (hjournal : after.journal = fresh ++ m.journal)
    (hfresh : ∀ task delay, .scheduled task delay ∉ fresh) :
    after.sinceChoice = fresh ++ m.sinceChoice := by
  rw [sinceChoice, hjournal]
  refine List.takeWhile_append_of_pos fun event hmem => ?_
  rw [Event.task?_eq_none hfresh event hmem]
  rfl

/-! ### What the story waits for -/

theorem perform_phase_next {m : Machine} {e : Element} {i : Instruction}
    (htext : ∀ speaker, i ≠ .text speaker) (hpause : i ≠ .pause)
    (h : (m.perform e i).2.phase = .paused .next) : m.phase = .paused .next := by
  cases i with
  | block gate =>
    simp only [perform] at h
    split at h
    · exact h
    · exact h
  | text speaker => exact absurd rfl (htext speaker)
  | clearScreen => exact (m.quiet_writes Surface.all "").phase.symm.trans h
  | pause => exact absurd rfl hpause
  | choice offers => cases h
  | call block => exact (m.quiet_call block).phase.symm.trans h
  | goto block =>
    have hcall := ({ m with stack := [] } : Machine).quiet_call block
    exact hcall.phase.symm.trans h
  | load file block =>
    simp only [perform, load] at h
    cases hfetch : m.library.fetch file with
    | ok root =>
      rw [hfetch] at h
      cases (m.quiet_install file root block).phase.symm.trans h
    | error fault =>
      rw [hfetch] at h
      exact h
  | title | description | toDescription | flag | ignored => exact h

/-- Only a line or a pause makes the story wait for the reader to go on. -/
theorem execute_phase_next {m : Machine} {e : Element} (he : mayWait e = false)
    (h : (m.execute e).2.phase = .paused .next) : m.phase = .paused .next := by
  rw [execute] at h
  rw [mayWait] at he
  cases hread : Instruction.ofElement e with
  | ok i =>
    rw [hread] at h he
    refine perform_phase_next (fun speaker htext => ?_) (fun hpause => ?_) h
    · rw [htext] at he
      cases he
    · rw [hpause] at he
      cases he
  | error fault =>
    rw [hread] at h
    exact h

/-! ### One step -/

/-- While options are on offer and nothing that may wait has run since they are, the story waits for
the choice. -/
def Unskipped (m : Machine) : Prop :=
  m.offers ≠ [] → (∀ e, .ran e ∈ m.sinceChoice → mayWait e = false) → m.phase = .paused .choice

theorem Unskipped.calm {m after : Machine} (h : m.Unskipped) {fresh : List Event}
    (hjournal : after.journal = fresh ++ m.journal)
    (hfresh : ∀ task delay, .scheduled task delay ∉ fresh) (hoffers : after.offers = m.offers)
    (hphase : m.phase = .paused .choice → after.phase = .paused .choice) : after.Unskipped := by
  intro hoffered hcalm
  rw [sinceChoice_eq hjournal hfresh] at hcalm
  rw [hoffers] at hoffered
  exact hphase (h hoffered fun e hmem => hcalm e (List.mem_append_right fresh hmem))

theorem Quiet.unskipped {m after : Machine} (hquiet : Quiet m after) (h : m.Unskipped) :
    after.Unskipped := by
  obtain ⟨writes, hwrites⟩ := hquiet.journal
  exact h.calm hwrites (by simp) hquiet.offers hquiet.phase.trans

theorem Unskipped.unwind {m : Machine} (h : m.Unskipped) : m.unwind.Unskipped :=
  (m.quiet_stack _).unskipped h

theorem Unskipped.finish {m : Machine} (h : m.Unskipped) : m.finish.Unskipped := by
  rw [finish_eq]
  refine h.calm (List.nil_append _).symm nofun rfl fun hphase => ?_
  rw [hphase]
  rfl

/-- An element that makes the story wait is itself among what ran since the choice. -/
theorem Unskipped.pause {m q : Machine} (h : m.Unskipped) {e : Element} {stack : Stack}
    (hquiet : Quiet (m.take e stack) q)
    (hexecute : ((m.take e stack).execute e).2 = q.pause) : q.pause.Unskipped := by
  obtain ⟨writes, hwrites⟩ := hquiet.journal
  have hjournal : q.pause.journal = (.wrote .interaction Interaction.next.render ::
      writes.map (fun w => .wrote w.1 w.2) ++ [.ran e]) ++ m.journal := by
    show .wrote _ _ :: q.journal = _
    rw [hwrites]
    simp [take]
  intro hoffered hcalm
  rw [sinceChoice_eq hjournal (by simp)] at hcalm
  have hoffers : m.offers ≠ [] := by
    rw [← show q.offers = m.offers from hquiet.offers]
    exact hoffered
  have hchoice := h hoffers fun x hmem => hcalm x (List.mem_append_right _ hmem)
  have hpaused : ((m.take e stack).execute e).2.phase = .paused .next := by
    rw [hexecute]
    rfl
  have hnext : (m.take e stack).phase = .paused .next :=
    execute_phase_next (hcalm e (by simp)) hpaused
  cases hchoice.symm.trans hnext

theorem Unskipped.execute {m : Machine} (h : m.Unskipped) (e : Element) (stack : Stack) :
    ((m.take e stack).execute e).2.Unskipped := by
  have hjournal : (m.take e stack).journal = [.ran e] ++ m.journal := rfl
  have htake : (m.take e stack).Unskipped := h.calm hjournal (by simp) rfl id
  have heffect := (m.take e stack).execute_effect e
  generalize hrun : (m.take e stack).execute e = outcome at heffect
  obtain ⟨result, after⟩ := outcome
  cases heffect with
  | quiet hquiet => exact hquiet.unskipped htake
  | paused hquiet => exact h.pause hquiet (congrArg Prod.snd hrun)
  | choice => exact fun _ _ => rfl
  | @installed file block root _ _ _ _ hinstall =>
    have hquiet := (m.take e stack).quiet_install file root block
    rw [hinstall] at hquiet
    exact fun hoffered => absurd hquiet.offers hoffered

theorem Unskipped.stepped {m after : Machine} (h : m.Unskipped) {result : Except Fault Bool}
    (hstepped : Stepped m result after) : after.Unskipped := by
  cases hstepped with
  | idle => exact h.unwind.finish
  | @failed e stack _ _ _ hexecute =>
    have hpost := h.execute e stack
    rwa [hexecute] at hpost
  | @last e stack _ _ hexecute =>
    have hpost := h.execute e stack
    rw [hexecute] at hpost
    exact hpost.unwind.finish
  | @more e stack _ _ hexecute =>
    have hpost := h.execute e stack
    rw [hexecute] at hpost
    exact hpost.unwind

/-! ### All operations -/

/-- Past its guard, a story that waits for a choice has nothing on offer. -/
theorem Unskipped.start {m start : Machine} (h : m.Unskipped) {turn : Turn}
    (hstart : Starts m turn start) : start.Unskipped := by
  cases hstart with
  | play => exact h
  | resume _ hfree =>
    intro hoffered hcalm
    have hoffers : m.offers ≠ [] := by
      rw [← show m.leavePause.offers = m.offers from m.quiet_leavePause.offers]
      exact hoffered
    obtain ⟨writes, hwrites⟩ := m.leavePause_journal
    rw [List.append_cons] at hwrites
    rw [sinceChoice_eq hwrites (by simp)] at hcalm
    have hphase := h hoffers fun e hmem => hcalm e (List.mem_append_right _ hmem)
    exact absurd (hfree hphase) hoffers
  | @choose _ option _ =>
    have hoffers := (m.enterOption option).quiet_leavePause.offers
    exact fun hoffered => absurd hoffers hoffered

theorem unskipped_kept : Kept (fun _ => True) Unskipped where
  step hm _ := hm.stepped (step_stepped _)
  install file root block _ hoffered :=
    absurd (quiet_install _ file root block).offers hoffered
  start hm hstart := hm.start hstart
  flags _ hm := (quiet_flags _ _).unskipped hm
  write _ _ hm := (quiet_write _ _ _).unskipped hm

theorem reachable_unskipped {m : Machine} (h : Reachable (fun _ => True) m) : m.Unskipped :=
  unskipped_kept.reachable (fun _ _ hoffered => absurd rfl hoffered) h

theorem resume_eq_of_ne {m : Machine} (hoffers : m.offers ≠ []) (hphase : m.phase ≠ .paused .next)
    (bound : Nat) :
    m.resume bound =
      some (.error (if m.phase.isPaused then .choicePending else .notPaused), m) := by
  rw [resume]
  cases hm : m.phase with
  | running => rfl
  | finished => rfl
  | paused pause =>
    cases pause with
    | next => exact absurd hm hphase
    | choice => simp [hoffers, Phase.isPaused]

/-- Whatever a host does, also by single steps: while options are on offer, `resume` is refused and
changes nothing, as long as no line and no pause was stepped over since the choice was shown.  It is
refused exactly if the story does not wait for the reader to go on. -/
theorem pending_choice_refuses_resume {m : Machine} (h : Reachable (fun _ => True) m)
    (hoffers : m.offers ≠ []) :
    ((∀ e, .ran e ∈ m.sinceChoice → mayWait e = false) →
      ∀ bound, m.resume bound = some (.error .choicePending, m)) ∧
    ((∀ bound, m.resume bound =
        some (.error (if m.phase.isPaused then .choicePending else .notPaused), m)) ↔
      m.phase ≠ .paused .next) := by
  refine ⟨fun hcalm bound => ?_, fun hrefused hnext => ?_,
    fun hphase => resume_eq_of_ne hoffers hphase⟩
  · have hphase := reachable_unskipped h hoffers hcalm
    rw [resume_eq_of_ne hoffers (by rw [hphase]; decide), hphase]
    rfl
  · have hzero := hrefused 0
    simp [resume, hnext, proceed, play] at hzero

/-- The crossroads, and a title and a pause after the choice. -/
def passage : Element :=
  { crossroads with
    children := crossroads.children ++
      [⟨"title", [], [], "Ahead", .synthetic⟩, ⟨"pause", [], [], "", .synthetic⟩] }

/-- A host that steps over the title still cannot go on. -/
theorem pending_choice_refuses_resume_passage :
    ∃ m, Reachable (fun _ => True) m ∧ m.labels = ["left", "right"] ∧ m.screen.title = "Ahead" ∧
      ∀ bound, m.resume bound = some (.error .choicePending, m) := by
  have h : Reachable (fun _ => True) _ :=
    .call .step 0 (.call (.turn .play) 4
      (.call (.install "main.xml" passage none) 0 (.new [] 300) trivial rfl) trivial rfl)
      trivial rfl
  refine ⟨_, h, rfl, rfl, (pending_choice_refuses_resume h nofun).1 fun e hmem => ?_⟩
  have hstepped : Event.ran e ∈
      [.wrote .title "Ahead", .ran ⟨"title", [], [], "Ahead", .synthetic⟩] := hmem
  obtain rfl : e = ⟨"title", [], [], "Ahead", .synthetic⟩ := by simpa using hstepped
  rfl

/-- A host that steps over the pause as well goes on, and the story ends with both options still on
offer. -/
theorem resume_skips_choice :
    ∃ m after, Reachable (fun _ => True) m ∧ m.labels = ["left", "right"] ∧
      m.phase.isPaused = true ∧ m.resume 2 = some (.ok (), after) ∧ after.phase = .finished ∧
      after.labels = ["left", "right"] := by
  have h : Reachable (fun _ => True) _ :=
    .call .step 0 (.call .step 0 (.call (.turn .play) 4
      (.call (.install "main.xml" passage none) 0 (.new [] 300) trivial rfl) trivial rfl)
      trivial rfl) trivial rfl
  exact ⟨_, _, h, rfl, rfl, rfl, rfl, rfl⟩

end Machine

end StoryPlayer
