import StoryPlayer.Proofs.Operations

/-! The protocol between a machine and its host.  Hosts that do not run single steps find a machine
in one of four situations between two calls: it runs, has ended, waits for the reader to go on, or
waits for a choice, and only in the last is anything on offer.  So the guards of `resume` and
`choose`, each of which looks at a part of the machine, let exactly the calls pass that fit. -/

namespace StoryPlayer

open Markup

/-- The stack is empty, or its top frame has a child to run. -/
def Stack.Ready (stack : Stack) : Prop :=
  stack = [] ∨ ∃ frame rest, stack = frame :: rest ∧ frame.exhausted = false

namespace Machine

/-- The story runs, and nothing is on offer. -/
structure Underway (m : Machine) : Prop where
  running : m.phase = .running
  offers : m.offers = []

/-- How phase, offers and stack belong together between two calls. -/
structure Coherent (m : Machine) : Prop where
  offered : m.offers ≠ [] → m.phase = .paused .choice
  finished : m.phase = .finished → m.stack = []
  ready : m.phase.isPaused = true → m.stack.Ready

theorem Underway.coherent {m : Machine} (h : m.Underway) : m.Coherent := by
  refine ⟨fun hoffers => absurd h.offers hoffers, fun hphase => ?_, fun hpaused => ?_⟩
  · rw [h.running] at hphase
    cases hphase
  · rw [h.running] at hpaused
    cases hpaused

theorem Quiet.underway {m after : Machine} (hquiet : Quiet m after) (h : m.Underway) :
    after.Underway :=
  ⟨hquiet.phase.trans h.running, hquiet.offers.trans h.offers⟩

theorem Coherent.offers_eq_nil {m : Machine} (h : m.Coherent) (hphase : m.phase ≠ .paused .choice) :
    m.offers = [] :=
  Classical.byContradiction fun hoffers => hphase (h.offered hoffers)

theorem Coherent.offers_eq_nil_of_resume {m : Machine} (h : m.Coherent)
    (hfree : m.phase = .paused .choice → m.offers = []) : m.offers = [] := by
  by_cases hphase : m.phase = .paused .choice
  · exact hfree hphase
  · exact h.offers_eq_nil hphase

theorem Coherent.underway {m : Machine} (h : m.Coherent) (hrunning : m.phase.isPaused = false)
    (hleft : m.stack ≠ []) : m.Underway := by
  cases hphase : m.phase with
  | running => exact ⟨hphase, h.offers_eq_nil (by rw [hphase]; decide)⟩
  | paused pause =>
    rw [hphase] at hrunning
    cases hrunning
  | finished => exact absurd (h.finished hphase) hleft

/-! ### One step -/

/-- What an element of a story that is under way leaves: the story has not ended, offers nothing
unless it waits for a choice, and is still under way if the element failed. -/
structure Handled (result : Except Fault Unit) (after : Machine) : Prop where
  offered : after.offers ≠ [] → after.phase = .paused .choice
  unfinished : after.phase ≠ .finished
  failed : ∀ fault, result = .error fault → after.Underway

theorem Underway.handled {m : Machine} (h : m.Underway) (result : Except Fault Unit) :
    Handled result m := by
  refine ⟨h.coherent.offered, ?_, fun _ _ => h⟩
  rw [h.running]
  decide

theorem Effect.handled {m after : Machine} {e : Element} {result : Except Fault Unit}
    (h : Effect m e result after) (hm : m.Underway) : Handled result after := by
  cases h with
  | quiet hquiet => exact (hquiet.underway hm).handled result
  | @paused q hquiet =>
    have hoffers : q.pause.offers = [] := (hquiet.underway hm).offers
    refine ⟨fun hne => absurd hoffers hne, ?_, ?_⟩
    · show Phase.paused .next ≠ .finished
      decide
    · intro fault hfault
      cases hfault
  | choice =>
    refine ⟨fun _ => rfl, ?_, ?_⟩
    · show Phase.paused .choice ≠ .finished
      decide
    · intro fault hfault
      cases hfault
  | @installed file block root _ _ _ _ hinstall =>
    have hquiet := m.quiet_install file root block
    rw [hinstall] at hquiet
    exact (hquiet.underway ⟨rfl, rfl⟩).handled result

theorem finish_phase_ne_running (m : Machine) : m.finish.phase ≠ .running := by
  rw [finish]
  split
  · next hpaused =>
    intro hphase
    rw [hphase] at hpaused
    cases hpaused
  · show Phase.finished ≠ .running
    decide

/-- A machine whose stack is used up is coherent once it has ended. -/
theorem coherent_finish {m : Machine} (hoffered : m.offers ≠ [] → m.phase = .paused .choice)
    (hnil : m.stack.unwind = []) : m.unwind.finish.Coherent := by
  rw [finish_eq]
  refine ⟨fun hoffers => ?_, fun _ => hnil, fun _ => .inl hnil⟩
  have hphase : m.unwind.phase = .paused .choice := hoffered hoffers
  simp only [hphase]
  rfl

theorem coherent_unwind {m : Machine} (hoffered : m.offers ≠ [] → m.phase = .paused .choice)
    (hphase : m.phase ≠ .finished) : m.unwind.Coherent :=
  ⟨hoffered, fun h => absurd h hphase, fun _ => m.stack.unwind_cases⟩

/-- An element that runs while the story does not wait is run by a machine that is under way. -/
theorem Coherent.execute {m post : Machine} (hm : m.Coherent) (hrunning : m.phase.isPaused = false)
    {e : Element} {stack : Stack} {result : Except Fault Unit}
    (hpop : m.stack.unwind.pop? = some (e, stack))
    (hexecute : (m.take e stack).execute e = (result, post)) : Handled result post := by
  have hleft : m.stack ≠ [] := by
    intro hnil
    rw [hnil] at hpop
    cases hpop
  have hunderway := hm.underway hrunning hleft
  have heffect := (m.take e stack).execute_effect e
  rw [hexecute] at heffect
  exact heffect.handled ⟨hunderway.running, hunderway.offers⟩

theorem Stepped.coherent {m after : Machine} {result : Except Fault Bool}
    (h : Stepped m result after) (hm : m.Coherent) (hrunning : m.phase.isPaused = false) :
    after.Coherent ∧ ∀ fault, result = .error fault → after.Underway := by
  cases h with
  | idle hnil => exact ⟨coherent_finish hm.offered hnil, nofun⟩
  | failed hpop hexecute =>
    have hunderway := (hm.execute hrunning hpop hexecute).failed _ rfl
    exact ⟨hunderway.coherent, fun _ _ => hunderway⟩
  | last hpop hexecute hnil =>
    have hpost := hm.execute hrunning hpop hexecute
    exact ⟨coherent_finish hpost.offered hnil, nofun⟩
  | more hpop hexecute =>
    have hpost := hm.execute hrunning hpop hexecute
    exact ⟨coherent_unwind hpost.offered hpost.unfinished, nofun⟩

theorem Stepped.phase_ne_running {m after : Machine} (h : Stepped m (.ok false) after) :
    after.phase ≠ .running := by
  cases h with
  | idle => exact finish_phase_ne_running _
  | last => exact finish_phase_ne_running _

/-! ### Whole calls -/

theorem Plays.phase_ne_running {m after : Machine} {result : Except Fault Unit}
    (h : Plays m result after) (hok : result = .ok ()) : after.phase ≠ .running := by
  induction h with
  | paused hpaused =>
    intro hphase
    rw [hphase] at hpaused
    cases hpaused
  | failed => cases hok
  | @ended m after _ hstep =>
    have hstepped := m.step_stepped
    rw [hstep] at hstepped
    exact hstepped.phase_ne_running
  | more _ _ _ ih => exact ih hok

theorem coherent_step {m : Machine} (hm : m.Coherent) (hrunning : m.phase.isPaused = false) :
    m.step.2.Coherent ∧ ∀ fault, m.step.1 = .error fault → m.step.2.Underway :=
  m.step_stepped.coherent hm hrunning

theorem Plays.underway {m after : Machine} {result : Except Fault Unit}
    (h : Plays m result after) (hm : m.Coherent) {fault : Fault} (hfault : result = .error fault) :
    after.Underway := by
  induction h with
  | paused => cases hfault
  | failed hrunning hstep =>
    have hafter := (coherent_step hm hrunning).2
    rw [hstep] at hafter
    exact hafter _ rfl
  | ended => cases hfault
  | more hrunning hstep _ ih =>
    have hnext := (coherent_step hm hrunning).1
    rw [hstep] at hnext
    exact ih hnext hfault

/-- A call that is past its guard plays a machine that is under way, unless it is `play` itself. -/
theorem Starts.coherent {m start : Machine} {turn : Turn} (h : Starts m turn start)
    (hm : m.Coherent) : start.Coherent := by
  cases h with
  | play => exact hm
  | resume _ hfree =>
    have hoffers := hm.offers_eq_nil_of_resume hfree
    exact (m.quiet_leavePause.underway ⟨rfl, hoffers⟩).coherent
  | @choose _ option _ =>
    exact ((m.enterOption option).quiet_leavePause.underway ⟨rfl, rfl⟩).coherent

theorem coherent_kept : Kept (· ≠ .step) Coherent where
  step hm hrunning := by
    rcases hrunning with hrunning | hstep
    · exact (coherent_step hm hrunning).1
    · exact absurd rfl hstep
  install file root block _ :=
    ((quiet_install _ file root block).underway ⟨rfl, rfl⟩).coherent
  start hm hstart := hstart.coherent hm
  flags _ hm := ⟨hm.offered, hm.finished, hm.ready⟩
  write _ _ hm := ⟨hm.offered, hm.finished, hm.ready⟩

theorem reachable_coherent {m : Machine} (h : Reachable (· ≠ .step) m) : m.Coherent :=
  coherent_kept.reachable (fun _ _ => Underway.coherent ⟨rfl, rfl⟩) h

/-! ### Guards -/

/-- A call gets past its guard: it plays on from some machine, whatever the bound. -/
def Passes (m : Machine) (turn : Turn) : Prop :=
  ∃ start : Machine, ∀ bound, turn.run bound m = start.play bound

theorem passes_iff (m : Machine) (turn : Turn) : m.Passes turn ↔ ∃ start, Starts m turn start := by
  constructor
  · rintro ⟨start, hrun⟩
    rcases m.starts_or_refused turn with hstarts | ⟨fault, hrefused⟩
    · exact hstarts
    · have hzero := (hrefused 0).symm.trans (hrun 0)
      cases hzero
  · rintro ⟨start, hstart⟩
    exact ⟨start, hstart.run_eq⟩

theorem passes_resume_iff {m : Machine} (hm : m.Coherent) :
    m.Passes .resume ↔ m.phase.isPaused = true ∧ m.offers = [] := by
  rw [passes_iff]
  constructor
  · rintro ⟨start, hstart⟩
    cases hstart with
    | resume hpaused hfree => exact ⟨hpaused, hm.offers_eq_nil_of_resume hfree⟩
  · rintro ⟨hpaused, hoffers⟩
    exact ⟨_, .resume hpaused fun _ => hoffers⟩

theorem passes_choose_iff (m : Machine) (label : String) :
    m.Passes (.choose label) ↔ label ∈ m.labels := by
  rw [passes_iff]
  constructor
  · rintro ⟨start, hstart⟩
    cases hstart with
    | choose hoption =>
      refine Classical.byContradiction fun hnone => ?_
      rw [Table.get?_eq_none_iff.mpr hnone] at hoption
      cases hoption
  · intro hlabel
    cases hoption : m.offers.get? label with
    | none => exact absurd hlabel (Table.get?_eq_none_iff.mp hoption)
    | some option => exact ⟨_, .choose hoption⟩

theorem exists_passes_choose_iff (m : Machine) :
    (∃ label, m.Passes (.choose label)) ↔ m.offers ≠ [] := by
  simp only [passes_choose_iff]
  constructor
  · rintro ⟨label, hlabel⟩ hnil
    rw [labels, hnil] at hlabel
    cases hlabel
  · intro hoffers
    obtain ⟨entry, rest, hcons⟩ := List.exists_cons_of_ne_nil hoffers
    exact ⟨entry.1, by rw [labels, hcons]; exact List.mem_cons_self⟩

/-! ### The protocol -/

/-- What holds of every machine between two calls of a host, and which calls it takes. -/
theorem host_protocol {m : Machine} (h : Reachable (· ≠ .step) m) :
    (m.offers ≠ [] → m.phase = .paused .choice) ∧
    (m.phase = .finished → m.stack = []) ∧
    (m.phase.isPaused = true → m.stack.Ready) ∧
    (∀ turn bound result after, Turn.run bound m turn = some (result, after) →
      (result = .ok () → after.phase ≠ .running) ∧
      (∀ fault, result = .error fault → m.Passes turn →
        after.phase = .running ∧ after.offers = []) ∧
      (¬m.Passes turn → ∃ fault, result = .error fault ∧ after = m)) ∧
    (m.Passes .resume ↔ m.phase.isPaused = true ∧ m.offers = []) ∧
    (∀ label, m.Passes (.choose label) ↔ label ∈ m.labels) ∧
    (m.phase.isPaused = true → (m.Passes .resume ↔ ¬∃ label, m.Passes (.choose label))) ∧
    (m.phase.isPaused = false → ¬m.Passes .resume ∧ ¬∃ label, m.Passes (.choose label)) := by
  have hm := reachable_coherent h
  refine ⟨hm.offered, hm.finished, hm.ready, fun turn bound result after hrun => ?_,
    passes_resume_iff hm, m.passes_choose_iff, fun hpaused => ?_, fun hrunning => ?_⟩
  · rcases m.starts_or_refused turn with ⟨start, hstart⟩ | ⟨fault, hrefused⟩
    · rw [hstart.run_eq] at hrun
      have hplays := plays_of_play hrun
      refine ⟨hplays.phase_ne_running, fun fault hfault _ => ?_, fun hno => ?_⟩
      · have hunderway := hplays.underway (hstart.coherent hm) hfault
        exact ⟨hunderway.running, hunderway.offers⟩
      · exact absurd ((m.passes_iff turn).mpr ⟨start, hstart⟩) hno
    · rw [hrefused] at hrun
      cases hrun
      refine ⟨nofun, fun _ _ hpasses => ?_, fun _ => ⟨fault, rfl, rfl⟩⟩
      obtain ⟨start, hstart⟩ := hpasses
      cases (hrefused 0).symm.trans (hstart 0)
  · rw [passes_resume_iff hm, exists_passes_choose_iff, Ne, Classical.not_not, hpaused]
    exact and_iff_right rfl
  · have hoffers : m.offers = [] := by
      refine hm.offers_eq_nil fun hphase => ?_
      rw [hphase] at hrunning
      cases hrunning
    rw [passes_resume_iff hm, exists_passes_choose_iff, hrunning]
    exact ⟨fun hboth => Bool.false_ne_true hboth.1, fun hne => hne hoffers⟩

/-- At the crossroads the reader can choose and cannot just go on. -/
theorem host_protocol_crossroads :
    ∃ m, Reachable (· ≠ .step) m ∧ m.labels = ["left", "right"] ∧ m.Passes (.choose "right") ∧
      ¬m.Passes .resume := by
  have h : Reachable (· ≠ .step) _ :=
    .call (.turn .play) 4
      (.call (.install "main.xml" crossroads none) 0 (.new [] 300) nofun rfl) nofun rfl
  refine ⟨_, h, rfl, ?_, ?_⟩
  · exact ((host_protocol h).2.2.2.2.2.1 "right").mpr (by decide)
  · intro hresume
    cases ((host_protocol h).2.2.2.2.1.mp hresume).2

end Machine

end StoryPlayer
