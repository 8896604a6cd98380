import StoryPlayer.Proofs.Additions
import StoryPlayer.Proofs.Endings

/-! The word for the end.  It is written while the last line is shown, by a look through all frames
before any of them is removed; that the story has ended is found out after that, when the frames
that are used up have been removed.  The two agree whatever frames are on the stack.  So in a call
that succeeds the word is the last thing to be written, and it is written exactly if the call has
run elements, the last of them is a line, and the story has ended. -/

namespace StoryPlayer

open Markup

/-- What an event puts on a surface. -/
def Event.write? : Event → Option (Surface × String)
  | wrote surface markup => some (surface, markup)
  | _ => none

/-- The write that tells the reader that the story has ended. -/
def endMark : Surface × String := (.interaction, Interaction.ending.render)

theorem Interaction.render_eq_ending_iff (i : Interaction) :
    i.render = ending.render ↔ i = ending := by
  refine ⟨fun h => ?_, fun h => h ▸ rfl⟩
  cases i with
  | next => exact absurd (.inl h.symm) not_offers_ending
  | ending => rfl
  | options labels active =>
    by_cases hlabels : labels = []
    · subst hlabels
      simp [render] at h
    · exact absurd (.inr ⟨labels, active, hlabels, h.symm⟩) not_offers_ending

namespace Machine

/-- From `before` to `after` the journal got `events`, oldest first. -/
def Logged (before after : Machine) (events : List Event) : Prop :=
  after.journal = events.reverse ++ before.journal

theorem Logged.trans {m₁ m₂ m₃ : Machine} {early late : List Event} (h₁ : Logged m₁ m₂ early)
    (h₂ : Logged m₂ m₃ late) : Logged m₁ m₃ (early ++ late) := by
  rw [Logged] at *
  rw [h₂, h₁, List.reverse_append, List.append_assoc]

theorem Logged.of_journal {before after : Machine} {fresh : List Event}
    (h : after.journal = fresh ++ before.journal) : Logged before after fresh.reverse := by
  rw [Logged, List.reverse_reverse]
  exact h

/-- No element ran on the way, and the end was not told. -/
def Silent (before after : Machine) : Prop :=
  ∃ events, Logged before after events ∧ events.filterMap Event.element? = [] ∧
    endMark ∉ events.filterMap Event.write?

/-! ### One element -/

theorem silent_of_writes {before after : Machine} (writes : List (Surface × String))
    (h : after.journal = writes.map (fun w => .wrote w.1 w.2) ++ before.journal)
    (hmark : endMark ∉ writes) : Silent before after := by
  refine ⟨_, .of_journal h, ?_, ?_⟩
  · simp [Event.element?]
  · simpa [Event.write?, List.filterMap_reverse] using hmark

theorem silent_refl (m : Machine) : Silent m m := silent_of_writes [] rfl nofun

theorem silent_install (m : Machine) (file : String) (root : Element) (block : Option String) :
    Silent m (m.install file root block).2 := by
  refine ⟨[.installed file], ?_, rfl, nofun⟩
  rw [install_agrees]
  rfl

/-- An element that shows no line does not tell the end. -/
theorem perform_silent {m : Machine} {e : Element} {i : Instruction}
    (h : ∀ speaker, i ≠ .text speaker) : Silent m (m.perform e i).2 := by
  cases i with
  | text speaker => exact absurd rfl (h speaker)
  | block gate =>
    simp only [perform]
    split
    · exact m.silent_refl
    · exact m.silent_refl
  | title => exact silent_of_writes [(.title, e.markup)] rfl (by simp [endMark])
  | description => exact silent_of_writes [(.description, e.markup)] rfl (by simp [endMark])
  | clearScreen =>
    exact silent_of_writes (Surface.all.reverse.map fun surface => (surface, "")) rfl (by decide)
  | pause => exact silent_of_writes [(.interaction, Interaction.next.render)] rfl (by decide)
  | choice offers =>
    refine ⟨[.wrote _ _, .scheduled _ _], rfl, rfl, ?_⟩
    simp only [Event.write?, List.filterMap_cons, List.filterMap_nil, List.mem_singleton, endMark,
      Prod.mk.injEq, true_and]
    rw [eq_comm, Interaction.render_eq_ending_iff]
    exact Interaction.noConfusion
  | call block =>
    show Silent m (m.call block).2
    rw [call_agrees]
    exact m.silent_refl
  | goto block =>
    show Silent m (call _ block).2
    rw [call_agrees]
    exact m.silent_refl
  | load file block =>
    simp only [perform, load]
    split
    · exact m.silent_install file _ block
    · exact m.silent_refl
  | toDescription | flag | ignored => exact m.silent_refl

/-- What is written after a line, by the element that is seen ahead. -/
def afterLine : Option Element → List Event
  | none => [.wrote .interaction Interaction.ending.render]
  | some following =>
    if following.name = "choice" then [] else [.wrote .interaction Interaction.next.render]

theorem showText_logged (m : Machine) (markup : String) (speaker : Option String) :
    Logged m (m.showText markup speaker)
      (.wrote .speaker (speaker.getD noSpeaker) :: .wrote .text (shownLine markup speaker) ::
        afterLine m.stack.upcoming?) := by
  have hline : (m.putLine markup speaker).journal =
      .wrote .text (shownLine markup speaker) :: .wrote .speaker (speaker.getD noSpeaker) ::
        m.journal := by
    simp only [putLine]
    split <;> rfl
  simp only [Logged, showText, putLine_stack]
  cases hahead : m.stack.upcoming? with
  | none => simp [afterLine, write, hline]
  | some following =>
    by_cases hname : following.name = "choice"
    · simp [afterLine, hname, hline]
    · simp [afterLine, hname, pause, write, hline]

/-! ### One step -/

theorem logged_step {m : Machine} {e : Element} {left : Stack} {events : List Event}
    (hpop : m.stack.unwind.pop? = some (e, left))
    (h : Logged (m.take e left) ((m.take e left).execute e).2 events) :
    Logged m m.step.2 (.ran e :: events) := by
  rw [Logged, step_eq_settle hpop, settle_journal, h]
  simp [take]

theorem step_logged_line {m : Machine} {e : Element} {left : Stack} {speaker : Option String}
    (hpop : m.stack.unwind.pop? = some (e, left))
    (htext : Instruction.ofElement e = .ok (.text speaker)) :
    Logged m m.step.2 (.ran e :: .wrote .speaker (speaker.getD noSpeaker) ::
      .wrote .text (shownLine e.markup speaker) :: afterLine left.upcoming?) := by
  refine logged_step hpop ?_
  rw [execute_line htext]
  exact (m.take e left).showText_logged e.markup speaker

theorem step_logged_other {m : Machine} {e : Element} {left : Stack}
    (hpop : m.stack.unwind.pop? = some (e, left)) (hline : isLine e = false) :
    ∃ events, Logged m m.step.2 (.ran e :: events) ∧ events.filterMap Event.element? = [] ∧
      endMark ∉ events.filterMap Event.write? := by
  have hsilent : Silent (m.take e left) ((m.take e left).execute e).2 := by
    rw [execute]
    split
    · next i hread =>
      refine perform_silent fun speaker htext => ?_
      rw [isLine_eq_true_iff.mpr ⟨speaker, htext ▸ hread⟩] at hline
      cases hline
    · exact silent_refl _
  obtain ⟨events, hlogged, hran, hmark⟩ := hsilent
  exact ⟨events, logged_step hpop hlogged, hran, hmark⟩

/-- Something is left to run after a line exactly if an element is seen ahead. -/
theorem step_line_answer {m : Machine} {e : Element} {left : Stack} {speaker : Option String}
    (hpop : m.stack.unwind.pop? = some (e, left))
    (htext : Instruction.ofElement e = .ok (.text speaker)) :
    m.step.1 = .ok left.upcoming?.isSome := by
  rw [step_eq_settle hpop, execute_line htext, settle_ok, showText_stack, Stack.upcoming?_eq_head?]
  show Except.ok (!left.continuation.isEmpty) = _
  cases left.continuation <;> rfl

/-- A story that ends after a line was not waiting, so that it has ended for good. -/
theorem step_last_line_phase {m : Machine} {e : Element} {left : Stack} {speaker : Option String}
    (hpop : m.stack.unwind.pop? = some (e, left))
    (htext : Instruction.ofElement e = .ok (.text speaker)) (hnone : left.upcoming? = none)
    (hrunning : m.phase.isPaused = false) : m.step.2.phase = .finished := by
  have hpaused : m.step.2.phase.isPaused = false := by
    rw [step_eq_settle hpop, settle_isPaused, execute_line htext]
    simp only [showText, putLine_stack, show (m.take e left).stack = left from rfl, hnone]
    show ((m.take e left).putLine e.markup speaker).phase.isPaused = false
    rw [(quiet_putLine _ _ _).phase]
    exact hrunning
  have hlast : m.step.1 = .ok false := by rw [step_line_answer hpop htext, hnone]; rfl
  have hstepped := m.step_stepped
  rw [hlast] at hstepped
  have hne := hstepped.phase_ne_running
  cases hphase : m.step.2.phase with
  | running => exact absurd hphase hne
  | paused pause =>
    rw [hphase] at hpaused
    cases hpaused
  | finished => rfl

/-! ### Whole calls -/

/-- The end is told once at most, as the last thing that is written, and exactly if the last element
that ran is a line and the story has ended. -/
structure Marked (events : List Event) (after : Machine) : Prop where
  once : (events.filterMap Event.write?).count endMark ≤ 1
  last : endMark ∈ events.filterMap Event.write? →
    (events.filterMap Event.write?).getLast? = some endMark ∧ after.stack = [] ∧
      after.phase = .finished
  mem_iff : endMark ∈ events.filterMap Event.write? ↔
    ∃ e, (events.filterMap Event.element?).getLast? = some e ∧ isLine e = true ∧
      after.phase = .finished

theorem marked_of_not_mem {events : List Event} {after : Machine}
    (hmark : endMark ∉ events.filterMap Event.write?)
    (hlast : ∀ e, (events.filterMap Event.element?).getLast? = some e → isLine e = true →
      after.phase ≠ .finished) : Marked events after := by
  refine ⟨?_, fun h => absurd h hmark, iff_of_false hmark ?_⟩
  · rw [List.count_eq_zero.mpr hmark]
    exact Nat.zero_le 1
  · rintro ⟨e, he, hline, hfinished⟩
    exact hlast e he hline hfinished

theorem Marked.prepend {first rest : List Event} {after : Machine} (h : Marked rest after)
    (hfirst : endMark ∉ first.filterMap Event.write?)
    (hran : rest.filterMap Event.element? = [] → after.phase = .finished →
      first.filterMap Event.element? = []) : Marked (first ++ rest) after := by
  have hmem : endMark ∈ (first ++ rest).filterMap Event.write? ↔
      endMark ∈ rest.filterMap Event.write? := by
    rw [List.filterMap_append, List.mem_append, or_iff_right hfirst]
  refine ⟨?_, fun hmark => ?_, ?_⟩
  · rw [List.filterMap_append, List.count_append, List.count_eq_zero.mpr hfirst, Nat.zero_add]
    exact h.once
  · obtain ⟨hlast, hends⟩ := h.last (hmem.mp hmark)
    rw [List.filterMap_append, List.getLast?_append, hlast]
    exact ⟨rfl, hends⟩
  · rw [hmem, h.mem_iff, List.filterMap_append, List.getLast?_append]
    cases hrest : (rest.filterMap Event.element?).getLast? with
    | some e => simp
    | none =>
      refine iff_of_false (by simp) ?_
      rintro ⟨e, he, -, hfinished⟩
      rw [hran (List.getLast?_eq_none_iff.mp hrest) hfinished] at he
      cases he

theorem step_last_marked {m : Machine} (hrunning : m.phase.isPaused = false)
    (hlast : m.step.1 = .ok false) :
    ∃ events, Logged m m.step.2 events ∧ Marked events m.step.2 ∧
      (events.filterMap Event.element? = [] → m.stack.continuation = []) := by
  cases hpop : m.stack.unwind.pop? with
  | none =>
    have hnil := Stack.unwind_eq_nil_of_pop? hpop
    refine ⟨[], ?_, marked_of_not_mem nofun nofun, fun _ => ?_⟩
    · rw [step_eq_finish hnil, finish_eq]
      rfl
    · exact m.stack.continuation_eq_nil_iff.mpr hnil
  | some taken =>
    obtain ⟨e, left⟩ := taken
    cases hline : isLine e with
    | false =>
      obtain ⟨events, hlogged, hran, hmark⟩ := step_logged_other hpop hline
      refine ⟨_, hlogged, marked_of_not_mem hmark fun other hother htrue => ?_, fun h => ?_⟩
      · simp [Event.element?, hran] at hother
        rw [hother, htrue] at hline
        cases hline
      · simp [Event.element?] at h
    | true =>
      obtain ⟨speaker, htext⟩ := isLine_eq_true_iff.mp hline
      have hnone : left.upcoming? = none := by
        simpa [step_line_answer hpop htext] using hlast
      have hlogged := step_logged_line hpop htext
      rw [hnone] at hlogged
      have hfinished := step_last_line_phase hpop htext hnone hrunning
      refine ⟨_, hlogged, ⟨?_, fun _ => ⟨rfl, step_stack_of_false hlast, hfinished⟩, ?_⟩, nofun⟩
      · show List.count endMark [(.speaker, _), (.text, _), endMark] ≤ 1
        simp [endMark]
      · refine iff_of_true ?_ ⟨e, rfl, hline, hfinished⟩
        show endMark ∈ [(.speaker, _), (.text, _), endMark]
        simp

/-- A step after which something is left to run does not tell the end. -/
theorem step_more_unmarked {m : Machine} (hmore : m.step.1 = .ok true) :
    ∃ events, Logged m m.step.2 events ∧ endMark ∉ events.filterMap Event.write? := by
  cases hpop : m.stack.unwind.pop? with
  | none =>
    rw [step_eq_finish (Stack.unwind_eq_nil_of_pop? hpop)] at hmore
    cases hmore
  | some taken =>
    obtain ⟨e, left⟩ := taken
    cases hline : isLine e with
    | false =>
      obtain ⟨events, hlogged, -, hmark⟩ := step_logged_other hpop hline
      exact ⟨_, hlogged, hmark⟩
    | true =>
      obtain ⟨speaker, htext⟩ := isLine_eq_true_iff.mp hline
      refine ⟨_, step_logged_line hpop htext, ?_⟩
      rw [step_line_answer hpop htext] at hmore
      obtain ⟨following, hahead⟩ := Option.isSome_iff_exists.mp (Except.ok.inj hmore)
      rw [hahead, afterLine]
      split
      · simp [Event.write?, endMark]
      · simp [Event.write?, endMark, Interaction.render]

theorem step_more_continuation {m : Machine} (hmore : m.step.1 = .ok true) :
    m.step.2.stack.continuation ≠ [] := by
  have hstepped := m.step_stepped
  rw [hmore] at hstepped
  generalize m.step.2 = after at hstepped ⊢
  cases hstepped with
  | @more _ _ post _ _ hleft =>
    show post.stack.unwind.continuation ≠ []
    rw [Stack.continuation_unwind, Ne, Stack.continuation_eq_nil_iff]
    exact hleft

/-- Where something is left after a step, a story that has ended ran an element in the rest. -/
theorem Plays.marked {m after : Machine} {result : Except Fault Unit} (h : Plays m result after)
    (hok : result = .ok ()) :
    ∃ events, Logged m after events ∧ Marked events after ∧
      (events.filterMap Event.element? = [] → after.phase = .finished →
        m.stack.continuation = []) := by
  induction h with
  | @paused m hpaused =>
    refine ⟨[], rfl, marked_of_not_mem nofun nofun, fun _ hfinished => ?_⟩
    rw [hfinished] at hpaused
    cases hpaused
  | failed => cases hok
  | @ended m after hrunning hstep =>
    obtain ⟨events, hlogged, hmarked, hidle⟩ :=
      step_last_marked hrunning (congrArg Prod.fst hstep)
    rw [hstep] at hlogged hmarked
    exact ⟨events, hlogged, hmarked, fun hran _ => hidle hran⟩
  | @more m next after result _ hstep _ ih =>
    have hmore : m.step.1 = .ok true := congrArg Prod.fst hstep
    obtain ⟨first, hfirst, hmark⟩ := step_more_unmarked hmore
    have hleft := step_more_continuation hmore
    rw [hstep] at hfirst hleft
    obtain ⟨rest, hrest, hmarked, hidle⟩ := ih hok
    refine ⟨first ++ rest, hfirst.trans hrest, hmarked.prepend hmark fun hran hfinished => ?_,
      fun hran hfinished => ?_⟩
    · exact absurd (hidle hran hfinished) hleft
    · rw [List.filterMap_append, List.append_eq_nil_iff] at hran
      exact absurd (hidle hran.2 hfinished) hleft

/-- What a call does before it plays is at most to add a line to the description. -/
theorem Starts.silent {m start : Machine} {turn : Turn} (h : Starts m turn start) :
    Silent m start := by
  by_cases hturn : turn = .play
  · subst hturn
    cases h
    exact m.silent_refl
  · have hjournal := (h.flush hturn).2
    rw [List.append_cons] at hjournal
    refine ⟨_, .of_journal hjournal, ?_⟩
    cases hline : m.addition with
    | none => simp [flushed, hline, Event.element?, Event.write?]
    | some line => simp [flushed, hline, Event.element?, Event.write?, endMark]

/-- In a call that succeeds the end is told once at most; if it is, then by the last write, and the
story has ended with nothing left to run; and it is told exactly if the last element of the call is
a line and the story has ended. -/
theorem end_told_by_last_line {bound : Nat} {m after : Machine} {turn : Turn}
    (h : turn.run bound m = some (.ok (), after)) :
    ∃ events, Logged m after events ∧
      (events.filterMap Event.write?).count endMark ≤ 1 ∧
      (endMark ∈ events.filterMap Event.write? →
        (events.filterMap Event.write?).getLast? = some endMark ∧ after.stack = [] ∧
          after.phase = .finished) ∧
      (endMark ∈ events.filterMap Event.write? ↔
        ∃ e, (events.filterMap Event.element?).getLast? = some e ∧ isLine e = true ∧
          after.phase = .finished) := by
  rcases m.starts_or_refused turn with ⟨start, hstart⟩ | ⟨fault, hrefused⟩
  · rw [hstart.run_eq] at h
    obtain ⟨first, hfirst, hran, hmark⟩ := hstart.silent
    obtain ⟨rest, hrest, hmarked, -⟩ := (plays_of_play h).marked rfl
    have hwhole := hmarked.prepend hmark fun _ _ => hran
    exact ⟨first ++ rest, hfirst.trans hrest, hwhole.once, hwhole.last, hwhole.mem_iff⟩
  · rw [hrefused] at h
    cases h

/-- A block with a block in it, with a line in that. -/
def parting : Element :=
  ⟨"block", [("id", "start")],
    [⟨"block", [], [⟨"text", [], [], "Goodbye.", .synthetic⟩], "", .synthetic⟩], "", .synthetic⟩

/-- When the line is shown two frames are on the stack, both used up. -/
theorem end_told_by_last_line_parting :
    ∃ m after events, Turn.run 4 m .play = some (.ok (), after) ∧ Logged m after events ∧
      (events.filterMap Event.write?).getLast? = some endMark ∧ after.phase = .finished := by
  have hplays : Turn.run 4 ((new [] 300).install "main.xml" parting none).2 .play =
    some (.ok (), _) := rfl
  obtain ⟨events, hlogged, -, hlast, hmark⟩ := end_told_by_last_line hplays
  have hevents : events = [.ran _, .ran _, .wrote _ _, .wrote _ _, .wrote _ _] :=
    List.reverse_injective (List.append_cancel_right (hlogged.symm.trans rfl))
  have htold := hmark.mpr ⟨_, by rw [hevents]; rfl, rfl, rfl⟩
  obtain ⟨hend, -, hfinished⟩ := hlast htold
  exact ⟨_, _, events, hplays, hlogged, hend, hfinished⟩

end Machine

end StoryPlayer
