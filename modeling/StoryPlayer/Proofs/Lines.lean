import StoryPlayer.Proofs.Operations

/-! No line is lost unseen.  After an element that shows a line, a call runs at most one element
more, and that one is a choice: either the line is the last thing in the story, or the story waits
for the reader, or what is seen ahead is a choice, which then waits itself.  So the line that a call
shows still stands on the screen when the call returns. -/

namespace StoryPlayer

open Markup

/-- Whether an element shows a line. -/
def isLine (e : Element) : Bool :=
  match Instruction.ofElement e with
  | .ok (.text _) => true
  | _ => false

theorem isLine_eq_true_iff {e : Element} :
    isLine e = true ↔ ∃ speaker, Instruction.ofElement e = .ok (.text speaker) := by
  rw [isLine]
  split
  · next speaker h => exact iff_of_true rfl ⟨speaker, h⟩
  · next h => exact iff_of_false nofun fun ⟨speaker, hspeaker⟩ => h speaker hspeaker

/-- An element named `choice` is a choice or cannot be read. -/
theorem ofElement_of_choice {e : Element} (h : e.name = "choice") :
    (∃ offers, Instruction.ofElement e = .ok (.choice offers)) ∨
      ∃ fault, Instruction.ofElement e = .error fault := by
  rw [Instruction.ofElement, h]
  cases (e.children.filter fun child => child.name = "option").mapM Offer.ofElement with
  | ok offers => exact .inl ⟨offers, rfl⟩
  | error fault => exact .inr ⟨fault, rfl⟩

theorem isLine_eq_false_of_choice {e : Element} (h : e.name = "choice") : isLine e = false := by
  rcases ofElement_of_choice h with ⟨offers, hread⟩ | ⟨fault, hread⟩
  · rw [isLine, hread]
  · rw [isLine, hread]

/-- The line of an element stands on the screen. -/
structure Screen.Shows (screen : Screen) (e : Element) (speaker : Option String) : Prop where
  text : screen.text = Machine.shownLine e.markup speaker
  speaker : screen.speaker = speaker.getD noSpeaker

/-- Nothing ran after a line but perhaps a choice, and the line stands on the screen. -/
def LinesKept (elements : List Element) (screen : Screen) : Prop :=
  ∀ before e later speaker, elements = before ++ e :: later →
    Instruction.ofElement e = .ok (.text speaker) →
      (later = [] ∨ ∃ choice, later = [choice] ∧ choice.name = "choice") ∧ screen.Shows e speaker

theorem LinesKept.nil (screen : Screen) : LinesKept [] screen := by
  intro before e later speaker h
  cases List.append_eq_nil_iff.mp h.symm |>.2

theorem LinesKept.cons {first : Element} {rest : List Element} {screen : Screen}
    (hfirst : ∀ speaker, Instruction.ofElement first = .ok (.text speaker) →
      (rest = [] ∨ ∃ choice, rest = [choice] ∧ choice.name = "choice") ∧
        screen.Shows first speaker)
    (hrest : LinesKept rest screen) : LinesKept (first :: rest) screen := by
  intro before e later speaker h
  cases before with
  | nil =>
    obtain ⟨rfl, rfl⟩ := List.cons.inj h
    exact hfirst speaker
  | cons x before => exact hrest before e later speaker (List.cons.inj h).2

theorem LinesKept.of_not_line {first : Element} {rest : List Element} {screen : Screen}
    (hfirst : isLine first = false) (hrest : LinesKept rest screen) :
    LinesKept (first :: rest) screen := by
  refine .cons (fun speaker htext => ?_) hrest
  rw [isLine_eq_true_iff.mpr ⟨speaker, htext⟩] at hfirst
  cases hfirst

theorem LinesKept.count_le {elements : List Element} {screen : Screen}
    (h : LinesKept elements screen) : elements.countP isLine ≤ 1 := by
  induction elements with
  | nil => exact Nat.zero_le 1
  | cons first rest ih =>
    cases hline : isLine first with
    | false =>
      rw [List.countP_cons_of_neg (by rw [hline]; exact Bool.false_ne_true)]
      refine ih fun before e later speaker hsplit => h (first :: before) e later speaker ?_
      rw [hsplit]
      rfl
    | true =>
      obtain ⟨speaker, hspeaker⟩ := isLine_eq_true_iff.mp hline
      rw [List.countP_cons_of_pos hline]
      rcases (h [] first rest speaker rfl hspeaker).1 with rfl | ⟨choice, rfl, hname⟩
      · exact Nat.le_refl 1
      · rw [List.countP_cons_of_neg]
        · exact Nat.le_refl 1
        · rw [isLine_eq_false_of_choice hname]
          exact Bool.false_ne_true

namespace Machine

/-! ### One step -/

theorem ran_step {m : Machine} {e : Element} {left : Stack}
    (h : m.stack.unwind.pop? = some (e, left)) : Ran m m.step.2 [e] := by
  have hexecute : Ran m ((m.take e left).execute e).2 [e] := ran_execute rfl
  obtain ⟨events, hevents, helements⟩ := hexecute
  refine ⟨events, ?_, helements⟩
  rw [step_eq_settle h, settle_journal]
  exact hevents

theorem showText_shows (m : Machine) (e : Element) (speaker : Option String) :
    (m.showText e.markup speaker).screen.Shows e speaker := by
  have hline : (m.putLine e.markup speaker).screen.Shows e speaker := by
    simp only [putLine]
    split
    · exact ⟨rfl, rfl⟩
    · exact ⟨rfl, rfl⟩
  simp only [showText]
  split
  · exact ⟨hline.text, hline.speaker⟩
  · split
    · exact hline
    · exact ⟨hline.text, hline.speaker⟩

theorem execute_line {m : Machine} {e : Element} {speaker : Option String}
    (htext : Instruction.ofElement e = .ok (.text speaker)) :
    m.execute e = (.ok (), m.showText e.markup speaker) := by
  rw [execute, htext]
  rfl

theorem step_shows {m : Machine} {e : Element} {left : Stack} {speaker : Option String}
    (h : m.stack.unwind.pop? = some (e, left))
    (htext : Instruction.ofElement e = .ok (.text speaker)) : m.step.2.screen.Shows e speaker := by
  rw [step_eq_settle h, settle_screen, execute, htext]
  exact (m.take e left).showText_shows e speaker

/-- After a line the story waits, or a choice is ahead, or nothing is left. -/
theorem step_line_ahead {m : Machine} {e : Element} {left : Stack} {speaker : Option String}
    (h : m.stack.unwind.pop? = some (e, left))
    (htext : Instruction.ofElement e = .ok (.text speaker)) (hmore : m.step.1 = .ok true) :
    m.step.2.phase.isPaused = true ∨
      ∃ choice, m.step.2.stack.upcoming? = some choice ∧ choice.name = "choice" := by
  rw [step_eq_settle h, execute_line htext] at hmore ⊢
  obtain ⟨hleft, hunwind⟩ := settle_of_true hmore
  simp only [showText_stack] at hleft
  rw [hunwind]
  show ((m.take e left).showText e.markup speaker).phase.isPaused = true ∨
    ∃ choice, ((m.take e left).showText e.markup speaker).stack.unwind.upcoming? = some choice ∧ _
  rw [showText_stack, Stack.upcoming?_unwind]
  simp only [showText, putLine_stack]
  split
  · next hnone =>
    rw [Stack.upcoming?_eq_head?, Option.map_eq_none_iff, List.head?_eq_none_iff,
      Stack.continuation_eq_nil_iff] at hnone
    exact absurd hnone hleft
  · next following hnext =>
    split
    · next hname => exact .inr ⟨following, hnext, hname⟩
    · exact .inl rfl

/-- A choice writes neither the line nor its speaker, and the story then waits unless the choice
cannot be read. -/
theorem step_choice {m : Machine} {choice : Element} {left : Stack}
    (h : m.stack.unwind.pop? = some (choice, left)) (hname : choice.name = "choice") :
    m.step.2.screen.text = m.screen.text ∧ m.step.2.screen.speaker = m.screen.speaker ∧
      (m.step.1 = .ok true → m.step.2.phase.isPaused = true) := by
  rw [step_eq_settle h, settle_screen, execute]
  rcases ofElement_of_choice hname with ⟨offers, hread⟩ | ⟨fault, hread⟩
  · simp only [hread]
    refine ⟨rfl, rfl, fun hmore => ?_⟩
    rw [(settle_of_true hmore).2]
    rfl
  · simp only [hread]
    refine ⟨rfl, rfl, fun hmore => ?_⟩
    cases hmore

/-! ### Whole calls -/

theorem Plays.eq_of_paused {m after : Machine} {result : Except Fault Unit}
    (h : Plays m result after) (hpaused : m.phase.isPaused = true) : after = m := by
  cases h with
  | paused => rfl
  | failed hrunning => rw [hpaused] at hrunning; cases hrunning
  | ended hrunning => rw [hpaused] at hrunning; cases hrunning
  | more hrunning => rw [hpaused] at hrunning; cases hrunning

/-- Playing from a choice ahead runs the choice and no other element. -/
theorem Plays.choice {m after : Machine} {result : Except Fault Unit}
    (h : Plays m result after) (hrunning : m.phase.isPaused = false) {choice : Element}
    (hahead : m.stack.upcoming? = some choice) (hname : choice.name = "choice") :
    Ran m after [choice] ∧ after.screen.text = m.screen.text ∧
      after.screen.speaker = m.screen.speaker := by
  obtain ⟨left, hpop⟩ := Stack.pop?_of_upcoming? hahead
  have hran := ran_step hpop
  obtain ⟨htext, hspeaker, hwaits⟩ := step_choice hpop hname
  have hafter : after = m.step.2 := by
    cases h with
    | paused hpaused => rw [hpaused] at hrunning; cases hrunning
    | failed _ hstep => rw [hstep]
    | ended _ hstep => rw [hstep]
    | more _ hstep hplays =>
      rw [hstep] at hwaits ⊢
      exact hplays.eq_of_paused (hwaits rfl)
  rw [hafter]
  exact ⟨hran, htext, hspeaker⟩

theorem ran_idle {m : Machine} (h : m.stack.unwind = []) : Ran m m.step.2 [] := by
  refine ⟨[], ?_, rfl⟩
  rw [step_eq_finish h, finish_eq]
  rfl

/-- A step after which a call returns keeps the line that it shows. -/
theorem linesKept_step (m : Machine) :
    ∃ elements, Ran m m.step.2 elements ∧ LinesKept elements m.step.2.screen := by
  cases hpop : m.stack.unwind.pop? with
  | none => exact ⟨[], ran_idle (Stack.unwind_eq_nil_of_pop? hpop), .nil _⟩
  | some taken =>
    obtain ⟨e, left⟩ := taken
    refine ⟨[e], ran_step hpop, .cons (fun speaker htext => ?_) (.nil _)⟩
    exact ⟨.inl rfl, step_shows hpop htext⟩

/-- What follows a line in the call that shows it. -/
theorem Plays.after_line {m next after : Machine} {result : Except Fault Unit}
    (h : Plays next result after) {e : Element} {left : Stack} {speaker : Option String}
    (hpop : m.stack.unwind.pop? = some (e, left))
    (htext : Instruction.ofElement e = .ok (.text speaker)) (hstep : m.step = (.ok true, next)) :
    ∃ later, Ran next after later ∧
      (later = [] ∨ ∃ choice, later = [choice] ∧ choice.name = "choice") ∧
      after.screen.Shows e speaker := by
  have hshows := step_shows hpop htext
  have hahead := step_line_ahead hpop htext (by rw [hstep])
  rw [hstep] at hshows hahead
  cases hpaused : next.phase.isPaused with
  | true =>
    rw [h.eq_of_paused hpaused]
    exact ⟨[], (Quiet.refl next).ran, .inl rfl, hshows⟩
  | false =>
    rw [hpaused] at hahead
    obtain ⟨choice, hnext, hname⟩ := hahead.resolve_left Bool.false_ne_true
    obtain ⟨hran, hkeeps, hnames⟩ := h.choice hpaused hnext hname
    exact ⟨[choice], hran, .inr ⟨choice, rfl, hname⟩,
      hkeeps.trans hshows.text, hnames.trans hshows.speaker⟩

/-- By induction on the run.  After a line the hypothesis for the rest says too little: what follows
is a choice or nothing. -/
theorem Plays.linesKept {m after : Machine} {result : Except Fault Unit}
    (h : Plays m result after) :
    ∃ elements, Ran m after elements ∧ LinesKept elements after.screen := by
  induction h with
  | @paused m => exact ⟨[], (Quiet.refl m).ran, .nil _⟩
  | @failed m after fault _ hstep =>
    have hkept := m.linesKept_step
    rwa [hstep] at hkept
  | @ended m after _ hstep =>
    have hkept := m.linesKept_step
    rwa [hstep] at hkept
  | @more m next after result _ hstep hplays ih =>
    cases hpop : m.stack.unwind.pop? with
    | none =>
      rw [step_eq_finish (Stack.unwind_eq_nil_of_pop? hpop)] at hstep
      cases hstep
    | some taken =>
      obtain ⟨e, left⟩ := taken
      have hran := ran_step hpop
      rw [hstep] at hran
      cases hline : isLine e with
      | false =>
        obtain ⟨elements, hrest, hkept⟩ := ih
        exact ⟨e :: elements, hran.trans hrest, .of_not_line hline hkept⟩
      | true =>
        obtain ⟨speaker, htext⟩ := isLine_eq_true_iff.mp hline
        obtain ⟨later, hlater, hends, hshows⟩ := hplays.after_line hpop htext hstep
        have hkept : LinesKept later after.screen := by
          rcases hends with rfl | ⟨choice, rfl, hname⟩
          · exact .nil _
          · exact .of_not_line (isLine_eq_false_of_choice hname) (.nil _)
        refine ⟨e :: later, hran.trans hlater, .cons (fun speaker' htext' => ?_) hkept⟩
        rw [htext] at htext'
        cases htext'
        exact ⟨hends, hshows⟩

theorem Starts.ran {m start : Machine} {turn : Turn} (h : Starts m turn start) :
    Ran m start [] := by
  rcases h.cases with ⟨-, rfl⟩ | ⟨-, -, writes, hwrites⟩
  · exact (Quiet.refl start).ran
  · rw [List.append_cons] at hwrites
    exact .of_shown hwrites (by simp)

/-- A call runs at most one line; after it at most one element runs, a choice; and the line stands
on the screen when the call returns, with its speaker. -/
theorem turn_keeps_line {bound : Nat} {m after : Machine} {turn : Turn}
    {result : Except Fault Unit} (h : turn.run bound m = some (result, after)) :
    ∃ elements, Ran m after elements ∧ elements.countP isLine ≤ 1 ∧
      LinesKept elements after.screen := by
  rcases m.starts_or_refused turn with ⟨start, hstart⟩ | ⟨fault, hrefused⟩
  · rw [hstart.run_eq] at h
    obtain ⟨elements, hran, hkept⟩ := (plays_of_play h).linesKept
    exact ⟨elements, hstart.ran.trans hran, hkept.count_le, hkept⟩
  · rw [hrefused] at h
    cases h
    exact ⟨[], (Quiet.refl m).ran, Nat.zero_le 1, .nil _⟩

/-- Playing to the crossroads runs the line and the choice, and the line still stands there. -/
theorem turn_keeps_line_crossroads :
    ∃ m after, Turn.run 4 m .play = some (.ok (), after) ∧ Ran m after crossroads.children ∧
      after.screen.text = "Two ways." := by
  have hplays : Turn.run 4 ((Machine.new [] 300).install "main.xml" crossroads none).2 .play =
    some (.ok (), _) := rfl
  obtain ⟨elements, hran, -, hkept⟩ := turn_keeps_line hplays
  have helements : elements = crossroads.children := hran.unique
    ⟨[.ran _, .wrote _ _, .wrote _ _, .ran _, .wrote _ _, .scheduled _ _], rfl, rfl⟩
  rw [helements] at hran hkept
  exact ⟨_, _, hplays, hran, (hkept [] _ _ none rfl rfl).2.text⟩

end Machine

end StoryPlayer
