import StoryPlayer.Proofs.Operations

/-! What the journal tells.  An operation only adds to it: the elements that ran, a note if a pause
was left, a note for every document that was put in place, and a task for every choice that was
shown.  So a fact about the events of a journal is a fact about what the host and the story did. -/

namespace StoryPlayer

open Markup

/-- The element `e` puts the document in `file` in place. -/
def Library.Installs (library : Library) (e : Element) (file : String) : Prop :=
  ∃ block root, Instruction.ofElement e = .ok (.load file block) ∧ library.fetch file = .ok root

/-- The events come from elements that ran, and from nothing that the host did. -/
structure Told (library : Library) (events : List Event) : Prop where
  proceeded : .proceeded ∉ events
  installed : ∀ file, .installed file ∈ events ↔ ∃ e, .ran e ∈ events ∧ library.Installs e file
  scheduled : (∃ task delay, .scheduled task delay ∈ events) ↔
    ∃ e offers, .ran e ∈ events ∧ Instruction.ofElement e = .ok (.choice offers)

theorem Told.nil (library : Library) : Told library [] := by
  refine ⟨nofun, fun file => ?_, ?_⟩
  · simp
  · simp

theorem Told.append {library : Library} {late early : List Event} (hlate : Told library late)
    (hearly : Told library early) : Told library (late ++ early) := by
  refine ⟨?_, fun file => ?_, ?_⟩
  · simp [hlate.proceeded, hearly.proceeded]
  · simp only [List.mem_append, hlate.installed, hearly.installed, or_and_right, exists_or]
  · simp only [List.mem_append, exists_or, hlate.scheduled, hearly.scheduled, or_and_right]

theorem Told.of_ran {library : Library} {e : Element} {shown : List Event}
    (hran : ∀ x, .ran x ∉ shown) (hproceeded : .proceeded ∉ shown)
    (hinstalled : ∀ file, .installed file ∈ shown ↔ library.Installs e file)
    (hscheduled : (∃ task delay, .scheduled task delay ∈ shown) ↔
      ∃ offers, Instruction.ofElement e = .ok (.choice offers)) :
    Told library (shown ++ [.ran e]) := by
  refine ⟨by simp [hproceeded], fun file => ?_, ?_⟩
  · simp [hran, hinstalled]
  · simp [hran, hscheduled]

namespace Machine

/-! ### One element -/

theorem execute_load {m : Machine} {e : Element} {file : String} {block : Option String}
    {root : Element} (hread : Instruction.ofElement e = .ok (.load file block))
    (hfetch : m.library.fetch file = .ok root) : m.execute e = m.install file root block := by
  simp only [execute, hread, perform, load, hfetch]

theorem execute_choice {m : Machine} {e : Element} {offers : List Offer}
    (hread : Instruction.ofElement e = .ok (.choice offers)) :
    m.execute e = (.ok (), m.showChoice offers) := by
  simp only [execute, hread, perform]

/-- An element that neither puts a document in place nor shows a choice only writes. -/
theorem execute_writes {m : Machine} {e : Element} (hload : ∀ file, ¬m.library.Installs e file)
    (hchoice : ∀ offers, Instruction.ofElement e ≠ .ok (.choice offers)) :
    ∃ writes : List (Surface × String),
      (m.execute e).2.journal = writes.map (fun w => .wrote w.1 w.2) ++ m.journal := by
  have heffect := m.execute_effect e
  generalize m.execute e = outcome at heffect ⊢
  obtain ⟨result, after⟩ := outcome
  cases heffect with
  | quiet hquiet => exact hquiet.journal
  | paused hquiet =>
    obtain ⟨writes, hwrites⟩ := hquiet.journal
    exact ⟨(.interaction, Interaction.next.render) :: writes, congrArg (List.cons _) hwrites⟩
  | choice hread => exact absurd hread (hchoice _)
  | installed hread hfetch => exact absurd ⟨_, _, hread, hfetch⟩ (hload _)

/-- What an element adds to the journal, above the note that it runs. -/
theorem execute_told (m : Machine) (e : Element) :
    ∃ shown, (m.execute e).2.journal = shown ++ m.journal ∧ Told m.library (shown ++ [.ran e]) := by
  by_cases hload : ∃ file, m.library.Installs e file
  · obtain ⟨file, block, root, hread, hfetch⟩ := hload
    obtain ⟨writes, hwrites⟩ := m.install_journal file root block
    rw [execute_load hread hfetch]
    rw [List.append_cons] at hwrites
    refine ⟨_, hwrites, .of_ran (by simp) (by simp) (fun other => ?_) (by simp [hread])⟩
    have hother : m.library.Installs e other ↔ other = file := by
      constructor
      · rintro ⟨_, _, hread', -⟩
        rw [hread] at hread'
        cases hread'
        rfl
      · rintro rfl
        exact ⟨block, root, hread, hfetch⟩
    simp [hother]
  · have hnone := not_exists.mp hload
    by_cases hchoice : ∃ offers, Instruction.ofElement e = .ok (.choice offers)
    · obtain ⟨offers, hread⟩ := hchoice
      rw [execute_choice hread]
      refine ⟨[.scheduled _ _, .wrote _ _], rfl, .of_ran (by simp) (by simp) (fun file => ?_) ?_⟩
      · simp [hnone]
      · simp [hread]
    · obtain ⟨writes, hwrites⟩ := execute_writes hnone (not_exists.mp hchoice)
      refine ⟨_, hwrites, .of_ran (by simp) (by simp) (fun file => ?_) ?_⟩
      · simp [hnone]
      · simp only [iff_false_intro hchoice, iff_false]
        simp

/-! ### One step -/

theorem step_library (m : Machine) : m.step.2.library = m.library := by
  cases hpop : m.stack.unwind.pop? with
  | none =>
    rw [step_eq_finish (Stack.unwind_eq_nil_of_pop? hpop), finish_eq]
    rfl
  | some taken =>
    obtain ⟨e, left⟩ := taken
    rw [step_eq_settle hpop, settle_library]
    exact ((m.take e left).execute_effect e).library

theorem step_told (m : Machine) :
    ∃ fresh, m.step.2.journal = fresh ++ m.journal ∧ Told m.library fresh := by
  cases hpop : m.stack.unwind.pop? with
  | none =>
    refine ⟨[], ?_, .nil _⟩
    rw [step_eq_finish (Stack.unwind_eq_nil_of_pop? hpop), finish_eq]
    rfl
  | some taken =>
    obtain ⟨e, left⟩ := taken
    obtain ⟨shown, hjournal, htold⟩ := (m.take e left).execute_told e
    refine ⟨shown ++ [Event.ran e], ?_, htold⟩
    rw [step_eq_settle hpop, settle_journal, hjournal, List.append_assoc]
    rfl

/-! ### Whole operations -/

theorem Plays.told {m after : Machine} {result : Except Fault Unit} (h : Plays m result after) :
    ∃ fresh, after.journal = fresh ++ m.journal ∧ Told m.library fresh := by
  induction h with
  | @paused m => exact ⟨[], rfl, .nil _⟩
  | @failed m after fault _ hstep =>
    have htold := m.step_told
    rwa [hstep] at htold
  | @ended m after _ hstep =>
    have htold := m.step_told
    rwa [hstep] at htold
  | @more m next after result _ hstep _ ih =>
    obtain ⟨early, hearly, hfirst⟩ := m.step_told
    obtain ⟨late, hlate, hrest⟩ := ih
    have hlibrary := m.step_library
    rw [hstep] at hearly hlibrary
    rw [hlibrary] at hrest
    exact ⟨late ++ early, by rw [hlate, hearly, List.append_assoc], hrest.append hfirst⟩

/-- The operation is a `resume` or a `choose` that gets past its guard. -/
def Accepts (m : Machine) : Operation → Prop
  | .turn turn => turn ≠ .play ∧ ∃ start, Starts m turn start
  | _ => False

/-- The operation itself puts the document in `file` in place. -/
def Installs (m : Machine) (file : String) : Operation → Prop
  | .load path _ => path = file ∧ ∃ root, m.library.fetch file = .ok root
  | .install path _ _ => path = file
  | _ => False

/-- The events are those of an operation: what the host did itself, and what elements did. -/
structure Tells (m : Machine) (operation : Operation) (events : List Event) : Prop where
  proceeded : .proceeded ∈ events ↔ m.Accepts operation
  installed : ∀ file, .installed file ∈ events ↔
    m.Installs file operation ∨ ∃ e, .ran e ∈ events ∧ m.library.Installs e file
  scheduled : (∃ task delay, .scheduled task delay ∈ events) ↔
    ∃ e offers, .ran e ∈ events ∧ Instruction.ofElement e = .ok (.choice offers)

theorem tells_of_told {m : Machine} {operation : Operation} {events : List Event}
    (h : Told m.library events) (haccepts : ¬m.Accepts operation)
    (hinstalls : ∀ file, ¬m.Installs file operation) : Tells m operation events :=
  ⟨iff_of_false h.proceeded haccepts, fun file => by simp [h.installed, hinstalls], h.scheduled⟩

theorem install_tells {m : Machine} {operation : Operation} {file : String}
    (haccepts : ¬m.Accepts operation)
    (hinstalls : ∀ other, m.Installs other operation ↔ file = other) (root : Element)
    (block : Option String) :
    ∃ fresh, (m.install file root block).2.journal = fresh ++ m.journal ∧
      Tells m operation fresh := by
  obtain ⟨writes, hwrites⟩ := m.install_journal file root block
  rw [List.append_cons] at hwrites
  refine ⟨_, hwrites, ?_, fun other => ?_, ?_⟩
  · simp [haccepts]
  · simp [hinstalls, eq_comm]
  · simp

theorem Starts.tells {m start after : Machine} {turn : Turn} {result : Except Fault Unit}
    (h : Starts m turn start) (hplays : Plays start result after) :
    ∃ fresh, after.journal = fresh ++ m.journal ∧ Tells m (.turn turn) fresh := by
  obtain ⟨late, hlate, htold⟩ := hplays.told
  rcases h.cases with ⟨rfl, rfl⟩ | ⟨hturn, hlibrary, writes, hwrites⟩
  · exact ⟨late, hlate, tells_of_told htold (fun haccepts => haccepts.1 rfl) fun _ => id⟩
  · have haccepts : m.Accepts (.turn turn) := ⟨hturn, start, h⟩
    rw [hlibrary] at htold
    rw [hwrites, List.append_cons, ← List.append_assoc] at hlate
    refine ⟨_, hlate, iff_of_true (by simp) haccepts, fun file => ?_, ?_⟩
    · simp [htold.installed, Installs]
    · simp [htold.scheduled]

/-- The journal tells what an operation did. -/
theorem run_tells {bound : Nat} {m after : Machine} {operation : Operation}
    {result : Except Fault Bool} (h : operation.run bound m = some (result, after)) :
    ∃ fresh, after.journal = fresh ++ m.journal ∧ Tells m operation fresh := by
  cases operation with
  | load file block =>
    obtain ⟨-, rfl⟩ := Prod.mk.inj (Option.some.inj h)
    rw [load]
    cases hfetch : m.library.fetch file with
    | ok root =>
      have haccepts : ¬m.Accepts (.load file block) := id
      have hinstalls : ∀ other, m.Installs other (.load file block) ↔ file = other := by
        intro other
        refine ⟨And.left, ?_⟩
        rintro rfl
        exact ⟨rfl, root, hfetch⟩
      exact install_tells haccepts hinstalls root block
    | error fault =>
      refine ⟨[], rfl, tells_of_told (.nil _) id fun other => ?_⟩
      rintro ⟨rfl, root, hroot⟩
      rw [hfetch] at hroot
      cases hroot
  | install file root block =>
    obtain ⟨-, rfl⟩ := Prod.mk.inj (Option.some.inj h)
    exact install_tells id (fun _ => Iff.rfl) root block
  | turn t =>
    obtain ⟨⟨answer, m'⟩, hturn, heq⟩ := Option.map_eq_some_iff.mp h
    obtain ⟨-, rfl⟩ := Prod.mk.inj heq
    rcases m.starts_or_refused t with ⟨start, hstart⟩ | ⟨fault, hrefused⟩
    · rw [hstart.run_eq] at hturn
      exact hstart.tells (plays_of_play hturn)
    · have hnone : ∀ start, ¬Starts m t start := by
        intro start hstart
        cases (hrefused 0).symm.trans (hstart.run_eq 0)
      rw [hrefused] at hturn
      cases hturn
      refine ⟨[], rfl, tells_of_told (.nil _) ?_ fun _ => id⟩
      rintro ⟨-, start, hstart⟩
      exact hnone start hstart
  | step =>
    obtain ⟨fresh, hjournal, htold⟩ := m.step_told
    rw [show m.step = (result, after) from Option.some.inj h] at hjournal
    exact ⟨fresh, hjournal, tells_of_told htold id fun _ => id⟩
  | setFlags text =>
    obtain ⟨-, rfl⟩ := Prod.mk.inj (Option.some.inj h)
    exact ⟨[], rfl, tells_of_told (.nil _) id fun _ => id⟩
  | clearFlags text =>
    obtain ⟨-, rfl⟩ := Prod.mk.inj (Option.some.inj h)
    exact ⟨[], rfl, tells_of_told (.nil _) id fun _ => id⟩
  | deliver task =>
    obtain ⟨-, rfl⟩ := Prod.mk.inj (Option.some.inj h)
    rw [deliver]
    split
    · refine ⟨[.wrote task.surface task.markup], rfl, iff_of_false (by simp) id, ?_, ?_⟩
      · simp [Installs]
      · simp
    · exact ⟨[], rfl, tells_of_told (.nil _) id fun _ => id⟩

end Machine

end StoryPlayer
