import StoryPlayer.Proofs.Faults
import StoryPlayer.Proofs.FrontEnds
import StoryPlayer.Proofs.Protocol

/-! The calls that the line player makes.  It makes one only where the story waits, and lets the
reader pick only what is on offer, so that every call gets past its guard.  At each stop that it
comes to, the story does not run, and stands in one of its own documents. -/

namespace StoryPlayer

namespace Machine

/-! ### Bounds -/

theorem play_mono {bound more : Nat} {m : Machine} {outcome : Outcome Unit}
    (h : m.play bound = some outcome) (hle : bound ≤ more) : m.play more = some outcome := by
  induction bound generalizing m more with
  | zero => cases h
  | succ bound ih =>
    obtain ⟨more, rfl⟩ : ∃ k, more = k + 1 := ⟨more - 1, by omega⟩
    rw [play] at h ⊢
    split at h
    · next hpaused =>
      rw [if_pos hpaused]
      exact h
    · next hrunning =>
      rw [if_neg hrunning]
      split at h
      · exact h
      · exact ih h (Nat.le_of_succ_le_succ hle)
      · exact h

theorem turn_mono {bound more : Nat} {m : Machine} {turn : Turn} {outcome : Outcome Unit}
    (h : turn.run bound m = some outcome) (hle : bound ≤ more) :
    turn.run more m = some outcome := by
  rcases m.starts_or_refused turn with ⟨start, hstart⟩ | ⟨fault, hrefused⟩
  · rw [hstart.run_eq] at h ⊢
    exact play_mono h hle
  · rw [hrefused] at h ⊢
    exact h

/-- The machine stands at a stop of a story. -/
structure Stopped (library : Library) (m : Machine) : Prop extends m.InStory library where
  phase : m.phase ≠ .running

end Machine

namespace Session

section

variable {s : Session} {turn : Turn} {bound more : Nat} {outcome : Except Fault Unit × Session}

theorem perform_mono (h : s.perform (fun m => turn.run bound m) = some outcome)
    (hle : bound ≤ more) : s.perform (fun m => turn.run more m) = some outcome := by
  obtain ⟨result, t⟩ := outcome
  obtain ⟨after, hafter, rfl⟩ := perform_eq_some h
  rw [perform, Machine.turn_mono hafter hle]
  rfl

theorem perform_unique (turn : Turn) {other : Except Fault Unit × Session}
    (h : s.perform (fun m => turn.run bound m) = some outcome)
    (h' : s.perform (fun m => turn.run more m) = some other) : outcome = other := by
  have hmax := perform_mono h (Nat.le_max_left bound more)
  rw [perform_mono h' (Nat.le_max_right bound more)] at hmax
  exact (Option.some.inj hmax).symm

theorem exists_perform (h : turn.run bound s.machine ≠ none) :
    ∃ result t, s.perform (fun m => turn.run bound m) = some (result, t) := by
  obtain ⟨⟨result, after⟩, hafter⟩ := Option.ne_none_iff_exists'.mp h
  refine ⟨result, { s with machine := after }.collect.2, ?_⟩
  rw [perform, hafter]
  rfl

/-- A call that starts to play stops in the story, or fails by a fault of the story. -/
theorem stopped_or_raises {library : Library} (h : s.machine.InStory library)
    {start : Machine} (hstart : Machine.Starts s.machine turn start)
    {result : Except Fault Unit} {t : Session}
    (hrun : s.perform (fun m => turn.run bound m) = some (result, t)) :
    (result = .ok () → t.machine.Stopped library) ∧
      ∀ fault, result = .error fault → library.Raises fault := by
  obtain ⟨after, hafter, rfl⟩ := perform_eq_some hrun
  rw [hstart.run_eq] at hafter
  have hplays := Machine.plays_of_play hafter
  obtain ⟨hstory, hraises⟩ := (h.start hstart).plays hplays
  refine ⟨fun hok => ?_, hraises⟩
  have hphase := hplays.phase_ne_running hok
  exact ⟨hstory.takeJournal, hphase⟩

end

theorem inStory_opening {library : Library} {file block : Option String} {delay : Nat}
    {session : Session} (h : opening library file block delay = .ok session) :
    session.machine.InStory library := by
  obtain ⟨m, hopening, rfl⟩ := collect_of_opening h
  exact (Machine.inStory_opening hopening).takeJournal

/-! ### Waiting -/

section

variable {P : Machine → Prop}

theorem deliver_keeps (hwrite : ∀ {m} surface markup, P m → P (m.write surface markup))
    {s : Session} (h : P s.machine) (tasks : List Task) : P (s.deliver tasks).2.machine := by
  induction tasks generalizing s with
  | nil => exact h
  | cons task rest ih =>
    apply ih
    show P (s.machine.deliver task).2
    rw [Machine.deliver]
    split
    · exact hwrite _ _ h
    · exact h

theorem waitAll_keeps (hwrite : ∀ {m} surface markup, P m → P (m.write surface markup))
    {s : Session} (h : P s.machine) (late : List Nat) : P (s.waitAll late).2.machine := by
  fun_induction waitAll late s with
  | case1 => exact h
  | case2 late s due hdue now given others last hrest ih =>
    rw [hrest] at ih
    exact ih (@deliver_keeps _ hwrite ⟨s.machine, s.timer.notDueAt now, now⟩ h _)

end

/-! ### Scripted runs -/

/-- `P` survives all that a session does with its machine. -/
structure Keeps (P : Machine → Prop) : Prop where
  turn : ∀ {bound : Nat} {m after : Machine} {turn : Turn} {result : Except Fault Unit}, P m →
    turn.run bound m = some (result, after) → P after
  write : ∀ {m : Machine} (surface : Surface) (markup : String), P m → P (m.write surface markup)
  takeJournal : ∀ {m : Machine}, P m → P m.takeJournal.2

section

variable {P : Machine → Prop} (h : Keeps P) {bound : Nat} {s t : Session}
include h

theorem Keeps.perform {turn : Turn} {result : Except Fault Unit} (hs : P s.machine)
    (hrun : s.perform (fun m => turn.run bound m) = some (result, t)) : P t.machine := by
  obtain ⟨after, hafter, rfl⟩ := perform_eq_some hrun
  exact h.takeJournal (h.turn hs hafter)

theorem Keeps.deliverAll (hs : P s.machine) : P s.deliverAll.2.machine :=
  @deliver_keeps P h.write { s with timer := [] } hs _

theorem Keeps.act {action : Action} (hs : P s.machine) (hrun : s.act bound action = some (.ok t)) :
    P t.machine := by
  rw [Session.act, Action.apply_eq] at hrun
  obtain ⟨⟨result, after⟩, hperform, heq⟩ := Option.bind_eq_some_iff.mp hrun
  cases result with
  | error fault => cases heq
  | ok =>
    cases heq
    exact h.deliverAll (h.perform hs hperform)

theorem Keeps.actAll {actions : List Action} (hs : P s.machine)
    (hrun : s.actAll bound actions = some (.ok t)) : P t.machine := by
  induction actions generalizing s with
  | nil =>
    obtain rfl := Except.ok.inj (Option.some.inj hrun)
    exact hs
  | cons action rest ih =>
    rw [Session.actAll] at hrun
    obtain ⟨result, hact, hrest⟩ := Option.bind_eq_some_iff.mp hrun
    cases result with
    | error fault => cases hrest
    | ok next => exact ih (h.act hs hact) hrest

theorem Keeps.runActions {actions : List Action} (hs : P s.machine)
    (hrun : s.runActions bound actions = some (.ok t)) : P t.machine := by
  obtain ⟨⟨result, started⟩, hplay, hrest⟩ := Option.bind_eq_some_iff.mp hrun
  cases result with
  | error fault => cases hrest
  | ok => exact h.actAll (h.deliverAll (@Keeps.perform P h _ _ _ .play _ hs hplay)) hrest

theorem Keeps.opening {library : Library} {file block : Option String} {delay : Nat}
    (hinstall : ∀ entry root, P ((Machine.new library delay).install entry root block).2)
    (hopening : opening library file block delay = .ok s) : P s.machine := by
  obtain ⟨m, hm, rfl⟩ := collect_of_opening hopening
  obtain ⟨entry, root, -, hroot⟩ := Machine.install_of_opening hm
  have hP := hinstall entry root
  rw [hroot] at hP
  exact h.takeJournal hP

end

theorem arrived_phase (s : Session) (late : List Nat) :
    (s.arrived late).machine.phase = s.machine.phase := by
  rw [arrived]
  split
  · exact waitAll_keeps (P := fun m => m.phase = s.machine.phase) (fun _ _ hm => hm) rfl late
  · rfl

theorem stopped_arrived {library : Library} {s : Session} (h : s.machine.Stopped library)
    (late : List Nat) : (s.arrived late).machine.Stopped library := by
  rw [arrived]
  split
  · refine waitAll_keeps (fun surface markup hm => ?_) h late
    exact ⟨hm.toInStory.write surface markup, hm.phase⟩
  · exact h

end Session

namespace Player

/-! ### Calls of the player -/

theorem resolve?_mem {labels : List String} {word label : String}
    (h : resolve? labels word = some label) : label ∈ labels := by
  rw [resolve?] at h
  split at h
  · cases h
  · exact List.mem_of_getElem? h
  · exact List.mem_of_find?_eq_some h

/-- The player asks, and reads the line so. -/
structure Takes (p : Player) (line : String) (reading : Reading) : Prop where
  asks : ∃ prompt, p.prompt? = some prompt
  reads : read p.session.machine line = reading

/-- Whatever the reader types, the call that it leads to fits. -/
theorem Takes.starts {p : Player} {line : String} {action : Action}
    (h : p.Takes line (.act action)) :
    ∃ start, Machine.Starts p.session.machine action.turn start := by
  obtain ⟨prompt, hprompt⟩ := h.asks
  obtain ⟨pause, hphase⟩ := exists_pause hprompt
  have hpaused : p.session.machine.phase.isPaused = true := by
    rw [hphase]
    rfl
  have hanswer := (read_eq_act_iff hphase line action).mp h.reads
  rw [answer?, hphase] at hanswer
  split at hanswer
  · cases hanswer
  · cases pause with
    | next =>
      cases hanswer
      refine ⟨_, .resume hpaused fun hchoice => ?_⟩
      rw [hphase] at hchoice
      cases hchoice
    | choice =>
      simp only at hanswer
      split at hanswer
      · next hnone =>
        cases hanswer
        exact ⟨_, .resume hpaused fun _ => List.map_eq_nil_iff.mp hnone⟩
      · obtain ⟨label, hlabel, rfl⟩ := Option.map_eq_some_iff.mp hanswer
        have hpasses := (Machine.passes_choose_iff _ label).mpr (resolve?_mem hlabel)
        exact (Machine.passes_iff _ _).mp hpasses

/-- A larger bound on plays changes nothing. -/
theorem Follows.mono {bound more : Nat} {p : Player} {line : Option String} {reply : Reply}
    (h : Follows bound p line reply) (hle : bound ≤ more) : Follows more p line reply := by
  have hmore : ∀ {action : Action} {outcome : Except Fault Unit × Session},
      p.session.perform (action.apply bound) = some outcome →
      p.session.perform (action.apply more) = some outcome := by
    intro action outcome hperform
    rw [Action.apply_eq] at hperform ⊢
    exact Session.perform_mono hperform hle
  cases h with
  | unreadable => exact .unreadable
  | quit hread => exact .quit hread
  | note hread => exact .note hread
  | failed hread hperform => exact .failed hread (hmore hperform)
  | onward hread hperform => exact .onward hread (hmore hperform)

theorem stopped_arrive {library : Library} {p : Player} (h : p.session.machine.Stopped library) :
    p.arrive.2.session.machine.Stopped library := by
  rw [arrive_session]
  exact Session.stopped_arrived h _

/-- The first play of a story comes to a stop of it. -/
theorem stopped_first {library : Library} {session started : Session}
    (h : session.machine.InStory library) {bound : Nat}
    (hplay : session.perform (Machine.play bound) = some (.ok (), started))
    (late : List (List Nat)) :
    (arrive { session := started, late }).2.session.machine.Stopped library :=
  stopped_arrive ((Session.stopped_or_raises h .play hplay).1 rfl)

/-- From a stop of a story, a line that is followed leads to a stop of it. -/
theorem Takes.stopped {library : Library} {p : Player} {line : String} {action : Action}
    (htakes : p.Takes line (.act action)) (h : p.session.machine.Stopped library) {bound : Nat}
    {after : Session} (hperform : p.session.perform (action.apply bound) = some (.ok (), after)) :
    (arrive { p with session := after }).2.session.machine.Stopped library := by
  obtain ⟨start, hstart⟩ := htakes.starts
  rw [Action.apply_eq] at hperform
  exact stopped_arrive ((Session.stopped_or_raises h.toInStory hstart hperform).1 rfl)

/-- From a start on `lines`, the player comes to `p` while `rest` is still to be read. -/
inductive Comes (late : List (List Nat)) (session : Session) (lines : List (Option String)) :
    Player → List (Option String) → Prop
  | first {bound : Nat} {started : Session} :
      session.perform (Machine.play bound) = some (.ok (), started) →
      Comes late session lines (arrive { session := started, late }).2 lines
  | again {p : Player} {line text : String} {rest : List (Option String)} :
      Comes late session lines p (some line :: rest) → p.Takes line (.note text) →
      Comes late session lines p rest
  | onward {p : Player} {line : String} {rest : List (Option String)} {action : Action}
      {bound : Nat} {after : Session} :
      Comes late session lines p (some line :: rest) → p.Takes line (.act action) →
      p.session.perform (action.apply bound) = some (.ok (), after) →
      Comes late session lines (arrive { p with session := after }).2 rest

/-- Each play that the player starts comes to an end. -/
structure PlaysEnd (late : List (List Nat)) (session : Session) (lines : List (Option String)) :
    Prop where
  first : ∃ bound, session.machine.play bound ≠ none
  later : ∀ {p line rest action}, Comes late session lines p (some line :: rest) →
    p.Takes line (.act action) → ∃ bound, action.apply bound p.session.machine ≠ none

section

variable {late : List (List Nat)} {session : Session} {lines : List (Option String)}

theorem Comes.suffix {p : Player} {rest : List (Option String)}
    (h : Comes late session lines p rest) : rest <:+ lines := by
  induction h with
  | first => exact List.suffix_refl lines
  | again _ _ ih => exact (List.suffix_cons _ _).trans ih
  | onward _ _ _ ih => exact (List.suffix_cons _ _).trans ih

theorem Comes.stopped {library : Library} (hsession : session.machine.InStory library) {p : Player}
    {rest : List (Option String)} (h : Comes late session lines p rest) :
    p.session.machine.Stopped library := by
  induction h with
  | first hplay => exact stopped_first hsession hplay late
  | again _ _ ih => exact ih
  | onward _ htakes hperform ih => exact htakes.stopped ih hperform

end

end Player

end StoryPlayer
