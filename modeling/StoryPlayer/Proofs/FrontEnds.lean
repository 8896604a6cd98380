import StoryPlayer.Host.Player
import StoryPlayer.Proofs.Stops

/-! Two ways to play one story.  The line player waits for tasks at choices only, and reads what the
reader does off the lines that are typed; a scripted run takes the actions as they are, and gives
all tasks back after each.  Both come to the same end. -/

namespace StoryPlayer

namespace Player

theorem arrive_session (p : Player) :
    p.arrive.2.session = p.session.arrived (p.late.headD []) := by
  rw [arrive, Session.arrived]
  split
  · next hphase => rw [hphase]; rfl
  · next hphase => rw [hphase]; rfl
  · next hphase => rw [if_neg hphase]

/-! ### What a call or a line leads to -/

theorem advance_of_error {p : Player} {operation : Machine → Option (Outcome Unit)} {fault : Fault}
    {after : Session} (h : p.session.perform operation = some (.error fault, after))
    (actions : List Action) :
    p.advance actions operation = some (.over actions (.error (.fault fault))) := by
  rw [advance, h]
  rfl

theorem advance_of_ok {p : Player} {operation : Machine → Option (Outcome Unit)}
    {after : Session} (h : p.session.perform operation = some (.ok (), after))
    (actions : List Action) :
    p.advance actions operation = some (.again actions (arrive { p with session := after }).1
      (arrive { p with session := after }).2) := by
  rw [advance, h]
  rfl

theorem perform_of_advance {p : Player} {operation : Machine → Option (Outcome Unit)}
    {actions : List Action} {reply : Reply} (h : p.advance actions operation = some reply) :
    ∃ result after, p.session.perform operation = some (result, after) := by
  obtain ⟨⟨result, after⟩, hperform, -⟩ := Option.bind_eq_some_iff.mp h
  exact ⟨result, after, hperform⟩

/-- What a line leads to, by what it is read as. -/
inductive Follows (bound : Nat) (p : Player) : Option String → Reply → Prop
  | unreadable : Follows bound p none (.over [] (.error .unreadableInput))
  | quit {line : String} : read p.session.machine line = .quit →
      Follows bound p (some line) (.over [] (.ok p))
  | note {line text : String} : read p.session.machine line = .note text →
      Follows bound p (some line) (.again [] [text] p)
  | failed {line : String} {action : Action} {fault : Fault} {after : Session} :
      read p.session.machine line = .act action →
      p.session.perform (action.apply bound) = some (.error fault, after) →
      Follows bound p (some line) (.over [action] (.error (.fault fault)))
  | onward {line : String} {action : Action} {after : Session} :
      read p.session.machine line = .act action →
      p.session.perform (action.apply bound) = some (.ok (), after) →
      Follows bound p (some line) (.again [action] (arrive { p with session := after }).1
        (arrive { p with session := after }).2)

theorem follow_eq_some_iff {bound : Nat} {p : Player} {line : Option String} {reply : Reply} :
    p.follow bound line = some reply ↔ Follows bound p line reply := by
  constructor
  · intro h
    cases line with
    | none =>
      cases h
      exact .unreadable
    | some line =>
      rw [follow, Option.map_some] at h
      cases hread : read p.session.machine line with
      | quit =>
        rw [hread] at h
        cases h
        exact .quit hread
      | note text =>
        rw [hread] at h
        cases h
        exact .note hread
      | act action =>
        rw [hread] at h
        obtain ⟨result, after, hperform⟩ := perform_of_advance h
        cases result with
        | error fault =>
          cases (advance_of_error hperform _).symm.trans h
          exact .failed hread hperform
        | ok =>
          cases (advance_of_ok hperform _).symm.trans h
          exact .onward hread hperform
  · intro h
    cases h with
    | unreadable => rfl
    | quit hread | note hread => simp only [follow, Option.map_some, hread]
    | failed hread hperform =>
      simp only [follow, Option.map_some, hread, advance_of_error hperform]
    | onward hread hperform =>
      simp only [follow, Option.map_some, hread, advance_of_ok hperform]

/-! ### What lines stand for -/

/-- What a line stands for where a story stops.  A command stands for nothing, and so does a line
that names none of the options. -/
def answer? (m : Machine) (line : String) : Option Action :=
  if (Text.trim line).toList.head? = some ':' then none
  else match m.phase with
    | .paused .next => some .next
    | .paused .choice =>
      if m.labels = [] then some .next else (resolve? m.labels (Text.trim line)).map .choose
    | _ => none

theorem readCommand_ne_act (m : Machine) (word : String) (action : Action) :
    readCommand m word ≠ .act action := by
  unfold readCommand
  split
  all_goals exact nofun

theorem readCommand_eq_quit_iff (m : Machine) (word : String) :
    readCommand m word = .quit ↔ word = ":quit" := by
  unfold readCommand
  split
  · simp
  · simp
  · simp
  · next hquit _ _ => exact iff_of_false nofun hquit

theorem read_eq_act_iff {m : Machine} {pause : Pause} (h : m.phase = .paused pause) (line : String)
    (action : Action) : read m line = .act action ↔ answer? m line = some action := by
  rw [read, answer?, h]
  split
  · simp [readCommand_ne_act]
  · cases pause with
    | next => simp
    | choice =>
      by_cases hlabels : m.labels = []
      · simp [hlabels]
      · cases hword : resolve? m.labels (Text.trim line) with
        | none => simp [hlabels]
        | some label => simp [hlabels]

theorem read_eq_quit_iff (m : Machine) (line : String) :
    read m line = .quit ↔ Text.trim line = ":quit" := by
  rw [read]
  split
  · exact readCommand_eq_quit_iff m _
  · next hword =>
    have hne : Text.trim line ≠ ":quit" := by
      intro hquit
      rw [hquit] at hword
      exact hword rfl
    refine iff_of_false ?_ hne
    split
    · split
      · exact nofun
      · exact nofun
    · exact nofun

end Player

/-- The actions that lines stand for, in a session to which all tasks come back after each. -/
def Session.answers (bound : Nat) : Session → List (Option String) → List Action
  | s, some line :: rest =>
    match Player.answer? s.machine line with
    | some action =>
      match s.act bound action with
      | some (.ok t) => action :: t.answers bound rest
      | _ => [action]
    | none => if Text.trim line = ":quit" then [] else s.answers bound rest
  | _, _ => []

/-- The actions that lines stand for, from the first stop of a session on. -/
def Session.script (bound : Nat) (s : Session) (lines : List (Option String)) : List Action :=
  match s.runActions bound [] with
  | some (.ok t) => t.answers bound lines
  | _ => []

namespace Player

theorem prompt?_eq_none {p : Player} (h : p.prompt? = none) (pause : Pause) :
    p.session.machine.phase ≠ .paused pause := by
  intro hphase
  rw [prompt?, hphase] at h
  cases pause with
  | next => cases h
  | choice => cases h

theorem exists_pause {p : Player} {prompt : String} (h : p.prompt? = some prompt) :
    ∃ pause, p.session.machine.phase = .paused pause := by
  cases hphase : p.session.machine.phase with
  | paused pause => exact ⟨pause, rfl⟩
  | running | finished =>
    rw [prompt?, hphase] at h
    cases h

/-- Once a story has ended, no line stands for anything. -/
theorem answers_of_ended {s : Session} (h : ∀ pause, s.machine.phase ≠ .paused pause) (bound : Nat)
    (lines : List (Option String)) : s.answers bound lines = [] := by
  have hanswer : ∀ line, answer? s.machine line = none := by
    intro line
    rw [answer?]
    split
    · rfl
    · split
      · next hphase => exact absurd hphase (h _)
      · next hphase => exact absurd hphase (h _)
      · rfl
  induction lines with
  | nil => rfl
  | cons line rest ih =>
    cases line with
    | none => rfl
    | some line =>
      simp only [Session.answers, hanswer, ih, ite_self]

section

variable {p : Player} {s : Session} {prompt line : String}

/-- Where the player asks, it takes a line for what the line stands for. -/
theorem read_eq_act_iff_answer? (h : Session.Agree p.session s) (hprompt : p.prompt? = some prompt)
    (action : Action) :
    read p.session.machine line = .act action ↔ answer? s.machine line = some action := by
  obtain ⟨pause, hphase⟩ := exists_pause hprompt
  rw [read_eq_act_iff hphase, answer?, answer?, Machine.labels, Machine.labels, h.machine.phase,
    h.machine.offers]

theorem answer?_eq_none (h : Session.Agree p.session s) (hprompt : p.prompt? = some prompt)
    (hread : ∀ action, read p.session.machine line ≠ .act action) :
    answer? s.machine line = none := by
  refine Option.eq_none_iff_forall_ne_some.mpr fun action hanswer => ?_
  exact hread action ((read_eq_act_iff_answer? h hprompt action).mpr hanswer)

theorem answers_of_quit (h : Session.Agree p.session s) (hprompt : p.prompt? = some prompt)
    (hread : read p.session.machine line = .quit) (bound : Nat) (rest : List (Option String)) :
    s.answers bound (some line :: rest) = [] := by
  have hnone : answer? s.machine line = none := answer?_eq_none h hprompt (by simp [hread])
  have hquit := (read_eq_quit_iff p.session.machine line).mp hread
  simp only [Session.answers, hnone, hquit, if_true]

theorem answers_of_note (h : Session.Agree p.session s) (hprompt : p.prompt? = some prompt)
    {text : String} (hread : read p.session.machine line = .note text) (bound : Nat)
    (rest : List (Option String)) :
    s.answers bound (some line :: rest) = s.answers bound rest := by
  have hnone : answer? s.machine line = none := answer?_eq_none h hprompt (by simp [hread])
  have hquit : Text.trim line ≠ ":quit" := by simp [← read_eq_quit_iff p.session.machine, hread]
  simp only [Session.answers, hnone, hquit, if_false]

end

/-- A game comes from some actions, and ends as a scripted run does. -/
structure EndsAlike (game : Game) (actions : List Action) (run : Option (Except Fault Session)) :
    Prop where
  actions : game.actions = actions
  succeeded : ∀ p, game.result = .ok p → ∃ s, run = some (.ok s) ∧ Session.Agree p.session s
  failed : ∀ fault, game.result = .error (.fault fault) → run = some (.error fault)

theorem endsAlike_ok {p : Player} {s : Session} (h : Session.Agree p.session s)
    (printed : String) : EndsAlike ⟨printed, [], .ok p⟩ [] (some (.ok s)) := by
  refine ⟨rfl, fun q hq => ?_, fun fault hfault => ?_⟩
  · obtain rfl := Except.ok.inj hq
    exact ⟨s, rfl, h⟩
  · cases hfault

theorem endsAlike_fault (printed : String) (actions : List Action) (fault : Fault) :
    EndsAlike ⟨printed, actions, .error (.fault fault)⟩ actions (some (.error fault)) := by
  refine ⟨rfl, fun p hp => ?_, fun other hother => ?_⟩
  · cases hp
  · cases hother
    rfl

/-- Input that cannot be read is no fault of the story. -/
theorem endsAlike_unreadable (printed : String) (run : Option (Except Fault Session)) :
    EndsAlike ⟨printed, [], .error .unreadableInput⟩ [] run := by
  refine ⟨rfl, fun p hp => ?_, fun fault hfault => ?_⟩
  · cases hp
  · cases hfault

/-- A stop of a session, and the player once it has arrived there. -/
theorem agree_arrive {p : Player} {after t : Session}
    (h : Session.Agree (after.arrived (p.late.headD [])) t) :
    Session.Agree (arrive { p with session := after }).2.session t := by
  rw [arrive_session]
  exact h

/-- From a stop on, by induction on the lines that are still to be read.  After a command the player
asks again, and its session has not moved. -/
theorem converse_endsAlike {bound : Nat} {lines : List (Option String)} {p : Player} {s : Session}
    (h : Session.Agree p.session s) {game : Game} (hgame : p.converse bound lines = some game) :
    EndsAlike game (s.answers bound lines) (s.actAll bound (s.answers bound lines)) := by
  induction lines generalizing p s game with
  | nil =>
    obtain rfl := Option.some.inj hgame
    exact endsAlike_ok h _
  | cons line rest ih =>
    rw [converse] at hgame
    cases hprompt : p.prompt? with
    | none =>
      rw [hprompt] at hgame
      obtain rfl := Option.some.inj hgame
      rw [answers_of_ended]
      · exact endsAlike_ok h _
      · rw [← h.machine.phase]
        exact prompt?_eq_none hprompt
    | some prompt =>
      rw [hprompt] at hgame
      obtain ⟨reply, hfollow, hnext⟩ := Option.bind_eq_some_iff.mp hgame
      cases follow_eq_some_iff.mp hfollow with
      | unreadable =>
        obtain rfl := Option.some.inj hnext
        exact endsAlike_unreadable _ _
      | quit hread =>
        obtain rfl := Option.some.inj hnext
        rw [answers_of_quit h hprompt hread]
        exact endsAlike_ok h _
      | note hread =>
        obtain ⟨later, hlater, heq⟩ := Option.bind_eq_some_iff.mp hnext
        obtain rfl := Option.some.inj heq
        rw [answers_of_note h hprompt hread]
        have hends := ih h hlater
        exact ⟨hends.actions, hends.succeeded, hends.failed⟩
      | @failed _ action fault _ hread hperform =>
        obtain rfl := Option.some.inj hnext
        have hanswer := (read_eq_act_iff_answer? h hprompt action).mp hread
        obtain ⟨t, ht, -⟩ := h.act hperform []
        simp only [Session.answers, hanswer, ht, Except.map, Session.actAll]
        exact endsAlike_fault _ _ fault
      | @onward _ action _ hread hperform =>
        obtain ⟨later, hlater, heq⟩ := Option.bind_eq_some_iff.mp hnext
        obtain rfl := Option.some.inj heq
        have hanswer := (read_eq_act_iff_answer? h hprompt action).mp hread
        obtain ⟨t, ht, hagree⟩ := h.act hperform (p.late.headD [])
        have hends := ih (agree_arrive hagree) hlater
        simp only [Session.answers, hanswer, ht, Except.map, Session.actAll]
        exact ⟨congrArg (List.cons action) hends.actions, hends.succeeded, hends.failed⟩

theorem play_endsAlike {bound : Nat} {late : List (List Nat)} {lines : List (Option String)}
    {session fresh : Session} (h : Session.Agree session fresh) {game : Game}
    (hgame : play bound late session lines = some game) :
    EndsAlike game (fresh.script bound lines)
      (fresh.runActions bound (fresh.script bound lines)) := by
  obtain ⟨reply, hstart, hnext⟩ := Option.bind_eq_some_iff.mp hgame
  obtain ⟨answer, started, hperform⟩ := perform_of_advance hstart
  have hplay : session.perform (fun m => Turn.play.run bound m) = some (answer, started) := hperform
  obtain ⟨t, ht, hagree⟩ := h.turn hplay (late.headD [])
  have hfresh : fresh.perform (Machine.play bound) = some (answer, t) := ht
  cases answer with
  | error fault =>
    cases (advance_of_error hperform []).symm.trans hstart
    obtain rfl := Option.some.inj hnext
    have hscript : fresh.script bound lines = [] := by
      simp only [Session.script, Session.runActions, hfresh]
      rfl
    rw [hscript, Session.runActions, hfresh]
    exact endsAlike_fault _ _ fault
  | ok =>
    cases (advance_of_ok hperform []).symm.trans hstart
    obtain ⟨later, hlater, heq⟩ := Option.bind_eq_some_iff.mp hnext
    obtain rfl := Option.some.inj heq
    have hscript : fresh.script bound lines = t.deliverAll.2.answers bound lines := by
      simp only [Session.script, Session.runActions, hfresh]
      rfl
    rw [hscript, Session.runActions, hfresh]
    have hends := converse_endsAlike (agree_arrive hagree) hlater
    exact ⟨hends.actions, hends.succeeded, hends.failed⟩

/-- A story is played by lines, with some delay of choices, and by the actions that the lines stand
for, with another.  If the game comes to an end, so does the run, and the story stands at the same
place; if the game fails with a fault, the run fails with that fault. -/
theorem front_ends_agree {library : Library} {file block : Option String} {delay : Nat}
    {session : Session} (hopening : Session.opening library file block delay = .ok session)
    (delay' : Nat) :
    ∃ fresh, Session.opening library file block delay' = .ok fresh ∧
      ∀ (bound : Nat) (late : List (List Nat)) (lines : List (Option String)) (game : Game),
        play bound late session lines = some game →
        game.actions = fresh.script bound lines ∧
        (∀ p, game.result = .ok p →
          ∃ s, fresh.runActions bound game.actions = some (.ok s) ∧
            p.session.machine.phase = s.machine.phase ∧
            p.session.machine.flags = s.machine.flags ∧
            p.session.machine.screen = s.machine.screen ∧
            p.session.machine.offers = s.machine.offers ∧
            p.session.machine.stack = s.machine.stack) ∧
        ∀ fault, game.result = .error (.fault fault) →
          fresh.runActions bound game.actions = some (.error fault) := by
  obtain ⟨fresh, hfresh, hagree⟩ := Session.opening_agree hopening delay'
  refine ⟨fresh, hfresh, fun bound late lines game hgame => ?_⟩
  have hends := play_endsAlike hagree hgame
  have hactions := hends.actions
  rw [← hactions] at hends
  refine ⟨hactions, fun p hp => ?_, hends.failed⟩
  obtain ⟨s, hrun, hsession⟩ := hends.succeeded p hp
  have hmachine := hsession.machine
  have hscreen : p.session.machine.screen = s.machine.screen :=
    Screen.eq_of_read fun surface => hmachine.screen surface rfl
  exact ⟨s, hrun, hmachine.phase, hmachine.flags, hscreen, hmachine.offers, hmachine.stack⟩

/-- A story of one choice with one option, and a title after it. -/
def forkLibrary : Library :=
  [("main.xml", "<block id='start'><choice><option of='go'/></choice><title>Ahead</title></block>")]

/-- A command, a number that stands for no option and one that does are played as one choice. -/
theorem front_ends_agree_fork :
    ∃ session fresh game p s, Session.opening forkLibrary none none 300 = .ok session ∧
      Session.opening forkLibrary none none 0 = .ok fresh ∧
      play 3 [[7]] session [some ":flags", some "2", some "1"] = some game ∧
      game.actions = [.choose "go"] ∧ game.result = .ok p ∧
      fresh.runActions 3 [.choose "go"] = some (.ok s) ∧
      p.session.machine.phase = s.machine.phase ∧
      p.session.machine.screen = s.machine.screen := by
  have hgoes : ((Session.opening forkLibrary none none 300).toOption.bind fun session =>
      (play 3 [[7]] session [some ":flags", some "2", some "1"]).map fun game =>
        (game.actions, game.result.isOk)) = some ([.choose "go"], true) := by decide +kernel
  cases hopening : Session.opening forkLibrary none none 300 with
  | error fault =>
    rw [hopening] at hgoes
    cases hgoes
  | ok session =>
    rw [hopening] at hgoes
    obtain ⟨⟨printed, actions, result⟩, hgame, hended⟩ := Option.map_eq_some_iff.mp hgoes
    obtain ⟨rfl, hok⟩ := Prod.mk.inj hended
    obtain ⟨fresh, hfresh, hagree⟩ := front_ends_agree hopening 0
    cases result with
    | error failure => cases hok
    | ok p =>
      obtain ⟨s, hrun, hphase, -, hscreen, -⟩ := (hagree 3 [[7]] _ _ hgame).2.1 p rfl
      exact ⟨session, fresh, _, p, s, rfl, hfresh, hgame, rfl, rfl, hrun, hphase, hscreen⟩

end Player

end StoryPlayer
