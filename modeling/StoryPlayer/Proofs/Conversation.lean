import StoryPlayer.Proofs.Calls

/-! Games of the line player.  Each turn of its loops reads a line, so that the player comes to an
end if all the plays that it starts do.  It then stands at one of its stops, or it has failed, by a
fault of the story or because a line could not be read.  What it prints is a list of remarks: the
banner, what is new at each stop with the options of a choice, a prompt for each line that it asks
for, and notes.  The farewell is among them exactly if the story has ended, and it comes last. -/

namespace StoryPlayer

namespace Player

/-! ### Remarks -/

/-- What the player prints at a time. -/
inductive Remark where
  | banner
  /-- What is new on a screen after a page. -/
  | page (page : Page) (screen : Screen)
  | options (labels : List String)
  | farewell
  | prompt (pause : Pause)
  | note (text : String)

/-- What the player prints last once the story has ended. -/
def farewell : String := "\n[END]\n"

namespace Remark

def text : Remark → String
  | banner => "EXIF player\ncommands: :flags :help :quit\n"
  | page shown screen => joinLines (shown.turn screen).1
  | options labels =>
    if labels = [] then "(nothing to choose)\n" else joinLines (optionLines 1 labels)
  | farewell => Player.farewell
  | prompt .next => "[Enter] "
  | prompt .choice => "> "
  | note text => text ++ "\n"

/-- All that is printed by some remarks. -/
def texts (said : List Remark) : String := String.join (said.map text)

@[simp] theorem texts_nil : texts [] = "" := rfl

@[simp] theorem texts_cons (remark : Remark) (said : List Remark) :
    texts (remark :: said) = remark.text ++ texts said := by
  rw [texts, List.map_cons, String.join_cons]
  rfl

@[simp] theorem texts_append (first second : List Remark) :
    texts (first ++ second) = texts first ++ texts second := by
  rw [texts, List.map_append, String.join_append]
  rfl

end Remark

/-- What the player says when it has come to a stop, with `page` printed before: what is new on the
screen, and then the options of a choice, or the farewell if the story has ended. -/
def announces (p : Player) (page : Page) : List Remark :=
  .page page p.session.machine.screen ::
    match p.session.machine.phase with
    | .paused .choice => [.options p.session.machine.labels]
    | .finished => [.farewell]
    | .paused .next => []
    | .running => []

theorem joinLines_append (first second : List String) :
    joinLines (first ++ second) = joinLines first ++ joinLines second := by
  rw [joinLines, List.map_append, String.join_append]
  rfl

theorem arrive_phase (p : Player) :
    p.arrive.2.session.machine.phase = p.session.machine.phase := by
  rw [arrive_session, Session.arrived_phase]

/-- At a stop the player prints what it is said to announce there. -/
theorem joinLines_arrive {p : Player} (h : p.session.machine.phase ≠ .running) :
    joinLines p.arrive.1 = Remark.texts (p.arrive.2.announces p.page) := by
  rw [announces, arrive_phase, arrive]
  cases hstop : p.session.machine.phase with
  | running => exact absurd hstop h
  | finished => simp [Remark.text, farewell, joinLines]
  | paused pause =>
    cases pause with
    | next => simp [Remark.text]
    | choice =>
      simp only [Remark.texts_cons, Remark.texts_nil, joinLines_append, Remark.text,
        List.isEmpty_iff, String.append_empty]
      split
      · rfl
      · rfl

theorem prompt?_of_paused {p : Player} {pause : Pause}
    (h : p.session.machine.phase = .paused pause) :
    p.prompt? = some (Remark.prompt pause).text := by
  rw [prompt?, h]
  cases pause with
  | next => rfl
  | choice => rfl

theorem prompt?_of_finished {p : Player} (h : p.session.machine.phase = .finished) :
    p.prompt? = none := by
  rw [prompt?, h]

/-! ### Conversations -/

/-- How a conversation goes from a stop on, whatever the bound on its plays: what the player says,
what the reader does, and the player at the end or why there is none. -/
inductive Goes :
    Player → List (Option String) → List Remark → List Action → Except Failure Player → Prop
  | ended {p : Player} (lines : List (Option String)) :
      p.session.machine.phase = .finished → Goes p lines [] [] (.ok p)
  | silent {p : Player} {pause : Pause} :
      p.session.machine.phase = .paused pause → Goes p [] [.prompt pause] [] (.ok p)
  | unreadable {p : Player} {pause : Pause} (rest : List (Option String)) :
      p.session.machine.phase = .paused pause →
      Goes p (none :: rest) [.prompt pause] [] (.error .unreadableInput)
  | quit {p : Player} {pause : Pause} {line : String} (rest : List (Option String)) :
      p.session.machine.phase = .paused pause → read p.session.machine line = .quit →
      Goes p (some line :: rest) [.prompt pause] [] (.ok p)
  | note {p : Player} {pause : Pause} {line text : String} {rest : List (Option String)}
      {said : List Remark} {actions : List Action} {result : Except Failure Player} :
      p.session.machine.phase = .paused pause → read p.session.machine line = .note text →
      Goes p rest said actions result →
      Goes p (some line :: rest) (.prompt pause :: .note text :: said) actions result
  | failed {p : Player} {pause : Pause} {line : String} (rest : List (Option String))
      {action : Action} {bound : Nat} {fault : Fault} {after : Session} :
      p.session.machine.phase = .paused pause → read p.session.machine line = .act action →
      p.session.perform (action.apply bound) = some (.error fault, after) →
      Goes p (some line :: rest) [.prompt pause] [action] (.error (.fault fault))
  | onward {p : Player} {pause : Pause} {line : String} {rest : List (Option String)}
      {action : Action} {bound : Nat} {after : Session} {said : List Remark}
      {actions : List Action} {result : Except Failure Player} :
      p.session.machine.phase = .paused pause → read p.session.machine line = .act action →
      p.session.perform (action.apply bound) = some (.ok (), after) →
      Goes (arrive { p with session := after }).2 rest said actions result →
      Goes p (some line :: rest)
        (.prompt pause :: ((arrive { p with session := after }).2.announces p.page ++ said))
        (action :: actions) result

theorem takes_of_paused {p : Player} {pause : Pause} {line : String} {reading : Reading}
    (h : p.session.machine.phase = .paused pause) (hread : read p.session.machine line = reading) :
    p.Takes line reading := ⟨⟨_, prompt?_of_paused h⟩, hread⟩

section

variable {library : Library} {p : Player} {lines : List (Option String)}

/-- What is printed after a line that is followed to a stop of the story. -/
theorem joinLines_onward {line : String} {action : Action} (htakes : p.Takes line (.act action))
    (hstopped : p.session.machine.Stopped library) {bound : Nat} {after : Session}
    (hperform : p.session.perform (action.apply bound) = some (.ok (), after)) :
    joinLines (arrive { p with session := after }).1 =
      Remark.texts ((arrive { p with session := after }).2.announces p.page) := by
  refine joinLines_arrive (p := { p with session := after }) ?_
  rw [← arrive_phase]
  exact (htakes.stopped hstopped hperform).phase

theorem goes_of_converse {bound : Nat} {game : Game} (hstopped : p.session.machine.Stopped library)
    (h : p.converse bound lines = some game) :
    ∃ said, Goes p lines said game.actions game.result ∧ game.printed = Remark.texts said := by
  induction lines generalizing p game with
  | nil =>
    cases h
    cases hphase : p.session.machine.phase with
    | running => exact absurd hphase hstopped.phase
    | finished => exact ⟨[], .ended [] hphase, by rw [prompt?_of_finished hphase]; rfl⟩
    | paused pause => exact ⟨_, .silent hphase, by simp [prompt?_of_paused hphase]⟩
  | cons line rest ih =>
    rw [converse] at h
    cases hphase : p.session.machine.phase with
    | running => exact absurd hphase hstopped.phase
    | finished =>
      rw [prompt?_of_finished hphase] at h
      cases h
      exact ⟨[], .ended _ hphase, rfl⟩
    | paused pause =>
      rw [prompt?_of_paused hphase] at h
      obtain ⟨reply, hfollow, h⟩ := Option.bind_eq_some_iff.mp h
      cases follow_eq_some_iff.mp hfollow with
      | unreadable =>
        cases h
        exact ⟨_, .unreadable rest hphase, by simp⟩
      | quit hread =>
        cases h
        exact ⟨_, .quit rest hphase hread, by simp⟩
      | note hread =>
        obtain ⟨later, hlater, heq⟩ := Option.bind_eq_some_iff.mp h
        cases heq
        obtain ⟨said, hgoes, hprinted⟩ := ih hstopped hlater
        refine ⟨_, .note hphase hread hgoes, ?_⟩
        simp [Game.after, hprinted, Remark.text, joinLines, String.append_assoc]
      | failed hread hperform =>
        cases h
        exact ⟨_, .failed rest hphase hread hperform, by simp⟩
      | onward hread hperform =>
        obtain ⟨later, hlater, heq⟩ := Option.bind_eq_some_iff.mp h
        cases heq
        have htakes := takes_of_paused hphase hread
        obtain ⟨said, hgoes, hprinted⟩ := ih (htakes.stopped hstopped hperform) hlater
        refine ⟨_, .onward hphase hread hperform hgoes, ?_⟩
        simp [Game.after, hprinted, joinLines_onward htakes hstopped hperform, String.append_assoc]

theorem converse_of_over {bound : Nat} {pause : Pause} {line : Option String}
    {actions : List Action} {result : Except Failure Player}
    (hphase : p.session.machine.phase = .paused pause)
    (h : Follows bound p line (.over actions result)) (rest : List (Option String)) :
    p.converse bound (line :: rest) = some ⟨(Remark.prompt pause).text, actions, result⟩ := by
  rw [converse, prompt?_of_paused hphase]
  simp only [follow_eq_some_iff.mpr h]
  rfl

theorem converse_of_again {bound : Nat} {pause : Pause} {line : Option String}
    {actions : List Action} {printed : List String} {next : Player} {game : Game}
    (hphase : p.session.machine.phase = .paused pause)
    (h : Follows bound p line (.again actions printed next)) {rest : List (Option String)}
    (hrest : next.converse bound rest = some game) :
    p.converse bound (line :: rest) =
      some (game.after ((Remark.prompt pause).text ++ joinLines printed) actions) := by
  rw [converse, prompt?_of_paused hphase]
  simp only [follow_eq_some_iff.mpr h, Option.bind_eq_bind, Option.bind_some, hrest]
  rfl

/-- With a bound that is large enough for all plays, the game is found. -/
theorem Goes.converse {said : List Remark} {actions : List Action}
    {result : Except Failure Player} (h : Goes p lines said actions result)
    (hstopped : p.session.machine.Stopped library) :
    ∃ bound, ∀ more, bound ≤ more →
      p.converse more lines = some ⟨Remark.texts said, actions, result⟩ := by
  induction h with
  | ended lines hphase =>
    refine ⟨0, fun more _ => ?_⟩
    cases lines with
    | nil => rw [Player.converse, prompt?_of_finished hphase]; rfl
    | cons line rest => rw [Player.converse, prompt?_of_finished hphase]; rfl
  | silent hphase => exact ⟨0, fun more _ => by simp [Player.converse, prompt?_of_paused hphase]⟩
  | unreadable rest hphase =>
    exact ⟨0, fun more _ => by simp [converse_of_over hphase .unreadable]⟩
  | quit rest hphase hread =>
    exact ⟨0, fun more _ => by simp [converse_of_over hphase (.quit hread)]⟩
  | note hphase hread _ ih =>
    obtain ⟨bound, hlater⟩ := ih hstopped
    refine ⟨bound, fun more hle => ?_⟩
    rw [converse_of_again hphase (.note hread) (hlater more hle)]
    simp [Game.after, Remark.text, joinLines, String.append_assoc]
  | @failed _ _ _ _ _ bound _ _ hphase hread hperform =>
    refine ⟨bound, fun more hle => ?_⟩
    simp [converse_of_over hphase ((Follows.failed hread hperform).mono hle)]
  | @onward _ _ _ _ _ bound _ _ _ _ hphase hread hperform _ ih =>
    have htakes := takes_of_paused hphase hread
    obtain ⟨enough, hlater⟩ := ih (htakes.stopped hstopped hperform)
    refine ⟨max bound enough, fun more hle => ?_⟩
    have hfollows := (Follows.onward hread hperform).mono (by omega : bound ≤ more)
    rw [converse_of_again hphase hfollows (hlater more (by omega))]
    simp [Game.after, joinLines_onward htakes hstopped hperform, String.append_assoc]

theorem Goes.length_actions_le {said : List Remark} {actions : List Action}
    {result : Except Failure Player} (h : Goes p lines said actions result) :
    actions.length ≤ lines.length := by
  induction h with
  | ended | silent | unreadable | quit | failed => simp
  | note _ _ _ ih => simp; omega
  | onward _ _ _ _ ih => simpa using ih

end

/-! ### Whole games -/

/-- How a game goes, whatever the bound on its plays. -/
inductive Played (late : List (List Nat)) (session : Session) (lines : List (Option String)) :
    List Remark → List Action → Except Failure Player → Prop
  | failed {bound : Nat} {fault : Fault} {started : Session} :
      session.perform (Machine.play bound) = some (.error fault, started) →
      Played late session lines [.banner] [] (.error (.fault fault))
  | started {bound : Nat} {started : Session} {said : List Remark} {actions : List Action}
      {result : Except Failure Player} :
      session.perform (Machine.play bound) = some (.ok (), started) →
      Goes (arrive { session := started, late }).2 lines said actions result →
      Played late session lines
        (.banner :: ((arrive { session := started, late }).2.announces {} ++ said)) actions result

section

variable {library : Library} {late : List (List Nat)} {session : Session}
  {lines : List (Option String)} {said : List Remark} {actions : List Action}
  {result : Except Failure Player}

theorem joinLines_banner : joinLines banner = Remark.banner.text := by decide

/-- What is printed at the first stop. -/
theorem joinLines_first (hstory : session.machine.InStory library) {bound : Nat}
    {started : Session} (hplay : session.perform (Machine.play bound) = some (.ok (), started)) :
    joinLines (banner ++ (arrive { session := started, late }).1) =
      Remark.texts (.banner :: (arrive { session := started, late }).2.announces {}) := by
  have hphase := (stopped_first hstory hplay late).phase
  rw [arrive_phase] at hphase
  rw [joinLines_append, joinLines_banner, joinLines_arrive hphase, Remark.texts_cons]

theorem played_of_play (hstory : session.machine.InStory library) {bound : Nat} {game : Game}
    (h : play bound late session lines = some game) :
    ∃ said, Played late session lines said game.actions game.result ∧
      game.printed = Remark.texts said := by
  obtain ⟨reply, hstart, h⟩ := Option.bind_eq_some_iff.mp h
  obtain ⟨answer, started, hperform⟩ := perform_of_advance hstart
  cases answer with
  | error fault =>
    cases (advance_of_error hperform []).symm.trans hstart
    cases h
    exact ⟨_, .failed hperform, by simp [joinLines_banner]⟩
  | ok =>
    cases (advance_of_ok hperform []).symm.trans hstart
    obtain ⟨later, hlater, heq⟩ := Option.bind_eq_some_iff.mp h
    cases heq
    obtain ⟨said, hgoes, hprinted⟩ := goes_of_converse (stopped_first hstory hperform late) hlater
    refine ⟨_, .started hperform hgoes, ?_⟩
    simp [Game.after, hprinted, joinLines_first hstory hperform, String.append_assoc]

theorem Played.play (h : Played late session lines said actions result)
    (hstory : session.machine.InStory library) :
    ∃ bound, ∀ more, bound ≤ more →
      play more late session lines = some ⟨Remark.texts said, actions, result⟩ := by
  have hmore : ∀ {bound more outcome}, session.perform (Machine.play bound) = some outcome →
      bound ≤ more → session.perform (Machine.play more) = some outcome :=
    fun hperform hle => @Session.perform_mono _ .play _ _ _ hperform hle
  cases h with
  | @failed bound _ _ hperform =>
    refine ⟨bound, fun more hle => ?_⟩
    have hstart := advance_of_error (p := { session, late }) (hmore hperform hle) []
    rw [Player.play, start, hstart]
    simp [joinLines_banner]
  | @started bound _ _ _ _ hperform hgoes =>
    obtain ⟨enough, hlater⟩ := hgoes.converse (stopped_first hstory hperform late)
    refine ⟨max bound enough, fun more hle => ?_⟩
    have hstart := advance_of_ok (p := { session, late })
      (hmore hperform (by omega : bound ≤ more)) []
    rw [Player.play, start, hstart]
    simp only [Option.bind_eq_bind, Option.bind_some, hlater more (by omega)]
    simp [Game.after, joinLines_first hstory hperform, String.append_assoc]

theorem Played.length_actions_le (h : Played late session lines said actions result) :
    actions.length ≤ lines.length := by
  cases h with
  | failed => simp
  | started _ hgoes => exact hgoes.length_actions_le

/-! ### Games end if plays do -/

/-- Each turn of the player reads a line, so that the induction is on those that are left. -/
theorem exists_goes (hstory : session.machine.InStory library)
    (hends : PlaysEnd late session lines) {p : Player} {rest : List (Option String)}
    (hcomes : Comes late session lines p rest) :
    ∃ said actions result, Goes p rest said actions result := by
  induction rest generalizing p with
  | nil =>
    cases hphase : p.session.machine.phase with
    | running => exact absurd hphase (hcomes.stopped hstory).phase
    | finished => exact ⟨_, _, _, .ended [] hphase⟩
    | paused pause => exact ⟨_, _, _, .silent hphase⟩
  | cons line rest ih =>
    cases hphase : p.session.machine.phase with
    | running => exact absurd hphase (hcomes.stopped hstory).phase
    | finished => exact ⟨_, _, _, .ended _ hphase⟩
    | paused pause =>
      cases line with
      | none => exact ⟨_, _, _, .unreadable rest hphase⟩
      | some line =>
        cases hread : read p.session.machine line with
        | quit => exact ⟨_, _, _, .quit rest hphase hread⟩
        | note text =>
          obtain ⟨_, _, _, hlater⟩ := ih (hcomes.again (takes_of_paused hphase hread))
          exact ⟨_, _, _, .note hphase hread hlater⟩
        | act action =>
          have htakes := takes_of_paused hphase hread
          obtain ⟨bound, hbound⟩ := hends.later hcomes htakes
          rw [Action.apply_eq] at hbound
          obtain ⟨answer, after, hperform⟩ := Session.exists_perform hbound
          rw [← Action.apply_eq] at hperform
          cases answer with
          | error fault => exact ⟨_, _, _, .failed rest hphase hread hperform⟩
          | ok =>
            obtain ⟨_, _, _, hlater⟩ := ih (hcomes.onward htakes hperform)
            exact ⟨_, _, _, .onward hphase hread hperform hlater⟩

theorem exists_played (hstory : session.machine.InStory library)
    (hends : PlaysEnd late session lines) :
    ∃ said actions result, Played late session lines said actions result := by
  obtain ⟨bound, hbound⟩ := hends.first
  obtain ⟨answer, started, hperform⟩ := @Session.exists_perform session .play bound hbound
  cases answer with
  | error fault => exact ⟨_, _, _, .failed hperform⟩
  | ok =>
    obtain ⟨_, _, _, hlater⟩ := exists_goes hstory hends (.first hperform)
    exact ⟨_, _, _, .started hperform hlater⟩

theorem Goes.of_note {p : Player} {line text : String} {rest : List (Option String)}
    (h : Goes p (some line :: rest) said actions result) (htakes : p.Takes line (.note text)) :
    ∃ said actions result, Goes p rest said actions result := by
  obtain ⟨⟨prompt, hasks⟩, hreads⟩ := htakes
  cases h with
  | ended _ hphase => cases (prompt?_of_finished hphase).symm.trans hasks
  | quit _ _ hread => cases hread.symm.trans hreads
  | note _ _ hrest => exact ⟨_, _, _, hrest⟩
  | failed _ _ hread => cases hread.symm.trans hreads
  | onward _ hread => cases hread.symm.trans hreads

theorem Goes.of_act {p : Player} {line : String} {rest : List (Option String)} {action : Action}
    (h : Goes p (some line :: rest) said actions result) (htakes : p.Takes line (.act action)) :
    ∃ bound answer after, p.session.perform (action.apply bound) = some (answer, after) ∧
      (answer = .ok () → ∃ said actions result,
        Goes (arrive { p with session := after }).2 rest said actions result) := by
  obtain ⟨⟨prompt, hasks⟩, hreads⟩ := htakes
  cases h with
  | ended _ hphase => cases (prompt?_of_finished hphase).symm.trans hasks
  | quit _ _ hread => cases hread.symm.trans hreads
  | note _ hread => cases hread.symm.trans hreads
  | failed _ _ hread hperform =>
    cases hread.symm.trans hreads
    exact ⟨_, _, _, hperform, nofun⟩
  | onward _ hread hperform hrest =>
    cases hread.symm.trans hreads
    exact ⟨_, _, _, hperform, fun _ => ⟨_, _, _, hrest⟩⟩

/-- The game goes on from every stop that the player comes to, since all of them lie on its way. -/
theorem Played.goes (h : Played late session lines said actions result) {p : Player}
    {rest : List (Option String)} (hcomes : Comes late session lines p rest) :
    ∃ said actions result, Goes p rest said actions result := by
  induction hcomes with
  | first hperform =>
    cases h with
    | failed hfailed => cases Session.perform_unique .play hperform hfailed
    | started hstarted hgoes =>
      cases Session.perform_unique .play hperform hstarted
      exact ⟨_, _, _, hgoes⟩
  | again _ htakes ih =>
    obtain ⟨_, _, _, hlater⟩ := ih
    exact hlater.of_note htakes
  | @onward _ _ _ action _ _ _ htakes hperform ih =>
    obtain ⟨_, _, _, hlater⟩ := ih
    obtain ⟨_, _, _, hother, hrest⟩ := hlater.of_act htakes
    rw [Action.apply_eq] at hperform hother
    cases Session.perform_unique action.turn hperform hother
    exact hrest rfl

theorem Played.playsEnd (h : Played late session lines said actions result) :
    PlaysEnd late session lines := by
  constructor
  · cases h with
    | @failed bound _ _ hperform | @started bound _ _ _ _ hperform =>
      obtain ⟨after, hafter, -⟩ := Session.perform_eq_some hperform
      exact ⟨bound, Option.ne_none_iff_exists'.mpr ⟨_, hafter⟩⟩
  · intro p line rest action hcomes htakes
    obtain ⟨_, _, _, hlater⟩ := h.goes hcomes
    obtain ⟨bound, _, _, hperform, -⟩ := hlater.of_act htakes
    obtain ⟨after, hafter, -⟩ := Session.perform_eq_some hperform
    exact ⟨bound, Option.ne_none_iff_exists'.mpr ⟨_, hafter⟩⟩

/-! ### How games end -/

/-- With these lines still to be read, the player leaves off: the story has ended, or the input has,
or the reader quits. -/
inductive LeavesOff (p : Player) : List (Option String) → Prop
  | ended (rest : List (Option String)) : p.session.machine.phase = .finished → LeavesOff p rest
  | silent : LeavesOff p []
  | quit {line : String} (rest : List (Option String)) : p.Takes line .quit →
      LeavesOff p (some line :: rest)

/-- What the player can end with. -/
inductive Ends (late : List (List Nat)) (session : Session) (lines : List (Option String)) :
    Except Failure Player → Prop
  | stopped {p : Player} {rest : List (Option String)} :
      Comes late session lines p rest → p.LeavesOff rest → Ends late session lines (.ok p)
  | unreadable {p : Player} {rest : List (Option String)} :
      Comes late session lines p (none :: rest) → Ends late session lines (.error .unreadableInput)
  | first {bound : Nat} {fault : Fault} {started : Session} :
      session.perform (Machine.play bound) = some (.error fault, started) →
      Ends late session lines (.error (.fault fault))
  | later {p : Player} {line : String} {rest : List (Option String)} {action : Action}
      {bound : Nat} {fault : Fault} {after : Session} :
      Comes late session lines p (some line :: rest) → p.Takes line (.act action) →
      p.session.perform (action.apply bound) = some (.error fault, after) →
      Ends late session lines (.error (.fault fault))

theorem Goes.ends {p : Player} {rest : List (Option String)}
    (h : Goes p rest said actions result) (hcomes : Comes late session lines p rest) :
    Ends late session lines result := by
  induction h with
  | ended _ hphase => exact .stopped hcomes (.ended _ hphase)
  | silent => exact .stopped hcomes .silent
  | unreadable => exact .unreadable hcomes
  | quit rest hphase hread => exact .stopped hcomes (.quit rest (takes_of_paused hphase hread))
  | note hphase hread _ ih => exact ih (hcomes.again (takes_of_paused hphase hread))
  | failed _ hphase hread hperform => exact .later hcomes (takes_of_paused hphase hread) hperform
  | onward hphase hread hperform _ ih =>
    exact ih (hcomes.onward (takes_of_paused hphase hread) hperform)

theorem Played.ends (h : Played late session lines said actions result) :
    Ends late session lines result := by
  cases h with
  | failed hperform => exact .first hperform
  | started hperform hgoes => exact hgoes.ends (.first hperform)

/-- A player fails because a line cannot be read, or by a fault of the story. -/
theorem Ends.failure (hsession : session.machine.InStory library) {failure : Failure}
    (h : Ends late session lines (.error failure)) :
    failure = .unreadableInput ∧ none ∈ lines ∨
      ∃ fault, failure = .fault fault ∧ library.Raises fault := by
  cases h with
  | unreadable hcomes => exact .inl ⟨rfl, hcomes.suffix.subset List.mem_cons_self⟩
  | first hperform =>
    have hraises := (Session.stopped_or_raises hsession .play hperform).2
    exact .inr ⟨_, rfl, hraises _ rfl⟩
  | later hcomes htakes hperform =>
    obtain ⟨start, hstart⟩ := htakes.starts
    rw [Action.apply_eq] at hperform
    have hstory := (hcomes.stopped hsession).toInStory
    have hraises := (Session.stopped_or_raises hstory hstart hperform).2
    exact .inr ⟨_, rfl, hraises _ rfl⟩

/-! ### Leave-taking -/

/-- The remarks that a game can end with. -/
def Remark.isLast : Remark → Bool
  | banner | farewell | prompt _ => true
  | page .. | options _ | note _ => false

/-- The last remark is the farewell exactly if the story has ended, and none comes before it. -/
def Parts (said : List Remark) (result : Except Failure Player) : Prop :=
  ∃ (front : List Remark) (last : Remark),
    said = front ++ [last] ∧ Remark.farewell ∉ front ∧ last.isLast = true ∧
    (last = .farewell ↔ ∃ p, result = .ok p ∧ p.session.machine.phase = .finished)

theorem Parts.append (h : Parts said result) {before : List Remark}
    (hbefore : .farewell ∉ before) : Parts (before ++ said) result := by
  obtain ⟨front, last, rfl, hfront, hlast⟩ := h
  exact ⟨before ++ front, last, by simp, by simp [hbefore, hfront], hlast⟩

theorem parts_prompt (pause : Pause)
    (h : ∀ p, result = .ok p → p.session.machine.phase ≠ .finished) :
    Parts [.prompt pause] result := by
  refine ⟨[], .prompt pause, rfl, by simp, rfl, iff_of_false (by simp) ?_⟩
  rintro ⟨p, hok, hfinished⟩
  exact h p hok hfinished

theorem announces_of_finished {p : Player} (h : p.session.machine.phase = .finished)
    (page : Page) : p.announces page = [.page page p.session.machine.screen, .farewell] := by
  rw [announces, h]

theorem farewell_not_mem_announces {p : Player} (h : p.session.machine.phase ≠ .finished)
    (page : Page) : .farewell ∉ p.announces page := by
  rw [announces]
  split
  · simp
  · next hfinished => exact absurd hfinished h
  · simp
  · simp

theorem parts_farewell {p : Player} (h : p.session.machine.phase = .finished) (page : Page) :
    Parts (p.announces page) (.ok p) :=
  ⟨[.page page p.session.machine.screen], .farewell, announces_of_finished h page, by simp, rfl,
    iff_of_true rfl ⟨p, rfl, h⟩⟩

/-- At a stop where the story has ended all is said; from any other on, the conversation takes leave
exactly if the story ends later. -/
theorem Goes.parts {p : Player} (h : Goes p lines said actions result) :
    (p.session.machine.phase = .finished → said = [] ∧ result = .ok p) ∧
      (p.session.machine.phase ≠ .finished → Parts said result) := by
  have hpaused : ∀ {q : Player} {pause : Pause} {P : Prop},
      q.session.machine.phase = .paused pause → q.session.machine.phase = .finished → P := by
    intro q pause P hphase hfinished
    cases hphase.symm.trans hfinished
  induction h with
  | ended _ hphase => exact ⟨fun _ => ⟨rfl, rfl⟩, fun hne => absurd hphase hne⟩
  | silent hphase | quit _ hphase =>
    refine ⟨hpaused hphase, fun hne => parts_prompt _ ?_⟩
    rintro _ ⟨⟩
    exact hne
  | unreadable _ hphase | failed _ hphase =>
    refine ⟨hpaused hphase, fun _ => parts_prompt _ ?_⟩
    rintro _ ⟨⟩
  | @note _ pause _ text _ said _ _ hphase _ _ ih =>
    have hnote : Remark.farewell ∉ [Remark.prompt pause, .note text] := by simp
    exact ⟨hpaused hphase, fun hne => (ih.2 hne).append hnote⟩
  | @onward p pause _ _ _ _ after said _ _ hphase _ _ _ ih =>
    refine ⟨hpaused hphase, fun _ => ?_⟩
    have hprompt : Remark.farewell ∉ [Remark.prompt pause] := by simp
    by_cases hnext : (arrive { p with session := after }).2.session.machine.phase = .finished
    · obtain ⟨rfl, rfl⟩ := ih.1 hnext
      rw [List.append_nil]
      exact (parts_farewell hnext p.page).append hprompt
    · have hrest := (ih.2 hnext).append (farewell_not_mem_announces hnext p.page)
      exact hrest.append hprompt

theorem Played.parts (h : Played late session lines said actions result) : Parts said result := by
  cases h with
  | failed =>
    refine ⟨[], .banner, rfl, by simp, rfl, iff_of_false (by simp) ?_⟩
    rintro ⟨p, hok, -⟩
    cases hok
  | @started _ started _ _ _ _ hgoes =>
    have hbanner : Remark.farewell ∉ [Remark.banner] := by simp
    by_cases hfirst : (arrive { session := started, late }).2.session.machine.phase = .finished
    · obtain ⟨rfl, rfl⟩ := hgoes.parts.1 hfirst
      rw [List.append_nil]
      exact (parts_farewell hfirst {}).append hbanner
    · have hrest := (hgoes.parts.2 hfirst).append (farewell_not_mem_announces hfirst {})
      exact hrest.append hbanner

theorem Remark.farewell_suffix_iff {last : Remark} (h : last.isLast = true) (shown : String) :
    Player.farewell.toList <:+ (shown ++ last.text).toList ↔ last = .farewell := by
  rw [String.toList_append]
  cases last with
  | farewell => exact iff_of_true (List.suffix_append _ _) rfl
  | banner =>
    refine iff_of_false (fun hsuffix => ?_) (by simp)
    have hbanner := List.suffix_of_suffix_length_le hsuffix (List.suffix_append _ _) (by decide)
    revert hbanner
    decide
  | prompt pause =>
    refine iff_of_false ?_ (by simp)
    rintro ⟨before, hshown⟩
    have hlast := congrArg List.getLast? hshown
    rw [List.getLast?_append, List.getLast?_append] at hlast
    cases pause with
    | next => cases hlast
    | choice => cases hlast
  | page | options | note => cases h

theorem Parts.farewell_suffix_iff (h : Parts said result) :
    farewell.toList <:+ (Remark.texts said).toList ↔
      ∃ p, result = .ok p ∧ p.session.machine.phase = .finished := by
  obtain ⟨front, last, rfl, -, hisLast, hlast⟩ := h
  simp only [Remark.texts_append, Remark.texts_cons, Remark.texts_nil, String.append_empty]
  rw [Remark.farewell_suffix_iff hisLast, hlast]

/-! ### What reads like the farewell -/

/-- No remark but the farewell reads like it, except for what the story itself has on its screen. -/
def Remark.Distinct (remark : Remark) : Prop :=
  remark.text = Player.farewell → remark = .farewell ∨ ∃ shown screen, remark = .page shown screen

theorem Remark.distinct_of_head? {remark : Remark} {x : Char}
    (h : remark.text.toList.head? = some x) (hx : x ≠ '\n') : remark.Distinct := by
  intro htext
  rw [htext] at h
  exact absurd (Option.some.inj h).symm hx

theorem Remark.distinct_prompt (pause : Pause) : (Remark.prompt pause).Distinct := by
  cases pause with
  | next => exact distinct_of_head? (x := '[') rfl (by decide)
  | choice => exact distinct_of_head? (x := '>') rfl (by decide)

theorem Remark.distinct_options (labels : List String) : (Remark.options labels).Distinct := by
  cases labels with
  | nil => exact distinct_of_head? (x := '(') rfl (by decide)
  | cons label rest =>
    refine distinct_of_head? (x := ' ') ?_ (by decide)
    simp [text, joinLines, optionLines, String.join_cons]

theorem head?_of_readCommand {m : Machine} {word text : String}
    (h : readCommand m word = .note text) : ∃ x, text.toList.head? = some x ∧ x ≠ '\n' := by
  unfold readCommand at h
  split at h
  · cases h
  · cases h
    rw [flagLine]
    split
    · exact ⟨'(', rfl, by decide⟩
    · exact ⟨'f', by simp, by decide⟩
  · cases h
    exact ⟨'E', rfl, by decide⟩
  · cases h
    exact ⟨'U', by simp, by decide⟩

theorem Remark.distinct_note {m : Machine} {line text : String} (h : read m line = .note text) :
    (Remark.note text).Distinct := by
  obtain ⟨x, hhead, hx⟩ : ∃ x, text.toList.head? = some x ∧ x ≠ '\n' := by
    rw [read] at h
    split at h
    · exact head?_of_readCommand h
    · split at h
      · split at h
        · cases h
        · cases h
          exact ⟨'N', by simp, by decide⟩
      · cases h
  refine distinct_of_head? (x := x) ?_ hx
  rw [Remark.text, String.toList_append, List.head?_append, hhead]
  rfl

theorem distinct_announces (p : Player) (page : Page) :
    ∀ remark ∈ p.announces page, remark.Distinct := by
  have hpage : ∀ screen, (Remark.page page screen).Distinct := fun screen _ =>
    .inr ⟨page, screen, rfl⟩
  have hfarewell : Remark.farewell.Distinct := fun _ => .inl rfl
  rw [announces]
  split
  all_goals simp [hpage, hfarewell, Remark.distinct_options]

theorem Goes.distinct {p : Player} (h : Goes p lines said actions result) :
    ∀ remark ∈ said, remark.Distinct := by
  induction h with
  | ended => simp
  | silent | unreadable | quit | failed => simp [Remark.distinct_prompt]
  | note _ hread _ ih => simpa [Remark.distinct_prompt, Remark.distinct_note hread] using ih
  | onward _ _ _ _ ih =>
    simp only [List.forall_mem_cons, List.forall_mem_append]
    exact ⟨Remark.distinct_prompt _, distinct_announces _ _, ih⟩

theorem Played.distinct (h : Played late session lines said actions result) :
    ∀ remark ∈ said, remark.Distinct := by
  have hbanner : Remark.banner.Distinct := Remark.distinct_of_head? (x := 'E') rfl (by decide)
  cases h with
  | failed => simpa using hbanner
  | started _ hgoes =>
    simp only [List.forall_mem_cons, List.forall_mem_append]
    exact ⟨hbanner, distinct_announces _ _, hgoes.distinct⟩

end

/-- A session of a story is played by lines, and each play that is started comes to an end.  At
every stop that the player comes to the story does not run, and whatever is typed there leads to a
call that gets past its guard; what is printed there is what is new on the screen, with the options
of a choice or with the farewell if the story has ended.  The player ends, and once the bound is
large enough the game is the same.  It stands at one of its stops then and leaves off there, or it
has failed because a line cannot be read or because an element of the story raises a fault.  All
that it has printed are its remarks, and the farewell is among them exactly if the story has ended,
as the last of them; nothing else reads like it, but for what the story shows. -/
theorem player_ends {library : Library} {file block : Option String} {delay : Nat}
    {session : Session} (hopening : Session.opening library file block delay = .ok session)
    {late : List (List Nat)} {lines : List (Option String)}
    (hends : PlaysEnd late session lines) :
    (∀ p rest, Comes late session lines p rest →
      rest <:+ lines ∧ p.session.machine.phase ≠ .running ∧
      (∀ line action, p.Takes line (.act action) → p.session.machine.Passes action.turn) ∧
      ∀ before : Player, before.arrive.2 = p →
        joinLines before.arrive.1 = Remark.texts (p.announces before.page)) ∧
    ∃ (game : Game) (said : List Remark),
      (∃ bound, ∀ more, bound ≤ more → play more late session lines = some game) ∧
      game.actions.length ≤ lines.length ∧
      (∀ p, game.result = .ok p → ∃ rest, Comes late session lines p rest ∧ p.LeavesOff rest) ∧
      (∀ failure, game.result = .error failure →
        failure = .unreadableInput ∧ failure.code = "PLAYER_IO" ∧ none ∈ lines ∨
        ∃ fault, failure = .fault fault ∧ library.Raises fault ∧
          fault.code ∈ ["ENGINE_MISSING_ATTRIBUTE", "ENGINE_UNKNOWN_BLOCK", "ENGINE_NO_BLOCKS",
            "LOAD_NOT_FOUND", "XML_PARSE_ERROR"]) ∧
      (∀ failure, game.result = .error failure →
        failure.code ∉
          ["ENGINE_NOT_PAUSED", "ENGINE_CHOICE_PENDING", "ENGINE_UNKNOWN_OPTION"]) ∧
      Played late session lines said game.actions game.result ∧
      game.printed = Remark.texts said ∧
      (∃ (front : List Remark) (last : Remark), said = front ++ [last] ∧
        Remark.farewell ∉ front ∧
        (last = .farewell ↔ ∃ p, game.result = .ok p ∧ p.session.machine.phase = .finished)) ∧
      (∀ remark ∈ said, remark.Distinct) ∧
      (farewell.toList <:+ game.printed.toList ↔
        ∃ p, game.result = .ok p ∧ p.session.machine.phase = .finished) := by
  have hstory := Session.inStory_opening hopening
  obtain ⟨said, actions, result, hplayed⟩ := exists_played hstory hends
  have hfails : ∀ failure, result = .error failure →
      failure = .unreadableInput ∧ none ∈ lines ∨
        ∃ fault, failure = .fault fault ∧ library.Raises fault := by
    rintro failure rfl
    exact hplayed.ends.failure hstory
  obtain ⟨front, last, hsaid, hfront, -, hlast⟩ := hplayed.parts
  refine ⟨fun p rest hcomes => ?_, ⟨Remark.texts said, actions, result⟩, said,
    hplayed.play hstory, hplayed.length_actions_le, ?_, fun failure hfailed => ?_,
    fun failure hfailed => ?_, hplayed, rfl, ⟨front, last, hsaid, hfront, hlast⟩,
    hplayed.distinct, hplayed.parts.farewell_suffix_iff⟩
  · have hphase := (hcomes.stopped hstory).phase
    refine ⟨hcomes.suffix, hphase, fun line action htakes => ?_, ?_⟩
    · exact (Machine.passes_iff _ _).mpr htakes.starts
    · rintro before rfl
      rw [arrive_phase] at hphase
      exact joinLines_arrive hphase
  · rintro p rfl
    cases hplayed.ends with
    | stopped hcomes hleaves => exact ⟨_, hcomes, hleaves⟩
  · rcases hfails failure hfailed with ⟨rfl, hnone⟩ | ⟨fault, rfl, hraises⟩
    · exact .inl ⟨rfl, rfl, hnone⟩
    · exact .inr ⟨fault, rfl, hraises, hraises.code⟩
  · have hother : ∀ code ∈ "PLAYER_IO" :: elementCodes,
        code ∉ ["ENGINE_NOT_PAUSED", "ENGINE_CHOICE_PENDING", "ENGINE_UNKNOWN_OPTION"] := by decide
    rcases hfails failure hfailed with ⟨rfl, -⟩ | ⟨fault, rfl, hraises⟩
    · exact hother _ List.mem_cons_self
    · exact hother _ (List.mem_cons_of_mem _ hraises.code)

/-- What is printed of the fork if a command and a number are typed. -/
def forkPrinted : String :=
  "EXIF player\ncommands: :flags :help :quit\n  [1] go\n> (no flags set)\n> " ++
    "\n== Ahead ==\n\n[END]\n"

/-- The farewell comes after both lines, and not at the choice. -/
theorem player_ends_fork :
    ∃ session game said front, Session.opening forkLibrary none none 300 = .ok session ∧
      PlaysEnd [[7]] session [some ":flags", some "1"] ∧
      (∃ bound, play bound [[7]] session [some ":flags", some "1"] = some game) ∧
      game.actions.length ≤ 2 ∧ game.printed = forkPrinted ∧ Remark.texts said = forkPrinted ∧
      said = front ++ [.farewell] ∧ .farewell ∉ front := by
  have hgoes : ((Session.opening forkLibrary none none 300).toOption.bind fun session =>
      (play 3 [[7]] session [some ":flags", some "1"]).map fun game =>
        (game.printed, game.result.toOption.map fun p => p.session.machine.phase)) =
      some (forkPrinted, some .finished) := by
    decide +kernel
  cases hopening : Session.opening forkLibrary none none 300 with
  | error fault =>
    rw [hopening] at hgoes
    cases hgoes
  | ok session =>
    rw [hopening, Except.toOption, Option.bind_some] at hgoes
    obtain ⟨game, hgame, hended⟩ := Option.map_eq_some_iff.mp hgoes
    obtain ⟨hprinted, hphase⟩ := Prod.mk.inj hended
    have hstory := Session.inStory_opening hopening
    obtain ⟨_, hplayed, htexts⟩ := played_of_play hstory hgame
    obtain ⟨-, other, said, ⟨bound, hother⟩, hlength, -, -, -, -, hsaid, ⟨front, last, heq, hfront,
      hlast⟩, -⟩ := player_ends hopening hplayed.playsEnd
    obtain rfl : game = other := by
      obtain ⟨enough, hmore⟩ := hplayed.play hstory
      have hmax := hmore _ (Nat.le_max_left enough bound)
      rw [hother _ (Nat.le_max_right enough bound), ← htexts] at hmax
      exact (Option.some.inj hmax).symm
    have hfinished : ∃ p, game.result = .ok p ∧ p.session.machine.phase = .finished := by
      cases hresult : game.result with
      | error failure =>
        rw [hresult] at hphase
        cases hphase
      | ok p =>
        rw [hresult] at hphase
        exact ⟨p, rfl, Option.some.inj hphase⟩
    obtain rfl := hlast.mpr hfinished
    exact ⟨session, game, said, front, rfl, hplayed.playsEnd, ⟨3, hgame⟩, hlength, hprinted,
      hsaid.symm.trans hprinted, heq, hfront⟩

end Player

end StoryPlayer
