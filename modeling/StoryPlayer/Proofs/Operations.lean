import StoryPlayer.Proofs.Effects

/-! What a host can ask of a machine, and the machines that it can come to by asking.  A fact that
every small change keeps (`Kept`) holds of all of them. -/

namespace StoryPlayer

open Markup

/-- The calls that let a story run until it pauses, ends or fails. -/
inductive Turn where
  | play
  | resume
  | choose (label : String)

/-- What a call answers and leaves, if the bound on its steps is large enough. -/
def Turn.run (bound : Nat) (m : Machine) : Turn → Option (Outcome Unit)
  | play => m.play bound
  | resume => m.resume bound
  | choose label => m.choose bound label

/-- What a host can ask of a machine. -/
inductive Operation where
  | load (file : String) (block : Option String)
  | install (file : String) (root : Element) (block : Option String)
  | turn (turn : Turn)
  | step
  | setFlags (text : String)
  | clearFlags (text : String)
  | deliver (task : Task)

namespace Operation

/-- The outcome of an operation that answers nothing but success. -/
def succeeded (outcome : Outcome Unit) : Outcome Bool := (outcome.1.map fun _ => true, outcome.2)

/-- The outcome of an operation that cannot fail. -/
def answered (outcome : Bool × Machine) : Outcome Bool := (.ok outcome.1, outcome.2)

/-- What an operation answers and leaves, if the bound on its steps is large enough. -/
def run (bound : Nat) (m : Machine) : Operation → Option (Outcome Bool)
  | load file block => some (succeeded (m.load file block))
  | install file root block => some (succeeded (m.install file root block))
  | turn t => (t.run bound m).map succeeded
  | step => some m.step
  | setFlags text => some (answered (m.setFlags text))
  | clearFlags text => some (answered (m.clearFlags text))
  | deliver task => some (answered (m.deliver task))

end Operation

/-- The machines that a host can come to with the operations `allowed`, from a new one on. -/
inductive Reachable (allowed : Operation → Prop) : Machine → Prop
  | new (library : Library) (choiceDelay : Nat) : Reachable allowed (.new library choiceDelay)
  | call {m after : Machine} {result : Except Fault Bool} (operation : Operation) (bound : Nat) :
      Reachable allowed m → allowed operation → operation.run bound m = some (result, after) →
      Reachable allowed after

/-- A block that shows a line and then lets the reader choose between two ways. -/
def crossroads : Element :=
  ⟨"block", [("id", "start")],
    [⟨"text", [], [], "Two ways.", .synthetic⟩,
      ⟨"choice", [],
        [⟨"option", [("of", "left")], [], "", .synthetic⟩,
          ⟨"option", [("of", "right")], [], "", .synthetic⟩], "", .synthetic⟩],
    "", .synthetic⟩

namespace Machine

/-! ### Playing -/

/-- Steps until the story pauses, ends or fails, however many they are. -/
inductive Plays : Machine → Except Fault Unit → Machine → Prop
  | paused {m : Machine} : m.phase.isPaused = true → Plays m (.ok ()) m
  | failed {m after : Machine} {fault : Fault} : m.phase.isPaused = false →
      m.step = (.error fault, after) → Plays m (.error fault) after
  | ended {m after : Machine} : m.phase.isPaused = false → m.step = (.ok false, after) →
      Plays m (.ok ()) after
  | more {m next after : Machine} {result : Except Fault Unit} : m.phase.isPaused = false →
      m.step = (.ok true, next) → Plays next result after → Plays m result after

theorem plays_of_play {bound : Nat} {m after : Machine} {result : Except Fault Unit}
    (h : m.play bound = some (result, after)) : Plays m result after := by
  induction bound generalizing m with
  | zero => cases h
  | succ bound ih =>
    rw [play] at h
    split at h
    · next hpaused =>
      cases h
      exact .paused hpaused
    · next hpaused =>
      have hrunning := Bool.eq_false_iff.mpr hpaused
      split at h
      · next hstep =>
        cases h
        exact .failed hrunning hstep
      · next hstep => exact .more hrunning hstep (ih h)
      · next hstep =>
        cases h
        exact .ended hrunning hstep

/-- What every step keeps that a story makes while it does not wait holds when it stops. -/
theorem Plays.keeps {P : Machine → Prop}
    (hstep : ∀ {m : Machine}, P m → m.phase.isPaused = false → P m.step.2) {m after : Machine}
    {result : Except Fault Unit} (h : Plays m result after) (hm : P m) : P after := by
  induction h with
  | paused => exact hm
  | failed hrunning hresult =>
    have hafter := hstep hm hrunning
    rwa [hresult] at hafter
  | ended hrunning hresult =>
    have hafter := hstep hm hrunning
    rwa [hresult] at hafter
  | more hrunning hresult _ ih =>
    have hnext := hstep hm hrunning
    rw [hresult] at hnext
    exact ih hnext

/-- A story that opens has its entry document in place. -/
theorem install_of_opening {library : Library} {file block : Option String} {delay : Nat}
    {m : Machine} (h : opening library file block delay = .ok m) :
    ∃ entry root, library.fetch entry = .ok root ∧
      (new library delay).install entry root block = (.ok (), m) := by
  rw [opening] at h
  cases hentry : library.entry file with
  | error fault =>
    rw [hentry] at h
    cases h
  | ok entry =>
    simp only [hentry, bind, Except.bind, load] at h
    split at h
    · next hload =>
      cases h
      split at hload
      · next root hfetch => exact ⟨entry, root, hfetch, hload⟩
      · cases hload
    · cases h

/-! ### Guards -/

/-- `start` is the machine that a call plays once it is past its guard. -/
inductive Starts (m : Machine) : Turn → Machine → Prop
  | play : Starts m .play m
  | resume : m.phase.isPaused = true → (m.phase = .paused .choice → m.offers = []) →
      Starts m .resume m.leavePause
  | choose {label : String} {option : Element} : m.offers.get? label = some option →
      Starts m (.choose label) (m.enterOption option).leavePause

theorem Starts.run_eq {m start : Machine} {turn : Turn} (h : Starts m turn start) (bound : Nat) :
    turn.run bound m = start.play bound := by
  cases h with
  | play => rfl
  | resume hpaused hfree =>
    show m.resume bound = _
    cases hphase : m.phase with
    | running => rw [hphase] at hpaused; cases hpaused
    | finished => rw [hphase] at hpaused; cases hpaused
    | paused pause =>
      have hpass : ¬(pause = .choice ∧ m.offers ≠ []) := by
        rintro ⟨rfl, hoffers⟩
        exact hoffers (hfree hphase)
      simp only [Machine.resume, hphase, hpass, if_false]
      rfl
  | choose hoption =>
    show m.choose bound _ = _
    rw [Machine.choose, hoption]
    rfl

/-- What a call does before it plays: `play` nothing, the others leave a pause. -/
theorem Starts.cases {m start : Machine} {turn : Turn} (h : Starts m turn start) :
    turn = .play ∧ start = m ∨
      turn ≠ .play ∧ start.library = m.library ∧ ∃ writes : List (Surface × String),
        start.journal = writes.map (fun w => .wrote w.1 w.2) ++ .proceeded :: m.journal := by
  cases h with
  | play => exact .inl ⟨rfl, rfl⟩
  | resume => exact .inr ⟨nofun, m.quiet_leavePause.library, m.leavePause_journal⟩
  | @choose label option =>
    have hquiet := (m.enterOption option).quiet_leavePause
    exact .inr ⟨nofun, hquiet.library, (m.enterOption option).leavePause_journal⟩

/-- A call starts to play, or it is refused and nothing changes. -/
theorem starts_or_refused (m : Machine) (turn : Turn) :
    (∃ start, Starts m turn start) ∨
      ∃ fault, ∀ bound, turn.run bound m = some (.error fault, m) := by
  cases turn with
  | play => exact .inl ⟨m, .play⟩
  | resume =>
    by_cases hpaused : m.phase.isPaused = true
    · by_cases hfree : m.phase = .paused .choice → m.offers = []
      · exact .inl ⟨_, .resume hpaused hfree⟩
      · obtain ⟨hphase, hoffers⟩ := Classical.not_imp.mp hfree
        refine .inr ⟨.choicePending, fun bound => ?_⟩
        simp [Turn.run, resume, hphase, hoffers]
    · refine .inr ⟨.notPaused, fun bound => ?_⟩
      show m.resume bound = _
      cases hphase : m.phase with
      | running => simp [resume, hphase]
      | finished => simp [resume, hphase]
      | paused pause => rw [hphase] at hpaused; exact absurd rfl hpaused
  | choose label =>
    cases hoption : m.offers.get? label with
    | some option => exact .inl ⟨_, .choose hoption⟩
    | none =>
      refine .inr ⟨.unknownOption label, fun bound => ?_⟩
      simp [Turn.run, choose, hoption]

/-! ### Facts that operations keep -/

/-- `P` survives every change that the operations `allowed` are made of. -/
structure Kept (allowed : Operation → Prop) (P : Machine → Prop) : Prop where
  step : ∀ {m : Machine}, P m → m.phase.isPaused = false ∨ allowed .step → P m.step.2
  install : ∀ {m : Machine} (file : String) (root : Element) (block : Option String), P m →
    P (m.install file root block).2
  start : ∀ {m start : Machine} {turn : Turn}, P m → Starts m turn start → P start
  flags : ∀ {m : Machine} (flags : Flags), P m → P { m with flags }
  write : ∀ {m : Machine} (surface : Surface) (markup : String), P m → P (m.write surface markup)

theorem Kept.plays {allowed : Operation → Prop} {P : Machine → Prop} (h : Kept allowed P)
    {m after : Machine} {result : Except Fault Unit} (hm : P m) (hplays : Plays m result after) :
    P after :=
  hplays.keeps (fun hm hrunning => h.step hm (.inl hrunning)) hm

theorem Kept.turn {allowed : Operation → Prop} {P : Machine → Prop} (h : Kept allowed P)
    {bound : Nat} {m after : Machine} {turn : Turn} {result : Except Fault Unit} (hm : P m)
    (hrun : turn.run bound m = some (result, after)) : P after := by
  rcases m.starts_or_refused turn with ⟨start, hstart⟩ | ⟨fault, hrefused⟩
  · rw [hstart.run_eq] at hrun
    exact h.plays (h.start hm hstart) (plays_of_play hrun)
  · rw [hrefused] at hrun
    cases hrun
    exact hm

theorem Kept.run {allowed : Operation → Prop} {P : Machine → Prop} (h : Kept allowed P)
    {bound : Nat} {m after : Machine} {operation : Operation} {result : Except Fault Bool}
    (hm : P m) (hallowed : allowed operation)
    (hrun : operation.run bound m = some (result, after)) : P after := by
  cases operation with
  | load file block =>
    obtain ⟨-, rfl⟩ := Prod.mk.inj (Option.some.inj hrun)
    rw [load]
    split
    · exact h.install file _ block hm
    · exact hm
  | install file root block =>
    obtain ⟨-, rfl⟩ := Prod.mk.inj (Option.some.inj hrun)
    exact h.install file root block hm
  | turn t =>
    obtain ⟨⟨answer, m'⟩, hturn, heq⟩ := Option.map_eq_some_iff.mp hrun
    obtain ⟨-, rfl⟩ := Prod.mk.inj heq
    exact h.turn hm hturn
  | step =>
    have hafter : m.step.2 = after := congrArg Prod.snd (Option.some.inj hrun)
    rw [← hafter]
    exact h.step hm (.inr hallowed)
  | setFlags text =>
    obtain ⟨-, rfl⟩ := Prod.mk.inj (Option.some.inj hrun)
    exact h.flags _ hm
  | clearFlags text =>
    obtain ⟨-, rfl⟩ := Prod.mk.inj (Option.some.inj hrun)
    exact h.flags _ hm
  | deliver task =>
    obtain ⟨-, rfl⟩ := Prod.mk.inj (Option.some.inj hrun)
    rw [deliver]
    split
    · exact h.write _ _ hm
    · exact hm

theorem Kept.reachable {allowed : Operation → Prop} {P : Machine → Prop} (h : Kept allowed P)
    (hnew : ∀ library choiceDelay, P (.new library choiceDelay)) {m : Machine}
    (hm : Reachable allowed m) : P m := by
  induction hm with
  | new library choiceDelay => exact hnew library choiceDelay
  | call operation bound _ hallowed hrun ih => exact h.run ih hallowed hrun

end Machine

end StoryPlayer
