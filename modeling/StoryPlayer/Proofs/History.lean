import StoryPlayer.Proofs.Operations

/-! Histories: what happened to a machine since it was new, moment by moment.  A call that plays is
as many moments as it makes steps, and it has a history even if it never returns.  A fact about
histories that every single moment keeps (`Tracked`) holds of all of them. -/

namespace StoryPlayer

open Markup

/-- Something that happens to a machine, with what it happens to. -/
inductive Moment where
  /-- The story makes a step from `m`. -/
  | step (m : Machine)
  /-- The host puts a document in place. -/
  | install (root : Element)
  /-- The host clears flags. -/
  | clear (flags : Flags) (text : String)

namespace Machine

/-- The machines from which `play` makes its steps, in order, as far as the bound lets it come. -/
def steps : (bound : Nat) → Machine → List Machine
  | 0, _ => []
  | bound + 1, m =>
    if m.phase.isPaused then []
    else m :: match m.step with
      | (.ok true, next) => next.steps bound
      | _ => []

end Machine

/-- The machine that a call plays once it is past its guard. -/
def Turn.start? (m : Machine) : Turn → Option Machine
  | play => some m
  | resume =>
    if m.phase.isPaused = true ∧ (m.phase = .paused .choice → m.offers = []) then some m.leavePause
    else none
  | choose label => (m.offers.get? label).map fun option => (m.enterOption option).leavePause

/-- What an operation is made of, in order, as far as the bound lets it come. -/
def Operation.moments (bound : Nat) (m : Machine) : Operation → List Moment
  | load file _ =>
    match m.library.fetch file with
    | .ok root => [.install root]
    | .error _ => []
  | install _ root _ => [.install root]
  | turn t =>
    match t.start? m with
    | some start => (start.steps bound).map .step
    | none => []
  | step => [.step m]
  | setFlags _ => []
  | clearFlags text => [.clear m.flags text]
  | deliver _ => []

/-- The machine came to be by some operations, and `past` is what they were made of, oldest
first. -/
inductive History : Machine → List Moment → Prop
  | new (library : Library) (choiceDelay : Nat) : History (.new library choiceDelay) []
  | call {m after : Machine} {past : List Moment} {result : Except Fault Bool}
      (operation : Operation) (bound : Nat) : History m past →
      operation.run bound m = some (result, after) →
      History after (past ++ operation.moments bound m)

namespace Machine

/-- A machine that a host can come to has a history, and only such a machine has one. -/
theorem reachable_iff_history (m : Machine) :
    Reachable (fun _ => True) m ↔ ∃ past, History m past := by
  constructor
  · intro h
    induction h with
    | new library choiceDelay => exact ⟨[], .new library choiceDelay⟩
    | call operation bound _ _ hrun ih =>
      obtain ⟨past, hpast⟩ := ih
      exact ⟨_, .call operation bound hpast hrun⟩
  · rintro ⟨past, h⟩
    induction h with
    | new library choiceDelay => exact .new library choiceDelay
    | call operation bound _ hrun ih => exact .call operation bound ih trivial hrun

theorem start?_eq_some_iff {m start : Machine} {turn : Turn} :
    turn.start? m = some start ↔ Starts m turn start := by
  cases turn with
  | play =>
    constructor
    · intro h
      obtain rfl := Option.some.inj h
      exact .play
    · intro h
      cases h
      rfl
  | resume =>
    simp only [Turn.start?]
    constructor
    · intro h
      split at h
      · next hpass =>
        obtain rfl := Option.some.inj h
        exact .resume hpass.1 hpass.2
      · cases h
    · intro h
      cases h with
      | resume hpaused hfree => rw [if_pos ⟨hpaused, hfree⟩]
  | choose label =>
    constructor
    · intro h
      obtain ⟨option, hoption, rfl⟩ := Option.map_eq_some_iff.mp h
      exact .choose hoption
    · intro h
      cases h with
      | choose hoption => simp only [Turn.start?, hoption, Option.map_some]

theorem start?_eq_none {m : Machine} {turn : Turn} {bound : Nat} {after : Machine}
    {result : Except Fault Unit} (h : turn.start? m = none)
    (hrun : turn.run bound m = some (result, after)) : after = m := by
  rcases m.starts_or_refused turn with ⟨start, hstart⟩ | ⟨fault, hrefused⟩
  · rw [start?_eq_some_iff.mpr hstart] at h
    cases h
  · rw [hrefused] at hrun
    cases hrun
    rfl

/-! ### Facts that moments keep -/

/-- `Q` survives every moment, and the changes that are no moments. -/
structure Tracked (Q : List Moment → Machine → Prop) : Prop where
  step : ∀ {past : List Moment} {m : Machine}, Q past m → Q (past ++ [.step m]) m.step.2
  install : ∀ {past : List Moment} {m : Machine} (file : String) (root : Element)
    (block : Option String), Q past m → Q (past ++ [.install root]) (m.install file root block).2
  start : ∀ {past : List Moment} {m start : Machine} {turn : Turn}, Q past m →
    Starts m turn start → Q past start
  set : ∀ {past : List Moment} {m : Machine} (text : String), Q past m →
    Q past { m with flags := m.flags.set text }
  clear : ∀ {past : List Moment} {m : Machine} (text : String), Q past m →
    Q (past ++ [.clear m.flags text]) { m with flags := m.flags.clear text }
  write : ∀ {past : List Moment} {m : Machine} (surface : Surface) (markup : String), Q past m →
    Q past (m.write surface markup)

theorem snd_eq_of_some {α : Type} {outcome : Outcome α} {result : Except Fault α} {after : Machine}
    (h : some outcome = some (result, after)) : outcome.2 = after :=
  congrArg Prod.snd (Option.some.inj h)

section

variable {Q : List Moment → Machine → Prop} (h : Tracked Q) {past : List Moment} {m : Machine}
include h

/-- By induction on the bound.  Whether it is large enough or not, `Q` holds after the steps that
were made. -/
theorem Tracked.steps (bound : Nat) (hm : Q past m) :
    ∃ last, Q (past ++ (m.steps bound).map .step) last ∧
      ∀ result after, m.play bound = some (result, after) → last = after := by
  induction bound generalizing past m with
  | zero =>
    refine ⟨m, ?_, fun result after hplay => ?_⟩
    · simpa [Machine.steps] using hm
    · cases hplay
  | succ bound ih =>
    rw [Machine.steps, Machine.play]
    split
    · refine ⟨m, ?_, fun result after hplay => ?_⟩
      · simpa using hm
      · cases hplay
        rfl
    · have hstep := h.step hm
      rcases hresult : m.step with ⟨_ | _ | _, next⟩
      · rw [hresult] at hstep
        refine ⟨next, by simpa using hstep, fun result after hplay => ?_⟩
        cases hplay
        rfl
      · rw [hresult] at hstep
        refine ⟨next, by simpa using hstep, fun result after hplay => ?_⟩
        cases hplay
        rfl
      · rw [hresult] at hstep
        obtain ⟨last, hlast, hends⟩ := ih hstep
        exact ⟨last, by simpa using hlast, hends⟩

theorem Tracked.operation (operation : Operation) (bound : Nat) (hm : Q past m) :
    ∃ last, Q (past ++ operation.moments bound m) last ∧
      ∀ result after, operation.run bound m = some (result, after) → last = after := by
  cases operation with
  | load file block =>
    cases hfetch : m.library.fetch file with
    | ok root =>
      refine ⟨(m.load file block).2, ?_, fun _ _ => snd_eq_of_some⟩
      simpa only [Operation.moments, Machine.load, hfetch] using h.install file root block hm
    | error fault =>
      refine ⟨(m.load file block).2, ?_, fun _ _ => snd_eq_of_some⟩
      simpa only [Operation.moments, Machine.load, hfetch, List.append_nil] using hm
  | install file root block => exact ⟨_, h.install file root block hm, fun _ _ => snd_eq_of_some⟩
  | turn t =>
    simp only [Operation.moments, Operation.run]
    split
    · next start hstart =>
      have hstarts := start?_eq_some_iff.mp hstart
      obtain ⟨last, hlast, hends⟩ := h.steps bound (h.start hm hstarts)
      refine ⟨last, hlast, fun result after hrun => ?_⟩
      rw [hstarts.run_eq] at hrun
      obtain ⟨⟨answer, m'⟩, hplay, heq⟩ := Option.map_eq_some_iff.mp hrun
      rw [hends answer m' hplay]
      exact congrArg Prod.snd heq
    · next hrefused =>
      refine ⟨m, by simpa using hm, fun result after hrun => ?_⟩
      obtain ⟨⟨answer, m'⟩, hturn, heq⟩ := Option.map_eq_some_iff.mp hrun
      rw [← start?_eq_none hrefused hturn]
      exact congrArg Prod.snd heq
  | step => exact ⟨_, h.step hm, fun _ _ => snd_eq_of_some⟩
  | setFlags text =>
    refine ⟨_, ?_, fun _ _ => snd_eq_of_some⟩
    rw [Operation.moments, List.append_nil]
    exact h.set text hm
  | clearFlags text => exact ⟨_, h.clear text hm, fun _ _ => snd_eq_of_some⟩
  | deliver task =>
    refine ⟨(m.deliver task).2, ?_, fun _ _ => snd_eq_of_some⟩
    rw [Operation.moments, List.append_nil, Machine.deliver]
    split
    · exact h.write task.surface task.markup hm
    · exact hm

theorem Tracked.history (hnew : ∀ library choiceDelay, Q [] (.new library choiceDelay))
    (hm : History m past) : Q past m := by
  induction hm with
  | new library choiceDelay => exact hnew library choiceDelay
  | call operation bound _ hrun ih =>
    obtain ⟨last, hlast, hends⟩ := h.operation operation bound ih
    rw [← hends _ _ hrun]
    exact hlast

end

end Machine

end StoryPlayer
