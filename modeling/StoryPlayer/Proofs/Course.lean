import StoryPlayer.Proofs.History

/-! Courses: the calls that a host made of a machine since it was new, each with the machine that it
was made of.  A fact about courses that one more call keeps (`Course.keeps`) holds of all of them,
and what one call does is told by the steps that it makes. -/

namespace StoryPlayer

open Markup

/-- The machine from which a step is made. -/
def Moment.machine? : Moment → Option Machine
  | step m => some m
  | _ => none

/-- An operation that a host asks of a machine, with the bound on its steps. -/
structure Call where
  machine : Machine
  operation : Operation
  bound : Nat

namespace Call

/-- What the call answers and leaves, if it returns within its bound. -/
def run (call : Call) : Option (Outcome Bool) := call.operation.run call.bound call.machine

/-- What the call is made of, whether it returns or not. -/
def moments (call : Call) : List Moment := call.operation.moments call.bound call.machine

/-- The machines from which the call makes its steps, in order. -/
def steps (call : Call) : List Machine := call.moments.filterMap Moment.machine?

/-- The machine that the call plays if it is one that goes on after a pause and gets past its
guard. -/
def goesOn? (call : Call) : Option Machine :=
  match call.operation with
  | .turn .play => none
  | .turn turn => turn.start? call.machine
  | _ => none

end Call

/-- The machine came to be by `calls`, oldest first, all of which returned. -/
inductive Course : List Call → Machine → Prop
  | new (library : Library) (choiceDelay : Nat) : Course [] (.new library choiceDelay)
  | call {calls : List Call} {m after : Machine} {result : Except Fault Bool}
      (operation : Operation) (bound : Nat) : Course calls m →
      operation.run bound m = some (result, after) →
      Course (calls ++ [⟨m, operation, bound⟩]) after

/-- What one more call keeps, if every call is as `P` says, holds of every such course. -/
theorem Course.keeps {P : Call → Prop} {Q : List Call → Machine → Prop}
    (hnew : ∀ library choiceDelay, Q [] (.new library choiceDelay))
    (hcall : ∀ {calls : List Call} {call : Call} {result : Except Fault Bool} {after : Machine},
      Q calls call.machine → P call → call.run = some (result, after) → Q (calls ++ [call]) after)
    {calls : List Call} {m : Machine} (h : Course calls m) (hcalls : ∀ call ∈ calls, P call) :
    Q calls m := by
  induction h with
  | new library choiceDelay => exact hnew library choiceDelay
  | @call calls m after result operation bound _ hrun ih =>
    have hbefore := ih fun call hmem => hcalls call (List.mem_append_left _ hmem)
    refine hcall hbefore ?_ hrun
    exact hcalls _ (List.mem_append_right _ List.mem_cons_self)

namespace Machine

/-- A call that plays makes the steps of the machine that it plays. -/
theorem Starts.steps_eq {m start : Machine} {turn : Turn} (h : Starts m turn start) (bound : Nat) :
    Call.steps ⟨m, .turn turn, bound⟩ = start.steps bound := by
  simp only [Call.steps, Call.moments, Operation.moments, start?_eq_some_iff.mpr h]
  rw [List.filterMap_map]
  exact List.filterMap_some

end Machine

end StoryPlayer
