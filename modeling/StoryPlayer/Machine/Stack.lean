import StoryPlayer.Markup.Element

/-! The stack of frames.  A frame is an element under way: some of its children have run, and the
others are to run. -/

namespace StoryPlayer

open Markup

/-- How an element came to be under way. -/
inductive Role where
  /-- As a block, entered in place or by name. -/
  | standard
  /-- As an option that was chosen. -/
  | option
  /-- As a part whose lines also go to the description. -/
  | toDescription
  deriving DecidableEq, Repr, Inhabited

/-- An element under way, with the number of its children that have run. -/
structure Frame where
  element : Element
  role : Role
  done : Nat := 0
  deriving Inhabited

namespace Frame

def next? (frame : Frame) : Option Element := frame.element.children[frame.done]?

def exhausted (frame : Frame) : Bool := frame.element.children.length ≤ frame.done

/-- The frame after its next child has run. -/
def advanced (frame : Frame) : Frame := { frame with done := frame.done + 1 }

theorem next?_eq_none_iff (frame : Frame) : frame.next? = none ↔ frame.exhausted = true := by
  simp [next?, exhausted]

end Frame

/-- Frames, the top one first. -/
abbrev Stack := List Frame

namespace Stack

/-- The stack with `element` to run first. -/
def push (stack : Stack) (element : Element) (role : Role) : Stack := { element, role } :: stack

/-- The stack without the exhausted frames on its top. -/
def unwind (stack : Stack) : Stack := stack.dropWhile Frame.exhausted

/-- The next child of the top frame, and the stack after it. -/
def pop? : Stack → Option (Element × Stack)
  | [] => none
  | frame :: rest => frame.next?.map fun e => (e, frame.advanced :: rest)

/-- The element that runs next: the next child of the first frame that has one. -/
def upcoming? (stack : Stack) : Option Element := stack.findSome? Frame.next?

theorem unwind_cons (frame : Frame) (rest : Stack) :
    unwind (frame :: rest) = if frame.exhausted then unwind rest else frame :: rest := by
  rw [unwind, List.dropWhile_cons]
  rfl

/-- Unwinding does not change what runs next. -/
theorem upcoming?_unwind (stack : Stack) : stack.unwind.upcoming? = stack.upcoming? := by
  induction stack with
  | nil => rfl
  | cons frame rest ih =>
    rw [unwind_cons]
    split
    · next h =>
      rw [ih]
      simp [upcoming?, frame.next?_eq_none_iff.mpr h]
    · rfl

def hasRole (stack : Stack) (role : Role) : Bool := stack.any fun frame => frame.role = role

end Stack

end StoryPlayer
