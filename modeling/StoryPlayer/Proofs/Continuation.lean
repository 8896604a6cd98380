import StoryPlayer.Machine.Stack

/-! What a stack still has to run, as one list: the children that have not run, from the top frame
down.  Unwinding does not change it, and taking an element takes its head. -/

namespace StoryPlayer

open Markup

/-- Elements to run, in order, each with whether its lines also go to the description. -/
abbrev Todo := List (Element × Bool)

/-- Elements to run in one part of a story. -/
def Todo.part (inDescription : Bool) (elements : List Element) : Todo :=
  elements.map fun e => (e, inDescription)

namespace Frame

/-- The children that have not run. -/
def remaining (frame : Frame) : List Element := frame.element.children.drop frame.done

theorem remaining_eq_nil_iff (frame : Frame) :
    frame.remaining = [] ↔ frame.exhausted = true := by
  simp [remaining, exhausted]

theorem next?_eq_head? (frame : Frame) : frame.next? = frame.remaining.head? := by
  rw [next?, remaining, List.head?_drop]

theorem remaining_eq_cons {frame : Frame} {e : Element} {rest : List Element}
    (h : frame.remaining = e :: rest) :
    frame.next? = some e ∧ frame.advanced.remaining = rest := by
  refine ⟨by rw [next?_eq_head?, h]; rfl, ?_⟩
  show frame.element.children.drop (frame.done + 1) = rest
  rw [← List.tail_drop]
  exact congrArg List.tail h

end Frame

namespace Stack

/-- All that is left to run. -/
def continuation : Stack → Todo
  | [] => []
  | frame :: rest =>
    .part (hasRole (frame :: rest) .toDescription) frame.remaining ++ continuation rest

theorem continuation_exhausted {frame : Frame} (h : frame.exhausted = true) (rest : Stack) :
    continuation (frame :: rest) = continuation rest := by
  rw [continuation, frame.remaining_eq_nil_iff.mpr h]
  rfl

@[simp] theorem continuation_unwind (stack : Stack) :
    stack.unwind.continuation = stack.continuation := by
  induction stack with
  | nil => rfl
  | cons frame rest ih =>
    rw [unwind_cons]
    split
    · next h => rw [ih, continuation_exhausted h]
    · rfl

/-- An element that is entered comes first, in the description if its frame or one below it is. -/
theorem continuation_push (stack : Stack) (e : Element) (role : Role) :
    (stack.push e role).continuation =
      .part (decide (role = .toDescription) || stack.hasRole .toDescription) e.children ++
        stack.continuation := rfl

theorem continuation_singleton (e : Element) :
    (Stack.push [] e .standard).continuation = .part false e.children := by
  rw [continuation_push, continuation, List.append_nil]
  rfl

/-- After unwinding, the stack is empty or its top frame has a child to run. -/
theorem unwind_cases (stack : Stack) :
    stack.unwind = [] ∨ ∃ frame rest, stack.unwind = frame :: rest ∧ frame.exhausted = false := by
  cases h : stack.unwind with
  | nil => exact .inl rfl
  | cons frame rest =>
    refine .inr ⟨frame, rest, rfl, ?_⟩
    have hhead := List.head?_dropWhile_not Frame.exhausted stack
    rw [show stack.dropWhile Frame.exhausted = frame :: rest from h] at hhead
    simpa using hhead

theorem unwind_eq_nil_of_pop? {stack : Stack} (h : stack.unwind.pop? = none) :
    stack.unwind = [] := by
  rcases stack.unwind_cases with hnil | ⟨frame, rest, hcons, hleft⟩
  · exact hnil
  · rw [hcons, pop?, Option.map_eq_none_iff, frame.next?_eq_none_iff, hleft] at h
    cases h

theorem continuation_eq_nil_iff (stack : Stack) :
    stack.continuation = [] ↔ stack.unwind = [] := by
  rw [← continuation_unwind]
  rcases stack.unwind_cases with hnil | ⟨frame, rest, hcons, hleft⟩
  · simp [hnil, continuation]
  · have hne : frame.remaining ≠ [] := by
      rw [Ne, frame.remaining_eq_nil_iff, hleft]
      decide
    simp [hcons, continuation, Todo.part, hne]

/-- What is taken from a stack is the next child of its top frame, which then counts as run. -/
theorem eq_cons_of_pop? {stack left : Stack} {e : Element} (h : stack.pop? = some (e, left)) :
    ∃ frame rest, stack = frame :: rest ∧ frame.next? = some e ∧ left = frame.advanced :: rest := by
  cases stack with
  | nil => cases h
  | cons frame rest =>
    obtain ⟨child, hnext, heq⟩ := Option.map_eq_some_iff.mp h
    cases heq
    exact ⟨frame, rest, rfl, hnext, rfl⟩

/-- What a step takes is the head of the continuation, and what it leaves is the tail. -/
theorem pop?_unwind {stack : Stack} {e : Element} {inDescription : Bool} {rest : Todo}
    (h : stack.continuation = (e, inDescription) :: rest) :
    ∃ left, stack.unwind.pop? = some (e, left) ∧
      left.hasRole .toDescription = inDescription ∧ left.continuation = rest := by
  rw [← continuation_unwind] at h
  rcases stack.unwind_cases with hnil | ⟨frame, below, hcons, hleft⟩
  · rw [hnil] at h
    cases h
  · rw [hcons, continuation] at h
    cases hr : frame.remaining with
    | nil =>
      rw [frame.remaining_eq_nil_iff, hleft] at hr
      cases hr
    | cons child others =>
      obtain ⟨hnext, hrest⟩ := Frame.remaining_eq_cons hr
      rw [hr] at h
      simp only [Todo.part, List.map_cons, List.cons_append, List.cons.injEq, Prod.mk.injEq] at h
      obtain ⟨⟨rfl, hrole⟩, htail⟩ := h
      refine ⟨frame.advanced :: below, by rw [hcons, pop?, hnext]; rfl, hrole, ?_⟩
      rw [continuation, hrest]
      exact htail

theorem upcoming?_eq_head? (stack : Stack) :
    stack.upcoming? = stack.continuation.head?.map Prod.fst := by
  induction stack with
  | nil => rfl
  | cons frame rest ih =>
    rw [upcoming?, List.findSome?_cons, continuation, frame.next?_eq_head?]
    cases hr : frame.remaining with
    | nil => exact ih
    | cons child others => rfl

/-- The element that is seen ahead is the one that a step takes. -/
theorem pop?_of_upcoming? {stack : Stack} {e : Element} (h : stack.upcoming? = some e) :
    ∃ left, stack.unwind.pop? = some (e, left) := by
  rw [upcoming?_eq_head?] at h
  obtain ⟨⟨first, inDescription⟩, hhead, rfl⟩ := Option.map_eq_some_iff.mp h
  obtain ⟨rest, hcons⟩ := List.head?_eq_some_iff.mp hhead
  obtain ⟨left, hpop, -, -⟩ := pop?_unwind hcons
  exact ⟨left, hpop⟩

theorem upcoming?_of_pop? {stack left : Stack} {e : Element}
    (h : stack.unwind.pop? = some (e, left)) : stack.upcoming? = some e := by
  rw [← upcoming?_unwind]
  cases hstack : stack.unwind with
  | nil =>
    rw [hstack] at h
    cases h
  | cons frame rest =>
    rw [hstack] at h
    obtain ⟨child, hnext, heq⟩ := Option.map_eq_some_iff.mp h
    cases heq
    rw [upcoming?, List.findSome?_cons, hnext]

end Stack

end StoryPlayer
