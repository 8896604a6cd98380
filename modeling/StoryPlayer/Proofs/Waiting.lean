import StoryPlayer.Proofs.Calls
import StoryPlayer.Proofs.TimerQueue

/-! Waiting ends and hands over every task once.  A host that waits reads its clock, sleeps if the
next task is due later, and gives the tasks that are due when it wakes up.  The clock never goes
back, and a sleep takes at least as long as it should; otherwise it may show what it likes.  Each
turn takes the task that is due first out of the queue, wherever it stands there, so that there are
no more turns than tasks. -/

namespace StoryPlayer

/-- Nothing of a machine has changed but its screen, by writes that its journal tells of. -/
structure Machine.Undisturbed (before after : Machine) : Prop extends Quiet before after where
  stack : after.stack = before.stack
  flags : after.flags = before.flags
  addition : after.addition = before.addition

theorem Machine.Undisturbed.write {m n : Machine} (h : Undisturbed m n) (surface : Surface)
    (markup : String) : Undisturbed m (n.write surface markup) :=
  ⟨h.toQuiet.trans (n.quiet_write surface markup), h.stack, h.flags, h.addition⟩

/-- The machine after tasks are given to it, one after the other. -/
def Machine.deliverAll (m : Machine) (tasks : List Task) : Machine :=
  tasks.foldl (fun m task => (m.deliver task).2) m

namespace Session

/-- What the clock may show in a turn of waiting, before the host sleeps and after it.  The host
sleeps for the time that is left until the next task is due. -/
structure Clocked (s : Session) (asked woken : Nat) : Prop where
  goesOn : s.now ≤ asked ∧ asked ≤ woken
  sleeps : ∀ due, s.timer.earliest? = some due → asked < due → asked + (due - asked) ≤ woken

/-- The session after a turn of waiting in which the host wakes up at a time. -/
def wakeAt (s : Session) (now : Nat) : Session := ({ s with now }.deliverDue now).2

/-- The host takes turns, in which the clock shows `readings`, and gives tasks, each at a time.
There is a further turn as long as tasks wait. -/
inductive Waits : Session → List (Nat × Nat) → List (Nat × Waiting) → Session → Prop
  | nil (s : Session) : Waits s [] [] s
  | cons {s t : Session} {asked woken : Nat} {readings : List (Nat × Nat)}
      {given : List (Nat × Waiting)} :
      s.timer ≠ [] → s.Clocked asked woken → Waits (s.wakeAt woken) readings given t →
      Waits s ((asked, woken) :: readings)
        ((s.timer.dueAt woken).map (fun w => (woken, w)) ++ given) t

/-! ### One turn -/

theorem deliver_eq (s : Session) (tasks : List Task) :
    (s.deliver tasks).2 = { s with machine := s.machine.deliverAll tasks } := by
  induction tasks generalizing s with
  | nil => rfl
  | cons task rest ih => exact ih _

theorem wakeAt_eq (s : Session) (now : Nat) :
    s.wakeAt now =
      ⟨s.machine.deliverAll (s.timer.dueAt now).tasks, s.timer.notDueAt now, now⟩ := by
  rw [wakeAt, deliverDue, deliver_eq]

/-- The host wakes up when a task is due. -/
theorem Clocked.exists_due {s : Session} {asked woken : Nat} (h : s.Clocked asked woken)
    (hne : s.timer ≠ []) : ∃ due, s.timer.earliest? = some due ∧ due ≤ woken := by
  cases hdue : s.timer.earliest? with
  | none => exact absurd (Timer.earliest?_eq_none_iff.mp hdue) hne
  | some due =>
    have hgoesOn := h.goesOn.2
    refine ⟨due, rfl, ?_⟩
    by_cases hasked : asked < due
    · have hsleeps := h.sleeps due hdue hasked
      omega
    · omega

theorem Clocked.length_lt {s : Session} {asked woken : Nat} (h : s.Clocked asked woken)
    (hne : s.timer ≠ []) : (s.wakeAt woken).timer.length < s.timer.length := by
  obtain ⟨due, hdue, hle⟩ := h.exists_due hne
  rw [wakeAt_eq]
  exact Timer.length_notDueAt_lt hdue hle

/-! ### Many turns -/

namespace Waits

variable {s t : Session} {readings : List (Nat × Nat)} {given : List (Nat × Waiting)}

theorem length_le (h : s.Waits readings given t) :
    readings.length + t.timer.length ≤ s.timer.length := by
  induction h with
  | nil s => simp
  | cons hne hclock hrest ih =>
    have hlt := hclock.length_lt hne
    rw [List.length_cons]
    omega

/-- What is given and what still waits is what waited at the start. -/
theorem perm (h : s.Waits readings given t) : (given.map Prod.snd ++ t.timer).Perm s.timer := by
  induction h with
  | nil s => exact .refl _
  | @cons s t asked woken readings given hne hclock hrest ih =>
    have hdue : ((s.timer.dueAt woken).map fun w => (woken, w)).map Prod.snd =
        s.timer.dueAt woken := by
      rw [List.map_map]
      exact List.map_id _
    have hsplit : (s.timer.dueAt woken ++ s.timer.notDueAt woken).Perm s.timer := by
      rw [Timer.notDueAt_eq]
      exact List.filter_append_perm _ s.timer
    rw [wakeAt_eq] at ih
    rw [List.map_append, hdue, List.append_assoc]
    exact (ih.append_left _).trans hsplit

theorem due_le (h : s.Waits readings given t) : ∀ g ∈ given, g.2.due ≤ g.1 := by
  induction h with
  | nil s => simp
  | cons hne hclock hrest ih =>
    intro g hg
    rcases List.mem_append.mp hg with hnow | hlater
    · obtain ⟨w, hw, rfl⟩ := List.mem_map.mp hnow
      simpa using (List.mem_filter.mp hw).2
    · exact ih g hlater

theorem machine_eq (h : s.Waits readings given t) :
    t.machine = s.machine.deliverAll (given.map fun g => g.2.task) := by
  induction h with
  | nil s => rfl
  | @cons s t asked woken readings given hne hclock hrest ih =>
    rw [ih, wakeAt_eq, List.map_append, List.map_map, Machine.deliverAll, Machine.deliverAll,
      Machine.deliverAll, List.foldl_append]
    rfl

theorem concat (h : s.Waits readings given t) (hne : t.timer ≠ []) {asked woken : Nat}
    (hclock : t.Clocked asked woken) :
    s.Waits (readings ++ [(asked, woken)])
      (given ++ (t.timer.dueAt woken).map fun w => (woken, w)) (t.wakeAt woken) := by
  induction h with
  | nil s =>
    have hturn := Waits.cons hne hclock (.nil _)
    rwa [List.append_nil] at hturn
  | cons hfirst hfirstClock hrest ih =>
    rw [List.append_assoc]
    exact .cons hfirst hfirstClock (ih hne hclock)

theorem undisturbed (h : s.Waits readings given t) : s.machine.Undisturbed t.machine := by
  have hkept := deliver_keeps (P := s.machine.Undisturbed) (fun surface markup hm =>
    hm.write surface markup) ⟨.refl _, rfl, rfl, rfl⟩ (given.map fun g => g.2.task)
  rw [h.machine_eq]
  rwa [deliver_eq] at hkept

/-- However long a clock runs, the turns by it come to an end, after no more of them than there are
tasks. -/
theorem exists_end {clock : Nat → Nat × Nat}
    (h : ∀ n given t, s.Waits ((List.range n).map clock) given t → t.timer ≠ [] →
      t.Clocked (clock n).1 (clock n).2) :
    ∃ n ≤ s.timer.length, ∃ given t,
      s.Waits ((List.range n).map clock) given t ∧ t.timer = [] := by
  have hturns : ∀ n, (∃ k ≤ n, ∃ given t, s.Waits ((List.range k).map clock) given t ∧
      t.timer = []) ∨ ∃ given t, s.Waits ((List.range n).map clock) given t := by
    intro n
    induction n with
    | zero => exact .inr ⟨[], s, .nil s⟩
    | succ n ih =>
      rcases ih with ⟨k, hk, hend⟩ | ⟨given, t, hwaits⟩
      · exact .inl ⟨k, Nat.le_succ_of_le hk, hend⟩
      · by_cases hempty : t.timer = []
        · exact .inl ⟨n, Nat.le_succ n, given, t, hwaits, hempty⟩
        · have hmore := hwaits.concat hempty (h n given t hwaits hempty)
          rw [List.range_succ, List.map_append]
          exact .inr ⟨_, _, hmore⟩
  rcases hturns s.timer.length with hend | ⟨given, t, hwaits⟩
  · exact hend
  · refine ⟨_, Nat.le_refl _, given, t, hwaits, List.length_eq_zero_iff.mp ?_⟩
    have hlength := hwaits.length_le
    rw [List.length_map, List.length_range] at hlength
    omega

end Waits

/-! ### Waiting as the host does it -/

/-- What a host notes of the tasks that it gives. -/
def notes (given : List (Nat × Waiting)) : List (Nat × Task) := given.map fun g => (g.1, g.2.task)

theorem notes_append (first second : List (Nat × Waiting)) :
    notes (first ++ second) = notes first ++ notes second := List.map_append

theorem notes_at (timer : Timer) (now : Nat) :
    notes (timer.map fun w => (now, w)) = timer.tasks.map fun task => (now, task) := by
  rw [notes, Timer.tasks, List.map_map, List.map_map]
  rfl

/-- The host that wakes up late by the times in `late` takes turns until no task is left. -/
theorem waits_waitAll (late : List Nat) (s : Session) :
    ∃ readings given, s.Waits readings given (s.waitAll late).2 ∧
      (s.waitAll late).1 = notes given ∧ (s.waitAll late).2.timer = [] := by
  fun_induction waitAll late s with
  | case1 late s hdue => exact ⟨[], [], .nil s, rfl, Timer.earliest?_eq_none_iff.mp hdue⟩
  | case2 late s due hdue now given others last hrest ih =>
    obtain ⟨readings, later, hwaits, hnotes, hempty⟩ := ih
    rw [hrest] at hwaits hnotes hempty
    have hne : s.timer ≠ [] := by
      intro hnil
      rw [Timer.earliest?_eq_none_iff.mpr hnil] at hdue
      cases hdue
    have hclock : s.Clocked s.now now := by
      refine ⟨⟨Nat.le_refl _, ?_⟩, fun first hfirst hlt => ?_⟩
      · omega
      · rw [hdue] at hfirst
        cases hfirst
        omega
    refine ⟨_, _, .cons hne hclock hwaits, ?_, hempty⟩
    rw [notes_append, notes_at, ← hnotes]

/-- Any waiting is that of a host that wakes up late by some times. -/
theorem Waits.eq_waitAll {s t : Session} {readings : List (Nat × Nat)}
    {given : List (Nat × Waiting)} (h : s.Waits readings given t) (hempty : t.timer = []) :
    ∃ late, s.waitAll late = (notes given, t) := by
  induction h with
  | nil s => exact ⟨[], waitAll_of_nil hempty []⟩
  | @cons s t asked woken readings given hne hclock hrest ih =>
    obtain ⟨late, hlate⟩ := ih hempty
    obtain ⟨due, hdue, hle⟩ := hclock.exists_due hne
    have hnow : max s.now due + (woken - max s.now due) = woken := by
      have hgoesOn := hclock.goesOn
      omega
    refine ⟨(woken - max s.now due) :: late, ?_⟩
    rw [waitAll]
    split
    · next hnone =>
      rw [hdue] at hnone
      cases hnone
    · next first hfirst =>
      obtain rfl : due = first := Option.some.inj (hdue.symm.trans hfirst)
      simp only [List.headD_cons, List.tail_cons, hnow]
      rw [← wakeAt, hlate, notes_append, notes_at]

/-- All that waits in `s` is given, each task once and not before it is due; nothing waits any more
in `t`, and apart from the writes of the tasks that still counted nothing has changed. -/
structure HandsOver (s : Session) (given : List (Nat × Waiting)) (t : Session) : Prop where
  empty : t.timer = []
  once : (given.map Prod.snd).Perm s.timer
  timely : ∀ g ∈ given, g.2.due ≤ g.1
  machine : t.machine = s.machine.deliverAll (given.map fun g => g.2.task)
  undisturbed : s.machine.Undisturbed t.machine

theorem Waits.handsOver {s t : Session} {readings : List (Nat × Nat)}
    {given : List (Nat × Waiting)} (h : s.Waits readings given t) (hempty : t.timer = []) :
    s.HandsOver given t where
  empty := hempty
  once := by
    have hperm := h.perm
    rwa [hempty, List.append_nil] at hperm
  timely := h.due_le
  machine := h.machine_eq
  undisturbed := h.undisturbed

/-- Whatever a clock shows that does not go back and does not cut a sleep short, waiting by it ends
after no more turns than there are tasks, and then all tasks are handed over.  This is the waiting
of a host that wakes up late by some times, and any such waiting hands over all tasks. -/
theorem waiting_hands_over {s : Session} {clock : Nat → Nat × Nat}
    (h : ∀ n given t, s.Waits ((List.range n).map clock) given t → t.timer ≠ [] →
      t.Clocked (clock n).1 (clock n).2) :
    (∃ n ≤ s.timer.length, ∃ given t late, s.Waits ((List.range n).map clock) given t ∧
      s.HandsOver given t ∧ s.waitAll late = (notes given, t)) ∧
    ∀ late, ∃ given, (s.waitAll late).1 = notes given ∧ s.HandsOver given (s.waitAll late).2 := by
  constructor
  · obtain ⟨n, hn, given, t, hwaits, hempty⟩ := Waits.exists_end h
    obtain ⟨late, hlate⟩ := hwaits.eq_waitAll hempty
    exact ⟨n, hn, given, t, late, hwaits, hwaits.handsOver hempty, hlate⟩
  · intro late
    obtain ⟨readings, given, hwaits, hnotes, hempty⟩ := waits_waitAll late s
    exact ⟨given, hnotes, hwaits.handsOver hempty⟩

/-- Two tasks, of which the one that came later is due first. -/
def overtaken : Session where
  machine := .new []
  timer := [⟨500, ⟨0, .title, "late"⟩⟩, ⟨200, ⟨0, .title, "early"⟩⟩]

/-- The host wakes up at 300 and at 600. -/
theorem waiting_hands_over_overtaken :
    (∀ n given t, overtaken.Waits ((List.range n).map fun n => (300 * n, 300 * n + 300)) given t →
      t.timer ≠ [] → t.Clocked (300 * n) (300 * n + 300)) ∧
    ∃ n ≤ 2, ∃ given t late,
      overtaken.Waits ((List.range n).map fun n => (300 * n, 300 * n + 300)) given t ∧
      overtaken.HandsOver given t ∧ overtaken.waitAll late = (notes given, t) := by
  have hclock : ∀ n given t,
      overtaken.Waits ((List.range n).map fun n => (300 * n, 300 * n + 300)) given t →
      t.timer ≠ [] → t.Clocked (300 * n) (300 * n + 300) := by
    intro n given t hwaits hne
    have hlength := hwaits.length_le
    have hpos := List.length_pos_iff.mpr hne
    have htwo : overtaken.timer.length = 2 := rfl
    rw [List.length_map, List.length_range, htwo] at hlength
    obtain rfl | rfl : n = 0 ∨ n = 1 := by omega
    · cases hwaits
      refine ⟨⟨Nat.le_refl 0, Nat.zero_le _⟩, fun due hdue _ => ?_⟩
      obtain rfl : 200 = due := Option.some.inj hdue
      decide
    · cases hwaits with
      | cons _ _ hrest =>
        cases hrest
        refine ⟨⟨by decide, by decide⟩, fun due hdue _ => ?_⟩
        obtain rfl : 500 = due := Option.some.inj hdue
        decide
  exact ⟨hclock, (waiting_hands_over hclock).1⟩

end Session

end StoryPlayer
