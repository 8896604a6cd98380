import StoryPlayer.Proofs.Journal

/-! Tasks that come back late.  The generation of a machine counts the events that make older tasks
come to nothing: documents installed, pauses left, choices shown.  A task carries the count at which
its choice was shown, so that it is taken exactly while no such event has followed, and what it then
shows are the options on offer.  Hosts may run any operations, and give tasks back at any time, in
any order and any number of times. -/

namespace StoryPlayer

open Markup

namespace Event

/-- Whether the event makes tasks that were scheduled before it come to nothing. -/
def renews : Event → Bool
  | scheduled _ _ | installed _ | proceeded => true
  | ran _ | wrote _ _ => false

/-- The task that an event hands to the host. -/
def task? : Event → Option Task
  | scheduled task _ => some task
  | _ => none

theorem task?_eq_none {events : List Event} (h : ∀ task delay, scheduled task delay ∉ events) :
    ∀ event ∈ events, event.task? = none := by
  intro event hmem
  cases event with
  | scheduled task delay => exact absurd hmem (h task delay)
  | ran | wrote | installed | proceeded => rfl

theorem forall_renews_eq_false_iff (events : List Event) :
    (∀ event ∈ events, event.renews = false) ↔
      (∀ file, installed file ∉ events) ∧ proceeded ∉ events ∧
        ∀ task delay, scheduled task delay ∉ events := by
  constructor
  · intro h
    refine ⟨fun file hmem => ?_, fun hmem => ?_, fun task delay hmem => ?_⟩
    · cases h _ hmem
    · cases h _ hmem
    · cases h _ hmem
  · rintro ⟨hinstalled, hproceeded, hscheduled⟩ event hmem
    cases event with
    | ran | wrote => rfl
    | scheduled task delay => exact absurd hmem (hscheduled task delay)
    | installed file => exact absurd hmem (hinstalled file)
    | proceeded => exact absurd hmem hproceeded

end Event

namespace Machine

/-- The generation of the machine and those of its tasks are counts of events in the journal, and
the task of this generation shows the options on offer. -/
structure Timely (m : Machine) : Prop where
  counted : m.generation = m.journal.countP Event.renews
  stamped : ∀ {task : Task} {delay : Nat} {older : List Event},
    .scheduled task delay :: older <:+ m.journal →
      task.generation = older.countP Event.renews + 1
  current : ∀ {task : Task} {delay : Nat} {older : List Event},
    .scheduled task delay :: older <:+ m.journal → task.generation = m.generation →
      task.surface = .interaction ∧ task.markup = (Interaction.options m.labels true).render

theorem Timely.le {m : Machine} (h : m.Timely) {task : Task} {delay : Nat} {older : List Event}
    (hsuffix : .scheduled task delay :: older <:+ m.journal) : task.generation ≤ m.generation := by
  have hcount : List.countP Event.renews _ ≤ _ := hsuffix.sublist.countP_le
  rw [List.countP_cons_of_pos rfl] at hcount
  rw [h.stamped hsuffix, h.counted]
  exact hcount

/-- A split of a journal at a task lies in the older part if the newer part has no task. -/
theorem suffix_of_calm {calm journal older : List Event} {task : Task} {delay : Nat}
    (hcalm : ∀ event ∈ calm, event.renews = false)
    (h : .scheduled task delay :: older <:+ calm ++ journal) :
    .scheduled task delay :: older <:+ journal := by
  induction calm with
  | nil => exact h
  | cons event rest ih =>
    rcases List.suffix_cons_iff.mp h with heq | hrest
    · obtain ⟨rfl, -⟩ := List.cons.inj heq
      cases hcalm _ List.mem_cons_self
    · exact ih (fun x hx => hcalm x (List.mem_cons_of_mem _ hx)) hrest

/-- Events that renew nothing keep a machine timely as long as the offers stay. -/
theorem Timely.calm {m after : Machine} (h : m.Timely) (calm : List Event)
    (hcalm : ∀ event ∈ calm, event.renews = false) (hjournal : after.journal = calm ++ m.journal)
    (hgeneration : after.generation = m.generation) (hoffers : after.offers = m.offers) :
    after.Timely := by
  have hcount : calm.countP Event.renews = 0 := by
    rw [List.countP_eq_zero]
    intro event hmem
    rw [hcalm event hmem]
    exact Bool.false_ne_true
  refine ⟨?_, fun hsuffix => ?_, fun hsuffix hnow => ?_⟩
  · rw [hgeneration, h.counted, hjournal, List.countP_append, hcount, Nat.zero_add]
  · rw [hjournal] at hsuffix
    exact h.stamped (suffix_of_calm hcalm hsuffix)
  · rw [hjournal] at hsuffix
    rw [labels, hoffers]
    exact h.current (suffix_of_calm hcalm hsuffix) (hnow.trans hgeneration)

theorem Quiet.timely {m after : Machine} (hquiet : Quiet m after) (h : m.Timely) :
    after.Timely := by
  obtain ⟨writes, hwrites⟩ := hquiet.journal
  refine h.calm _ (fun event hmem => ?_) hwrites hquiet.generation hquiet.offers
  obtain ⟨write, -, rfl⟩ := List.mem_map.mp hmem
  rfl

/-- An event that renews and schedules nothing leaves no task that still counts, so that the offers
may change with it. -/
theorem Timely.renew {m after : Machine} (h : m.Timely) (event : Event)
    (hrenews : event.renews = true) (htask : event.task? = none)
    (hjournal : after.journal = event :: m.journal)
    (hgeneration : after.generation = m.generation + 1) : after.Timely := by
  have hsuffix : ∀ {task delay older}, Event.scheduled task delay :: older <:+ after.journal →
      Event.scheduled task delay :: older <:+ m.journal := by
    intro task delay older hsuffix
    rw [hjournal] at hsuffix
    rcases List.suffix_cons_iff.mp hsuffix with heq | hrest
    · obtain ⟨rfl, -⟩ := List.cons.inj heq
      cases htask
    · exact hrest
  refine ⟨?_, fun hnew => h.stamped (hsuffix hnew), fun hnew hnow => ?_⟩
  · rw [hgeneration, hjournal, List.countP_cons_of_pos hrenews, h.counted]
  · have hle := h.le (hsuffix hnew)
    omega

theorem Timely.showChoice {m : Machine} (h : m.Timely) (offers : List Offer) :
    (m.showChoice offers).Timely := by
  have hsuffix : ∀ {task delay older},
      Event.scheduled task delay :: older <:+ (m.showChoice offers).journal →
      (Event.scheduled task delay :: older = (m.showChoice offers).journal) ∨
        Event.scheduled task delay :: older <:+ m.journal := by
    intro task delay older hsuffix
    rcases List.suffix_cons_iff.mp hsuffix with heq | hrest
    · exact .inl heq
    · rcases List.suffix_cons_iff.mp hrest with heq | hold
      · cases heq
      · exact .inr hold
  refine ⟨?_, fun hnew => ?_, fun hnew hnow => ?_⟩
  · show m.generation + 1 = List.countP _ (.scheduled _ _ :: .wrote _ _ :: m.journal)
    rw [List.countP_cons_of_pos rfl, List.countP_cons_of_neg Bool.false_ne_true, h.counted]
  · rcases hsuffix hnew with heq | hold
    · obtain ⟨hevent, rfl⟩ := List.cons.inj heq
      cases hevent
      show m.generation + 1 = List.countP _ (.wrote _ _ :: m.journal) + 1
      rw [List.countP_cons_of_neg Bool.false_ne_true, h.counted]
    · exact h.stamped hold
  · rcases hsuffix hnew with heq | hold
    · obtain ⟨hevent, -⟩ := List.cons.inj heq
      cases hevent
      exact ⟨rfl, rfl⟩
    · have hle := h.le hold
      have hnext : (m.showChoice offers).generation = m.generation + 1 := rfl
      omega

theorem Timely.install {m : Machine} (h : m.Timely) (file : String) (root : Element)
    (block : Option String) : (m.install file root block).2.Timely := by
  have hplaced : (m.withDocument file root).Timely := h.renew (.installed file) rfl rfl rfl rfl
  exact (m.quiet_install file root block).timely hplaced

theorem Timely.effect {m after : Machine} (h : m.Timely) {e : Element}
    {result : Except Fault Unit} (heffect : Effect m e result after) : after.Timely := by
  cases heffect with
  | quiet hquiet => exact hquiet.timely h
  | paused hquiet =>
    have hbefore := hquiet.timely h
    refine hbefore.calm [.wrote .interaction Interaction.next.render] ?_ rfl rfl rfl
    simp [Event.renews]
  | choice => exact h.showChoice _
  | @installed file block root _ _ _ _ hinstall =>
    have hafter := h.install file root block
    rw [hinstall] at hafter
    exact hafter

theorem Timely.execute {m post : Machine} (h : m.Timely) {e : Element} {stack : Stack}
    {result : Except Fault Unit} (hexecute : (m.take e stack).execute e = (result, post)) :
    post.Timely := by
  have htake : (m.take e stack).Timely := by
    refine h.calm [.ran e] ?_ rfl rfl rfl
    simp [Event.renews]
  have heffect := (m.take e stack).execute_effect e
  rw [hexecute] at heffect
  exact htake.effect heffect

theorem Timely.unwind {m : Machine} (h : m.Timely) : m.unwind.Timely := (m.quiet_stack _).timely h

theorem Timely.finish {m : Machine} (h : m.Timely) : m.finish.Timely := by
  rw [finish_eq]
  exact h.calm [] nofun rfl rfl rfl

theorem Timely.stepped {m after : Machine} (h : m.Timely) {result : Except Fault Bool}
    (hstepped : Stepped m result after) : after.Timely := by
  cases hstepped with
  | idle => exact h.unwind.finish
  | failed _ hexecute => exact h.execute hexecute
  | last _ hexecute => exact (h.execute hexecute).unwind.finish
  | more _ hexecute => exact (h.execute hexecute).unwind

theorem Timely.start {m start : Machine} (h : m.Timely) {turn : Turn}
    (hstart : Starts m turn start) : start.Timely := by
  cases hstart with
  | play => exact h
  | resume => exact m.quiet_leavePause.timely (h.renew .proceeded rfl rfl rfl rfl)
  | @choose _ option _ =>
    exact (m.enterOption option).quiet_leavePause.timely (h.renew .proceeded rfl rfl rfl rfl)

theorem timely_kept : Kept (fun _ => True) Timely where
  step hm _ := hm.stepped (step_stepped _)
  install file root block hm := hm.install file root block
  start hm hstart := hm.start hstart
  flags _ hm := (quiet_flags _ _).timely hm
  write _ _ hm := (quiet_write _ _ _).timely hm

theorem reachable_timely {m : Machine} (h : Reachable (fun _ => True) m) : m.Timely := by
  refine timely_kept.reachable (fun library choiceDelay => ⟨rfl, ?_, ?_⟩) h
  · intro task delay older hsuffix
    cases List.suffix_nil.mp hsuffix
  · intro task delay older hsuffix
    cases List.suffix_nil.mp hsuffix

/-! ### Tasks -/

/-- The tasks that the machine has handed to its host, newest first. -/
def tasks (m : Machine) : List Task := m.journal.filterMap Event.task?

/-- Tasks that carry the counts of the events before them carry different ones. -/
theorem nodup_generations {journal : List Event}
    (h : ∀ {task : Task} {delay : Nat} {older : List Event},
      .scheduled task delay :: older <:+ journal →
        task.generation = older.countP Event.renews + 1) :
    ((journal.filterMap Event.task?).map Task.generation).Nodup ∧
      ∀ g ∈ (journal.filterMap Event.task?).map Task.generation,
        g ≤ journal.countP Event.renews := by
  induction journal with
  | nil => simp
  | cons event older ih =>
    obtain ⟨hnodup, hle⟩ := ih fun hsuffix => h (hsuffix.trans (List.suffix_cons _ _))
    have hmono : older.countP Event.renews ≤ (event :: older).countP Event.renews :=
      (List.sublist_cons_self event older).countP_le
    cases event with
    | scheduled task delay =>
      have hstamp := h (List.suffix_refl (.scheduled task delay :: older))
      have hcount : (Event.scheduled task delay :: older).countP Event.renews =
          older.countP Event.renews + 1 := List.countP_cons_of_pos rfl
      simp only [List.filterMap_cons, Event.task?, List.map_cons, List.nodup_cons,
        List.mem_cons]
      refine ⟨⟨fun hmem => ?_, hnodup⟩, ?_⟩
      · have hold := hle _ hmem
        omega
      · rintro g (rfl | hmem)
        · omega
        · have hold := hle g hmem
          omega
    | ran | wrote | installed | proceeded =>
      exact ⟨hnodup, fun g hmem => Nat.le_trans (hle g hmem) hmono⟩

theorem Timely.taken_iff {m : Machine} (h : m.Timely) {recent older : List Event} {task : Task}
    {delay : Nat} (hjournal : m.journal = recent ++ .scheduled task delay :: older) :
    task.generation = m.generation ↔ ∀ event ∈ recent, event.renews = false := by
  have hstamp := h.stamped (hjournal ▸ List.suffix_append recent _)
  have hcount := h.counted
  rw [hjournal, List.countP_append, List.countP_cons_of_pos rfl] at hcount
  have hzero : recent.countP Event.renews = 0 ↔ ∀ event ∈ recent, event.renews = false := by
    simp [List.countP_eq_zero]
  rw [← hzero]
  omega

/-- A task that comes back is taken exactly if no document was installed, no pause left and no
choice shown since it was scheduled; it then shows the options on offer, and otherwise nothing
changes.  No two tasks have one generation.  The journal, from which this is read, tells what every
operation does. -/
theorem deliver_taken_iff {m : Machine} (h : Reachable (fun _ => True) m)
    {recent older : List Event} {task : Task} {delay : Nat}
    (hjournal : m.journal = recent ++ .scheduled task delay :: older) :
    ((m.deliver task).1 = true ↔ (∀ file, .installed file ∉ recent) ∧ .proceeded ∉ recent ∧
      ∀ later delay, .scheduled later delay ∉ recent) ∧
    ((m.deliver task).1 = true →
      (m.deliver task).2 = m.write .interaction (Interaction.options m.labels true).render) ∧
    ((m.deliver task).1 = false → (m.deliver task).2 = m) ∧
    (m.tasks.map Task.generation).Nodup ∧
    ∀ operation bound result after, Operation.run bound m operation = some (result, after) →
      ∃ fresh, after.journal = fresh ++ m.journal ∧ m.Tells operation fresh := by
  have hm := reachable_timely h
  rw [← Event.forall_renews_eq_false_iff, ← hm.taken_iff hjournal, deliver]
  refine ⟨?_, ?_, ?_, (nodup_generations hm.stamped).1, fun _ _ _ _ hrun => run_tells hrun⟩
  · split
    · next hnow => exact iff_of_true rfl hnow
    · next hnow => exact iff_of_false Bool.false_ne_true hnow
  · split
    · next hnow =>
      obtain ⟨hsurface, hmarkup⟩ := hm.current (hjournal ▸ List.suffix_append recent _) hnow
      rw [hsurface, hmarkup]
      exact fun _ => rfl
    · intro htaken
      cases htaken
  · split
    · intro htaken
      cases htaken
    · exact fun _ => rfl

/-- The task that makes the options at the crossroads active. -/
def crossroadsTask : Task := ⟨2, .interaction, (Interaction.options ["left", "right"] true).render⟩

/-- The task is taken at the crossroads, and no longer once the reader has chosen. -/
theorem deliver_taken_crossroads :
    ∃ m after, Reachable (fun _ => True) m ∧ Reachable (fun _ => True) after ∧
      (m.deliver crossroadsTask).1 = true ∧ ¬(after.deliver crossroadsTask).1 = true := by
  have hm : Reachable (fun _ => True) _ :=
    .call (.turn .play) 4
      (.call (.install "main.xml" crossroads none) 0 (.new [] 300) trivial rfl) trivial rfl
  have hafter : Reachable (fun _ => True) _ := .call (.turn (.choose "left")) 2 hm trivial rfl
  refine ⟨_, _, hm, hafter, ?_, ?_⟩
  · have hfirst := @deliver_taken_iff _ hm [] _ crossroadsTask 300 rfl
    exact hfirst.1.mpr (by simp)
  · intro htaken
    have hlate := @deliver_taken_iff _ hafter [.proceeded] _ crossroadsTask 300 rfl
    exact (hlate.1.mp htaken).2.1 List.mem_cons_self

end Machine

end StoryPlayer
