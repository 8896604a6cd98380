import StoryPlayer.Proofs.Trail

/-! Which lines go to the description.  A line does exactly if it, or something that is still to run
after it, stands in a to-description with no option in between.  So a line inside an option needs
something else of the to-description to follow: a choice that stands last in a to-description takes
its options out of it. -/

namespace StoryPlayer

open Markup

namespace Trail

/-! ### One call -/

theorem Leads.flags {trail : Trail} {m : Machine} (h : trail.Leads m) (flags : Flags) :
    trail.Leads { m with flags } := by
  obtain ⟨document, hdocument⟩ := h.wellFormed
  exact ⟨h.continuation, h.nested, h.offers, Machine.coherent_kept.flags flags h.coherent,
    document, hdocument.blocks, hdocument.frames, hdocument.offers, hdocument.labels⟩

theorem Leads.write {trail : Trail} {m : Machine} (h : trail.Leads m) (surface : Surface)
    (markup : String) : trail.Leads (m.write surface markup) := by
  obtain ⟨document, hdocument⟩ := h.wellFormed
  exact ⟨h.continuation, h.nested, h.offers, Machine.coherent_kept.write surface markup h.coherent,
    document, hdocument.blocks, hdocument.frames, hdocument.offers, hdocument.labels⟩

theorem leads_install {m : Machine} (h : m.Coherent) (file : String) (root : Element)
    (id : Option String) :
    Leads { todo := opening ((Blocks.ofRoot root).entrance file id) }
      (m.install file root id).2 := by
  refine ⟨lines_install m file root id, nested_opening _, ?_,
    Machine.coherent_kept.install file root id h, _, m.wellFormed_install file root id⟩
  rw [(m.quiet_install file root id).offers]
  exact List.forall_mem_nil _

/-- While a story waits, its lines go to the description if the next one will. -/
theorem hasRole_of_ready {stack : Stack} (h : stack.Ready) :
    stack.hasRole .toDescription = stack.continuation.head?.any Prod.snd := by
  rcases h with rfl | ⟨frame, rest, rfl, hleft⟩
  · rfl
  · rw [Stack.continuation]
    cases hremaining : frame.remaining with
    | nil =>
      rw [frame.remaining_eq_nil_iff, hleft] at hremaining
      cases hremaining
    | cons child others => rfl

/-- Nothing runs between a choice and its answer, so that an option is entered while the frame of
its choice is not used up. -/
theorem Leads.start {trail : Trail} {m start : Machine} (h : trail.Leads m) {turn : Turn}
    (hstart : Machine.Starts m turn start) (bound : Nat) :
    (trail.begin ⟨m, .turn turn, bound⟩).Leads start := by
  have hcoherent := hstart.coherent h.coherent
  obtain ⟨document, hdocument⟩ := h.wellFormed
  have hformed := hdocument.start hstart
  cases hstart with
  | play => exact h
  | resume =>
    refine ⟨?_, h.nested, ?_, hcoherent, document, hformed⟩
    · rw [Machine.leavePause, Machine.flush_stack]
      exact h.continuation
    · rw [m.quiet_leavePause.offers]
      exact h.offers
  | @choose label option hoption =>
    have hmem := Table.mem_of_get? hoption
    have hbegin : trail.begin ⟨m, .turn (.choose label), bound⟩ =
        { todo := enter option trail.choice ++ trail.todo } := by
      simp only [begin, hoption]
    have hpaused : m.phase = .paused .choice := h.coherent.offered (List.ne_nil_of_mem hmem)
    have hready : m.stack.Ready := h.coherent.ready (by rw [hpaused]; rfl)
    have hrole : m.stack.hasRole .toDescription = described trail.todo := by
      rw [hasRole_of_ready hready, h.continuation, head?_lines]
    have hname : option.name = "option" := (hdocument.offers _ hmem).2.1
    have hdirect : direct (option :: trail.choice) = false := by simp [direct_cons, hname]
    rw [hbegin]
    refine ⟨?_, fun entry hentry => ?_, ?_, hcoherent, document, hformed⟩
    · rw [m.continuation_choose, lines_enter, hdirect, hrole, h.continuation]
      rfl
    · exact (List.mem_append.mp hentry).elim (nested_enter (h.offers _ hmem) entry)
        (h.nested entry)
    · rw [(m.enterOption option).quiet_leavePause.offers]
      exact List.forall_mem_nil _

/-- The trail goes with the machine at every step in `steps`. -/
def Along (trail : Trail) (steps : List Machine) : Prop :=
  ∀ before m later, steps = before ++ m :: later → (trail.follow before).Leads m

theorem along_nil (trail : Trail) : trail.Along [] := by
  intro before m later hsplit
  simp at hsplit

theorem Leads.along_cons {trail : Trail} {m : Machine} {steps : List Machine} (h : trail.Leads m)
    (hsteps : (trail.step m).Along steps) : trail.Along (m :: steps) := by
  intro before other later hsplit
  cases before with
  | nil =>
    obtain ⟨rfl, -⟩ := List.cons.inj hsplit
    exact h
  | cons first before =>
    obtain ⟨rfl, hrest⟩ := List.cons.inj hsplit
    exact hsteps before other later hrest

/-- By induction on the bound: the trail goes with the machine to the end of its steps. -/
theorem Leads.play {trail : Trail} {start : Machine} (h : trail.Leads start) (bound : Nat) :
    trail.Along (start.steps bound) ∧
    ∀ result after, start.play bound = some (result, after) →
      (trail.follow (start.steps bound)).Leads after := by
  induction bound generalizing trail start with
  | zero =>
    refine ⟨trail.along_nil, fun result after hplay => ?_⟩
    cases hplay
  | succ bound ih =>
    rw [Machine.steps, Machine.play]
    split
    · refine ⟨trail.along_nil, fun result after hplay => ?_⟩
      cases hplay
      exact h
    · next hpaused =>
      have hnext := h.step (Bool.eq_false_iff.mpr hpaused)
      rcases hresult : start.step with ⟨_ | _ | _, next⟩
      · refine ⟨h.along_cons (along_nil _), fun result after hplay => ?_⟩
        cases hplay
        rwa [hresult] at hnext
      · refine ⟨h.along_cons (along_nil _), fun result after hplay => ?_⟩
        cases hplay
        rwa [hresult] at hnext
      · rw [hresult] at hnext
        obtain ⟨halong, hends⟩ := ih hnext
        exact ⟨h.along_cons halong, hends⟩

/-- The trail goes with the machine through a call that is past its guard. -/
def Spans (trail : Trail) (call : Call) : Prop :=
  trail.Along call.steps ∧ ∀ result after, call.run = some (result, after) →
    (trail.follow call.steps).Leads after

theorem spans_of_brief {trail : Trail} {call : Call} {last : Machine} (hsteps : call.steps = [])
    (hlast : trail.Leads last)
    (hreturns : ∀ result after, call.run = some (result, after) → last = after) :
    trail.Spans call := by
  rw [Spans, hsteps]
  refine ⟨trail.along_nil, fun result after hrun => ?_⟩
  rw [← hreturns result after hrun]
  exact hlast

theorem begin_refused {trail : Trail} {m : Machine} {turn : Turn} {bound : Nat}
    (h : turn.start? m = none) : trail.begin ⟨m, .turn turn, bound⟩ = trail := by
  cases turn with
  | play => rfl
  | resume => rfl
  | choose label =>
    have hnone : m.offers.get? label = none := Option.map_eq_none_iff.mp h
    simp only [begin, hnone]

theorem Leads.turn {trail : Trail} {m : Machine} (h : trail.Leads m) (turn : Turn) (bound : Nat) :
    (trail.begin ⟨m, .turn turn, bound⟩).Spans ⟨m, .turn turn, bound⟩ := by
  cases hstart : turn.start? m with
  | some start =>
    have hstarts := Machine.start?_eq_some_iff.mp hstart
    obtain ⟨halong, hends⟩ := (h.start hstarts bound).play bound
    rw [Spans, hstarts.steps_eq bound]
    refine ⟨halong, fun result after hrun => ?_⟩
    obtain ⟨⟨answer, last⟩, hturn, heq⟩ := Option.map_eq_some_iff.mp hrun
    obtain ⟨-, rfl⟩ := Prod.mk.inj heq
    exact hends answer last (hstarts.run_eq bound ▸ hturn)
  | none =>
    rw [begin_refused hstart]
    refine spans_of_brief ?_ h fun result after hrun => ?_
    · simp only [Call.steps, Call.moments, Operation.moments, hstart, List.filterMap_nil]
    · obtain ⟨⟨answer, last⟩, hturn, heq⟩ := Option.map_eq_some_iff.mp hrun
      obtain ⟨-, rfl⟩ := Prod.mk.inj heq
      exact (Machine.start?_eq_none hstart hturn).symm

theorem Leads.call {trail : Trail} {call : Call} (h : trail.Leads call.machine)
    (hwhole : call.operation ≠ .step) : (trail.begin call).Spans call := by
  obtain ⟨m, operation, bound⟩ := call
  cases operation with
  | load file id =>
    cases hfetch : m.library.fetch file with
    | error fault =>
      have hsame : (m.load file id).2 = m := by simp only [Machine.load, hfetch]
      have hbegin : trail.begin ⟨m, .load file id, bound⟩ = trail := by simp only [begin, hfetch]
      rw [hbegin]
      refine spans_of_brief ?_ h fun result after hrun => ?_
      · simp [Call.steps, Call.moments, Operation.moments, hfetch]
      · rw [← Machine.snd_eq_of_some hrun]
        exact hsame.symm
    | ok root =>
      have hload : m.load file id = m.install file root id := by simp only [Machine.load, hfetch]
      have hbegin : trail.begin ⟨m, .load file id, bound⟩ =
          { todo := opening ((Blocks.ofRoot root).entrance file id) } := by
        simp only [begin, hfetch]
      rw [hbegin]
      refine spans_of_brief ?_ (leads_install h.coherent file root id) fun result after hrun => ?_
      · simp [Call.steps, Call.moments, Operation.moments, hfetch, Moment.machine?]
      · rw [← Machine.snd_eq_of_some hrun, ← hload]
        rfl
  | install file root id =>
    exact spans_of_brief rfl (leads_install h.coherent file root id)
      fun _ _ => Machine.snd_eq_of_some
  | turn t => exact h.turn t bound
  | step => exact absurd rfl hwhole
  | setFlags text => exact spans_of_brief rfl (h.flags _) fun _ _ => Machine.snd_eq_of_some
  | clearFlags text => exact spans_of_brief rfl (h.flags _) fun _ _ => Machine.snd_eq_of_some
  | deliver task =>
    refine spans_of_brief rfl ?_ fun _ _ => Machine.snd_eq_of_some
    show trail.Leads (m.deliver task).2
    rw [Machine.deliver]
    split
    · exact h.write task.surface task.markup
    · exact h

/-! ### Courses of calls -/

theorem after_concat (calls : List Call) (call : Call) :
    after (calls ++ [call]) = ((after calls).begin call).follow call.steps :=
  List.foldl_concat _ _ _ _

theorem course_leads {calls : List Call} {m : Machine} (h : Course calls m)
    (hwhole : ∀ call ∈ calls, call.operation ≠ .step) : (after calls).Leads m := by
  refine h.keeps (Q := fun calls m => (after calls).Leads m) (fun _ _ => ?_)
    (fun hbefore hcall hrun => ?_) hwhole
  · exact ⟨rfl, List.forall_mem_nil _, List.forall_mem_nil _, Machine.Underway.coherent ⟨rfl, rfl⟩,
      none, rfl, nofun, nofun, List.nodup_nil⟩
  · rw [after_concat]
    exact (hbefore.call hcall).2 _ _ hrun

/-- However a host lets a story run, call after call, the last of which need not return: a line goes
to the description exactly if it, or something that is still to run after it, stands in a
to-description with no option in between.  So it does if it stands in a to-description by way of no
option, or of which something else is still to run. -/
theorem described_along_trail {calls : List Call} {last : Call} (h : Course calls last.machine)
    (hwhole : ∀ call ∈ calls ++ [last], call.operation ≠ .step) {before later : List Machine}
    {m : Machine} (hsteps : last.steps = before ++ m :: later) {text : Element}
    (hnext : m.stack.upcoming? = some text) {speaker : Option String}
    (htext : Instruction.ofElement text = .ok (.text speaker)) :
    ∃ path rest, (((after calls).begin last).follow before).todo = (text, path) :: rest ∧
      m.step.2.addition =
        (if described ((text, path) :: rest) then some (Text.trim text.markup) else m.addition) ∧
      ∀ above part below, path = above ++ part :: below → part.name = "to-description" →
        ((∀ e ∈ above, e.name ≠ "call") → text ∈ part.preorder) ∧
        ((∀ e ∈ above, e.name ≠ "option") ∨
            (∃ e between, (e, between ++ part :: below) ∈ rest ∧
              ∀ x ∈ between, x.name ≠ "option") →
          m.step.2.addition = some (Text.trim text.markup)) := by
  have hleads : (((after calls).begin last).follow before).Leads m := by
    have hbefore := course_leads h fun call hmem => hwhole call (List.mem_append_left _ hmem)
    have hlast := hwhole last (List.mem_append_right _ List.mem_cons_self)
    exact (hbefore.call hlast).1 before m later hsteps
  generalize ((after calls).begin last).follow before = trail at hleads ⊢
  cases htodo : trail.todo with
  | nil =>
    rw [Stack.upcoming?_eq_head?, hleads.continuation, htodo] at hnext
    cases hnext
  | cons entry rest =>
    obtain ⟨e, path⟩ := entry
    have hahead := hleads.ahead htodo
    obtain rfl : e = text := by
      rw [Stack.upcoming?_eq_head?, hahead] at hnext
      exact Option.some.inj hnext
    have hadds := Machine.step_addition hahead htext
    refine ⟨path, rest, rfl, hadds, fun above part below hpath hpart => ⟨fun hcalls => ?_,
      fun hfollows => ?_⟩⟩
    · exact mem_preorder_of_chain (hpath ▸ (hleads.links htodo).1) hpart hcalls
    · have hdescribed : described ((e, path) :: rest) = true := by
        rcases hfollows with hdirect | ⟨other, between, hmem, hbetween⟩
        · exact List.any_eq_true.mpr
            ⟨(e, path), List.mem_cons_self, hpath ▸ direct_append hpart hdirect⟩
        · exact List.any_eq_true.mpr
            ⟨_, List.mem_cons_of_mem _ hmem, direct_append hpart hbetween⟩
      rw [hadds, hdescribed]
      rfl

/-! A house with a hallway that goes to the description.  In it the reader may listen and hear a
whisper, and `more` follows. -/

def whisper : Element := ⟨"text", [], [], " Go back. ", .synthetic⟩

def listen : Element := ⟨"option", [("of", "listen")], [whisper], "", .synthetic⟩

def doorway : Element := ⟨"choice", [], [listen], "", .synthetic⟩

def hallway (more : List Element) : Element :=
  ⟨"to-description", [], doorway :: more, "", .synthetic⟩

def house (more : List Element) : Element :=
  ⟨"block", [("id", "house")], [hallway more], "", .synthetic⟩

/-- The house before the reader comes in. -/
def arrival (more : List Element) : Machine :=
  ((Machine.new [] 300).install "house.xml" (house more) none).2

/-- The reader in the hallway, before anything is chosen. -/
def visitor (more : List Element) : Machine :=
  (((arrival more).play 9).map Prod.snd).getD (arrival more)

/-- The calls by which the reader came there. -/
def visit (more : List Element) : List Call :=
  [⟨.new [] 300, .install "house.xml" (house more) none, 0⟩, ⟨arrival more, .turn .play, 9⟩]

/-- The call that chooses to listen. -/
def listening (more : List Element) : Call := ⟨visitor more, .turn (.choose "listen"), 9⟩

/-- The machine that is about to show the whisper. -/
def listener (more : List Element) : Machine := ((visitor more).enterOption listen).leavePause

theorem visit_whole (more : List Element) :
    ∀ call ∈ visit more ++ [listening more], call.operation ≠ .step := by
  simp [visit, listening]

/-- If another whisper follows in the hallway, the first one goes to the description. -/
theorem described_along_trail_house :
    ∃ path rest,
      (((after (visit [whisper])).begin (listening [whisper])).follow []).todo =
        (whisper, path) :: rest ∧
      path = [listen, doorway, hallway [whisper], house [whisper]] ∧
      (listener [whisper]).step.2.addition = some "Go back." := by
  have hcourse : Course (visit [whisper]) (listening [whisper]).machine :=
    .call (.turn .play) 9
      (.call (.install "house.xml" (house [whisper]) none) 0 (.new [] 300) rfl) rfl
  have hsteps : ∃ later, (listening [whisper]).steps = [] ++ listener [whisper] :: later :=
    ⟨_, rfl⟩
  obtain ⟨later, hsteps⟩ := hsteps
  have hnext : (listener [whisper]).stack.upcoming? = some whisper := rfl
  have htext : Instruction.ofElement whisper = .ok (.text none) := rfl
  obtain ⟨path, rest, htodo, -, hparts⟩ :=
    described_along_trail hcourse (visit_whole _) hsteps hnext htext
  have hknown : (((after (visit [whisper])).begin (listening [whisper])).follow []).todo =
    [(whisper, [listen, doorway, hallway [whisper], house [whisper]]),
      (whisper, [hallway [whisper], house [whisper]])] := rfl
  obtain ⟨hfirst, hrest⟩ := List.cons.inj (htodo.symm.trans hknown)
  obtain ⟨-, rfl⟩ := Prod.mk.inj hfirst
  subst hrest
  refine ⟨_, _, hknown, rfl, ?_⟩
  have hlater : ∃ e between, (e, between ++ hallway [whisper] :: [house [whisper]]) ∈
      [(whisper, [hallway [whisper], house [whisper]])] ∧ ∀ x ∈ between, x.name ≠ "option" :=
    ⟨whisper, [], List.mem_cons_self, List.forall_mem_nil _⟩
  have htrim : Text.trim whisper.markup = "Go back." := by decide +kernel
  rw [← htrim]
  exact (hparts [listen, doorway] (hallway [whisper]) [house [whisper]] rfl rfl).2 (.inr hlater)

/-- If nothing follows, it stands in the hallway all the same, and does not. -/
theorem last_choice_not_described :
    Course (visit []) (listening []).machine ∧
    (∀ call ∈ visit [] ++ [listening []], call.operation ≠ .step) ∧
    (listening []).steps = [listener []] ∧
    ((after (visit [])).begin (listening [])).todo =
      [(whisper, [listen, doorway, hallway [], house []])] ∧
    whisper ∈ (hallway []).preorder ∧ (hallway []).name = "to-description" ∧
    (listener []).step.2.addition = none := by
  refine ⟨?_, visit_whole _, rfl, rfl, ?_, rfl, rfl⟩
  · exact .call (.turn .play) 9
      (.call (.install "house.xml" (house []) none) 0 (.new [] 300) rfl) rfl
  · have hself : hallway [] ∈ (hallway []).preorder :=
      Element.mem_preorder.mpr ⟨0, Element.self_mem_outline 0 _⟩
    have hdoorway : doorway ∈ (hallway []).preorder :=
      Element.child_mem_preorder hself List.mem_cons_self
    have hlisten : listen ∈ (hallway []).preorder :=
      Element.child_mem_preorder hdoorway List.mem_cons_self
    exact Element.child_mem_preorder hlisten List.mem_cons_self

end Trail

end StoryPlayer
