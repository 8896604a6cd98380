import StoryPlayer.Proofs.Documents

/-! What `trip` is for.  A block with `trip` is entered in place unless all the flags that `trip`
names are set, and an option with `trip` is offered only if some are to be set and none is; passing
sets them all.  A step puts the block on the stack, or the options on offer, exactly if it passes
them.  So as long as none of the flags is cleared, only one block or option with these names is
passed in the whole history of a machine, and none if `trip` names no flag. -/

namespace StoryPlayer

open Markup

/-! ### Passages -/

/-- The options that a choice offers, in order.  Each is considered with the flags that those before
it have set. -/
def eligible (flags : Flags) : List Offer → List Offer
  | [] => []
  | offer :: rest =>
    match offer.gate.offer? flags with
    | some after => offer :: eligible after rest
    | none => eligible flags rest

/-- The elements that running `e` passes: the block that is entered in place, or the options that
are offered. -/
def passages (flags : Flags) (e : Element) : List Element :=
  match Instruction.ofElement e with
  | .ok (.block gate) => if (gate.enterBlock? flags).isSome then [e] else []
  | .ok (.choice offers) => (eligible flags offers).map Offer.element
  | _ => []

/-- Whether the flags that `trip` names on an element are those in `names`. -/
def Markup.Element.tripsOver (names : List String) (e : Element) : Bool :=
  match e.attr? "trip" with
  | some trip => (Text.words trip).all names.contains && names.all (Text.words trip).contains
  | none => false

theorem Markup.Element.tripsOver_eq_true_iff {names : List String} {e : Element} :
    e.tripsOver names = true ↔
      ∃ trip, e.attr? "trip" = some trip ∧ ∀ name, name ∈ Text.words trip ↔ name ∈ names := by
  rw [tripsOver]
  split
  · next trip htrip =>
    simp only [htrip, Option.some.injEq, exists_eq_left', Bool.and_eq_true, List.all_eq_true,
      List.contains_iff_mem]
    exact ⟨fun h name => ⟨h.1 name, h.2 name⟩, fun h => ⟨fun name => (h name).mp, fun name =>
      (h name).mpr⟩⟩
  · next hnone => simp [hnone]

namespace Moment

/-- The elements that are passed at a moment. -/
def passages : Moment → List Element
  | step m => m.stack.upcoming?.elim [] (StoryPlayer.passages m.flags)
  | install _ => []
  | clear _ _ => []

/-- Whether a flag that was set is clear after a moment. -/
def loses (name : String) : Moment → Bool
  | step m => m.flags.names.contains name && !m.step.2.flags.names.contains name
  | install _ => false
  | clear flags text => flags.names.contains name && (Text.words text).contains name

theorem mem_of_step {m : Machine} {name : String} (h : (step m).loses name = false)
    (hset : name ∈ m.flags) : name ∈ m.step.2.flags := by
  rw [loses, List.contains_iff_mem.mpr hset, Bool.true_and, Bool.not_eq_false'] at h
  exact List.contains_iff_mem.mp h

theorem mem_of_clear {flags : Flags} {text name : String}
    (h : (clear flags text).loses name = false) (hset : name ∈ flags) :
    name ∈ flags.clear text := by
  rw [loses, List.contains_iff_mem.mpr hset, Bool.true_and] at h
  refine Flags.mem_clear.mpr ⟨fun hcleared => ?_, hset⟩
  rw [List.contains_iff_mem.mpr hcleared] at h
  cases h

end Moment

theorem foldl_consider_fst (offers : List Offer) (state : Table Element × Flags) :
    (offers.foldl consider state).1 = (eligible state.2 offers).foldl
      (fun table offer => Table.put offer.label offer.element table) state.1 := by
  induction offers generalizing state with
  | nil => rfl
  | cons offer rest ih =>
    cases hoffer : offer.gate.offer? state.2 with
    | none => simp only [List.foldl_cons, consider, eligible, hoffer, ih]
    | some after => simp only [List.foldl_cons, consider, eligible, hoffer, ih]

theorem mem_of_mem_eligible {offers : List Offer} {flags : Flags} {offer : Offer}
    (h : offer ∈ eligible flags offers) : offer ∈ offers := by
  induction offers generalizing flags with
  | nil => exact h
  | cons first rest ih =>
    rw [eligible] at h
    split at h
    · rcases List.mem_cons.mp h with rfl | hrest
      · exact List.mem_cons_self
      · exact List.mem_cons_of_mem _ (ih hrest)
    · exact List.mem_cons_of_mem _ (ih h)

/-- The options on offer are the eligible ones; of those with one label the last is meant. -/
theorem Machine.offers_showChoice (m : Machine) (offers : List Offer) :
    (m.showChoice offers).offers = .ofPairs
      ((eligible m.flags offers).map fun offer => (offer.label, offer.element)) := by
  rw [Table.ofPairs, List.foldl_map]
  exact foldl_consider_fst offers ([], m.flags)

/-! ### Passing sets the flags -/

/-- A gate is passed: its `trip` names a flag that is clear, and they are all set after it. -/
inductive Gate.Passed (gate : Gate) (flags : Flags) : Flags → Prop
  | free : gate.trip = none → Passed gate flags flags
  | tripped {trip : String} : gate.trip = some trip → flags.areSet trip = false →
      Passed gate flags (flags.set trip)

theorem Gate.passed_of_enterBlock? {gate : Gate} {flags after : Flags}
    (h : gate.enterBlock? flags = some after) : gate.Passed flags after := by
  rw [enterBlock?] at h
  split at h
  · split at h
    · next hnone =>
      cases h
      exact .free hnone
    · next trip htrip =>
      split at h
      · cases h
      · next hset =>
        cases h
        exact .tripped htrip (Bool.eq_false_iff.mpr hset)
  · cases h

theorem Gate.passed_of_offer? {gate : Gate} {flags after : Flags}
    (h : gate.offer? flags = some after) : gate.Passed flags after := by
  rw [offer?_eq] at h
  split at h
  · split at h
    · next hnone =>
      cases h
      exact .free hnone
    · next trip htrip =>
      split at h
      · next hnew =>
        cases h
        obtain ⟨-, hset⟩ := Bool.and_eq_true_iff.mp hnew
        exact .tripped htrip (by simpa using hset)
      · cases h
  · cases h

/-- All of `names` are set. -/
def Flags.HasAll (flags : Flags) (names : List String) : Prop := ∀ name ∈ names, name ∈ flags

/-- On the way from `before` to `after`, with `passed` passed, at most one element with `names` is
passed.  It needs one of `names` clear, it leaves all of them set, and set they stay. -/
structure Once (names : List String) (before after : Flags) (passed : List Element) : Prop where
  kept : before.HasAll names → after.HasAll names
  none : before.HasAll names → passed.countP (Element.tripsOver names) = 0
  one : passed.countP (Element.tripsOver names) ≤ 1
  set : passed.countP (Element.tripsOver names) ≠ 0 → after.HasAll names

theorem Once.nil {names : List String} {before after : Flags}
    (h : before.HasAll names → after.HasAll names) : Once names before after [] :=
  ⟨h, fun _ => rfl, Nat.zero_le 1, fun hne => absurd rfl hne⟩

theorem Once.append {names : List String} {first second third : Flags} {early late : List Element}
    (h₁ : Once names first second early) (h₂ : Once names second third late) :
    Once names first third (early ++ late) := by
  refine ⟨fun h => h₂.kept (h₁.kept h), fun h => ?_, ?_, fun hne => ?_⟩
  · rw [List.countP_append, h₁.none h, h₂.none (h₁.kept h)]
  · have hone := h₁.one
    have hlate := h₂.one
    rw [List.countP_append]
    by_cases hearly : early.countP (Element.tripsOver names) = 0
    · omega
    · have hnone := h₂.none (h₁.set hearly)
      omega
  · rw [List.countP_append] at hne
    by_cases hearly : early.countP (Element.tripsOver names) = 0
    · exact h₂.set (by omega)
    · exact h₂.kept (h₁.set hearly)

/-- A gate is passed while a flag that its `trip` names is clear, so not with all of them set. -/
theorem once_passed {names : List String} {flags after : Flags} {e : Element}
    (h : (Gate.ofElement e).Passed flags after) : Once names flags after [e] := by
  have hkept : flags.HasAll names → after.HasAll names := by
    intro hall name hname
    cases h with
    | free => exact hall name hname
    | tripped => exact Flags.mem_set.mpr (.inr (hall name hname))
  cases htrips : e.tripsOver names with
  | false =>
    have hcount : [e].countP (Element.tripsOver names) = 0 := by simp [htrips]
    exact ⟨hkept, fun _ => hcount, by omega, fun hne => absurd hcount hne⟩
  | true =>
    have hcount : [e].countP (Element.tripsOver names) = 1 := by simp [htrips]
    obtain ⟨trip, htrip, hnames⟩ := Element.tripsOver_eq_true_iff.mp htrips
    cases h with
    | free hnone =>
      rw [show (Gate.ofElement e).trip = e.attr? "trip" from rfl, htrip] at hnone
      cases hnone
    | @tripped other hother hclear =>
      obtain rfl : trip = other := Option.some.inj (htrip.symm.trans hother)
      refine ⟨hkept, fun hall => ?_, by omega, fun _ name hname => ?_⟩
      · have hset : flags.areSet trip = true := Flags.areSet_eq_true_iff.mpr
          fun name hname => hall name ((hnames name).mp hname)
        rw [hset] at hclear
        cases hclear
      · exact Flags.mem_set.mpr (.inl ((hnames name).mpr hname))

/-- By induction on the options that are left to consider. -/
theorem once_consider {names : List String} {offers : List Offer}
    (hgates : ∀ offer ∈ offers, offer.gate = .ofElement offer.element)
    (state : Table Element × Flags) :
    Once names state.2 (offers.foldl consider state).2
      ((eligible state.2 offers).map Offer.element) := by
  induction offers generalizing state with
  | nil => exact .nil id
  | cons offer rest ih =>
    have hrest := ih fun other hother => hgates other (List.mem_cons_of_mem _ hother)
    cases hoffer : offer.gate.offer? state.2 with
    | none =>
      simp only [List.foldl_cons, consider, eligible, hoffer]
      exact hrest state
    | some after =>
      simp only [List.foldl_cons, consider, eligible, hoffer]
      have hpassed := Gate.passed_of_offer? hoffer
      rw [hgates offer List.mem_cons_self] at hpassed
      rw [List.map_cons, ← List.singleton_append]
      exact (once_passed hpassed).append
        (hrest (Table.put offer.label offer.element state.1, after))

namespace Machine

theorem once_execute {names : List String} (m : Machine) (e : Element)
    (hkept : m.flags.HasAll names → (m.execute e).2.flags.HasAll names) :
    Once names m.flags (m.execute e).2.flags (passages m.flags e) := by
  rw [execute] at hkept ⊢
  rw [passages]
  cases hread : Instruction.ofElement e with
  | error fault =>
    rw [hread] at hkept
    exact .nil hkept
  | ok i =>
    rw [hread] at hkept
    cases i with
    | block gate =>
      obtain ⟨-, rfl⟩ := Instruction.from_of_ofElement hread
      simp only [perform]
      cases henter : (Gate.ofElement e).enterBlock? m.flags with
      | none => exact .nil id
      | some after => exact once_passed (Gate.passed_of_enterBlock? henter)
    | choice offers =>
      exact once_consider (fun offer hmem => (Offer.from_of_choice hread hmem).gate) ([], m.flags)
    | title | description | text | toDescription | clearScreen | pause | flag | call | goto
    | load | ignored => exact .nil hkept

theorem settle_flags (outcome : Outcome Unit) :
    (settle outcome).2.flags = outcome.2.flags := by
  obtain ⟨phase, h⟩ := settle_agrees outcome
  rw [h]

theorem once_step {names : List String} {m : Machine}
    (hkept : m.flags.HasAll names → m.step.2.flags.HasAll names) :
    Once names m.flags m.step.2.flags (Moment.step m).passages := by
  cases hpop : m.stack.unwind.pop? with
  | none =>
    have hnil := Stack.unwind_eq_nil_of_pop? hpop
    rw [Moment.passages, ← Stack.upcoming?_unwind, hnil]
    exact .nil hkept
  | some taken =>
    obtain ⟨e, left⟩ := taken
    rw [Moment.passages, Stack.upcoming?_of_pop? hpop]
    rw [step_eq_settle hpop, settle_flags] at hkept ⊢
    exact (m.take e left).once_execute e hkept

/-! ### Passing shows -/

theorem passages_step {m : Machine} {e : Element} {left : Stack}
    (h : m.stack.unwind.pop? = some (e, left)) :
    (Moment.step m).passages = passages m.flags e := by
  rw [Moment.passages, Stack.upcoming?_of_pop? h]
  rfl

/-- A step puts its block on the stack exactly if it passes it. -/
theorem step_passes_block {m : Machine} {e : Element} {left : Stack} {gate : Gate}
    (hpop : m.stack.unwind.pop? = some (e, left))
    (hread : Instruction.ofElement e = .ok (.block gate)) :
    (Moment.step m).passages = [e] ∧ m.step.2.stack = (left.push e .standard).unwind ∨
      (Moment.step m).passages = [] ∧ m.step.2.stack = left.unwind := by
  rw [passages_step hpop, step_eq_settle hpop]
  cases henter : gate.enterBlock? m.flags with
  | some flags =>
    have hrun : (m.take e left).execute e =
        (.ok (), { m.take e left with flags }.push e .standard) := by
      simp only [execute, hread, perform, take, henter]
    refine .inl ⟨by simp [passages, hread, henter], ?_⟩
    rw [hrun]
    exact settle_stack rfl
  | none =>
    have hrun : (m.take e left).execute e = (.ok (), m.take e left) := by
      simp only [execute, hread, perform, take, henter]
    refine .inr ⟨by simp [passages, hread, henter], ?_⟩
    rw [hrun]
    exact settle_stack rfl

/-- A step puts the options that it passes on offer, under their labels, and no others. -/
theorem step_passes_options {m : Machine} {e : Element} {left : Stack} {offers : List Offer}
    (hpop : m.stack.unwind.pop? = some (e, left))
    (hread : Instruction.ofElement e = .ok (.choice offers)) :
    m.step.2.offers = .ofPairs ((Moment.step m).passages.map fun option =>
      ((option.attr? "of").getD "", option)) := by
  have hlabels : ∀ offer ∈ eligible m.flags offers,
      (offer.label, offer.element) = ((offer.element.attr? "of").getD "", offer.element) := by
    intro offer hoffer
    rw [(Offer.from_of_choice hread (mem_of_mem_eligible hoffer)).label]
    rfl
  have hrun : (m.take e left).execute e = (.ok (), (m.take e left).showChoice offers) := by
    simp only [execute, hread, perform]
  obtain ⟨phase, hsettle⟩ := settle_agrees (.ok (), (m.take e left).showChoice offers)
  rw [passages_step hpop, passages, hread, step_eq_settle hpop, hrun, hsettle]
  show ((m.take e left).showChoice offers).offers = _
  rw [offers_showChoice, List.map_map]
  exact congrArg Table.ofPairs (List.map_congr_left hlabels)

/-! ### Whole histories -/

theorem install_flags (m : Machine) (file : String) (root : Element) (block : Option String) :
    (m.install file root block).2.flags = m.flags := by
  rw [install]
  split
  · rw [call]
    split <;> rfl
  · rfl

theorem leavePause_flags (m : Machine) : m.leavePause.flags = m.flags := by
  rw [leavePause, flush]
  split <;> rfl

theorem Starts.flags_eq {m start : Machine} {turn : Turn} (h : Starts m turn start) :
    start.flags = m.flags := by
  cases h with
  | play => rfl
  | resume => exact m.leavePause_flags
  | @choose _ option => exact (m.enterOption option).leavePause_flags

/-- No flag of `names` was cleared. -/
def Unlost (names : List String) (past : List Moment) : Prop :=
  ∀ moment ∈ past, ∀ name ∈ names, moment.loses name = false

instance (names : List String) (past : List Moment) : Decidable (Unlost names past) :=
  inferInstanceAs (Decidable (∀ moment ∈ past, ∀ name ∈ names, moment.loses name = false))

theorem Unlost.init {names : List String} {past : List Moment} {moment : Moment}
    (h : Unlost names (past ++ [moment])) :
    Unlost names past ∧ ∀ name ∈ names, moment.loses name = false :=
  ⟨fun other hmem => h other (List.mem_append_left _ hmem), h moment (by simp)⟩

theorem once_tracked (names : List String) :
    Tracked fun past m => Unlost names past →
      Once names .empty m.flags (past.flatMap Moment.passages) where
  step {past m} hm hunlost := by
    obtain ⟨hpast, hloses⟩ := hunlost.init
    rw [List.flatMap_append, List.flatMap_singleton]
    refine (hm hpast).append (once_step fun hall name hname => ?_)
    exact Moment.mem_of_step (hloses name hname) (hall name hname)
  install {past m} file root block hm hunlost := by
    rw [List.flatMap_append, List.flatMap_singleton, Moment.passages, install_flags]
    exact (hm hunlost.init.1).append (.nil id)
  start hm hstart hunlost := by
    rw [hstart.flags_eq]
    exact hm hunlost
  set {past m} text hm hunlost := by
    have hgrows : m.flags.HasAll names → (m.flags.set text).HasAll names :=
      fun hall name hname => Flags.mem_set.mpr (.inr (hall name hname))
    have hwhole := (hm hunlost).append (.nil hgrows)
    rwa [List.append_nil] at hwhole
  clear {past m} text hm hunlost := by
    obtain ⟨hpast, hloses⟩ := hunlost.init
    rw [List.flatMap_append, List.flatMap_singleton]
    refine (hm hpast).append (.nil fun hall name hname => ?_)
    exact Moment.mem_of_clear (hloses name hname) (hall name hname)
  write _ _ hm := hm

/-- In any history, with a call under way that need not have come to its end, at most one element
whose `trip` has the names `names` is passed, if no flag of these names is cleared; and none if
there are no names. -/
theorem trips_once {m : Machine} {past : List Moment} (h : History m past) (operation : Operation)
    (bound : Nat) (names : List String)
    (hunlost : Unlost names (past ++ operation.moments bound m)) :
    let passed := (past ++ operation.moments bound m).flatMap Moment.passages
    passed.countP (Element.tripsOver names) ≤ 1 ∧
      (names = [] → passed.countP (Element.tripsOver names) = 0) := by
  have hpast := (once_tracked names).history (fun _ _ _ => .nil id) h
  obtain ⟨last, honce, -⟩ := (once_tracked names).operation operation bound hpast
  refine ⟨(honce hunlost).one, ?_⟩
  rintro rfl
  exact (honce hunlost).none nofun

/-- A block that offers one thing once, and to which the story comes back. -/
def stall : Element :=
  ⟨"block", [("id", "start")],
    [⟨"choice", [],
        [⟨"option", [("of", "buy"), ("trip", "bought")], [], "", .synthetic⟩], "", .synthetic⟩,
      ⟨"goto", [("block", "start")], [], "", .synthetic⟩],
    "", .synthetic⟩

/-- The option is passed when the choice is shown, and not when the story comes back to it. -/
theorem trips_once_stall :
    ∃ m past, History m past ∧ m.labels = ["buy"] ∧
      let moments := past ++ Operation.moments 5 m (.turn (.choose "buy"))
      Unlost ["bought"] moments ∧
        (moments.flatMap Moment.passages).countP (Element.tripsOver ["bought"]) = 1 := by
  have hpast : History _ _ :=
    .call (.turn .play) 3 (.call (.install "main.xml" stall none) 0 (.new [] 300) rfl) rfl
  refine ⟨_, _, hpast, rfl, ?unlost, Nat.le_antisymm (trips_once hpast _ 5 _ ?unlost).1 ?passed⟩
  case unlost => decide +kernel
  case passed => decide +kernel

end Machine

end StoryPlayer
