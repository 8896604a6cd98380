import StoryPlayer.Proofs.FlagSets
import StoryPlayer.Proofs.Journal
import StoryPlayer.Proofs.Simulation
import StoryPlayer.Proofs.Trips

/-! What a choice offers.  The options are taken in order, each against the flags that were set and
those that the options before it have tripped, also where a later option takes its place.  The
labels of the eligible options are on offer in the order in which they first come, a label stands
for the last eligible option that has it, and choosing it puts the children of that option in front
of what was left to run. -/

namespace StoryPlayer

open Markup

namespace Markup.Element

/-- The names that an attribute lists. -/
def listed (e : Element) (attr : String) : List String := (e.attr? attr).elim [] Text.words

/-- The options of a choice. -/
def options (e : Element) : List Element := e.children.filter fun child => child.name = "option"

end Markup.Element

/-- Whether an option can be offered with just the flags in `set` set. -/
def Eligible (set : List String) (option : Element) : Prop :=
  (∀ name ∈ option.listed "if-set", name ∈ set) ∧
  (∀ name ∈ option.listed "if-clear", name ∉ set) ∧
  (option.attr? "trip" ≠ none →
    option.listed "trip" ≠ [] ∧ ∀ name ∈ option.listed "trip", name ∉ set)

instance (set : List String) (option : Element) : Decidable (Eligible set option) :=
  inferInstanceAs (Decidable (_ ∧ _ ∧ (_ → _)))

/-- The eligible options, each judged with the trips of the eligible ones before it. -/
def eligibleAmong (set : List String) : List Element → List Element
  | [] => []
  | option :: rest =>
    if Eligible set option then option :: eligibleAmong (set ++ option.listed "trip") rest
    else eligibleAmong set rest

/-! ### Judging the options -/

/-- The flags that are set are those in `set`. -/
def Flags.Are (flags : Flags) (set : List String) : Prop := ∀ name, name ∈ flags ↔ name ∈ set

theorem Gate.admits_iff {flags : Flags} {set : List String} (h : flags.Are set) (e : Element) :
    (Gate.ofElement e).admits flags = true ↔
      (∀ name ∈ e.listed "if-set", name ∈ set) ∧ ∀ name ∈ e.listed "if-clear", name ∉ set := by
  rw [admits, Bool.and_eq_true]
  apply and_congr
  · cases hattr : e.attr? "if-set" with
    | none => simp [Gate.ofElement, Element.listed, hattr]
    | some text => simp [Gate.ofElement, Element.listed, hattr, Flags.areSet_eq_true_iff, h _]
  · cases hattr : e.attr? "if-clear" with
    | none => simp [Gate.ofElement, Element.listed, hattr]
    | some text => simp [Gate.ofElement, Element.listed, hattr, Flags.areClear_eq_true_iff, h _]

theorem Gate.offer?_of_eligible {flags : Flags} {set : List String} (h : flags.Are set)
    {e : Element} (he : Eligible set e) :
    ∃ after, (Gate.ofElement e).offer? flags = some after ∧
      after.Are (set ++ e.listed "trip") := by
  obtain ⟨hset, hclear, htrip⟩ := he
  rw [offer?_eq, if_pos ((admits_iff h e).mpr ⟨hset, hclear⟩)]
  cases hattr : e.attr? "trip" with
  | none => exact ⟨flags, by simp [Gate.ofElement, hattr], by simpa [Element.listed, hattr] using h⟩
  | some trip =>
    simp only [Element.listed, hattr, Option.elim_some, ne_eq, reduceCtorEq, not_false_eq_true,
      forall_const] at htrip ⊢
    obtain ⟨hnames, hnew⟩ := htrip
    have hareClear : flags.areClear trip = true :=
      Flags.areClear_eq_true_iff.mpr fun name hname hold => hnew name hname ((h name).mp hold)
    have hareSet : flags.areSet trip = false := by
      obtain ⟨name, hname⟩ := List.exists_mem_of_ne_nil _ hnames
      refine Bool.eq_false_iff.mpr fun hall => hnew name hname ((h name).mp ?_)
      exact Flags.areSet_eq_true_iff.mp hall name hname
    refine ⟨flags.set trip, by simp [Gate.ofElement, hattr, hareClear, hareSet], fun name => ?_⟩
    rw [Flags.mem_set, List.mem_append, h name, or_comm]

theorem Gate.offer?_of_not_eligible {flags : Flags} {set : List String} (h : flags.Are set)
    {e : Element} (he : ¬Eligible set e) : (Gate.ofElement e).offer? flags = none := by
  rw [offer?_eq]
  split
  · next hadmits =>
    have hgate := (admits_iff h e).mp hadmits
    cases hattr : e.attr? "trip" with
    | none => exact absurd ⟨hgate.1, hgate.2, fun hne => absurd hattr hne⟩ he
    | some trip =>
      simp only [Gate.ofElement, hattr]
      refine if_neg fun hnew => he ⟨hgate.1, hgate.2, fun _ => ?_⟩
      rw [Bool.and_eq_true, Bool.not_eq_true', Flags.areClear_eq_true_iff] at hnew
      simp only [Element.listed, hattr, Option.elim_some]
      refine ⟨fun hnil => ?_, fun name hname hold => hnew.1 name hname ((h name).mpr hold)⟩
      rw [Flags.areSet, hnil] at hnew
      exact absurd hnew.2 (by simp)
  · rfl

/-- The options that a choice offers are the eligible ones, by induction on those left to judge. -/
theorem map_element_eligible {offers : List Offer}
    (hgates : ∀ offer ∈ offers, offer.gate = .ofElement offer.element) {flags : Flags}
    {set : List String} (h : flags.Are set) :
    (eligible flags offers).map Offer.element = eligibleAmong set (offers.map Offer.element) := by
  induction offers generalizing flags set with
  | nil => rfl
  | cons offer rest ih =>
    have hrest := fun other hother => hgates other (List.mem_cons_of_mem _ hother)
    rw [eligible, hgates offer List.mem_cons_self, List.map_cons, eligibleAmong]
    by_cases hoffer : Eligible set offer.element
    · obtain ⟨after, hafter, hare⟩ := Gate.offer?_of_eligible h hoffer
      rw [if_pos hoffer, hafter, List.map_cons, ih hrest hare]
    · rw [if_neg hoffer, Gate.offer?_of_not_eligible h hoffer, ih hrest h]

theorem mem_flags_consider {offers : List Offer}
    (hgates : ∀ offer ∈ offers, offer.gate = .ofElement offer.element)
    {state : Table Element × Flags} {set : List String} (h : state.2.Are set) (name : String) :
    name ∈ (offers.foldl consider state).2 ↔ name ∈ set ∨
      ∃ option ∈ eligibleAmong set (offers.map Offer.element), name ∈ option.listed "trip" := by
  induction offers generalizing state set with
  | nil => simpa [eligibleAmong] using h name
  | cons offer rest ih =>
    have hrest := fun other hother => hgates other (List.mem_cons_of_mem _ hother)
    rw [List.foldl_cons, consider, hgates offer List.mem_cons_self, List.map_cons, eligibleAmong]
    by_cases hoffer : Eligible set offer.element
    · obtain ⟨after, hafter, hare⟩ := Gate.offer?_of_eligible h hoffer
      rw [if_pos hoffer, hafter, ih hrest hare]
      simp [or_assoc]
    · rw [if_neg hoffer, Gate.offer?_of_not_eligible h hoffer, ih hrest h]

/-! ### Labels -/

theorem map_label {offers : List Offer}
    (h : ∀ offer ∈ offers, offer.element.attr? "of" = some offer.label) :
    offers.map Offer.label =
      (offers.map Offer.element).filterMap fun option => option.attr? "of" := by
  induction offers with
  | nil => rfl
  | cons offer rest ih =>
    rw [List.map_cons, List.map_cons, List.filterMap_cons, h offer List.mem_cons_self,
      ih fun other hother => h other (List.mem_cons_of_mem _ hother)]

theorem filter_label {offers : List Offer}
    (h : ∀ offer ∈ offers, offer.element.attr? "of" = some offer.label) (label : String) :
    (offers.filter fun offer => offer.label = label).map Offer.element =
      (offers.map Offer.element).filter fun option => option.attr? "of" = some label := by
  rw [List.filter_map]
  refine congrArg _ (List.filter_congr fun offer hoffer => ?_)
  simp [h offer hoffer]

namespace Machine

section

variable (m : Machine) {offers : List Offer}

variable (h : ∀ offer ∈ offers, offer.element.attr? "of" = some offer.label)
include h

theorem labels_showChoice : (m.showChoice offers).labels =
    (((eligible m.flags offers).map Offer.element).filterMap fun option =>
      option.attr? "of").eraseDups := by
  rw [labels, offers_showChoice, Table.keys_ofPairs, List.map_map,
    ← map_label fun offer hoffer => h offer (mem_of_mem_eligible hoffer)]
  rfl

theorem get?_offers_showChoice (label : String) : (m.showChoice offers).offers.get? label =
    (((eligible m.flags offers).map Offer.element).filter fun option =>
      option.attr? "of" = some label).getLast? := by
  rw [offers_showChoice, Table.get?_ofPairs, List.filter_map, List.getLast?_map,
    ← filter_label fun offer hoffer => h offer (mem_of_mem_eligible hoffer), List.getLast?_map,
    Option.map_map]
  rfl

end

end Machine

/-! ### Choices -/

/-- A choice whose options all have a label can be read. -/
theorem exists_offers {options : List Element} (h : ∀ option ∈ options, option.attr? "of" ≠ none) :
    ∃ offers, options.mapM Offer.ofElement = .ok offers ∧ offers.map Offer.element = options := by
  induction options with
  | nil => exact ⟨[], rfl, rfl⟩
  | cons option rest ih =>
    obtain ⟨label, hlabel⟩ := Option.ne_none_iff_exists'.mp (h option List.mem_cons_self)
    obtain ⟨offers, hread, hoffers⟩ :=
      ih fun other hother => h other (List.mem_cons_of_mem _ hother)
    have hoption : Offer.ofElement option = .ok ⟨label, .ofElement option, option⟩ := by
      rw [Offer.ofElement, required, hlabel]
      rfl
    refine ⟨⟨label, .ofElement option, option⟩ :: offers, ?_, by rw [List.map_cons, hoffers]⟩
    rw [List.mapM_cons, hoption, hread]
    rfl

theorem exists_choice {e : Element} (hname : e.name = "choice")
    (h : ∀ option ∈ e.options, option.attr? "of" ≠ none) :
    ∃ offers, Instruction.ofElement e = .ok (.choice offers) ∧
      offers.map Offer.element = e.options := by
  obtain ⟨offers, hread, hoffers⟩ := exists_offers h
  refine ⟨offers, ?_, hoffers⟩
  rw [Element.options] at hread
  rw [Instruction.ofElement, hname]
  simp only [hread]
  rfl

namespace Machine

/-- A step that shows a choice waits for the reader, whatever is left to run. -/
theorem settle_showChoice (m : Machine) (offers : List Offer) :
    (settle (.ok (), m.showChoice offers)).2 = (m.showChoice offers).unwind := by
  rw [settle]
  split
  · rfl
  · rfl

/-- What running a choice leaves, if its options all have labels: the labels of those that are
eligible, the last of them that has a label under it, the flags of their trips, and the option for
whoever chooses. -/
theorem choice_offers_eligible {m : Machine} {e : Element} {inDescription : Bool} {rest : Todo}
    (hnext : m.stack.continuation = (e, inDescription) :: rest) (hname : e.name = "choice")
    (hlabels : ∀ option ∈ e.options, option.attr? "of" ≠ none) :
    let offered := eligibleAmong m.flags.names e.options
    ∃ after, m.step = (.ok (!rest.isEmpty), after) ∧
      after.phase = .paused .choice ∧
      after.stack.continuation = rest ∧
      (∀ label, label ∈ after.labels ↔ ∃ option ∈ offered, option.attr? "of" = some label) ∧
      after.labels = (offered.filterMap fun option => option.attr? "of").eraseDups ∧
      after.labels.Nodup ∧
      (∀ label, after.offers.get? label =
        (offered.filter fun option => option.attr? "of" = some label).getLast?) ∧
      after.flags.members =
        m.flags.members ∪ {name | ∃ option ∈ offered, name ∈ option.listed "trip"} ∧
      ∀ label ∈ after.labels, ∃ option, after.offers.get? label = some option ∧
        (∀ bound, after.choose bound label = (after.enterOption option).leavePause.play bound) ∧
        (after.enterOption option).leavePause.stack.continuation =
          .part (after.stack.hasRole .toDescription) option.children ++ rest := by
  intro offered
  obtain ⟨left, -, hrest, hstep⟩ := step_dispatch hnext
  obtain ⟨offers, hread, hoptions⟩ := exists_choice hname hlabels
  have hgates : ∀ offer ∈ offers, offer.gate = .ofElement offer.element :=
    fun _ hmem => (Offer.from_of_choice hread hmem).gate
  have hown : ∀ offer ∈ offers, offer.element.attr? "of" = some offer.label :=
    fun _ hmem => (Offer.from_of_choice hread hmem).label
  have hare : m.flags.Are m.flags.names := fun _ => Iff.rfl
  have hoffered : (eligible m.flags offers).map Offer.element = offered := by
    rw [map_element_eligible hgates hare, hoptions]
  obtain ⟨after, hafter⟩ : ∃ after, after = ((m.take e left).showChoice offers).unwind := ⟨_, rfl⟩
  have hkeys : after.labels = (offered.filterMap fun option => option.attr? "of").eraseDups := by
    rw [hafter, ← hoffered]
    exact labels_showChoice (m.take e left) hown
  have hleft : after.stack.continuation = rest := by
    rw [hafter, ← hrest]
    exact left.continuation_unwind
  refine ⟨after, ?_, by rw [hafter]; rfl, hleft, fun label => ?_, hkeys, ?_, fun label => ?_, ?_,
    fun label hlabel => ?_⟩
  · rw [hstep, execute_choice hread]
    refine Prod.ext ?_ ((settle_showChoice _ _).trans hafter.symm)
    rw [settle_ok, ← hrest]
    rfl
  · rw [hkeys, List.mem_eraseDups, List.mem_filterMap]
  · rw [hafter]
    exact nodup_foldl_consider List.nodup_nil
  · rw [hafter, ← hoffered]
    exact get?_offers_showChoice (m.take e left) hown label
  · ext name
    have hstate : (([] : Table Element), m.flags).2.Are m.flags.names := hare
    rw [hafter]
    refine (mem_flags_consider hgates hstate name).trans ?_
    rw [hoptions]
    rfl
  · obtain ⟨option, hoption⟩ := Option.ne_none_iff_exists'.mp
      (mt Table.get?_eq_none_iff.mp (not_not_intro hlabel))
    refine ⟨option, hoption, choose_eq_play hoption, ?_⟩
    rw [continuation_choose, hleft]

/-- An option of the counter below, with some lines to run. -/
def dish (attributes : Table String) (line : String) : Element :=
  ⟨"option", attributes, [⟨"text", [], [], line, .synthetic⟩], "", .synthetic⟩

/-- A choice in which options take each other's place and each other's trips. -/
def counter : Element :=
  ⟨"choice", [],
    [dish [("of", "soup"), ("trip", "fed")] "Hot.",
      dish [("of", "soup")] "Cold.",
      dish [("of", "bread"), ("if-set", "fed")] "Dry.",
      dish [("of", "stew"), ("trip", " warm  fed ")] "Thick.",
      dish [("of", "nothing"), ("if-clear", "fed")] "So be it."], "", .synthetic⟩

/-- The first soup is eligible and trips `fed`, although the second takes its place. -/
theorem choice_offers_eligible_counter :
    let m : Machine :=
      { library := [], choiceDelay := 300
        stack := [⟨⟨"block", [], [counter], "", .synthetic⟩, .standard, 0⟩] }
    ∃ after, m.step = (.ok false, after) ∧ after.labels = ["soup", "bread"] ∧
      (∀ name, name ∈ after.flags ↔ name = "fed") ∧
      ∀ bound, after.choose bound "soup" =
        (after.enterOption (dish [("of", "soup")] "Cold.")).leavePause.play bound := by
  intro m
  have hnext : m.stack.continuation = [(counter, false)] := rfl
  obtain ⟨after, hstep, -, -, -, hlabels, -, hget, hflags, hchoose⟩ :=
    choice_offers_eligible hnext rfl (by decide)
  have hsoup : after.labels = ["soup", "bread"] := by
    rw [hlabels]
    decide +kernel
  obtain ⟨option, hoption, hplay, -⟩ := hchoose "soup" (by simp [hsoup])
  obtain rfl : dish [("of", "soup")] "Cold." = option := by
    rw [hget] at hoption
    exact Option.some.inj hoption
  have htrips : (eligibleAmong m.flags.names counter.options).flatMap
      (fun option => option.listed "trip") = ["fed"] := by
    decide +kernel
  refine ⟨after, hstep, hsoup, fun name => ?_, hplay⟩
  show name ∈ after.flags.members ↔ _
  rw [hflags, ← List.mem_singleton, ← htrips, List.mem_flatMap]
  exact or_iff_right List.not_mem_nil

end Machine

end StoryPlayer
