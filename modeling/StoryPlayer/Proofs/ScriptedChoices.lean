import StoryPlayer.Command.Program
import StoryPlayer.Proofs.Calls

/-! Choosing by script.  Where a scripted run stands at a choice, an option on offer can be chosen
by one more action exactly if its label is not empty, for an action has to name a label that is not.
No action chooses two options. -/

namespace StoryPlayer

open Markup

namespace Action

theorem parse?_eq_choose {text label : String} (h : parse? text = some (choose label)) :
    label ≠ "" ∧ text = "choose:" ++ label := by
  rw [parse?] at h
  split at h
  · cases h
  · split at h
    · next hprefix =>
      obtain ⟨rest, hrest⟩ := List.isPrefixOf_iff_prefix.mp hprefix
      rw [← hrest, List.drop_left] at h
      have htext : text = "choose:" ++ String.ofList rest := by
        have hchars := congrArg String.ofList hrest
        rwa [String.ofList_append, String.ofList_toList, String.ofList_toList, eq_comm] at hchars
      cases rest with
      | nil => cases h
      | cons c rest =>
        cases h
        exact ⟨by simp, htext⟩
    · cases h

theorem parse?_choose {label : String} (h : label ≠ "") :
    parse? ("choose:" ++ label) = some (choose label) := by
  have hnext : "choose:" ++ label ≠ "next" := by
    intro heq
    have hchars := congrArg String.toList heq
    rw [String.toList_append] at hchars
    cases hchars
  rw [parse?, if_neg hnext, String.toList_append,
    if_pos (List.isPrefixOf_iff_prefix.mpr (List.prefix_append _ _)), List.drop_left]
  split
  · next hnil => exact absurd (String.toList_eq_nil_iff.mp hnil) h
  · rw [String.ofList_toList]

end Action

namespace Machine

/-- The elements of a machine are of some document, whatever happened before. -/
theorem wellFormed_kept :
    Kept (fun _ => True) fun m => ∃ document, m.WellFormed document where
  step := by
    rintro m ⟨document, hm⟩ -
    exact ⟨_, hm.step⟩
  install file root block _ := ⟨_, wellFormed_install _ file root block⟩
  start := by
    rintro m start turn ⟨document, hm⟩ hstart
    exact ⟨document, hm.start hstart⟩
  flags := by
    rintro m flags ⟨document, hm⟩
    exact ⟨document, hm.blocks, hm.frames, hm.offers, hm.labels⟩
  write := by
    rintro m surface markup ⟨document, hm⟩
    exact ⟨document, hm.blocks, hm.frames, hm.offers, hm.labels⟩

theorem WellFormed.label_unique {document : Option Element} {m : Machine}
    (h : m.WellFormed document) {option : Element} {label other : String}
    (hlabel : m.offers.get? label = some option) (hother : m.offers.get? other = some option) :
    label = other := by
  have hof := (h.offers _ (Table.mem_of_get? hlabel)).2.2
  rw [(h.offers _ (Table.mem_of_get? hother)).2.2] at hof
  exact (Option.some.inj hof).symm

theorem stack_enterOption (m : Machine) (option : Element) :
    (m.enterOption option).leavePause.stack = m.stack.push option .option := flush_stack _

end Machine

namespace Session

/-- The text is an action, and what it plays starts inside the option that is on offer under the
label. -/
def Scripts (s : Session) (text label : String) : Prop :=
  ∃ action option, Action.parse? text = some action ∧ s.machine.offers.get? label = some option ∧
    Machine.Starts s.machine action.turn (s.machine.enterOption option).leavePause

theorem wellFormed_keeps : Keeps fun m => ∃ document, m.WellFormed document where
  turn hm hrun := Machine.wellFormed_kept.turn hm hrun
  write surface markup hm := Machine.wellFormed_kept.write surface markup hm
  takeJournal := by
    rintro m ⟨document, hm⟩
    exact ⟨document, hm.blocks, hm.frames, hm.offers, hm.labels⟩

theorem wellFormed_runActions {library : Library} {file block : Option String} {delay : Nat}
    {session s : Session} (hopening : opening library file block delay = .ok session) {bound : Nat}
    {actions : List Action} (hrun : session.runActions bound actions = some (.ok s)) :
    ∃ document, s.machine.WellFormed document := by
  refine wellFormed_keeps.runActions (wellFormed_keeps.opening (fun entry root => ?_) hopening) hrun
  exact ⟨some root, Machine.wellFormed_install _ entry root block⟩

section

variable {s : Session} {text label : String}

theorem scripts_of_mem (hmem : label ∈ s.machine.labels) (hsome : label ≠ "") :
    s.Scripts ("choose:" ++ label) label := by
  obtain ⟨option, hoption⟩ := Option.ne_none_iff_exists'.mp
    (mt Table.get?_eq_none_iff.mp (not_not_intro hmem))
  exact ⟨.choose label, option, Action.parse?_choose hsome, hoption, .choose hoption⟩

variable (h : s.Scripts text label) {document : Option Element}
  (hformed : s.machine.WellFormed document) (hphase : s.machine.phase = .paused .choice)
include h hformed hphase

/-- Only the choice of a label leads into its option: to go on is refused, and another label stands
for another option. -/
theorem Scripts.parse?_eq_choose : Action.parse? text = some (.choose label) := by
  obtain ⟨action, option, hparse, hoption, hstart⟩ := h
  generalize hentered : (s.machine.enterOption option).leavePause = entered at hstart
  cases action with
  | next =>
    cases hstart with
    | resume _ hfree =>
      rw [hfree hphase] at hoption
      cases hoption
  | choose other =>
    cases hstart with
    | @choose _ found hfound =>
      have hstack := congrArg Machine.stack hentered
      rw [Machine.stack_enterOption, Machine.stack_enterOption] at hstack
      cases hstack
      rw [hparse, hformed.label_unique hoption hfound]

theorem Scripts.label_ne_empty : label ≠ "" :=
  (Action.parse?_eq_choose (h.parse?_eq_choose hformed hphase)).1

end

/-- A longer script takes one more action. -/
theorem actAll_concat {bound : Nat} {s t : Session} {actions : List Action}
    (h : s.actAll bound actions = some (.ok t)) (action : Action) :
    s.actAll bound (actions ++ [action]) = t.act bound action := by
  induction actions generalizing s with
  | nil =>
    obtain rfl := Except.ok.inj (Option.some.inj h)
    rw [List.nil_append, actAll]
    rcases s.act bound action with _ | _ | next
    · rfl
    · rfl
    · rfl
  | cons first rest ih =>
    rw [actAll] at h
    obtain ⟨result, hact, hrest⟩ := Option.bind_eq_some_iff.mp h
    cases result with
    | error fault => cases hrest
    | ok next =>
      rw [List.cons_append, actAll, hact]
      exact ih hrest

theorem runActions_concat {bound : Nat} {s t : Session} {actions : List Action}
    (h : s.runActions bound actions = some (.ok t)) (action : Action) :
    s.runActions bound (actions ++ [action]) = t.act bound action := by
  obtain ⟨⟨result, started⟩, hplay, hrest⟩ := Option.bind_eq_some_iff.mp h
  cases result with
  | error fault => cases hrest
  | ok =>
    rw [runActions, hplay]
    exact actAll_concat hrest action

end Session

theorem Program.readActions_concat {texts : List String} {actions : List Action} {text : String}
    {action : Action} (h : readActions texts = .ok actions)
    (haction : Action.parse? text = some action) :
    readActions (texts ++ [text]) = .ok (actions ++ [action]) := by
  rw [readActions] at h
  rw [readActions, List.mapM_append, h, List.mapM_cons, List.mapM_nil]
  simp only [haction]
  rfl

namespace Session

/-- Wherever a scripted run comes to a choice: an option on offer can be chosen by some text exactly
if its label is not empty, texts that choose different options differ, and a script that goes on
with such a text goes on inside the option. -/
theorem labels_scriptable {library : Library} {file block : Option String} {delay : Nat}
    {session : Session} (hopening : opening library file block delay = .ok session) {bound : Nat}
    {actions : List Action} {s : Session} (hrun : session.runActions bound actions = some (.ok s))
    (hphase : s.machine.phase = .paused .choice) :
    (∀ label ∈ s.machine.labels, (∃ text, s.Scripts text label) ↔ label ≠ "") ∧
    (∀ text label other, s.Scripts text label → s.Scripts text other → label = other) ∧
    ∀ text label, s.Scripts text label → ∃ action option,
      Action.parse? text = some action ∧ s.machine.offers.get? label = some option ∧
      (∀ bound, action.apply bound s.machine =
        (s.machine.enterOption option).leavePause.play bound) ∧
      session.runActions bound (actions ++ [action]) = s.act bound action ∧
      ∀ texts, Program.readActions texts = .ok actions →
        Program.readActions (texts ++ [text]) = .ok (actions ++ [action]) := by
  obtain ⟨document, hformed⟩ := wellFormed_runActions hopening hrun
  refine ⟨fun label hmem => ⟨?_, fun hsome => ⟨_, scripts_of_mem hmem hsome⟩⟩,
    fun text label other hlabel hother => ?_, ?_⟩
  · rintro ⟨text, htext⟩
    exact htext.label_ne_empty hformed hphase
  · have hsame := hlabel.parse?_eq_choose hformed hphase
    rw [hother.parse?_eq_choose hformed hphase] at hsame
    cases hsame
    rfl
  · rintro text label ⟨action, option, hparse, hoption, hstart⟩
    refine ⟨action, option, hparse, hoption, fun bound => ?_, runActions_concat hrun action,
      fun texts htexts => Program.readActions_concat htexts hparse⟩
    rw [Action.apply_eq]
    exact hstart.run_eq bound

/-- A choice with an option that is called like an action, and one without a name. -/
def hatchLibrary : Library :=
  [("main.xml", "<block id='start'><choice><option of='next'/><option of=''/></choice></block>")]

theorem exists_hatch :
    ∃ session s, opening hatchLibrary none none 0 = .ok session ∧
      session.runActions 2 [] = some (.ok s) ∧ s.machine.phase = .paused .choice ∧
      s.machine.labels = ["next", ""] := by
  have hgoes : ((opening hatchLibrary none none 0).toOption.bind fun session =>
      (session.runActions 2 []).bind fun result =>
        result.toOption.map fun s => (s.machine.phase, s.machine.labels)) =
      some (.paused .choice, ["next", ""]) := by decide +kernel
  cases hopening : opening hatchLibrary none none 0 with
  | error fault =>
    rw [hopening] at hgoes
    cases hgoes
  | ok session =>
    rw [hopening, Except.toOption, Option.bind_some] at hgoes
    obtain ⟨result, hrun, hstands⟩ := Option.bind_eq_some_iff.mp hgoes
    cases result with
    | error fault => cases hstands
    | ok s =>
      obtain ⟨hphase, hlabels⟩ := Prod.mk.inj (Option.some.inj hstands)
      exact ⟨session, s, rfl, hrun, hphase, hlabels⟩

/-- The option that is called `next` can be chosen, and the one without a name cannot. -/
theorem labels_scriptable_hatch :
    ∃ session s, opening hatchLibrary none none 0 = .ok session ∧
      session.runActions 2 [] = some (.ok s) ∧ s.machine.phase = .paused .choice ∧
      s.machine.labels = ["next", ""] ∧ (∃ text, s.Scripts text "next") ∧
      ¬∃ text, s.Scripts text "" := by
  obtain ⟨session, s, hopening, hrun, hphase, hlabels⟩ := exists_hatch
  obtain ⟨hscripts, -, -⟩ := labels_scriptable hopening hrun hphase
  refine ⟨session, s, hopening, hrun, hphase, hlabels, ?_, ?_⟩
  · exact (hscripts "next" (by simp [hlabels])).mpr (by decide)
  · intro htext
    exact (hscripts "" (by simp [hlabels])).mp htext rfl

/-- Not every option on offer can be chosen by script. -/
theorem nameless_option_not_scriptable :
    ¬∀ (library : Library) (file block : Option String) (delay : Nat) (session : Session)
      (bound : Nat) (actions : List Action) (s : Session),
      opening library file block delay = .ok session →
      session.runActions bound actions = some (.ok s) → s.machine.phase = .paused .choice →
      ∀ label ∈ s.machine.labels, ∃ text, s.Scripts text label := by
  intro h
  obtain ⟨session, s, hopening, hrun, hphase, hlabels⟩ := exists_hatch
  obtain ⟨document, hformed⟩ := wellFormed_runActions hopening hrun
  obtain ⟨text, htext⟩ := h _ _ _ _ _ _ _ _ hopening hrun hphase "" (by simp [hlabels])
  exact htext.label_ne_empty hformed hphase rfl

end Session

end StoryPlayer
