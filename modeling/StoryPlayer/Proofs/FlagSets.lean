import Mathlib.Data.Set.Basic
import StoryPlayer.Host.Player

/-! Flags against sets.  The words of a text are its maximal runs of characters that are not blank,
and setting, clearing and testing flags are union, difference, inclusion and disjointness of such
sets of words, whatever was asked before.  The line that lists the flags names the same set
again. -/

namespace StoryPlayer

/-! ### Words -/

namespace Text

/-- Some characters, none of which is a blank. -/
def IsWord (name : String) : Prop :=
  name.toList ≠ [] ∧ ∀ c ∈ name.toList, isBlank c = false

/-- `run` stands somewhere in `text`, has no blanks in it, and cannot be made longer. -/
def IsRun (text run : List Char) : Prop :=
  ∃ before after, text = before ++ run ++ after ∧ run ≠ [] ∧ (∀ c ∈ run, isBlank c = false) ∧
    (∀ c ∈ before.getLast?, isBlank c = true) ∧ (∀ c ∈ after.head?, isBlank c = true)

/-- The words of a text as a set. -/
def runs (text : String) : Set String := {name | IsRun text.toList name.toList}

/-- A text without blanks is one run, if it is anything. -/
theorem isRun_iff_eq {text run : List Char} (h : ∀ c ∈ text, isBlank c = false) :
    IsRun text run ↔ text ≠ [] ∧ run = text := by
  constructor
  · rintro ⟨before, after, rfl, hne, -, hbefore, hafter⟩
    have hstart : before = [] := by
      cases hlast : before.getLast? with
      | none => exact List.getLast?_eq_none_iff.mp hlast
      | some c =>
        have hmem := List.mem_of_getLast? hlast
        have hblank := hbefore c hlast
        rw [h c (by simp [hmem])] at hblank
        cases hblank
    have hend : after = [] := by
      cases after with
      | nil => rfl
      | cons c rest =>
        have hblank := hafter c rfl
        rw [h c (by simp)] at hblank
        cases hblank
    subst hstart hend
    simpa using hne
  · rintro ⟨hne, rfl⟩
    exact ⟨[], [], by simp, hne, h, nofun, nofun⟩

theorem append_cons_cases {front rest before run after : List Char} {c : Char} (hne : run ≠ [])
    (hc : c ∉ run) (h : front ++ c :: rest = before ++ (run ++ after)) :
    (∃ between, front = before ++ run ++ between ∧ after = between ++ c :: rest) ∨
      ∃ between, before = front ++ c :: between ∧ rest = between ++ run ++ after := by
  rcases List.append_eq_append_iff.mp h with ⟨part, hbefore, hpart⟩ | ⟨part, hfront, hpart⟩
  · cases part with
    | nil =>
      cases run with
      | nil => exact absurd rfl hne
      | cons d run =>
        obtain ⟨rfl, -⟩ := List.cons.inj hpart
        exact absurd List.mem_cons_self hc
    | cons d between =>
      obtain ⟨rfl, hrest⟩ := List.cons.inj hpart
      exact .inr ⟨between, hbefore, hrest.trans (List.append_assoc ..).symm⟩
  · rcases List.append_eq_append_iff.mp hpart with ⟨between, hrun, hafter⟩ | ⟨piece, hrun, hafter⟩
    · exact .inl ⟨between, by rw [hfront, hrun, List.append_assoc], hafter⟩
    · cases piece with
      | nil =>
        rw [List.append_nil] at hrun
        exact .inl ⟨[], by simp [hfront, hrun], by simpa using hafter.symm⟩
      | cons d piece =>
        obtain ⟨rfl, -⟩ := List.cons.inj hafter
        rw [hrun] at hc
        exact absurd (List.mem_append_right _ List.mem_cons_self) hc

/-- A blank parts the runs of a text. -/
theorem isRun_append_cons_iff {front rest run : List Char} {c : Char} (hc : isBlank c = true) :
    IsRun (front ++ c :: rest) run ↔ IsRun front run ∨ IsRun rest run := by
  constructor
  · rintro ⟨before, after, heq, hne, hrun, hbefore, hafter⟩
    have hout : c ∉ run := by
      intro hmem
      rw [hrun c hmem] at hc
      cases hc
    rw [List.append_assoc] at heq
    rcases append_cons_cases hne hout heq with ⟨between, hfront, rfl⟩ | ⟨between, rfl, hrest⟩
    · refine .inl ⟨before, between, hfront, hne, hrun, hbefore, fun d hd => hafter d ?_⟩
      rw [List.head?_append, Option.mem_def.mp hd]
      rfl
    · refine .inr ⟨between, after, hrest, hne, hrun, fun d hd => hbefore d ?_, hafter⟩
      rw [List.append_cons, List.getLast?_append, Option.mem_def.mp hd]
      rfl
  · rintro (⟨before, after, rfl, hne, hrun, hbefore, hafter⟩ |
      ⟨before, after, rfl, hne, hrun, hbefore, hafter⟩)
    · refine ⟨before, after ++ c :: rest, by simp, hne, hrun, hbefore, fun d hd => ?_⟩
      cases after with
      | nil =>
        obtain rfl : c = d := Option.some.inj hd
        exact hc
      | cons e tail => exact hafter d hd
    · refine ⟨front ++ [c] ++ before, after, by simp, hne, hrun, fun d hd => ?_, hafter⟩
      rw [List.getLast?_append] at hd
      cases hlast : before.getLast? with
      | none =>
        obtain rfl : c = d := by simpa [hlast] using hd
        exact hc
      | some e =>
        obtain rfl : e = d := by simpa [hlast] using hd
        exact hbefore e hlast

theorem mem_finished_iff {word : List Char} (h : ∀ c ∈ word, isBlank c = false) {name : String} :
    name ∈ finished word ↔ IsRun word.reverse name.toList := by
  rw [isRun_iff_eq fun c hc => h c (List.mem_reverse.mp hc), finished]
  cases word with
  | nil => simp
  | cons c rest => simp [← String.toList_inj]

/-- By induction on the text; the characters of the word that is under way are in front of it. -/
theorem mem_wordsAfter_iff {word text : List Char} (h : ∀ c ∈ word, isBlank c = false)
    {name : String} : name ∈ wordsAfter word text ↔ IsRun (word.reverse ++ text) name.toList := by
  induction text generalizing word with
  | nil => rw [wordsAfter, mem_finished_iff h, List.append_nil]
  | cons c rest ih =>
    rw [wordsAfter]
    split
    · next hc =>
      rw [isRun_append_cons_iff hc, List.mem_append, mem_finished_iff h, ih (List.forall_mem_nil _)]
      rfl
    · next hc =>
      have hlonger : ∀ d ∈ c :: word, isBlank d = false := by
        intro d hd
        rcases List.mem_cons.mp hd with rfl | hd
        · exact Bool.eq_false_iff.mpr hc
        · exact h d hd
      rw [ih hlonger, List.reverse_cons, List.append_assoc, List.singleton_append]

theorem mem_words_iff {text name : String} : name ∈ words text ↔ name ∈ runs text :=
  mem_wordsAfter_iff (List.forall_mem_nil _)

theorem isWord_of_mem_words {text name : String} (h : name ∈ words text) : IsWord name := by
  obtain ⟨before, after, -, hne, hrun, -⟩ := mem_words_iff.mp h
  exact ⟨hne, hrun⟩

theorem wordsAfter_append {run : List Char} (h : ∀ c ∈ run, isBlank c = false)
    (word rest : List Char) :
    wordsAfter word (run ++ rest) = wordsAfter (run.reverse ++ word) rest := by
  induction run generalizing word with
  | nil => rfl
  | cons c run ih =>
    have hc : isBlank c = false := h c List.mem_cons_self
    rw [List.cons_append, wordsAfter, hc, List.reverse_cons, List.append_assoc]
    exact ih (fun d hd => h d (List.mem_cons_of_mem _ hd)) (c :: word)

theorem finished_reverse_toList {name : String} (h : IsWord name) :
    finished (name.toList.reverse ++ []) = [name] := by
  rw [List.append_nil, finished, if_neg (by simpa using h.1), List.reverse_reverse,
    String.ofList_toList]

/-- Words that are written with a space between them are read again. -/
theorem words_intercalate {names : List String} (h : ∀ name ∈ names, IsWord name) :
    words (String.intercalate " " names) = names := by
  rw [words, String.toList_intercalate]
  induction names with
  | nil => rfl
  | cons name rest ih =>
    have hname := h name List.mem_cons_self
    have hrest := ih fun other hmem => h other (List.mem_cons_of_mem _ hmem)
    cases rest with
    | nil =>
      rw [List.map_singleton, List.intercalate_singleton, ← List.append_nil name.toList,
        wordsAfter_append hname.2, wordsAfter, finished_reverse_toList hname]
    | cons second others =>
      rw [List.map_cons, List.map_cons, List.intercalate_cons_cons, List.append_assoc,
        wordsAfter_append hname.2]
      show finished (name.toList.reverse ++ []) ++ wordsAfter [] _ = _
      rw [finished_reverse_toList hname]
      exact congrArg (List.cons name) hrest

end Text

/-! ### Flags -/

namespace Flags

/-- The flags that are set. -/
def members (flags : Flags) : Set String := {name | name ∈ flags}

/-- Flags with the same members are the same. -/
theorem eq_of_members_eq {flags others : Flags} (h : flags.members = others.members) :
    flags = others := by
  have hnodup : ∀ flags : Flags, flags.names.Nodup := by
    intro flags
    refine flags.increasing.imp ?_
    rintro name _ hlt rfl
    exact String.lt_irrefl name hlt
  have hnames : flags.names = others.names := by
    refine List.Perm.eq_of_pairwise ?_ flags.increasing others.increasing ?_
    · intro a b _ _ hlt hgt
      exact absurd hgt (String.lt_asymm hlt)
    · rw [List.perm_ext_iff_of_nodup (hnodup flags) (hnodup others)]
      exact fun name => Set.ext_iff.mp h name
  cases flags
  cases others
  cases hnames
  rfl

theorem members_empty : empty.members = ∅ :=
  Set.eq_empty_of_forall_notMem fun _ => List.not_mem_nil

theorem members_set (flags : Flags) (text : String) :
    (flags.set text).members = flags.members ∪ Text.runs text := by
  ext name
  show name ∈ flags.set text ↔ name ∈ flags ∨ name ∈ Text.runs text
  rw [mem_set, Text.mem_words_iff, or_comm]

theorem members_clear (flags : Flags) (text : String) :
    (flags.clear text).members = flags.members \ Text.runs text := by
  ext name
  show name ∈ flags.clear text ↔ name ∈ flags ∧ name ∉ Text.runs text
  rw [mem_clear, Text.mem_words_iff, and_comm]

theorem areSet_iff_subset {flags : Flags} {text : String} :
    flags.areSet text = true ↔ Text.runs text ⊆ flags.members := by
  rw [areSet_eq_true_iff]
  exact forall_congr' fun name => imp_congr_left Text.mem_words_iff

theorem areClear_iff_inter_eq_empty {flags : Flags} {text : String} :
    flags.areClear text = true ↔ Text.runs text ∩ flags.members = ∅ := by
  rw [areClear_eq_true_iff, Set.eq_empty_iff_forall_notMem]
  refine forall_congr' fun name => ?_
  rw [Text.mem_words_iff]
  exact not_and.symm

/-- Every flag that is set is a word. -/
def Worded (flags : Flags) : Prop := ∀ name ∈ flags, Text.IsWord name

theorem Worded.set {flags : Flags} (h : flags.Worded) (text : String) :
    (flags.set text).Worded := by
  intro name hmem
  rcases mem_set.mp hmem with hword | hold
  · exact Text.isWord_of_mem_words hword
  · exact h name hold

theorem Worded.clear {flags : Flags} (h : flags.Worded) (text : String) :
    (flags.clear text).Worded := fun name hmem => h name (mem_clear.mp hmem).2

theorem Worded.set_intercalate {flags : Flags} (h : flags.Worded) :
    Flags.empty.set (String.intercalate " " flags.names) = flags := by
  apply eq_of_members_eq
  ext name
  show name ∈ Flags.empty.set _ ↔ name ∈ flags
  rw [mem_set, Text.words_intercalate h]
  exact or_iff_left (List.not_mem_nil)

end Flags

/-! ### Calls -/

/-- What a host can ask of the flags of a machine. -/
inductive FlagCall where
  | set (text : String)
  | clear (text : String)
  | areSet (text : String)
  | areClear (text : String)

namespace FlagCall

/-- The answer to a call, and the machine after it. -/
def run (m : Machine) : FlagCall → Bool × Machine
  | set text => m.setFlags text
  | clear text => m.clearFlags text
  | areSet text => (m.flags.areSet text, m)
  | areClear text => (m.flags.areClear text, m)

/-- The machine after some calls. -/
def runAll (m : Machine) (calls : List FlagCall) : Machine :=
  calls.foldl (fun m call => (call.run m).2) m

/-- What a call makes of a set of names. -/
def apply (names : Set String) : FlagCall → Set String
  | set text => names ∪ Text.runs text
  | clear text => names \ Text.runs text
  | areSet _ | areClear _ => names

/-- What a call is to be affirmed for: that the set grows, that it shrinks, that it has all the
words, or that it has none. -/
def Affirms (names : Set String) : FlagCall → Prop
  | set text => names ⊆ apply names (set text) ∧ apply names (set text) ≠ names
  | clear text => apply names (clear text) ⊆ names ∧ apply names (clear text) ≠ names
  | areSet text => Text.runs text ⊆ names
  | areClear text => Text.runs text ∩ names = ∅

theorem members_run (m : Machine) (call : FlagCall) :
    (call.run m).2.flags.members = call.apply m.flags.members := by
  cases call with
  | set text => exact m.flags.members_set text
  | clear text => exact m.flags.members_clear text
  | areSet | areClear => rfl

theorem run_affirms_iff (m : Machine) (call : FlagCall) :
    (call.run m).1 = true ↔ call.Affirms m.flags.members := by
  cases call with
  | set text =>
    show (m.flags.setEach text).1 = true ↔ m.flags.members ⊆ m.flags.members ∪ Text.runs text ∧
      m.flags.members ∪ Text.runs text ≠ m.flags.members
    rw [Flags.setEach_eq, Bool.not_eq_true', ← Bool.not_eq_true, Flags.areSet_iff_subset, Ne,
      Set.union_eq_left]
    exact (and_iff_right Set.subset_union_left).symm
  | clear text =>
    show (m.flags.clearEach text).1 = true ↔ m.flags.members \ Text.runs text ⊆ m.flags.members ∧
      m.flags.members \ Text.runs text ≠ m.flags.members
    have hsame : m.flags.members \ Text.runs text = m.flags.members ↔
        Text.runs text ∩ m.flags.members = ∅ := by
      simp only [Set.ext_iff, Set.mem_sdiff, and_iff_left_iff_imp, Set.mem_inter_iff,
        Set.mem_empty_iff_false, iff_false, not_and]
      exact forall_congr' fun name =>
        ⟨fun h hrun hset => h hset hrun, fun h hset hrun => h hrun hset⟩
    rw [Flags.clearEach_eq, Bool.not_eq_true', ← Bool.not_eq_true,
      Flags.areClear_iff_inter_eq_empty, Ne, hsame]
    exact (and_iff_right fun name hname => hname.1).symm
  | areSet text => exact Flags.areSet_iff_subset
  | areClear text => exact Flags.areClear_iff_inter_eq_empty

theorem worded_run {m : Machine} (h : m.flags.Worded) (call : FlagCall) :
    (call.run m).2.flags.Worded := by
  cases call with
  | set text => exact h.set text
  | clear text => exact h.clear text
  | areSet | areClear => exact h

theorem members_runAll (m : Machine) (calls : List FlagCall) :
    (runAll m calls).flags.members = calls.foldl apply m.flags.members := by
  induction calls generalizing m with
  | nil => rfl
  | cons call rest ih =>
    rw [List.foldl_cons, ← members_run]
    exact ih _

theorem worded_runAll {m : Machine} (h : m.flags.Worded) (calls : List FlagCall) :
    (runAll m calls).flags.Worded := by
  induction calls generalizing m with
  | nil => exact h
  | cons call rest ih => exact ih (worded_run h call)

/-- After any calls on a new machine, the flags are the set that the calls make of the empty one.
The next call is affirmed as the set asks, all flags are words, and the line that lists them sets
the same flags again. -/
theorem flags_follow_sets (library : Library) (choiceDelay : Nat) (calls : List FlagCall) :
    let m := runAll (Machine.new library choiceDelay) calls
    let names := calls.foldl apply ∅
    let listed := String.intercalate " " m.flags.names
    m.flags.members = names ∧
    (∀ call : FlagCall, (call.run m).1 = true ↔ call.Affirms names) ∧
    (∀ name ∈ names, name ≠ "" ∧ ∀ c ∈ name.toList, Text.isBlank c = false) ∧
    (Player.flagLine m.flags =
      if m.flags.names = [] then "(no flags set)" else "flags: " ++ listed) ∧
    ((Machine.new library choiceDelay).setFlags listed).2.flags = m.flags := by
  intro m names listed
  have hmembers : m.flags.members = names := by
    rw [members_runAll]
    exact congrArg (fun set => calls.foldl apply set) Flags.members_empty
  have hnew : (Machine.new library choiceDelay).flags.Worded := List.forall_mem_nil _
  have hworded : m.flags.Worded := worded_runAll hnew calls
  refine ⟨hmembers, fun call => ?_, fun name hname => ?_, ?_, hworded.set_intercalate⟩
  · rw [← hmembers]
    exact run_affirms_iff m call
  · rw [← hmembers] at hname
    obtain ⟨hne, hblank⟩ := hworded name hname
    exact ⟨fun hempty => hne (by rw [hempty]; rfl), hblank⟩
  · rw [Player.flagLine]
    simp only [List.isEmpty_iff]
    rfl

end FlagCall

end StoryPlayer
