import Mathlib.Data.List.Basic
import StoryPlayer.Host.Report
import StoryPlayer.Proofs.Calls
import StoryPlayer.Proofs.FlagSets
import StoryPlayer.Proofs.JsonText
import StoryPlayer.Proofs.Trips

/-! Reports read back.  A report is printed line by line, each line with a label.  Labels of options
and the screen are written as JSON, which is one line whatever they hold; the names of flags are
written as they are, and that is one line because a flag is only ever set by a word of a text.  So a
text cut at its line feeds shows the lines that were printed, and these say what was reported. -/

namespace StoryPlayer

open Markup

/-! ### Flags are words -/

theorem Gate.Passed.worded {gate : Gate} {flags after : Flags} (h : gate.Passed flags after)
    (hflags : flags.Worded) : after.Worded := by
  cases h with
  | free => exact hflags
  | tripped => exact hflags.set _

theorem worded_consider (offers : List Offer) {state : Table Element × Flags}
    (h : state.2.Worded) : (offers.foldl consider state).2.Worded := by
  induction offers generalizing state with
  | nil => exact h
  | cons offer rest ih =>
    refine ih ?_
    rw [consider]
    split
    · next after hoffer => exact (Gate.passed_of_offer? hoffer).worded h
    · exact h

namespace Machine

@[simp] theorem putLine_flags (m : Machine) (markup : String) (speaker : Option String) :
    (m.putLine markup speaker).flags = m.flags := by
  simp only [putLine]
  split <;> rfl

theorem showText_flags (m : Machine) (markup : String) (speaker : Option String) :
    (m.showText markup speaker).flags = m.flags := by
  have hline := m.putLine_flags markup speaker
  simp only [showText]
  split
  · exact hline
  · split
    · exact hline
    · exact hline

/-- Whatever an element does, the flags that are set are words. -/
theorem worded_execute {m : Machine} (h : m.flags.Worded) (e : Element) :
    (m.execute e).2.flags.Worded := by
  rw [execute]
  split
  · next i hread =>
    cases i with
    | block gate =>
      simp only [perform]
      split
      · next flags henter => exact (Gate.passed_of_enterBlock? henter).worded h
      · exact h
    | text speaker =>
      show (m.showText e.markup speaker).flags.Worded
      rw [showText_flags]
      exact h
    | choice offers => exact worded_consider offers h
    | flag set clear =>
      have hset : (set.elim m.flags m.flags.set).Worded := by
        cases set with
        | none => exact h
        | some text => exact h.set text
      cases clear with
      | none => exact hset
      | some text => exact hset.clear text
    | call block =>
      show (m.call block).2.flags.Worded
      rw [call_agrees]
      exact h
    | goto block =>
      show (call _ block).2.flags.Worded
      rw [call_agrees]
      exact h
    | load file block =>
      simp only [perform, load]
      split
      · rw [install_flags]
        exact h
      · exact h
    | title | description | toDescription | clearScreen | pause | ignored => exact h
  · exact h

theorem worded_step {m : Machine} (h : m.flags.Worded) : m.step.2.flags.Worded := by
  refine step_keeps (P := fun after => after.flags.Worded) (fun _ => h) ?_ id ?_
  · intro e left result after _ hrun
    have hafter := worded_execute (m := m.take e left) h e
    rwa [hrun] at hafter
  · intro after hafter
    rw [finish_eq]
    exact hafter

theorem worded_tracked : Tracked fun _ m => m.flags.Worded where
  step hm := worded_step hm
  install file root block hm := by rwa [install_flags]
  start hm hstart := by rwa [hstart.flags_eq]
  set text hm := hm.set text
  clear text hm := hm.clear text
  write _ _ hm := hm

theorem worded_turn {bound : Nat} {m after : Machine} {turn : Turn} {result : Except Fault Unit}
    (h : m.flags.Worded) (hrun : turn.run bound m = some (result, after)) :
    after.flags.Worded := by
  obtain ⟨last, hlast, hends⟩ := @Tracked.operation _ worded_tracked [] m (.turn turn) bound h
  rw [← hends _ after (by rw [Operation.run, hrun]; rfl)]
  exact hlast

end Machine

namespace Session

theorem worded_keeps : Keeps fun m => m.flags.Worded where
  turn hm hrun := Machine.worded_turn hm hrun
  write _ _ hm := hm
  takeJournal hm := hm

theorem worded_runActions {library : Library} {file block : Option String} {delay : Nat}
    {session s : Session} (hopening : opening library file block delay = .ok session) {bound : Nat}
    {actions : List Action} (hrun : session.runActions bound actions = some (.ok s)) :
    s.machine.flags.Worded := by
  refine worded_keeps.runActions (worded_keeps.opening (fun entry root => ?_) hopening) hrun
  rw [Machine.install_flags]
  exact List.forall_mem_nil _

end Session

/-! ### Lines -/

/-- The pieces of a text between its line feeds. -/
def pieces (text : String) : List String := (text.toList.splitOn '\n').map String.ofList

/-- Lines that hold no line feed are found again, and nothing follows the last of them. -/
theorem pieces_joinLines {lines : List String} (h : ∀ line ∈ lines, '\n' ∉ line.toList) :
    pieces (joinLines lines) = lines ++ [""] := by
  have hcut : (joinLines lines).toList.splitOn '\n' = lines.map String.toList ++ [[]] := by
    rw [joinLines, String.toList_join]
    induction lines with
    | nil => rfl
    | cons line rest ih =>
      have hrest := ih fun other hmem => h other (List.mem_cons_of_mem _ hmem)
      rw [List.map_cons, List.flatMap_cons, String.toList_append, List.append_assoc,
        show "\n".toList = ['\n'] from rfl, List.singleton_append,
        List.splitOn_append_cons_self_of_not_mem (h line List.mem_cons_self), hrest]
      rfl
  rw [pieces, hcut]
  simp

/-- What follows a label in a line that begins with it. -/
def field? (label line : String) : Option String :=
  if label.toList.isPrefixOf line.toList then
    some (String.ofList (line.toList.drop label.toList.length))
  else none

theorem field?_append (label text : String) : field? label (label ++ text) = some text := by
  have hprefix := List.isPrefixOf_iff_prefix.mpr (List.prefix_append label.toList text.toList)
  rw [field?, String.toList_append, if_pos hprefix, List.drop_left, String.ofList_toList]

/-- A line with one label has no field with another, if no label begins with another. -/
theorem field?_of_other {label other : String} (h : label.toList.isPrefixOf other.toList = false)
    (h' : other.toList.isPrefixOf label.toList = false) (text : String) :
    field? label (other ++ text) = none := by
  rw [field?, String.toList_append, if_neg]
  intro hprefix
  rcases List.prefix_or_prefix_of_prefix (List.isPrefixOf_iff_prefix.mp hprefix)
    (List.prefix_append other.toList text.toList) with hlabel | hother
  · rw [List.isPrefixOf_iff_prefix.mpr hlabel] at h
    cases h
  · rw [List.isPrefixOf_iff_prefix.mpr hother] at h'
    cases h'

/-! ### Parts of a report -/

/-- The phase with a word in reports. -/
def Phase.labelled? (word : String) : Option Phase :=
  [running, paused .next, paused .choice, finished].find? fun phase => phase.label = word

theorem Phase.labelled?_label (phase : Phase) : labelled? phase.label = some phase := by
  cases phase with
  | paused pause => cases pause <;> rfl
  | running | finished => rfl

theorem Phase.ofJson?_toJson (phase : Phase) : ofJson? phase.toJson = some phase := by
  cases phase with
  | paused pause => cases pause <;> rfl
  | running | finished => rfl

theorem Phase.legible_toJson (phase : Phase) : phase.toJson.Legible := by
  cases phase with
  | paused pause =>
    refine Json.legible_object fun field hmem => ?_
    simp only [List.mem_cons, List.not_mem_nil, or_false] at hmem
    rcases hmem with rfl | rfl
    · exact Json.legible_string _
    · exact Json.legible_string _
  | running | finished =>
    refine Json.legible_object fun field hmem => ?_
    rw [List.mem_singleton.mp hmem]
    exact Json.legible_string _

theorem Screen.ofJson?_toJson (screen : Screen) : ofJson? screen.toJson = some screen := rfl

theorem Screen.legible_toJson (screen : Screen) : screen.toJson.Legible := by
  refine Json.legible_object fun field hmem => ?_
  simp only [List.mem_cons, List.not_mem_nil, or_false] at hmem
  rcases hmem with rfl | rfl | rfl | rfl | rfl <;> exact Json.legible_string _

theorem Json.legible_strings (texts : List String) : Legible (.array (texts.map .string)) := by
  refine legible_array fun item hmem => ?_
  obtain ⟨text, -, rfl⟩ := List.mem_map.mp hmem
  exact legible_string text

/-- The text that a JSON string stands for. -/
def Json.unquote? (text : String) : Option String := (parse? text).bind string?

theorem Json.unquote?_quote (text : String) : unquote? (quote text) = some text := by
  have hparse := (legible_string text).parse?
  rw [render] at hparse
  rw [unquote?, hparse]
  rfl

theorem mapM_map_eq_some {α β : Type} {write : α → β} {read : β → Option α}
    (h : ∀ x, read (write x) = some x) (items : List α) :
    (items.map write).mapM read = some items := by
  induction items with
  | nil => rfl
  | cons item rest ih =>
    rw [List.map_cons, List.mapM_cons, h, ih]
    rfl

namespace Report

/-- Reads a report. -/
def ofJson? (json : Json) : Option Report := do
  match ← json.record? ["state", "surfaces", "options", "flags"] with
  | [state, surfaces, .array options, .array flags] =>
    return ⟨← Phase.ofJson? state, ← Screen.ofJson? surfaces, ← options.mapM Json.string?,
      ← flags.mapM Json.string?⟩
  | _ => none

theorem ofJson?_toJson (report : Report) : ofJson? report.toJson = some report := by
  have hstrings : ∀ texts : List String, (texts.map Json.string).mapM Json.string? = some texts :=
    mapM_map_eq_some fun _ => rfl
  have hrecord : report.toJson.record? ["state", "surfaces", "options", "flags"] =
      some [report.phase.toJson, report.screen.toJson, .array (report.options.map .string),
        .array (report.flags.map .string)] := rfl
  simp only [ofJson?, hrecord, Option.bind_eq_bind, Option.bind_some, Phase.ofJson?_toJson,
    Screen.ofJson?_toJson, hstrings]
  rfl

theorem legible_toJson (report : Report) : report.toJson.Legible := by
  refine Json.legible_object fun field hmem => ?_
  simp only [List.mem_cons, List.not_mem_nil, or_false] at hmem
  rcases hmem with rfl | rfl | rfl | rfl
  · exact report.phase.legible_toJson
  · exact report.screen.legible_toJson
  · exact Json.legible_strings _
  · exact Json.legible_strings _

/-- The labels of lines. -/
def labels : List String :=
  ["RESULT:", "STATE:", "SURFACES_JSON:", "OPTION:", "FLAG:", "REPORT_JSON:"]

/-- The lines of the report, as labels and what follows them. -/
def entries (report : Report) : List (String × String) :=
  [("RESULT:", "OK"), ("STATE:", report.phase.label),
    ("SURFACES_JSON:", report.screen.toJson.render)]
    ++ report.options.map (fun label => ("OPTION:", Json.quote label))
    ++ report.flags.map (fun flag => ("FLAG:", flag))
    ++ [("REPORT_JSON:", report.toJson.render)]

theorem lines_eq (report : Report) :
    report.lines = report.entries.map fun entry => entry.1 ++ entry.2 := by
  simp [lines, entries, Function.comp_def]

/-- Each line has a label, and is one line if no flag has a line feed in its name. -/
theorem entries_cases {report : Report} (hflags : ∀ flag ∈ report.flags, '\n' ∉ flag.toList)
    {entry : String × String} (h : entry ∈ report.entries) :
    entry.1 ∈ labels ∧ '\n' ∉ entry.2.toList := by
  simp only [entries, List.mem_append, List.mem_cons, List.not_mem_nil, or_false,
    List.mem_map] at h
  rcases h with (((rfl | rfl | rfl) | ⟨label, -, rfl⟩) | ⟨flag, hmem, rfl⟩) | rfl
  · exact ⟨by decide, by decide⟩
  · refine ⟨by simp [labels], ?_⟩
    cases report.phase with
    | paused pause => cases pause <;> decide
    | running | finished => decide
  · exact ⟨by simp [labels], report.screen.legible_toJson.line⟩
  · exact ⟨by simp [labels], Json.newline_not_mem_quote label⟩
  · exact ⟨by simp [labels], hflags flag hmem⟩
  · exact ⟨by simp [labels], report.legible_toJson.line⟩

theorem pieces_lines {report : Report} (hflags : ∀ flag ∈ report.flags, '\n' ∉ flag.toList) :
    pieces (joinLines report.lines) = report.lines ++ [""] := by
  refine pieces_joinLines fun line hmem => ?_
  rw [lines_eq] at hmem
  obtain ⟨entry, hentry, rfl⟩ := List.mem_map.mp hmem
  obtain ⟨hlabel, hrest⟩ := entries_cases hflags hentry
  have hlabels : ∀ label ∈ labels, '\n' ∉ label.toList := by decide
  rw [String.toList_append, List.mem_append, not_or]
  exact ⟨hlabels entry.1 hlabel, hrest⟩

/-- Of lines with labels, those with one label are found by it: no label begins with another. -/
theorem filterMap_field? {label : String} (hlabel : label ∈ labels)
    {entries : List (String × String)} (h : ∀ entry ∈ entries, entry.1 ∈ labels) :
    (entries.map fun entry => entry.1 ++ entry.2).filterMap (field? label) =
      (entries.filter fun entry => entry.1 = label).map Prod.snd := by
  have hunlike : ∀ label ∈ labels, ∀ other ∈ labels, other = label ∨
      label.toList.isPrefixOf other.toList = false ∧
        other.toList.isPrefixOf label.toList = false := by decide
  induction entries with
  | nil => rfl
  | cons entry rest ih =>
    have hrest := ih fun other hmem => h other (List.mem_cons_of_mem _ hmem)
    rw [List.map_cons]
    rcases hunlike label hlabel entry.1 (h entry List.mem_cons_self) with
      heq | ⟨hbefore, hafter⟩
    · rw [List.filter_cons_of_pos (by simpa using heq), List.map_cons, ← hrest, heq,
        List.filterMap_cons_some (field?_append label entry.2)]
    · have hne : entry.1 ≠ label := by
        intro heq
        rw [heq, List.isPrefixOf_iff_prefix.mpr (List.prefix_refl _)] at hbefore
        cases hbefore
      rw [List.filter_cons_of_neg (by simpa using hne), ← hrest,
        List.filterMap_cons_none (field?_of_other hbefore hafter entry.2)]

/-- What the lines of a text with a label say, in order. -/
def found (text label : String) : List String := (pieces text).filterMap (field? label)

theorem found_lines {report : Report} (hflags : ∀ flag ∈ report.flags, '\n' ∉ flag.toList)
    {label : String} (hlabel : label ∈ labels) :
    found (joinLines report.lines) label =
      (report.entries.filter fun entry => entry.1 = label).map Prod.snd := by
  have hempty : ∀ label ∈ labels, field? label "" = none := by decide
  rw [found, pieces_lines hflags, lines_eq, List.filterMap_append,
    List.filterMap_cons_none (hempty label hlabel), List.filterMap_nil, List.append_nil]
  exact filterMap_field? hlabel fun entry hmem => (entries_cases hflags hmem).1

/-- The report that the lines of a text give. -/
def ofText? (text : String) : Option Report :=
  match found text "STATE:", found text "SURFACES_JSON:" with
  | [state], [surfaces] => do
    return ⟨← Phase.labelled? state, ← (Json.parse? surfaces).bind Screen.ofJson?,
      ← (found text "OPTION:").mapM Json.unquote?, found text "FLAG:"⟩
  | _, _ => none

theorem ofText?_lines {report : Report} (hflags : ∀ flag ∈ report.flags, '\n' ∉ flag.toList) :
    ofText? (joinLines report.lines) = some report := by
  have hstate : found (joinLines report.lines) "STATE:" = [report.phase.label] := by
    rw [found_lines hflags (by simp [labels])]
    simp [entries]
  have hsurfaces :
      found (joinLines report.lines) "SURFACES_JSON:" = [report.screen.toJson.render] := by
    rw [found_lines hflags (by simp [labels])]
    simp [entries]
  have hoptions :
      found (joinLines report.lines) "OPTION:" = report.options.map Json.quote := by
    rw [found_lines hflags (by simp [labels])]
    simp [entries, List.filter_map, Function.comp_def]
  have hnames : found (joinLines report.lines) "FLAG:" = report.flags := by
    rw [found_lines hflags (by simp [labels])]
    simp [entries, List.filter_map, Function.comp_def]
  have hscreen : (Json.parse? report.screen.toJson.render).bind Screen.ofJson? =
      some report.screen := by
    rw [report.screen.legible_toJson.parse?]
    exact report.screen.ofJson?_toJson
  simp only [ofText?, hstate, hsurfaces, hoptions, hnames, Phase.labelled?_label, hscreen,
    mapM_map_eq_some Json.unquote?_quote]
  rfl

/-- The report on a run of actions. -/
def Arises (report : Report) : Prop :=
  ∃ library file block delay session bound actions s,
    Session.opening library file block delay = .ok session ∧
    session.runActions bound actions = some (.ok s) ∧ ofSession s = report

theorem Arises.flags {report : Report} (h : report.Arises) :
    ∀ flag ∈ report.flags, '\n' ∉ flag.toList := by
  obtain ⟨library, file, block, delay, session, bound, actions, s, hopening, hrun, rfl⟩ := h
  intro flag hmem hnewline
  cases (Session.worded_runActions hopening hrun flag hmem).2 '\n' hnewline

/-- Whatever the story, its entry and the actions, line feeds cut the text of a report into the
lines that were printed, and nothing follows them.  Their parts give the report back, and so does
the last of them alone.  Hence reports with one text are one report. -/
theorem text_determines_report {report : Report} (h : report.Arises) :
    (∃ (state surfaces : String) (options : List String) (whole : String),
      pieces (joinLines report.lines) =
        ["RESULT:OK", "STATE:" ++ state, "SURFACES_JSON:" ++ surfaces]
          ++ options.map ("OPTION:" ++ ·) ++ report.flags.map ("FLAG:" ++ ·)
          ++ ["REPORT_JSON:" ++ whole, ""] ∧
      Phase.labelled? state = some report.phase ∧
      (Json.parse? surfaces).bind Screen.ofJson? = some report.screen ∧
      options.mapM Json.unquote? = some report.options ∧
      (Json.parse? whole).bind ofJson? = some report) ∧
    ofText? (joinLines report.lines) = some report ∧
    ∀ other : Report, other.Arises → joinLines other.lines = joinLines report.lines →
      other = report := by
  refine ⟨⟨report.phase.label, report.screen.toJson.render, report.options.map Json.quote,
    report.toJson.render, ?_, report.phase.labelled?_label, ?_,
    mapM_map_eq_some Json.unquote?_quote _, ?_⟩, ofText?_lines h.flags,
    fun other hother htext => ?_⟩
  · rw [pieces_lines h.flags, lines]
    simp [Function.comp_def]
  · rw [report.screen.legible_toJson.parse?]
    exact report.screen.ofJson?_toJson
  · rw [report.legible_toJson.parse?]
    exact report.ofJson?_toJson
  · have hread := ofText?_lines hother.flags
    rw [htext, ofText?_lines h.flags] at hread
    exact (Option.some.inj hread).symm

/-- A story with two flags, and with an option whose label has a line that looks like an option. -/
def lintel : Library :=
  [("main.xml",
    "<block id='s'><flag set='x y'/><choice><option of='a&#10;OPTION:b'/></choice></block>")]

/-- The option is reported as one, and the text of the report says so. -/
theorem text_determines_report_lintel :
    ∃ report : Report, report.Arises ∧ report.options = ["a\nOPTION:b"] ∧
      report.flags = ["x", "y"] ∧ ofText? (joinLines report.lines) = some report := by
  have hgoes : ((Session.opening lintel none none 300).toOption.bind fun session =>
      (session.runActions 4 []).bind fun result =>
        result.toOption.map fun s => (s.machine.labels, s.machine.flags.names)) =
      some (["a\nOPTION:b"], ["x", "y"]) := by decide +kernel
  cases hopening : Session.opening lintel none none 300 with
  | error fault =>
    rw [hopening] at hgoes
    cases hgoes
  | ok session =>
    rw [hopening, Except.toOption, Option.bind_some] at hgoes
    obtain ⟨result, hrun, hstands⟩ := Option.bind_eq_some_iff.mp hgoes
    cases result with
    | error fault => cases hstands
    | ok s =>
      obtain ⟨hoptions, hflags⟩ := Prod.mk.inj (Option.some.inj hstands)
      have harises : (ofSession s).Arises :=
        ⟨lintel, none, none, 300, session, 4, [], s, hopening, hrun, rfl⟩
      exact ⟨ofSession s, harises, hoptions, hflags, (text_determines_report harises).2.1⟩

end Report

end StoryPlayer
