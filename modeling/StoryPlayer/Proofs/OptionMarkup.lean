import Mathlib.Data.List.Basic
import StoryPlayer.Stage.Interaction

/-! The markup of active options can be read back.  Each link has its label twice, escaped in an
attribute and plain as its text.  The plain copy may hold anything, also what looks like the end of
the link or like another link; but the escaped copy comes first and ends at the next quote, and it
tells how long the plain one is.  So `labels?` finds the labels, whatever they are, and accepts no
markup but that of active options. -/

namespace StoryPlayer.Interaction

/-! ### Escaped text -/

/-- Reads an escaped text up to the quote that closes it: the text, and what follows the quote. -/
def readEscaped : List Char → Option (List Char × List Char)
  | [] => none
  | '"' :: rest => some ([], rest)
  | '&' :: 'a' :: 'm' :: 'p' :: ';' :: rest => (readEscaped rest).map (Prod.map ('&' :: ·) id)
  | '&' :: 'q' :: 'u' :: 'o' :: 't' :: ';' :: rest =>
    (readEscaped rest).map (Prod.map ('"' :: ·) id)
  | '&' :: 'l' :: 't' :: ';' :: rest => (readEscaped rest).map (Prod.map ('<' :: ·) id)
  | c :: rest =>
    if c = '&' ∨ c = '<' then none else (readEscaped rest).map (Prod.map (c :: ·) id)

theorem escapeChar_of_plain {c : Char} (hamp : c ≠ '&') (hquote : c ≠ '"') (hless : c ≠ '<') :
    escapeChar c = [c] := by
  rw [escapeChar, if_neg hamp, if_neg hquote, if_neg hless]

theorem readEscaped_escapeChar (c : Char) (rest : List Char) :
    readEscaped (escapeChar c ++ rest) = (readEscaped rest).map (Prod.map (c :: ·) id) := by
  by_cases hamp : c = '&'
  · subst hamp; rfl
  by_cases hquote : c = '"'
  · subst hquote; rfl
  by_cases hless : c = '<'
  · subst hless; rfl
  · rw [escapeChar_of_plain hamp hquote hless, List.singleton_append, readEscaped, if_neg]
    · simp [hamp, hless]
    · exact hquote
    all_goals exact fun _ h _ => hamp h

theorem readEscaped_escaped (text rest : List Char) :
    readEscaped (text.flatMap escapeChar ++ '"' :: rest) = some (text, rest) := by
  induction text with
  | nil => rfl
  | cons c text ih =>
    rw [List.flatMap_cons, List.append_assoc, readEscaped_escapeChar, ih]
    rfl

theorem eq_of_map_cons {c : Char} {read : Option (List Char × List Char)} {text rest : List Char}
    (h : read.map (Prod.map (c :: ·) id) = some (text, rest)) :
    ∃ tail, read = some (tail, rest) ∧ text = c :: tail := by
  obtain ⟨⟨tail, after⟩, hread, heq⟩ := Option.map_eq_some_iff.mp h
  cases heq
  exact ⟨tail, hread, rfl⟩

/-- Nothing reads as a text but its escaped form. -/
theorem eq_of_readEscaped {input text rest : List Char}
    (h : readEscaped input = some (text, rest)) :
    input = text.flatMap escapeChar ++ '"' :: rest := by
  fun_induction readEscaped input generalizing text with
  | case1 => cases h
  | case2 => cases h; rfl
  | case3 _ ih | case4 _ ih | case5 _ ih =>
    obtain ⟨tail, hread, rfl⟩ := eq_of_map_cons h
    rw [ih hread]
    rfl
  | case6 => cases h
  | case7 c input hquote _ _ _ hplain ih =>
    obtain ⟨tail, hread, rfl⟩ := eq_of_map_cons h
    obtain ⟨hamp, hless⟩ := not_or.mp hplain
    rw [ih hread, List.flatMap_cons, escapeChar_of_plain hamp hquote hless]
    rfl

theorem toList_escape (text : String) : (escape text).toList = text.toList.flatMap escapeChar :=
  String.toList_ofList

theorem escape_injective : Function.Injective escape := by
  intro first second h
  have hsame := congrArg (fun text => readEscaped (text.toList ++ ['"'])) h
  simp only [toList_escape, readEscaped_escaped] at hsame
  exact String.toList_inj.mp (Prod.mk.inj (Option.some.inj hsame)).1

/-- What an ampersand in an escaped text begins, without the ampersand. -/
def references : List (List Char) := ["amp;".toList, "quot;".toList, "lt;".toList]

theorem plain_of_mem_references :
    ∀ name ∈ references, '&' ∉ name ∧ '"' ∉ name ∧ '<' ∉ name := by decide

theorem escapeChar_cases (c : Char) :
    (∃ name ∈ references, escapeChar c = '&' :: name) ∨
      escapeChar c = [c] ∧ c ≠ '&' ∧ c ≠ '"' ∧ c ≠ '<' := by
  fun_cases escapeChar c with
  | case1 | case2 | case3 => exact .inl ⟨_, by decide, rfl⟩
  | case4 hamp hquote hless => exact .inr ⟨rfl, hamp, hquote, hless⟩

theorem not_mem_escape (text : String) :
    '"' ∉ (escape text).toList ∧ '<' ∉ (escape text).toList := by
  simp only [toList_escape, List.mem_flatMap, not_exists, not_and]
  refine ⟨fun c _ => ?_, fun c _ => ?_⟩
  all_goals
    rcases escapeChar_cases c with ⟨name, hname, heq⟩ | ⟨heq, -, hquote, hless⟩
    · have hplain := plain_of_mem_references name hname
      simp [heq, hplain]
    · simp [heq, hquote.symm, hless.symm]

theorem exists_of_not_mem {front rest before after : List Char} {c : Char} (hc : c ∉ front)
    (h : front ++ rest = before ++ c :: after) : ∃ between, rest = between ++ c :: after := by
  rcases List.append_eq_append_iff.mp h with ⟨between, -, hrest⟩ | ⟨between, hfront, hrest⟩
  · exact ⟨between, hrest⟩
  · cases between with
    | nil => exact ⟨[], hrest.symm⟩
    | cons d between =>
      obtain ⟨rfl, -⟩ := List.cons.inj hrest
      exact absurd (by simp [hfront]) hc

/-- By induction on the text: an ampersand begins what its first character became, or it stands in
what the others became. -/
theorem reference_of_escaped {text before after : List Char}
    (h : text.flatMap escapeChar = before ++ '&' :: after) :
    ∃ name ∈ references, name <+: after := by
  induction text generalizing before with
  | nil => simp at h
  | cons c text ih =>
    rw [List.flatMap_cons] at h
    rcases escapeChar_cases c with ⟨name, hname, heq⟩ | ⟨heq, hamp, -⟩
    · rw [heq, List.cons_append] at h
      cases before with
      | nil => exact ⟨name, hname, ⟨_, (List.cons.inj h).2⟩⟩
      | cons first before =>
        obtain ⟨between, hrest⟩ :=
          exists_of_not_mem (plain_of_mem_references name hname).1 (List.cons.inj h).2
        exact ih hrest
    · obtain ⟨between, hrest⟩ := exists_of_not_mem (by simp [heq, hamp.symm]) h
      exact ih hrest

/-! ### Links -/

def linkStart : String := "<a data-exif-action=\"choose\" data-exif-option=\""

def linkEnd : String := "</a><br/>"

theorem toList_optionLink (label : String) :
    (optionLink true label).toList = linkStart.toList ++ (label.toList.flatMap escapeChar ++
      '"' :: ('>' :: label.toList ++ linkEnd.toList)) := by
  have hclose : "\">".toList = ['"', '>'] := rfl
  show (linkStart ++ escape label ++ "\">" ++ label ++ linkEnd).toList = _
  simp only [String.toList_append, toList_escape, hclose, List.append_assoc, List.cons_append,
    List.nil_append]

theorem length_optionLink_pos (label : String) : 0 < (optionLink true label).toList.length := by
  have hstart : 0 < linkStart.toList.length := by decide
  rw [toList_optionLink, List.length_append]
  omega

/-- Reads an active link: its label, and what follows the link.  The escaped label says how much of
what comes after it is the plain one. -/
def readLink (text : List Char) : Option (String × List Char) := do
  let text ← linkStart.toList.isPrefixOf? text
  let (label, text) ← readEscaped text
  let text ← ('>' :: label ++ linkEnd.toList).isPrefixOf? text
  return (String.ofList label, text)

theorem readLink_eq_some_iff {text rest : List Char} {label : String} :
    readLink text = some (label, rest) ↔ text = (optionLink true label).toList ++ rest := by
  rw [toList_optionLink, readLink]
  simp only [Option.bind_eq_bind, Option.bind_eq_some_iff, Option.pure_def, Option.some.injEq,
    Prod.exists, Prod.mk.injEq, List.isPrefixOf?_eq_some_iff_append_eq]
  constructor
  · rintro ⟨value, rfl, chars, body, hvalue, after, rfl, rfl, rfl⟩
    rw [eq_of_readEscaped hvalue, String.toList_ofList]
    simp only [List.append_assoc, List.cons_append]
  · rintro rfl
    refine ⟨_, (List.append_assoc ..).symm, label.toList, _, ?_, rest, rfl, String.ofList_toList,
      rfl⟩
    rw [List.append_assoc]
    exact readEscaped_escaped _ _

/-- Reads active links up to the end of a text. -/
def readLinks (text : List Char) : Option (List String) :=
  if text = [] then some []
  else match _ : readLink text with
    | some (label, rest) => (readLinks rest).map (label :: ·)
    | none => none
termination_by text.length
decreasing_by
  have hpos := length_optionLink_pos label
  rw [readLink_eq_some_iff.mp ‹readLink text = some (label, rest)›, List.length_append]
  omega

theorem readLinks_eq_some_iff {text : List Char} {labels : List String} :
    readLinks text = some labels ↔
      text = labels.flatMap fun label => (optionLink true label).toList := by
  constructor
  · intro h
    fun_induction readLinks text generalizing labels with
    | case1 => cases h; rfl
    | case2 text _ label rest hread ih =>
      obtain ⟨others, hothers, rfl⟩ := Option.map_eq_some_iff.mp h
      rw [readLink_eq_some_iff.mp hread, List.flatMap_cons, ← ih hothers]
    | case3 => cases h
  · rintro rfl
    induction labels with
    | nil => rw [List.flatMap_nil, readLinks, if_pos rfl]
    | cons label labels ih =>
      have hpos := length_optionLink_pos label
      have hread :
          readLink ((label :: labels).flatMap fun label => (optionLink true label).toList) =
            some (label, labels.flatMap fun label => (optionLink true label).toList) :=
        readLink_eq_some_iff.mpr List.flatMap_cons
      rw [readLinks, if_neg]
      · split
        · next hfound =>
          rw [hread] at hfound
          cases hfound
          rw [ih]
          rfl
        · next hnone =>
          rw [hread] at hnone
          cases hnone
      · intro hnil
        rw [List.flatMap_cons, List.append_eq_nil_iff] at hnil
        rw [hnil.1] at hpos
        exact absurd hpos (Nat.lt_irrefl 0)

/-- The labels of the active options that a markup shows, if it is the markup of active options. -/
def labels? (markup : String) : Option (List String) := readLinks markup.toList

theorem labels?_eq_some_iff {markup : String} {labels : List String} :
    labels? markup = some labels ↔ markup = (options labels true).render := by
  rw [labels?, readLinks_eq_some_iff, ← String.toList_inj, render, String.toList_join,
    List.flatMap_map]

/-- Active options can be told from their markup, and from no other markup; and an escaped text can
be told from what it escapes. -/
theorem active_markup_determines_labels :
    (∀ labels, labels? (options labels true).render = some labels) ∧
    (∀ markup labels, labels? markup = some labels → (options labels true).render = markup) ∧
    Function.Injective (fun labels => (options labels true).render) ∧
    Function.Injective escape ∧
    ∀ text, '"' ∉ (escape text).toList ∧ '<' ∉ (escape text).toList ∧
      ∀ before after, (escape text).toList = before ++ '&' :: after →
        ∃ name ∈ ["amp;", "quot;", "lt;"], name.toList <+: after := by
  have hread : ∀ labels, labels? (options labels true).render = some labels :=
    fun labels => labels?_eq_some_iff.mpr rfl
  refine ⟨hread, fun markup labels h => (labels?_eq_some_iff.mp h).symm,
    fun first second h => ?_, escape_injective, fun text => ⟨(not_mem_escape text).1,
      (not_mem_escape text).2, fun before after h => ?_⟩⟩
  · have hsame := congrArg labels? h
    rw [hread, hread] at hsame
    exact Option.some.inj hsame
  · rw [toList_escape] at h
    obtain ⟨name, hname, hprefix⟩ := reference_of_escaped h
    obtain ⟨word, hword, rfl⟩ : ∃ word ∈ ["amp;", "quot;", "lt;"], word.toList = name :=
      List.mem_map.mp hname
    exact ⟨word, hword, hprefix⟩

end StoryPlayer.Interaction
