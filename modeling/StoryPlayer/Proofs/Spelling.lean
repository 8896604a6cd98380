import Mathlib.Data.List.Infix
import StoryPlayer.Markup.Item

/-! How tags and the pieces between them are spelled, as conditions on the text alone.  What a
program of the reader takes from a source, if it does not fail, is spelled as its answer says. -/

namespace StoryPlayer.Markup

/-! ### The grammar -/

/-- Spaces, or nothing. -/
def IsGap (text : List Char) : Prop := ∀ x ∈ text, isSpace x = true

/-- The text is a name, of a tag or an attribute. -/
def Names (text : List Char) (name : QName) : Prop :=
  (∀ x ∈ text, isNameChar x = true) ∧ QName.ofChars? text = some name

/-- The text gives a value to a name.  The value is what stands between the quotes. -/
inductive SpellsAttribute : List Char → QName → List Char → Prop
  | mk {word gap₁ gap₂ value : List Char} {name : QName} {mark : Char} :
      Names word name → IsGap gap₁ → IsGap gap₂ → mark = '\'' ∨ mark = '"' →
      mark ∉ value → '<' ∉ value →
      SpellsAttribute (word ++ gap₁ ++ ['='] ++ gap₂ ++ [mark] ++ value ++ [mark]) name value

/-- The text between the quotes stands for a value: a reference for its character, and a line break
or a tab for a space. -/
inductive Normalizes : List Char → List Char → Prop
  | nil : Normalizes [] []
  | reference {rest value : List Char} {reference : Reference} {width : Nat} {place : Location}
      {x : Char} :
      Reference.read? rest = some (reference, width) → reference.resolve place = .ok x →
      Normalizes (rest.drop (width + 1)) value → Normalizes ('&' :: rest) (x :: value)
  | lineBreak {rest value : List Char} :
      Normalizes rest value → Normalizes ('\r' :: '\n' :: rest) (' ' :: value)
  | character {x : Char} {rest value : List Char} :
      x ≠ '&' → (x = '\r' → rest.head? ≠ some '\n') → Normalizes rest value →
      Normalizes (x :: rest) ((if isSpace x then ' ' else x) :: value)

inductive SpellsAttributes : List Char → List (QName × List Char) → Prop
  | nil : SpellsAttributes [] []
  | cons {gap text rest value : List Char} {name : QName} {others : List (QName × List Char)} :
      IsGap gap → gap ≠ [] → SpellsAttribute text name value → SpellsAttributes rest others →
      SpellsAttributes (gap ++ text ++ rest) ((name, value) :: others)

/-- The attributes of a start tag as they are written, and with their values. -/
def Valued (written : List (QName × List Char)) (values : List (QName × String)) : Prop :=
  List.Forall₂ (fun w v => w.1 = v.1 ∧ Normalizes w.2 v.2.toList) written values

/-- Whether an attribute of that name declares a name space. -/
def QName.declares (name : QName) : Bool := name.space = "xmlns" || name.base = "xmlns"

/-- What a start tag ends with. -/
def tagEnd (empty : Bool) : List Char := if empty then ['/', '>'] else ['>']

/-- The text is a start tag, or an empty-element tag if `empty`. -/
inductive SpellsStart : List Char → QName → List (QName × List Char) → Bool → Prop
  | mk {word middle gap : List Char} {name : QName} {attributes : List (QName × List Char)}
      {empty : Bool} :
      Names word name → SpellsAttributes middle attributes → IsGap gap →
      SpellsStart (['<'] ++ word ++ middle ++ gap ++ tagEnd empty) name attributes empty

inductive SpellsEnd : List Char → QName → Prop
  | mk {word gap : List Char} {name : QName} :
      Names word name → IsGap gap → SpellsEnd (['<', '/'] ++ word ++ gap ++ ['>']) name

/-- The pieces that stand between a start tag and its end tag, other than elements. -/
inductive Kind where
  | comment
  | instruction
  | text
  | cdata
  deriving DecidableEq, Repr

/-- Text and CDATA sections are character data. -/
def Kind.isCharacters : Kind → Bool
  | text | cdata => true
  | comment | instruction => false

inductive Kind.Spells : Kind → List Char → Prop
  | comment {body : List Char} :
      ¬['-', '-'] <:+: body → body.getLast? ≠ some '-' →
      Spells comment ("<!--".toList ++ body ++ "-->".toList)
  | instruction {target gap body : List Char} :
      startsName target = true → (∀ x ∈ target, isNameChar x = true) → IsGap gap →
      ¬"?>".toList <:+: body →
      Spells instruction ("<?".toList ++ target ++ gap ++ body ++ "?>".toList)
  | text {body : List Char} :
      body ≠ [] → '<' ∉ body → ¬"]]>".toList <:+: body → Spells text body
  | cdata {body : List Char} :
      ¬"]]>".toList <:+: body → Spells cdata ("<![CDATA[".toList ++ body ++ "]]>".toList)

/-! ### The text between two cursors -/

namespace Cursor

/-- `text` is what lies between `c` and `d`. -/
structure Takes (c : Cursor) (text : List Char) (d : Cursor) : Prop where
  rest : c.rest = text ++ d.rest
  location : d.location = c.location.after text
  offset : d.offset = c.offset + text.length

theorem Takes.refl (c : Cursor) : c.Takes [] c := ⟨rfl, rfl, rfl⟩

theorem Takes.trans {c d e : Cursor} {text more : List Char} (h : c.Takes text d)
    (hmore : d.Takes more e) : c.Takes (text ++ more) e where
  rest := by rw [h.rest, hmore.rest, List.append_assoc]
  location := by rw [hmore.location, h.location, Location.after_append]
  offset := by rw [hmore.offset, h.offset, List.length_append, Nat.add_assoc]

theorem Takes.eq_of_nil {c d : Cursor} (h : c.Takes [] d) : c = d := by
  cases c
  cases d
  obtain ⟨hrest, hlocation, hoffset⟩ := h
  cases hrest
  cases hlocation
  cases hoffset
  rfl

theorem takes_advance (c : Cursor) (n : Nat) : c.Takes (c.rest.take n) (c.advance n) :=
  ⟨(List.take_append_drop n c.rest).symm, rfl, rfl⟩

theorem takes_of_leads {c : Cursor} {text : List Char} (h : text <+: c.rest) :
    c.Takes text (c.advance text.length) := by
  have htake := c.takes_advance text.length
  rwa [← List.prefix_iff_eq_take.mp h] at htake

theorem takes_cons {c : Cursor} {x : Char} {rest : List Char} (h : c.rest = x :: rest) :
    c.Takes [x] (c.advance 1) :=
  takes_of_leads ⟨rest, h.symm⟩

theorem takes_takeWhile (c : Cursor) (p : Char → Bool) :
    c.Takes (c.rest.takeWhile p) (c.advance (c.rest.takeWhile p).length) :=
  takes_of_leads (List.takeWhile_prefix p)

theorem startsWith_iff {c : Cursor} {text : String} :
    c.startsWith text = true ↔ text.toList <+: c.rest := List.isPrefixOf_iff_prefix

theorem takes_of_startsWith {c : Cursor} {text : String} (h : c.startsWith text = true) :
    c.Takes text.toList (c.advance text.toList.length) :=
  takes_of_leads (startsWith_iff.mp h)

theorem Reaches.takes {c d : Cursor} (h : c.Reaches d) : ∃ text, c.Takes text d := by
  obtain ⟨n, rfl⟩ := h
  exact ⟨_, c.takes_advance n⟩

end Cursor

theorem Scan.of_lift {α : Type} {result : Except ReadError α} {c d : Cursor} {a : α}
    (h : (liftM result : Scan α) c = .ok (a, d)) : result = .ok a ∧ c = d := by
  cases result with
  | error err => cases h
  | ok value =>
    cases h
    exact ⟨rfl, rfl⟩

/-! ### Characters and marks -/

theorem takeWhile_takes {p : Char → Bool} {c d : Cursor} {cs : List Char}
    (h : takeWhile p c = .ok (cs, d)) : c.Takes cs d ∧ ∀ x ∈ cs, p x = true := by
  have htake : c.rest.take (c.rest.takeWhile p).length = c.rest.takeWhile p :=
    (List.prefix_iff_eq_take.mp (List.takeWhile_prefix p)).symm
  cases h
  rw [htake]
  exact ⟨c.takes_takeWhile p, List.all_eq_true.mp List.all_takeWhile⟩

theorem isGap_takeWhile (cs : List Char) : IsGap (cs.takeWhile isSpace) :=
  List.all_eq_true.mp List.all_takeWhile

theorem skipSpaces_takes {c d : Cursor} (h : skipSpaces c = .ok ((), d)) :
    ∃ gap, c.Takes gap d ∧ IsGap gap := by
  obtain ⟨gap, e, htake, hpure⟩ := Scan.of_bind h
  cases hpure
  exact ⟨gap, takeWhile_takes htake⟩

theorem prefix_before (stop : List Char → Bool) (cs : List Char) : before stop cs <+: cs := by
  induction cs with
  | nil => exact List.prefix_rfl
  | cons x rest ih =>
    rw [before]
    split
    · exact List.nil_prefix
    · exact List.cons_prefix_cons.mpr ⟨rfl, ih⟩

/-- Nothing is left, or what is left is accepted. -/
theorem stop_drop_before (stop : List Char → Bool) (cs : List Char) :
    cs.drop (before stop cs).length = [] ∨ stop (cs.drop (before stop cs).length) = true := by
  induction cs with
  | nil => exact .inl rfl
  | cons x rest ih =>
    rw [before]
    split
    · next hstop => exact .inr hstop
    · exact ih

theorem not_infix_before {pattern : List Char} (hne : pattern ≠ []) (cs : List Char) :
    ¬pattern <:+: before pattern.isPrefixOf cs := by
  induction cs with
  | nil => exact fun h => hne (List.infix_nil.mp h)
  | cons x rest ih =>
    rw [before]
    split
    · exact fun h => hne (List.infix_nil.mp h)
    · next hstop =>
      intro h
      rcases List.infix_cons_iff.mp h with hhere | hlater
      · refine hstop (List.isPrefixOf_iff_prefix.mpr (hhere.trans ?_))
        exact List.cons_prefix_cons.mpr ⟨rfl, prefix_before _ rest⟩
      · exact ih hlater

theorem takeUpTo_takes {stop : List Char → Bool} {c d : Cursor} {cs : List Char}
    (h : takeUpTo stop c = .ok (cs, d)) :
    c.Takes cs d ∧ cs = before stop c.rest ∧ (d.rest = [] ∨ stop d.rest = true) := by
  have hleads := prefix_before stop c.rest
  have htake := (List.prefix_iff_eq_take.mp hleads).symm
  obtain ⟨_, _, hget, h⟩ := Scan.of_bind h
  cases hget
  cases hbad : (before stop c.rest).dropWhile isAllowed with
  | nil =>
    simp only [hbad] at h
    cases h
    rw [htake]
    exact ⟨Cursor.takes_of_leads hleads, rfl, stop_drop_before stop c.rest⟩
  | cons bad rest =>
    simp only [hbad] at h
    cases h

theorem takeUpToText_takes {text : String} (hne : text.toList ≠ []) {c d : Cursor} {cs : List Char}
    (h : takeUpToText text c = .ok (cs, d)) : c.Takes cs d ∧ ¬text.toList <:+: cs := by
  obtain ⟨htakes, hbefore, -⟩ := takeUpTo_takes h
  refine ⟨htakes, ?_⟩
  rw [hbefore]
  exact not_infix_before hne c.rest

theorem expect_takes {wanted : Char} {c d : Cursor} (h : expect wanted c = .ok ((), d)) :
    c.Takes [wanted] d := by
  obtain ⟨_, _, hget, h⟩ := Scan.of_bind h
  cases hget
  cases hrest : c.rest with
  | nil =>
    rw [hrest] at h
    cases h
  | cons found rest =>
    simp only [hrest] at h
    split at h
    · next hfound =>
      cases h
      exact Cursor.takes_cons (hfound ▸ hrest)
    · cases h

theorem expectText_takes {wanted : String} {c d : Cursor}
    (h : expectText wanted c = .ok ((), d)) : c.Takes wanted.toList d := by
  obtain ⟨found, _, hahead, h⟩ := Scan.of_bind h
  cases hahead
  split at h
  · next hfound =>
    cases h
    exact Cursor.takes_of_startsWith hfound
  · cases h

theorem quote_takes {mark : Char} {c d : Cursor} (h : quote c = .ok (mark, d)) :
    c.Takes [mark] d ∧ (mark = '\'' ∨ mark = '"') := by
  obtain ⟨_, _, hget, h⟩ := Scan.of_bind h
  cases hget
  cases hrest : c.rest with
  | nil =>
    rw [hrest] at h
    cases h
  | cons found rest =>
    simp only [hrest] at h
    split at h
    · next hfound =>
      cases h
      exact ⟨Cursor.takes_cons hrest, by simpa using hfound⟩
    · cases h

/-! ### Names and tags -/

theorem readName_takes {name : String} {c d : Cursor} (h : readName c = .ok (name, d)) :
    c.Takes name.toList d ∧ startsName name.toList = true ∧
      ∀ x ∈ name.toList, isNameChar x = true := by
  obtain ⟨_, _, hget, h⟩ := Scan.of_bind h
  cases hget
  cases hname : leadingName c.rest with
  | nil =>
    rw [hname] at h
    cases h
  | cons x rest =>
    rw [hname] at h
    cases h
    rw [leadingName] at hname
    split at hname
    · next hstart =>
      have hleads : x :: rest <+: c.rest := hname ▸ List.takeWhile_prefix _
      rw [String.toList_ofList]
      refine ⟨Cursor.takes_of_leads hleads, ?_, ?_⟩
      · obtain ⟨more, hmore⟩ := hleads
        rw [← hmore] at hstart
        exact hstart
      · rw [← hname]
        exact List.all_eq_true.mp List.all_takeWhile
    · cases hname

theorem readQName_takes {name : QName} {c d : Cursor} (h : readQName c = .ok (name, d)) :
    ∃ word, c.Takes word d ∧ Names word name := by
  obtain ⟨_, _, hplace, h⟩ := Scan.of_bind h
  cases hplace
  obtain ⟨word, e, hword, h⟩ := Scan.of_bind h
  obtain ⟨htakes, hchars⟩ := takeWhile_takes hword
  cases hname : QName.ofChars? word with
  | none =>
    rw [hname] at h
    cases h
  | some found =>
    rw [hname] at h
    cases h
    exact ⟨word, htakes, hchars, hname⟩

theorem forall_mem_before {a b : Char} (cs : List Char) :
    ∀ x ∈ before (fun rest => rest.head? == some a || rest.head? == some b) cs,
      x ≠ a ∧ x ≠ b := by
  induction cs with
  | nil => simp [before]
  | cons y rest ih =>
    rw [before]
    split
    · simp
    · next hstop =>
      intro x hx
      rcases List.mem_cons.mp hx with rfl | hrest
      · simpa using hstop
      · exact ih x hrest

theorem readWritten_takes {written : WrittenAttribute} {c d : Cursor}
    (h : readWritten c = .ok (written, d)) :
    ∃ text, c.Takes text d ∧ SpellsAttribute text written.name written.value.rest := by
  obtain ⟨_, _, hplace, h⟩ := Scan.of_bind h
  cases hplace
  obtain ⟨name, c₁, hname, h⟩ := Scan.of_bind h
  obtain ⟨_, c₂, hgap₁, h⟩ := Scan.of_bind h
  obtain ⟨_, c₃, hequals, h⟩ := Scan.of_bind h
  obtain ⟨_, c₄, hgap₂, h⟩ := Scan.of_bind h
  obtain ⟨mark, c₅, hmark, h⟩ := Scan.of_bind h
  obtain ⟨_, _, hget, h⟩ := Scan.of_bind h
  cases hget
  obtain ⟨value, c₆, hvalue, h⟩ := Scan.of_bind h
  obtain ⟨_, c₇, hclose, h⟩ := Scan.of_bind h
  cases h
  obtain ⟨word, hword, hspelled⟩ := readQName_takes hname
  obtain ⟨gap₁, hgap₁, hisGap₁⟩ := skipSpaces_takes hgap₁
  obtain ⟨gap₂, hgap₂, hisGap₂⟩ := skipSpaces_takes hgap₂
  obtain ⟨hmark, hquote⟩ := quote_takes hmark
  obtain ⟨hvalue, hbefore, -⟩ := takeUpTo_takes hvalue
  have hopen := (((hword.trans hgap₁).trans (expect_takes hequals)).trans hgap₂).trans hmark
  have hchars : ∀ x ∈ value, x ≠ mark ∧ x ≠ '<' := by
    rw [hbefore]
    exact forall_mem_before c₅.rest
  refine ⟨_, (hopen.trans hvalue).trans (expect_takes hclose), ?_⟩
  exact .mk hspelled hisGap₁ hisGap₂ hquote (fun hx => (hchars _ hx).1 rfl)
    fun hx => (hchars _ hx).2 rfl

theorem normalized_normalizes {c : Cursor} {value : List Char} (h : normalized c = .ok value) :
    Normalizes c.rest value := by
  fun_induction normalized c generalizing value with
  | case1 c hc =>
    cases h
    rw [hc]
    exact .nil
  | case2 => cases h
  | case3 c rest hc reference width hread ih =>
    obtain ⟨x, hx, h⟩ := bind_eq_ok h
    obtain ⟨others, hothers, h⟩ := bind_eq_ok h
    cases h
    have hrest : (c.advance (width + 2)).rest = rest.drop (width + 1) := by
      rw [Cursor.advance, hc, List.drop_succ_cons]
    rw [hc]
    exact .reference hread hx (hrest ▸ ih hothers)
  | case4 c rest hc ih =>
    obtain ⟨others, hothers, h⟩ := bind_eq_ok h
    cases h
    have hrest : (c.advance 2).rest = rest := by rw [Cursor.advance, hc, List.drop_succ_cons]; rfl
    rw [hc]
    exact .lineBreak (hrest ▸ ih hothers)
  | case5 c x rest hreference hbreak hc ih =>
    obtain ⟨others, hothers, h⟩ := bind_eq_ok h
    cases h
    have hrest : (c.advance 1).rest = rest := by rw [Cursor.advance, hc, List.drop_succ_cons]; rfl
    rw [hc]
    refine .character hreference (fun hx hhead => ?_) (hrest ▸ ih hothers)
    obtain ⟨tail, htail⟩ := List.head?_eq_some_iff.mp hhead
    exact hbreak tail hx htail

theorem readAttribute_takes {a : Attribute} {c d : Cursor} (h : readAttribute c = .ok (a, d)) :
    ∃ text written, c.Takes text d ∧ SpellsAttribute text a.name written ∧
      Normalizes written a.value.toList := by
  obtain ⟨written, e, hwritten, h⟩ := Scan.of_bind h
  obtain ⟨value, _, hvalue, h⟩ := Scan.of_bind h
  obtain ⟨hnormal, rfl⟩ := Scan.of_lift hvalue
  cases h
  obtain ⟨text, htakes, hspelled⟩ := readWritten_takes hwritten
  rw [String.toList_ofList]
  exact ⟨text, _, htakes, hspelled, normalized_normalizes hnormal⟩

theorem Tag.name_add {tag t : Tag} {a : Attribute} (h : tag.add a = .ok t) : t.name = tag.name := by
  rw [add] at h
  repeat' split at h
  all_goals cases h
  all_goals rfl

/-- The attributes that have been read, by their names. -/
def Tag.named (tag : Tag) : List (QName × String) := tag.attributes.map fun a => (a.name, a.value)

theorem Tag.named_add {tag t : Tag} {a : Attribute} (h : tag.add a = .ok t) :
    t.named = tag.named ++ [(a.name, a.value)].filter fun v => !v.1.declares := by
  rw [List.filter_singleton, QName.declares]
  rw [add] at h
  split at h
  · next hspace =>
    have hnone : t.attributes = tag.attributes := by
      repeat' split at h
      all_goals cases h
      all_goals rfl
    simp [named, hnone, hspace]
  · next hspace =>
    split at h
    · next hbase =>
      have hnone : t.attributes = tag.attributes := by
        repeat' split at h
        all_goals cases h
        all_goals rfl
      simp [named, hnone, hbase]
    · next hbase =>
      cases h
      simp [named, hspace, hbase]

theorem restOfTag_takes {tag t : Tag} {c d : Cursor} (h : restOfTag tag c = .ok (some t, d)) :
    t.name = tag.name ∧ ∃ middle attributes gap values,
      c.Takes (middle ++ gap ++ tagEnd t.empty) d ∧ SpellsAttributes middle attributes ∧
      IsGap gap ∧ Valued attributes values ∧
      t.named = tag.named ++ values.filter fun v => !v.1.declares := by
  fun_induction restOfTag tag c with
  | case1 => cases h
  | case2 => cases h
  | case3 tag c _ e rest hrest =>
    obtain ⟨_, f, hclose, hpure⟩ := Scan.of_bind h
    cases hpure
    refine ⟨rfl, [], [], c.rest.takeWhile isSpace, [], ?_, .nil, isGap_takeWhile c.rest, .nil,
      (List.append_nil _).symm⟩
    have hslash := (c.takes_takeWhile isSpace).trans (Cursor.takes_cons hrest)
    have hwhole := hslash.trans (expect_takes hclose)
    rwa [List.append_assoc] at hwhole
  | case4 tag c _ e rest hrest =>
    cases h
    refine ⟨rfl, [], [], c.rest.takeWhile isSpace, [], ?_, .nil, isGap_takeWhile c.rest, .nil,
      (List.append_nil _).symm⟩
    exact (c.takes_takeWhile isSpace).trans (Cursor.takes_cons hrest)
  | case5 => cases h
  | case6 => cases h
  | case7 tag c _ e x rest _ _ hrest hgap a f hf ih =>
    cases hadd : tag.add a with
    | error err =>
      rw [hadd] at h
      cases h
    | ok more =>
      rw [hadd] at h
      obtain ⟨hname, middle, attributes, gap, values, htakes, hattributes, hisGap, hvalues,
        hnamed⟩ := ih more h
      obtain ⟨text, value, htext, hattribute, hnormal⟩ := readAttribute_takes hf
      refine ⟨hname.trans (Tag.name_add hadd), _, _, gap, (a.name, a.value) :: values, ?_,
        .cons (isGap_takeWhile c.rest) hgap hattribute hattributes, hisGap,
        .cons ⟨rfl, hnormal⟩ hvalues, ?_⟩
      · have hwhole := ((c.takes_takeWhile isSpace).trans htext).trans htakes
        simpa only [List.append_assoc] using hwhole
      · rw [hnamed, Tag.named_add hadd, List.append_assoc, ← List.filter_append,
          List.singleton_append]

theorem rest_of_restOfTag {tag : Tag} {c d : Cursor} (h : restOfTag tag c = .ok (none, d)) :
    d.rest = [] := by
  fun_induction restOfTag tag c with
  | case1 tag c hc =>
    cases h
    exact List.isEmpty_iff.mp hc
  | case2 => cases h
  | case3 tag c _ e =>
    obtain ⟨_, _, -, hpure⟩ := Scan.of_bind h
    cases hpure
  | case4 => cases h
  | case5 => cases h
  | case6 => cases h
  | case7 tag c _ e _ _ _ _ _ _ a f hf ih =>
    cases ht : tag.add a with
    | error err =>
      rw [ht] at h
      cases h
    | ok t =>
      rw [ht] at h
      exact ih t h

theorem readStartTag_takes {tag : Tag} {c d : Cursor} (hc : c.startsWith "<" = true)
    (h : readStartTag c = .ok (some tag, d)) :
    ∃ text attributes values, c.Takes text d ∧ SpellsStart text tag.name attributes tag.empty ∧
      Valued attributes values ∧ tag.named = values.filter fun v => !v.1.declares := by
  obtain ⟨_, _, htake, h⟩ := Scan.of_bind h
  cases htake
  obtain ⟨_, _, hplace, h⟩ := Scan.of_bind h
  cases hplace
  obtain ⟨name, e, hname, h⟩ := Scan.of_bind h
  obtain ⟨word, hword, hspelled⟩ := readQName_takes hname
  split at h
  · cases h
  · obtain ⟨htag, middle, attributes, gap, values, htakes, hattributes, hgap, hvalues, hnamed⟩ :=
      restOfTag_takes h
    have hopen : c.Takes ['<'] (c.advance 1) := Cursor.takes_of_startsWith hc
    have hwhole := (hopen.trans hword).trans htakes
    rw [htag]
    exact ⟨_, attributes, values, by simpa only [List.append_assoc] using hwhole,
      by simpa only [List.append_assoc] using SpellsStart.mk hspelled hattributes hgap,
      hvalues, hnamed⟩

theorem rest_of_readStartTag {c d : Cursor} (h : readStartTag c = .ok (none, d)) :
    d.rest = [] := by
  obtain ⟨_, _, -, h⟩ := Scan.of_bind h
  obtain ⟨_, _, -, h⟩ := Scan.of_bind h
  obtain ⟨name, e, -, h⟩ := Scan.of_bind h
  split at h
  · cases h
  · exact rest_of_restOfTag h

theorem readEndTag_takes {item : Item} {c d : Cursor} (hc : c.startsWith "</" = true)
    (h : readEndTag c = .ok (item, d)) :
    ∃ name text, item = .endTag name ∧ c.Takes text d ∧ SpellsEnd text name := by
  obtain ⟨_, _, htake, h⟩ := Scan.of_bind h
  cases htake
  obtain ⟨name, c₁, hname, h⟩ := Scan.of_bind h
  obtain ⟨_, c₂, hgap, h⟩ := Scan.of_bind h
  obtain ⟨_, c₃, hclose, h⟩ := Scan.of_bind h
  cases h
  obtain ⟨word, hword, hspelled⟩ := readQName_takes hname
  obtain ⟨gap, hgap, hisGap⟩ := skipSpaces_takes hgap
  have hopen : c.Takes ['<', '/'] (c.advance 2) := Cursor.takes_of_startsWith hc
  exact ⟨name, _, rfl, ((hopen.trans hword).trans hgap).trans (expect_takes hclose),
    .mk hspelled hisGap⟩

/-! ### Pieces -/

theorem occursIn_iff {pattern cs : List Char} : occursIn pattern cs = true ↔ pattern <:+: cs := by
  induction cs with
  | nil =>
    rw [occursIn, Bool.or_false, List.isPrefixOf_iff_prefix, List.prefix_nil, List.infix_nil]
  | cons x rest ih =>
    rw [occursIn, Bool.or_eq_true, List.isPrefixOf_iff_prefix, ih, List.infix_cons_iff]

theorem readComment_takes {item : Item} {start : Location} {c d : Cursor}
    (hc : c.startsWith "<!--" = true) (h : readComment start c = .ok (item, d)) :
    item = .comment ∧ ∃ text, c.Takes text d ∧ Kind.comment.Spells text := by
  obtain ⟨_, _, htake, h⟩ := Scan.of_bind h
  cases htake
  obtain ⟨body, c₁, hbody, h⟩ := Scan.of_bind h
  obtain ⟨_, c₂, hclose, h⟩ := Scan.of_bind h
  split at h
  · cases h
  · next hhyphens =>
    cases h
    obtain ⟨hbody, -⟩ := takeUpToText_takes (by decide) hbody
    have hopen : c.Takes "<!--".toList (c.advance 4) := Cursor.takes_of_startsWith hc
    rw [Bool.or_eq_true, not_or, decide_eq_true_eq, occursIn_iff] at hhyphens
    exact ⟨rfl, _, (hopen.trans hbody).trans (expectText_takes hclose),
      .comment hhyphens.1 hhyphens.2⟩

theorem readInstruction_takes {item : Item} {c d : Cursor} (hc : c.startsWith "<?" = true)
    (h : readInstruction c = .ok (item, d)) :
    item = .instruction ∧ ∃ text, c.Takes text d ∧ Kind.instruction.Spells text := by
  obtain ⟨_, _, hahead, h⟩ := Scan.of_bind h
  cases hahead
  split at h
  · cases h
  · obtain ⟨_, _, htake, h⟩ := Scan.of_bind h
    cases htake
    obtain ⟨target, c₁, htarget, h⟩ := Scan.of_bind h
    obtain ⟨_, c₂, hgap, h⟩ := Scan.of_bind h
    obtain ⟨body, c₃, hbody, h⟩ := Scan.of_bind h
    obtain ⟨_, c₄, hclose, h⟩ := Scan.of_bind h
    cases h
    have hopen : c.Takes "<?".toList (c.advance 2) := Cursor.takes_of_startsWith hc
    obtain ⟨htarget, hstart, hchars⟩ := readName_takes htarget
    obtain ⟨gap, hgap, hisGap⟩ := skipSpaces_takes hgap
    obtain ⟨hbody, hfree⟩ := takeUpToText_takes (by decide) hbody
    have hinner := ((hopen.trans htarget).trans hgap).trans hbody
    exact ⟨rfl, _, hinner.trans (expectText_takes hclose),
      .instruction hstart hchars hisGap hfree⟩

theorem readCdata_takes {item : Item} {c d : Cursor} (hc : c.startsWith "<![CDATA[" = true)
    (h : readCdata c = .ok (item, d)) :
    item = .characters ∧ ∃ text, c.Takes text d ∧ Kind.cdata.Spells text := by
  obtain ⟨_, _, htake, h⟩ := Scan.of_bind h
  cases htake
  obtain ⟨body, c₁, hbody, h⟩ := Scan.of_bind h
  obtain ⟨_, c₂, hclose, h⟩ := Scan.of_bind h
  cases h
  obtain ⟨hbody, hfree⟩ := takeUpToText_takes (by decide) hbody
  have hopen : c.Takes "<![CDATA[".toList (c.advance 9) := Cursor.takes_of_startsWith hc
  exact ⟨rfl, _, (hopen.trans hbody).trans (expectText_takes hclose), .cdata hfree⟩

/-- Text is taken up to the next markup. -/
theorem readText_takes {item : Item} {start c d : Cursor} (hne : c.rest ≠ [])
    (hc : c.startsWith "<" = false) (h : readText start c = .ok (item, d)) :
    item = .characters ∧ (∃ text, c.Takes text d ∧ Kind.text.Spells text) ∧
      (d.rest = [] ∨ d.startsWith "<" = true) := by
  obtain ⟨text, e, htext, h⟩ := Scan.of_bind h
  have hpasses := (takeUpTo_passes hne hc htext).length_lt
  obtain ⟨htakes, -, hstop⟩ := takeUpTo_takes htext
  obtain ⟨-, hmarkup⟩ := takeUpToText_takes (by decide) htext
  split at h
  · cases h
  · next hstray =>
    obtain ⟨_, _, hnormal, h⟩ := Scan.of_bind h
    obtain ⟨-, rfl⟩ := Scan.of_lift hnormal
    cases h
    refine ⟨rfl, ⟨text, htakes, .text ?_ ?_ ?_⟩, hstop⟩
    · rintro rfl
      have hsame := congrArg List.length htakes.rest
      rw [List.nil_append] at hsame
      omega
    · exact fun hmem => hmarkup ((List.singleton_infix_iff _ _).mpr hmem)
    · exact fun hinfix => hstray (occursIn_iff.mpr hinfix)

/-- What the item between two cursors is read from. -/
inductive Item.Between (c d : Cursor) : Item → Prop
  | comment {text : List Char} : c.Takes text d → Kind.comment.Spells text → Between c d .comment
  | instruction {text : List Char} :
      c.Takes text d → Kind.instruction.Spells text → Between c d .instruction
  | text {text : List Char} :
      c.Takes text d → Kind.text.Spells text → d.rest = [] ∨ d.startsWith "<" = true →
      Between c d .characters
  | cdata {text : List Char} : c.Takes text d → Kind.cdata.Spells text → Between c d .characters
  | startTag {tag : Tag} {text : List Char} {attributes : List (QName × List Char)} :
      c.Takes text d → SpellsStart text tag.name attributes tag.empty → Between c d (.startTag tag)
  | cutTag : d.rest = [] → Between c d .cutTag
  | endTag {name : QName} {text : List Char} :
      c.Takes text d → SpellsEnd text name → Between c d (.endTag name)

theorem readItem_between {item : Item} {c d : Cursor} (hne : c.rest ≠ [])
    (h : readItem c = .ok (item, d)) : item.Between c d := by
  unfold readItem at h
  split at h
  · next hc =>
    obtain ⟨rfl, text, htakes, hspelled⟩ := readComment_takes hc h
    exact .comment htakes hspelled
  split at h
  · next hc =>
    obtain ⟨rfl, text, htakes, hspelled⟩ := readCdata_takes hc h
    exact .cdata htakes hspelled
  split at h
  · cases h
  split at h
  · next hc =>
    obtain ⟨rfl, text, htakes, hspelled⟩ := readInstruction_takes hc h
    exact .instruction htakes hspelled
  split at h
  · next hc =>
    obtain ⟨name, text, rfl, htakes, hspelled⟩ := readEndTag_takes hc h
    exact .endTag htakes hspelled
  split at h
  · next hc =>
    split at h
    · cases h
    · obtain ⟨tag, e, htag, h⟩ := Scan.of_bind h
      cases tag with
      | none =>
        cases h
        exact .cutTag (rest_of_readStartTag htag)
      | some tag =>
        cases h
        obtain ⟨text, attributes, _, htakes, hspelled, -⟩ := readStartTag_takes hc htag
        exact .startTag htakes hspelled
  · next hc =>
    obtain ⟨rfl, ⟨text, htakes, hspelled⟩, hend⟩ := readText_takes hne (by simpa using hc) h
    exact .text htakes hspelled hend

end StoryPlayer.Markup
