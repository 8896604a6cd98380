import StoryPlayer.Proofs.OneReading
import StoryPlayer.Proofs.Simulation
import StoryPlayer.Proofs.Spans

/-! The attributes of an element and those of its start tag.  An element keeps its attributes by
their names without prefixes, so that of several attributes that differ in their prefixes only the
last one counts (`Element.attr?_of_withValues`); which those are, the source tells in one way only
(`SpellsStart.unique`).  An attribute without a prefix therefore has its
value as long as none with a prefix and the same name comes after it; and an element runs as the
attributes without prefixes tell, as long as that is so for all attributes that the language
knows. -/

namespace StoryPlayer

namespace Markup

/-! ### The attributes of a start tag -/

/-- Whether an attribute of that name gives its element a value under `key`. -/
def QName.countsAs (name : QName) (key : String) : Bool := name.base = key && !name.declares

/-- The last attribute that gives a value under `key`. -/
def lastNamed? (values : List (QName × String)) (key : String) : Option (QName × String) :=
  (values.filter fun v => v.1.countsAs key).getLast?

/-- The attributes without a prefix. -/
def unprefixed (values : List (QName × String)) : List (QName × String) :=
  values.filter fun v => v.1.space = ""

theorem lastNamed?_append_cons {key : String} (hkey : key ≠ "xmlns")
    (front : List (QName × String)) (value : String) (back : List (QName × String)) :
    lastNamed? (front ++ (⟨"", key⟩, value) :: back) key =
      some ((lastNamed? back key).getD (⟨"", key⟩, value)) := by
  have hcounts : (⟨"", key⟩ : QName).countsAs key = true := by
    simp [QName.countsAs, QName.declares, hkey]
  have hfilter : ((⟨"", key⟩, value) :: back).filter (fun v => v.1.countsAs key) =
      (⟨"", key⟩, value) :: back.filter fun v => v.1.countsAs key :=
    List.filter_cons_of_pos hcounts
  rw [lastNamed?, List.filter_append, hfilter, List.getLast?_append, List.getLast?_cons,
    Option.some_or]
  rfl

/-- If the last attribute under a key has no prefix, those with a prefix do not matter. -/
theorem lastNamed?_unprefixed {values : List (QName × String)} {key : String}
    (h : ∀ v ∈ lastNamed? values key, v.1.space = "") :
    lastNamed? (unprefixed values) key = lastNamed? values key := by
  have hfilter : (unprefixed values).filter (fun v => v.1.countsAs key) =
      (values.filter fun v => v.1.countsAs key).filter fun v => v.1.space = "" := by
    rw [unprefixed, List.filter_filter, List.filter_filter]
    exact List.filter_congr fun v _ => Bool.and_comm _ _
  rw [lastNamed?, hfilter]
  cases hlast : lastNamed? values key with
  | none =>
    rw [lastNamed?, List.getLast?_eq_none_iff] at hlast
    rw [hlast]
    rfl
  | some last =>
    obtain ⟨front, hfront⟩ := List.getLast?_eq_some_iff.mp hlast
    have hspace : last.1.space = "" := h last hlast
    rw [hfront, List.filter_append, List.filter_cons_of_pos (by simpa using hspace),
      List.filter_nil, List.getLast?_concat]

theorem Tag.values_eq (tag : Tag) :
    tag.values = Table.ofPairs (tag.named.map fun v => (v.1.base, v.2)) := by
  rw [values, Table.ofPairs, named, List.foldl_map, List.foldl_map]

/-- A name without a prefix has no URI, and so it does not come again once it has been seen. -/
theorem checkAttributes_unprefixed {scope : List (String × String)}
    {seen : List (Option String × String)} {attributes : List Attribute}
    (h : Tag.checkAttributes scope seen attributes = .ok ()) :
    ((attributes.filter fun a => a.name.space = "").map fun a => a.name.base).Nodup ∧
      ∀ a ∈ attributes, a.name.space = "" → (none, a.name.base) ∉ seen := by
  induction attributes generalizing seen with
  | nil => simp
  | cons a rest ih =>
    obtain ⟨uri, huri, h⟩ := bind_eq_ok h
    split at h
    · cases h
    · next hnew =>
      obtain ⟨hnodup, hseen⟩ := ih h
      have hrest : ∀ b ∈ rest, b.name.space = "" → (none, b.name.base) ∉ seen :=
        fun b hb hspace hold => hseen b hb hspace (List.mem_cons_of_mem _ hold)
      by_cases hspace : a.name.space = ""
      · have hnone : uri = none := by
          rw [Tag.uriOf, hspace] at huri
          exact (Except.ok.inj huri).symm
        subst hnone
        rw [List.filter_cons_of_pos (by simpa using hspace), List.map_cons, List.nodup_cons]
        refine ⟨⟨fun hmem => ?_, hnodup⟩, ?_⟩
        · obtain ⟨b, hb, hbase⟩ := List.mem_map.mp hmem
          obtain ⟨hb, hbspace⟩ := List.mem_filter.mp hb
          refine hseen b hb (by simpa using hbspace) ?_
          rw [hbase]
          exact List.mem_cons_self
        · refine List.forall_mem_cons.mpr ⟨fun _ => ?_, hrest⟩
          simpa using hnew
      · rw [List.filter_cons_of_neg (by simpa using hspace)]
        exact ⟨hnodup, List.forall_mem_cons.mpr ⟨fun h => absurd h hspace, hrest⟩⟩

/-- No name comes twice without a prefix. -/
theorem Tag.prefixed_of_mem {tag : Tag} {outer : List (String × String)}
    (hcheck : tag.check outer = .ok ()) {front back : List (QName × String)} {key value : String}
    (h : tag.named = (front ++ (⟨"", key⟩, value) :: back).filter fun v => !v.1.declares)
    (hkey : key ≠ "xmlns") {v : QName × String} (hv : v ∈ back)
    (hcounts : v.1.countsAs key = true) : v.1.space ≠ "" := by
  intro hspace
  obtain ⟨_, hattributes, -⟩ := bind_eq_ok hcheck
  obtain ⟨hnodup, -⟩ := checkAttributes_unprefixed hattributes
  have hbases : (tag.attributes.filter fun a => a.name.space = "").map (fun a => a.name.base) =
      (tag.named.filter fun v => v.1.space = "").map fun v => v.1.base := by
    rw [named, List.filter_map, List.map_map]
    rfl
  obtain ⟨hbase, hdeclares⟩ := Bool.and_eq_true_iff.mp hcounts
  have hpair : [((⟨"", key⟩ : QName), value), v].Sublist (front ++ (⟨"", key⟩, value) :: back) :=
    ((List.singleton_sublist.mpr hv).cons_cons _).trans (List.sublist_append_right _ _)
  have hkept := (hpair.filter fun v => !v.1.declares).filter fun v => v.1.space = ""
  rw [← h] at hkept
  have hnames := hkept.map fun v => v.1.base
  rw [← hbases] at hnames
  have htwice := hnodup.sublist hnames
  have hname : QName.declares ⟨"", key⟩ = false := by simp [QName.declares, hkey]
  simp [hname, hdeclares, hspace, of_decide_eq_true hbase] at htwice

/-! ### Every element has a start tag -/

/-- The start tag stands at a place in the source, and its names are in order. -/
structure Tag.StandsAt (tag : Tag) (source start : Cursor) : Prop where
  taken : ∃ before, source.Takes before start
  opens : start.startsWith "<" = true
  read : ∃ d, readStartTag start = .ok (some tag, d)
  checked : ∃ outer, tag.check outer = .ok ()

/-- The element has its start tag in the source. -/
def Element.Tagged (e : Element) (source : Cursor) : Prop :=
  ∃ (o : Opened) (stop : Cursor), o.tag.StandsAt source o.start ∧ e = o.close stop

/-- The open element and all that has been read of it have start tags in the source. -/
structure Opened.Tagged (o : Opened) (source : Cursor) : Prop where
  tag : o.tag.StandsAt source o.start
  children : ∀ child ∈ o.content.children, ∀ e ∈ child.preorder, e.Tagged source

theorem Opened.Tagged.close {o : Opened} {source : Cursor} (h : o.Tagged source) (stop : Cursor) :
    ∀ e ∈ (o.close stop).preorder, e.Tagged source := by
  intro e he
  rw [Element.preorder_eq, List.mem_cons, List.mem_flatMap] at he
  rcases he with rfl | ⟨child, hchild, he⟩
  · exact ⟨o, stop, h.tag, rfl⟩
  · exact h.children child (List.mem_reverse.mp hchild) e he

theorem Opened.Tagged.plain {o : Opened} {source : Cursor} (h : o.Tagged source) (c d : Cursor)
    (kind : Kind) : { o with content := o.content.add c d (.plain kind []) }.Tagged source := by
  refine ⟨h.tag, fun child hchild => h.children child ?_⟩
  rw [← List.mem_reverse, Content.children_add] at hchild
  simpa [Piece.element?] using hchild

theorem Opened.Tagged.element {o : Opened} {source : Cursor} (h : o.Tagged source) (c d : Cursor)
    {e : Element} (he : ∀ x ∈ e.preorder, x.Tagged source) :
    { o with content := o.content.addElement c d e }.Tagged source :=
  ⟨h.tag, List.forall_mem_cons.mpr ⟨he, h.children⟩⟩

theorem opened_tagged {tag : Tag} {source c : Cursor} (h : tag.StandsAt source c)
    (scope : List (String × String)) : Opened.Tagged { tag, scope, start := c } source :=
  ⟨h, by simp⟩

theorem readStartTag_of_readItem {tag : Tag} {c d : Cursor} (hne : c.rest ≠ [])
    (h : readItem c = .ok (.startTag tag, d)) :
    c.startsWith "<" = true ∧ readStartTag c = .ok (some tag, d) := by
  unfold readItem at h
  split at h
  · next hc => cases (readComment_takes hc h).1
  split at h
  · next hc => cases (readCdata_takes hc h).1
  split at h
  · cases h
  split at h
  · next hc => cases (readInstruction_takes hc h).1
  split at h
  · next hc =>
    obtain ⟨_, _, hitem, -⟩ := readEndTag_takes hc h
    cases hitem
  split at h
  · next hc =>
    split at h
    · cases h
    · obtain ⟨found, e, htag, h⟩ := Scan.of_bind h
      cases found with
      | none => cases h
      | some tag =>
        cases h
        exact ⟨hc, htag⟩
  · next hc => cases (readText_takes hne (by simpa using hc) h).1

theorem readItem_takes {source c d : Cursor} {item : Item}
    (htaken : ∃ before, source.Takes before c) (hne : c.rest ≠ [])
    (h : readItem c = .ok (item, d)) : ∃ before, source.Takes before d := by
  obtain ⟨before, hbefore⟩ := htaken
  obtain ⟨text, htext⟩ := (readItem_passes hne h).reaches.takes
  exact ⟨_, hbefore.trans htext⟩

/-- By induction on the items that are read, as for the text of elements. -/
theorem restOfElement_tagged {source c d : Cursor} {inner : Opened} {outer : List Opened}
    {e : Element} (hopen : ∀ o ∈ inner :: outer, o.Tagged source)
    (htaken : ∃ before, source.Takes before c) (h : restOfElement inner outer c = .ok (e, d)) :
    ∀ x ∈ e.preorder, x.Tagged source := by
  fun_induction restOfElement inner outer c with
  | case1 => cases h
  | case2 => cases h
  | case3 inner outer c hne f hread ih =>
    obtain ⟨hinner, houter⟩ := List.forall_mem_cons.mp hopen
    have hcomment := hinner.plain c f .comment
    exact ih (List.forall_mem_cons.mpr ⟨hcomment, houter⟩) (readItem_takes htaken hne hread) h
  | case4 inner outer c hne f hread ih =>
    obtain ⟨hinner, houter⟩ := List.forall_mem_cons.mp hopen
    have hinstruction := hinner.plain c f .instruction
    exact ih (List.forall_mem_cons.mpr ⟨hinstruction, houter⟩) (readItem_takes htaken hne hread) h
  | case5 inner outer c hne f hread ih =>
    obtain ⟨hinner, houter⟩ := List.forall_mem_cons.mp hopen
    have htext := hinner.plain c f .text
    exact ih (List.forall_mem_cons.mpr ⟨htext, houter⟩) (readItem_takes htaken hne hread) h
  | case6 inner outer c hne f hread ih => exact ih hopen (readItem_takes htaken hne hread) h
  | case7 inner outer c hne tag f hread ihEmpty ihOpened =>
    obtain ⟨hinner, houter⟩ := List.forall_mem_cons.mp hopen
    have hnext := readItem_takes htaken hne hread
    obtain ⟨hc, htag⟩ := readStartTag_of_readItem hne hread
    obtain ⟨_, hcheck, h⟩ := bind_eq_ok h
    have hopened := opened_tagged ⟨htaken, hc, ⟨f, htag⟩, ⟨_, hcheck⟩⟩ (tag.scope inner.scope)
    cases hempty : tag.empty with
    | true =>
      simp only [hempty, if_true] at h
      have helement := hinner.element c f (hopened.close f)
      exact ihEmpty (List.forall_mem_cons.mpr ⟨helement, houter⟩) hnext h
    | false =>
      simp only [hempty, Bool.false_eq_true, if_false] at h
      exact ihOpened (List.forall_mem_cons.mpr ⟨hopened, hopen⟩) hnext h
  | case8 => cases h
  | case9 inner c hne name f hread hname =>
    cases h
    exact (hopen inner List.mem_cons_self).close _
  | case10 inner c hne name f hread hname parent rest content ih =>
    obtain ⟨hinner, houter⟩ := List.forall_mem_cons.mp hopen
    obtain ⟨hparent, hrest⟩ := List.forall_mem_cons.mp houter
    have helement := hparent.element inner.start f (hinner.close f)
    exact ih (List.forall_mem_cons.mpr ⟨helement, hrest⟩) (readItem_takes htaken hne hread) h

theorem readRoot_tagged {source c d : Cursor} {e : Element}
    (htaken : ∃ before, source.Takes before c) (hc : c.startsWith "<" = true)
    (h : readRoot c = .ok (e, d)) : ∀ x ∈ e.preorder, x.Tagged source := by
  obtain ⟨⟨result, f⟩, hread, h⟩ := bind_eq_ok h
  cases result with
  | none => cases h
  | some tag =>
    obtain ⟨_, hcheck, h⟩ := bind_eq_ok h
    have hopened := opened_tagged ⟨htaken, hc, ⟨f, hread⟩, ⟨_, hcheck⟩⟩ (tag.scope [])
    cases hempty : tag.empty with
    | true =>
      simp only [hempty, if_true] at h
      cases h
      exact hopened.close d
    | false =>
      simp only [hempty, Bool.false_eq_true, if_false] at h
      obtain ⟨before, hbefore⟩ := htaken
      obtain ⟨_, _, _, htakes, -⟩ := readStartTag_takes hc hread
      exact restOfElement_tagged (List.forall_mem_cons.mpr ⟨hopened, by simp⟩)
        ⟨_, hbefore.trans htakes⟩ h

theorem parse_tagged {source : String} {root : Element} (h : parse source = .ok root) :
    ∀ e ∈ root.preorder, e.Tagged (.start source.toList) := by
  obtain ⟨before, c, d, hbefore, hstart, hroot⟩ := readRoot_of_parse h
  exact readRoot_tagged ⟨before, hbefore⟩ hstart hroot

/-! ### Elements with other attributes -/

/-- The element with the values that attributes of a start tag give it. -/
def Element.withValues (e : Element) (values : List (QName × String)) : Element :=
  { e with attributes := Table.ofPairs ((values.filter fun v => !v.1.declares).map fun v =>
      (v.1.base, v.2)) }

theorem Element.attr?_withValues (e : Element) (values : List (QName × String)) (key : String) :
    (e.withValues values).attr? key = (lastNamed? values key).map Prod.snd := by
  rw [attr?, withValues, Table.get?_ofPairs, List.filter_map, List.getLast?_map, Option.map_map,
    List.filter_filter]
  rfl

theorem Element.attr?_of_withValues {e : Element} {values : List (QName × String)}
    (h : e.withValues values = e) (key : String) :
    e.attr? key = (lastNamed? values key).map Prod.snd := by
  rw [← attr?_withValues e values key, h]

/-- The attributes that the language knows. -/
def languageAttributes : List String :=
  ["id", "if-set", "if-clear", "trip", "of", "speaker", "set", "clear", "block", "file"]

/-- The elements differ only in attributes that the language does not know. -/
structure Element.Alike (e f : Element) : Prop where
  name : e.name = f.name
  children : e.children = f.children
  markup : e.markup = f.markup
  span : e.span = f.span
  attr? : ∀ key ∈ languageAttributes, e.attr? key = f.attr? key

end Markup

open Markup

namespace Markup.Element.Alike

variable {e f : Element} (h : e.Alike f)
include h

theorem gate : Gate.ofElement e = Gate.ofElement f := by
  rw [Gate.ofElement, Gate.ofElement, h.attr? "if-set" (by decide), h.attr? "if-clear" (by decide),
    h.attr? "trip" (by decide)]

theorem required {key : String} (hkey : key ∈ languageAttributes) :
    StoryPlayer.required e key = StoryPlayer.required f key := by
  rw [StoryPlayer.required, StoryPlayer.required, h.attr? key hkey, h.name, h.span]

theorem declaredId? : Blocks.declaredId? e = Blocks.declaredId? f := by
  rw [Blocks.declaredId?, Blocks.declaredId?, h.name, id?, id?, h.attr? "id" (by decide)]

/-- As options they have the same label and gate. -/
theorem offer : (Offer.ofElement e).map (fun offer => (offer.label, offer.gate)) =
    (Offer.ofElement f).map fun offer => (offer.label, offer.gate) := by
  have hof : "of" ∈ languageAttributes := by decide
  rw [Offer.ofElement, Offer.ofElement, h.required hof, h.gate]
  cases StoryPlayer.required f "of" <;> rfl

theorem instruction : Instruction.ofElement e = Instruction.ofElement f := by
  have hblock : "block" ∈ languageAttributes := by decide
  have hfile : "file" ∈ languageAttributes := by decide
  rw [Instruction.ofElement, Instruction.ofElement, h.name, h.children, h.gate,
    h.attr? "speaker" (by decide), h.attr? "set" (by decide), h.attr? "clear" (by decide),
    h.required hblock, h.required hfile, h.attr? "block" hblock]

/-- An instruction sees the markup and the children of its element only. -/
theorem perform (m : Machine) (i : Instruction) :
    Machine.withoutFrames (m.perform e i) = Machine.withoutFrames (m.perform f i) := by
  have hpush (m : Machine) (role : Role) : (m.push e role).unframed = (m.push f role).unframed := by
    simp only [Machine.unframed, Machine.push, Stack.continuation_push, h.children]
  cases i with
  | block gate =>
    simp only [Machine.perform]
    split
    · exact congrArg (Prod.mk _) (hpush _ _)
    · rfl
  | toDescription => exact congrArg (Prod.mk _) (hpush _ _)
  | title | description | text => simp only [Machine.perform, h.markup]
  | clearScreen | pause | choice | flag | call | goto | load | ignored => rfl

theorem execute (m : Machine) :
    Machine.withoutFrames (m.execute e) = Machine.withoutFrames (m.execute f) := by
  rw [Machine.execute, Machine.execute, h.instruction]
  cases Instruction.ofElement f with
  | ok i => exact h.perform m i
  | error fault => rfl

end Markup.Element.Alike

/-! ### Documents -/

namespace Markup

/-- If of each attribute that the language knows the last one has no prefix, an element runs as it
does without its attributes with prefixes. -/
theorem alike_unprefixed {e : Element} {values : List (QName × String)}
    (hvalues : e.withValues values = e)
    (h : ∀ key ∈ languageAttributes, ∀ v ∈ lastNamed? values key, v.1.space = "") :
    (e.withValues (unprefixed values)).Alike e where
  name := rfl
  children := rfl
  markup := rfl
  span := rfl
  attr? key hkey := by
    rw [Element.attr?_withValues, lastNamed?_unprefixed (h key hkey),
      Element.attr?_of_withValues hvalues]

/-- What the start tag of an element tells of it. -/
theorem Element.Tagged.startTag {source : List Char} {e : Element} (h : e.Tagged (.start source)) :
    ∃ before text after name written values empty,
      source = before ++ text ++ after ∧ e.span.start = .behind before ∧
      SpellsStart text name written empty ∧ e.name = name.base ∧ Valued written values ∧
      e.withValues values = e ∧
      ∀ front key value back, values = front ++ (⟨"", key⟩, value) :: back → key ≠ "xmlns" →
        ∀ v ∈ back, v.1.countsAs key = true → v.1.space ≠ "" := by
  obtain ⟨o, stop, hstands, rfl⟩ := h
  obtain ⟨before, hbefore⟩ := hstands.taken
  obtain ⟨d, hread⟩ := hstands.read
  obtain ⟨outer, hcheck⟩ := hstands.checked
  obtain ⟨text, written, values, htakes, hspells, hvalued, hnamed⟩ :=
    readStartTag_takes hstands.opens hread
  refine ⟨before, text, d.rest, o.tag.name, written, values, o.tag.empty,
    (hbefore.trans htakes).rest, ?_, hspells, rfl, hvalued, ?_, ?_⟩
  · rw [← Location.after_start]
    exact hbefore.location
  · have hattributes := o.tag.values_eq
    rw [hnamed] at hattributes
    rw [Element.withValues, ← hattributes]
    rfl
  · intro front key value back heq hkey v hv hcounts
    rw [heq] at hnamed
    exact Tag.prefixed_of_mem hcheck hnamed hkey hv hcounts

/-- Every element of a document has a start tag at its place in the source, and of several
attributes there that differ in their prefixes only, the last one counts.  So an attribute without a
prefix has its value unless one with a prefix and another value is the last of that name after it.
If no attribute that the language knows is hidden in that way, the element runs, is offered and is
declared as it would be without its attributes with prefixes. -/
theorem attr_unless_shadowed {source : String} {root e : Element} (h : parse source = .ok root)
    (he : e ∈ root.preorder) :
    ∃ before text after name written values empty,
      source.toList = before ++ text ++ after ∧ e.span.start = .behind before ∧
      SpellsStart text name written empty ∧ e.name = name.base ∧ Valued written values ∧
      (∀ key, e.attr? key = (lastNamed? values key).map Prod.snd) ∧
      (∀ front key value back, values = front ++ (⟨"", key⟩, value) :: back → key ≠ "xmlns" →
        (∀ v ∈ back, v.1.countsAs key = true → v.1.space ≠ "") ∧
        (e.attr? key = some value ↔ ∀ v ∈ lastNamed? back key, v.2 = value)) ∧
      ((∀ key ∈ languageAttributes, ∀ v ∈ lastNamed? values key, v.1.space = "") →
        let own := e.withValues (unprefixed values)
        Blocks.declaredId? own = Blocks.declaredId? e ∧
        (Offer.ofElement own).map (fun offer => (offer.label, offer.gate)) =
          (Offer.ofElement e).map (fun offer => (offer.label, offer.gate)) ∧
        ∀ m : Machine,
          Machine.withoutFrames (m.execute own) = Machine.withoutFrames (m.execute e)) := by
  obtain ⟨before, text, after, name, written, values, empty, hsource, hstart, hspells, hname,
    hvalued, hvalues, hprefixed⟩ := (parse_tagged h e he).startTag
  have hattr := Element.attr?_of_withValues hvalues
  refine ⟨before, text, after, name, written, values, empty, hsource, hstart, hspells, hname,
    hvalued, hattr, ?_, ?_⟩
  · intro front key value back heq hkey
    refine ⟨hprefixed front key value back heq hkey, ?_⟩
    rw [hattr key, heq, lastNamed?_append_cons hkey, Option.map_some, Option.some.injEq]
    cases lastNamed? back key with
    | none => simp
    | some last => simp
  · intro hown
    have halike := alike_unprefixed hvalues hown
    exact ⟨halike.declaredId?, halike.offer, halike.execute⟩

/-! ### Blocks with two ids -/

/-- A name and a value in single quotes. -/
theorem spellsAttribute_quoted (word value : List Char) (name : QName)
    (hchars : word.all isNameChar = true) (hname : QName.ofChars? word = some name)
    (hmark : '\'' ∉ value) (hmarkup : '<' ∉ value) :
    SpellsAttribute (word ++ [] ++ ['='] ++ [] ++ ['\''] ++ value ++ ['\'']) name value :=
  .mk ⟨List.all_eq_true.mp hchars, hname⟩ (List.forall_mem_nil _) (List.forall_mem_nil _) (.inl rfl)
    hmark hmarkup

/-- The tag of an empty block that declares a name space and has two attributes. -/
theorem spellsStart_block {text other value valued : List Char} {name named : QName}
    (h : SpellsAttribute text name value) (hother : SpellsAttribute other named valued) :
    SpellsStart ("<block xmlns:x='u' ".toList ++ text ++ [' '] ++ other ++ ['/', '>']) ⟨"", "block"⟩
      [(⟨"xmlns", "x"⟩, ['u']), (name, value), (named, valued)] true := by
  have hgap : IsGap [' '] := by simp [IsGap, isSpace]
  have hblock : Names "block".toList ⟨"", "block"⟩ :=
    ⟨List.all_eq_true.mp (by decide +kernel), by decide +kernel⟩
  have hdeclaration : SpellsAttribute "xmlns:x='u'".toList ⟨"xmlns", "x"⟩ ['u'] :=
    spellsAttribute_quoted "xmlns:x".toList ['u'] ⟨"xmlns", "x"⟩ (by decide +kernel)
      (by decide +kernel) (by decide) (by decide)
  have hmiddle := SpellsAttributes.cons hgap (by simp) hdeclaration
    (.cons hgap (by simp) h (.cons hgap (by simp) hother .nil))
  have hspells : SpellsStart _ _ _ true := .mk hblock hmiddle (List.forall_mem_nil _)
  simpa [tagEnd] using hspells

/-- An attribute with a prefix does not matter before the one without. -/
theorem attr_unless_shadowed_before :
    ∃ root, parse "<block xmlns:x='u' x:id='b' id='a&amp;'/>" = .ok root ∧
      SpellsStart "<block xmlns:x='u' x:id='b' id='a&amp;'/>".toList ⟨"", "block"⟩
        [(⟨"xmlns", "x"⟩, ['u']), (⟨"x", "id"⟩, ['b']),
          (⟨"", "id"⟩, ['a', '&', 'a', 'm', 'p', ';'])] true ∧
      Valued
        [(⟨"xmlns", "x"⟩, ['u']), (⟨"x", "id"⟩, ['b']),
          (⟨"", "id"⟩, ['a', '&', 'a', 'm', 'p', ';'])]
        [(⟨"xmlns", "x"⟩, "u"), (⟨"x", "id"⟩, "b"), (⟨"", "id"⟩, "a&")] ∧
      (∀ key, root.attr? key = (lastNamed?
        [(⟨"xmlns", "x"⟩, "u"), (⟨"x", "id"⟩, "b"), (⟨"", "id"⟩, "a&")] key).map Prod.snd) ∧
      root.id? = some "a&" := by
  obtain ⟨root, hroot, hfirst⟩ : ∃ root,
      parse "<block xmlns:x='u' x:id='b' id='a&amp;'/>" = .ok root ∧ root.span.start = .start :=
    exists_parse (by decide +kernel)
  have hspells := spellsStart_block
    (spellsAttribute_quoted "x:id".toList ['b'] ⟨"x", "id"⟩ (by decide +kernel)
      (by decide +kernel) (by decide) (by decide))
    (spellsAttribute_quoted "id".toList ['a', '&', 'a', 'm', 'p', ';'] ⟨"", "id"⟩
      (by decide +kernel) (by decide +kernel) (by decide) (by decide))
  have hreference : Normalizes ['&', 'a', 'm', 'p', ';'] ['&'] :=
    @Normalizes.reference ['a', 'm', 'p', ';'] [] (.entity "amp") 3 .start '&' (by decide +kernel)
      rfl .nil
  have hvalued : Valued
      [(⟨"xmlns", "x"⟩, ['u']), (⟨"x", "id"⟩, ['b']),
        (⟨"", "id"⟩, ['a', '&', 'a', 'm', 'p', ';'])]
      [(⟨"xmlns", "x"⟩, "u"), (⟨"x", "id"⟩, "b"), (⟨"", "id"⟩, "a&")] :=
    .cons ⟨rfl, .character (by decide) (by decide) .nil⟩
      (.cons ⟨rfl, .character (by decide) (by decide) .nil⟩
        (.cons ⟨rfl, .character (by decide) (by decide) hreference⟩ .nil))
  obtain ⟨before, text, after, name, written, values, empty, hsource, hbehind, hfound, -,
    hfoundValues, hattr, howns, -⟩ := attr_unless_shadowed hroot root.self_mem_preorder
  obtain rfl : before = [] := by
    by_contra hne
    have hlt := Location.start.lt_after hne
    rw [Location.after_start, ← hbehind, hfirst] at hlt
    exact lt_irrefl _ hlt
  obtain ⟨-, rfl⟩ := hfound.unique hspells (hsource.symm.trans (List.append_nil _).symm)
  obtain rfl := hfoundValues.unique hvalued
  refine ⟨root, hroot, hspells, hvalued, hattr, ?_⟩
  refine (howns [(⟨"xmlns", "x"⟩, "u"), (⟨"x", "id"⟩, "b")] "id" "a&" [] rfl (by decide)).2.mpr ?_
  simp [lastNamed?]

/-- After the attribute without a prefix, the one with a prefix hides it, and the block is declared
under another id. -/
theorem prefixed_id_shadows :
    ∃ root, parse "<block xmlns:x='u' id='a' x:id='b'/>" = .ok root ∧
      SpellsStart "<block xmlns:x='u' id='a' x:id='b'/>".toList ⟨"", "block"⟩
        [(⟨"xmlns", "x"⟩, ['u']), (⟨"", "id"⟩, ['a']), (⟨"x", "id"⟩, ['b'])] true ∧
      Normalizes ['a'] "a".toList ∧ root.attr? "id" = some "b" ∧ root.attr? "id" ≠ some "a" ∧
      Blocks.declaredId? root = some "b" := by
  obtain ⟨root, hroot, hids⟩ : ∃ root, parse "<block xmlns:x='u' id='a' x:id='b'/>" = .ok root ∧
      (root.attr? "id", Blocks.declaredId? root) = (some "b", some "b") :=
    exists_parse (by decide +kernel)
  obtain ⟨hid, hdeclared⟩ := Prod.mk.inj hids
  have hspells := spellsStart_block
    (spellsAttribute_quoted "id".toList ['a'] ⟨"", "id"⟩ (by decide +kernel)
      (by decide +kernel) (by decide) (by decide))
    (spellsAttribute_quoted "x:id".toList ['b'] ⟨"x", "id"⟩ (by decide +kernel)
      (by decide +kernel) (by decide) (by decide))
  exact ⟨root, hroot, hspells, .character (by decide) (by decide) .nil, hid, by rw [hid]; decide,
    hdeclared⟩

end Markup

end StoryPlayer
