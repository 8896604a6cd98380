import Mathlib.Data.Prod.Lex
import StoryPlayer.Proofs.RawMarkup

/-! Spans nest as elements do.  A place comes after another exactly if text lies between them
(`lt_after`), whatever line breaks are in it.  So the span of an element goes from its start tag to
behind the tag that closes it, the spans of its child elements lie inside it, and they follow each
other as the children do. -/

namespace StoryPlayer.Markup

namespace Location

/-- Places are ordered by their lines, and on one line by their columns. -/
instance : LinearOrder Location :=
  LinearOrder.lift' (fun place => toLex (place.line, place.column)) fun a b h => by
    cases a
    cases b
    cases h
    rfl

theorem lt_iff {a b : Location} :
    a < b ↔ a.line < b.line ∨ a.line = b.line ∧ a.column < b.column := Prod.Lex.toLex_lt_toLex

/-- The place behind the characters `cs` at the start of a source, both counted: the line feeds, and
the characters after the last of them. -/
def behind (cs : List Char) : Location :=
  ⟨cs.count '\n' + 1, (cs.reverse.takeWhile (· ≠ '\n')).length + 1⟩

theorem behind_concat (cs : List Char) (c : Char) :
    behind (cs ++ [c]) = (behind cs).next c := by
  by_cases hc : c = '\n'
  · simp [behind, next, hc]
  · simp [behind, next, hc]

theorem after_start (cs : List Char) : start.after cs = behind cs := by
  induction cs using List.reverseRecOn with
  | nil => rfl
  | append_singleton cs c ih =>
    rw [after_append, ih, behind_concat]
    rfl

theorem lt_next (place : Location) (c : Char) : place < place.next c := by
  rw [lt_iff, next]
  split
  · exact .inl (Nat.lt_succ_self _)
  · exact .inr ⟨rfl, Nat.lt_succ_self _⟩

theorem le_after (place : Location) (cs : List Char) : place ≤ place.after cs := by
  induction cs generalizing place with
  | nil => exact le_refl place
  | cons c rest ih => exact (place.lt_next c).le.trans (ih (place.next c))

theorem lt_after (place : Location) {cs : List Char} (h : cs ≠ []) : place < place.after cs := by
  cases cs with
  | nil => exact absurd rfl h
  | cons c rest => exact (place.lt_next c).trans_le ((place.next c).le_after rest)

end Location

/-! ### Tags -/

theorem SpellsStart.head? {text : List Char} {name : QName} {attributes : List (QName × List Char)}
    {empty : Bool} (h : SpellsStart text name attributes empty) : text.head? = some '<' := by
  obtain ⟨-, -, -⟩ := h
  rfl

theorem SpellsStart.getLast? {text : List Char} {name : QName}
    {attributes : List (QName × List Char)} {empty : Bool}
    (h : SpellsStart text name attributes empty) : text.getLast? = some '>' := by
  obtain ⟨-, -, -⟩ := h
  rw [List.getLast?_append_of_ne_nil _ (by cases empty <;> simp [tagEnd])]
  cases empty <;> rfl

theorem SpellsEnd.getLast? {text : List Char} {name : QName} (h : SpellsEnd text name) :
    text.getLast? = some '>' := by
  obtain ⟨-, -⟩ := h
  exact List.getLast?_concat

/-! ### Elements -/

/-- An element has a text of its own, from a start tag to the end of a tag. -/
theorem Spelled.ends {place : Location} {text : List Char} {e : Element}
    (h : Spelled place text e) :
    e.span = ⟨place, place.after text⟩ ∧ text.head? = some '<' ∧ text.getLast? = some '>' := by
  cases h with
  | empty hspells _ _ _ hspan => exact ⟨hspan, hspells.head?, hspells.getLast?⟩
  | full hopening hclosing _ _ _ _ _ hspan =>
    refine ⟨hspan, ?_, ?_⟩
    · rw [List.append_assoc, List.head?_append, hopening.head?]
      rfl
    · rw [List.getLast?_append, hclosing.getLast?]
      rfl

theorem Spelled.ne_nil {place : Location} {text : List Char} {e : Element}
    (h : Spelled place text e) : text ≠ [] := by
  rintro rfl
  cases h.ends.2.1

theorem sourceOf_cons (p : Piece) (rest : List Piece) :
    sourceOf (p :: rest) = p.source ++ sourceOf rest := List.flatMap_cons

/-- Elements that follow each other, from a place on, have spans that do.  By induction on the
pieces, each of which moves the place on. -/
theorem pairwise_spans {place : Location} {pieces : List Piece}
    (h : ∀ before child source after, pieces = before ++ .element child source :: after →
      Spelled (place.after (sourceOf before)) source child) :
    (∀ child ∈ pieces.filterMap Piece.element?, place ≤ child.span.start) ∧
      (pieces.filterMap Piece.element?).Pairwise fun first second =>
        first.span.stop ≤ second.span.start := by
  induction pieces generalizing place with
  | nil => simp
  | cons p rest ih =>
    have hspelled : ∀ before child source after, rest = before ++ .element child source :: after →
        Spelled ((place.after p.source).after (sourceOf before)) source child := by
      intro before child source after heq
      have hspelled := h (p :: before) child source after (by rw [heq, List.cons_append])
      rwa [sourceOf_cons, Location.after_append] at hspelled
    have hrest := ih hspelled
    have hlater : ∀ child ∈ rest.filterMap Piece.element?, place ≤ child.span.start :=
      fun child hchild => (place.le_after p.source).trans (hrest.1 child hchild)
    cases p with
    | plain kind source => exact ⟨hlater, hrest.2⟩
    | element first source =>
      have hfirst : first.span = ⟨place, place.after source⟩ := (h [] first source rest rfl).ends.1
      refine ⟨List.forall_mem_cons.mpr ⟨by rw [hfirst], hlater⟩,
        List.pairwise_cons.mpr ⟨?_, hrest.2⟩⟩
      rw [hfirst]
      exact hrest.1

theorem Spelled.nests {place : Location} {text : List Char} {e : Element}
    (h : Spelled place text e) :
    (∀ child ∈ e.children, e.span.start < child.span.start ∧ child.span.stop < e.span.stop) ∧
      e.children.Pairwise fun first second => first.span.stop ≤ second.span.start := by
  cases h with
  | empty _ _ hchildren =>
    rw [hchildren]
    simp
  | @full _ opening closing pieces _ _ _ hopening hclosing _ hspelled _ hchildren _ hspan =>
    rw [hchildren, hspan]
    constructor
    · intro child hchild
      obtain ⟨p, hp, hchild⟩ := List.mem_filterMap.mp hchild
      cases p with
      | plain kind source => cases hchild
      | element other source =>
        cases hchild
        obtain ⟨front, back, rfl⟩ := List.append_of_mem hp
        rw [(hspelled front child source back rfl).ends.1]
        have hbefore : opening ++ sourceOf front ≠ [] := by
          have hhead := hopening.head?
          rintro hnil
          rw [(List.append_eq_nil_iff.mp hnil).1] at hhead
          cases hhead
        have hbehind : sourceOf back ++ closing ≠ [] := by
          have hlast := hclosing.getLast?
          rintro hnil
          rw [(List.append_eq_nil_iff.mp hnil).2] at hlast
          cases hlast
        have hwhole : opening ++ sourceOf (front ++ .element child source :: back) ++ closing =
            opening ++ sourceOf front ++ source ++ (sourceOf back ++ closing) := by
          rw [sourceOf_append, sourceOf_cons]
          simp only [Piece.source, List.append_assoc]
        refine ⟨place.lt_after hbefore, ?_⟩
        rw [hwhole, Location.after_append _ (_ ++ source), Location.after_append _ _ source]
        exact Location.lt_after _ hbehind
    · have hinside : ∀ before child source after,
          pieces = before ++ .element child source :: after →
          Spelled ((place.after opening).after (sourceOf before)) source child := by
        intro before child source after heq
        rw [← Location.after_append]
        exact hspelled before child source after heq
      exact (pairwise_spans hinside).2

/-- Every element of a document has a text in the source that spells it, and its span tells the
lines and columns from the first character of that text, where its start tag opens, to behind the
last, where the element is closed.  The spans of its child elements lie inside its own, and each
ends before the next one starts. -/
theorem spans_nest {source : String} {root e : Element} (h : parse source = .ok root)
    (he : e ∈ root.preorder) :
    (∃ before text after, source.toList = before ++ text ++ after ∧
      Spelled (.behind before) text e ∧ text.head? = some '<' ∧ text.getLast? = some '>' ∧
      e.span = ⟨.behind before, .behind (before ++ text)⟩) ∧
    e.span.start < e.span.stop ∧
    (∀ child ∈ e.children, e.span.start < child.span.start ∧ child.span.stop < e.span.stop) ∧
    e.children.Pairwise fun first second => first.span.stop ≤ second.span.start := by
  obtain ⟨around, whole, rest, hsource, hroot⟩ := parse_spelled h
  obtain ⟨before, text, after, hwhole, hspelled⟩ := hroot.of_mem_preorder he
  rw [← Location.after_append] at hspelled
  obtain ⟨hspan, hhead, hlast⟩ := hspelled.ends
  have hlt : e.span.start < e.span.stop := by
    rw [hspan]
    exact Location.lt_after _ hspelled.ne_nil
  refine ⟨⟨around ++ before, text, after ++ rest, ?_, ?_, hhead, hlast, ?_⟩, hlt, hspelled.nests⟩
  · rw [hsource, hwhole]
    simp only [List.append_assoc]
  · rwa [← Location.after_start]
  · rw [hspan, ← Location.after_append, Location.after_start, Location.after_start]

/-- Columns count characters, and only a line feed ends a line. -/
theorem spans_nest_umlaut :
    ∃ root, parse "<a>é\n<b/>ö<c>\r\n</c></a>" = .ok root ∧ root.span = ⟨⟨1, 1⟩, ⟨3, 9⟩⟩ ∧
      root.children.map Element.span = [⟨⟨2, 1⟩, ⟨2, 5⟩⟩, ⟨⟨2, 6⟩, ⟨3, 5⟩⟩] ∧
      (∀ child ∈ root.children,
        root.span.start < child.span.start ∧ child.span.stop < root.span.stop) ∧
      root.children.Pairwise fun first second => first.span.stop ≤ second.span.start := by
  obtain ⟨root, hroot, hspans⟩ : ∃ root, parse "<a>é\n<b/>ö<c>\r\n</c></a>" = .ok root ∧
      (root.span, root.children.map Element.span) =
        (⟨⟨1, 1⟩, ⟨3, 9⟩⟩, [⟨⟨2, 1⟩, ⟨2, 5⟩⟩, ⟨⟨2, 6⟩, ⟨3, 5⟩⟩]) := exists_parse (by decide +kernel)
  obtain ⟨hspan, hchildren⟩ := Prod.mk.inj hspans
  obtain ⟨-, -, hinside, hinOrder⟩ := spans_nest hroot root.self_mem_preorder
  exact ⟨root, hroot, hspan, hchildren, hinside, hinOrder⟩

end StoryPlayer.Markup
