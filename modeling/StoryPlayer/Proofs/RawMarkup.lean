import Mathlib.Data.List.Chain
import Mathlib.Data.List.Induction
import StoryPlayer.Markup.Document
import StoryPlayer.Proofs.Spelling

/-! What an element keeps of its source.  Between its tags stand pieces: text, CDATA sections,
comments, processing instructions and elements.  Its markup is the source of all of them, except
where it ends in several pieces of character data: of these only the first is kept. -/

namespace StoryPlayer.Markup

/-! ### Pieces of content -/

/-- A piece of content with its source. -/
inductive Piece where
  | plain (kind : Kind) (source : List Char)
  | element (e : Element) (source : List Char)

namespace Piece

def source : Piece → List Char
  | plain _ source | element _ source => source

def element? : Piece → Option Element
  | plain _ _ => none
  | element e _ => some e

def isCharacters : Piece → Bool
  | plain kind _ => kind.isCharacters
  | element _ _ => false

def isText : Piece → Bool
  | plain kind _ => kind = .text
  | element _ _ => false

end Piece

/-- The source of pieces one after the other. -/
def sourceOf (pieces : List Piece) : List Char := pieces.flatMap Piece.source

/-- The pieces, of a run of character data at their end only the first. -/
def kept : List Piece → List Piece
  | [] => []
  | p :: rest => if (p :: rest).all Piece.isCharacters then [p] else p :: kept rest

/-- The pieces are spelled as they should be, and a text is not cut in two. -/
structure Composed (pieces : List Piece) : Prop where
  spelled : ∀ kind source, .plain kind source ∈ pieces → kind.Spells source
  whole : pieces.IsChain fun p q => p.isText = true → q.isText = false

/-- The element is what the text spells that stands at a place. -/
inductive Spelled : Location → List Char → Element → Prop
  | empty {place : Location} {text : List Char} {name : QName}
      {attributes : List (QName × List Char)} {e : Element} :
      SpellsStart text name attributes true → e.name = name.base → e.children = [] →
      e.markup = "" → e.span = ⟨place, place.after text⟩ → Spelled place text e
  | full {place : Location} {opening closing : List Char} {pieces : List Piece} {name : QName}
      {attributes : List (QName × List Char)} {e : Element} :
      SpellsStart opening name attributes false → SpellsEnd closing name → Composed pieces →
      (∀ before child source after, pieces = before ++ .element child source :: after →
        Spelled (place.after (opening ++ sourceOf before)) source child) →
      e.name = name.base → e.children = pieces.filterMap Piece.element? →
      e.markup = String.ofList (sourceOf (kept pieces)) →
      e.span = ⟨place, place.after (opening ++ sourceOf pieces ++ closing)⟩ →
      Spelled place (opening ++ sourceOf pieces ++ closing) e

theorem sourceOf_append (pieces more : List Piece) :
    sourceOf (pieces ++ more) = sourceOf pieces ++ sourceOf more := List.flatMap_append

theorem sourceOf_concat (pieces : List Piece) (p : Piece) :
    sourceOf (pieces ++ [p]) = sourceOf pieces ++ p.source := by
  rw [sourceOf_append, sourceOf, sourceOf, List.flatMap_singleton]

theorem prefix_sourceOf {front pieces : List Piece} (h : front <+: pieces) :
    sourceOf front <+: sourceOf pieces := by
  obtain ⟨more, rfl⟩ := h
  exact ⟨sourceOf more, (sourceOf_append front more).symm⟩

/-! ### What is kept -/

theorem prefix_kept (pieces : List Piece) : kept pieces <+: pieces := by
  induction pieces with
  | nil => exact List.prefix_rfl
  | cons p rest ih =>
    rw [kept]
    split
    · exact ⟨rest, rfl⟩
    · exact List.cons_prefix_cons.mpr ⟨rfl, ih⟩

/-- The last piece, if there is one, is character data. -/
def endsInCharacters (pieces : List Piece) : Bool := pieces.getLast?.any Piece.isCharacters

theorem endsInCharacters_concat (pieces : List Piece) (p : Piece) :
    endsInCharacters (pieces ++ [p]) = p.isCharacters := by
  rw [endsInCharacters, List.getLast?_concat, Option.any_some]

theorem endsInCharacters_of_all {pieces : List Piece} (hne : pieces ≠ [])
    (h : pieces.all Piece.isCharacters = true) : endsInCharacters pieces = true := by
  rw [endsInCharacters, List.getLast?_eq_some_getLast hne, Option.any_some]
  exact List.all_eq_true.mp h _ (List.getLast_mem hne)

theorem endsInCharacters_cons {p : Piece} {rest : List Piece}
    (h : (p :: rest).all Piece.isCharacters = false) :
    endsInCharacters (p :: rest) = endsInCharacters rest := by
  cases rest with
  | nil => simpa [endsInCharacters] using h
  | cons q rest => rw [endsInCharacters, List.getLast?_cons_cons, ← endsInCharacters]

/-- A piece of character data is kept unless one stands before it. -/
theorem kept_concat (pieces : List Piece) (p : Piece) :
    kept (pieces ++ [p]) =
      if p.isCharacters && endsInCharacters pieces then kept pieces else pieces ++ [p] := by
  induction pieces with
  | nil => simp [kept, endsInCharacters]
  | cons q rest ih =>
    have hwhole : (q :: (rest ++ [p])).all Piece.isCharacters =
        ((q :: rest).all Piece.isCharacters && p.isCharacters) := by
      simp [Bool.and_assoc]
    rw [List.cons_append, kept, ih, kept, hwhole]
    cases hp : p.isCharacters with
    | false => simp
    | true =>
      cases hall : (q :: rest).all Piece.isCharacters with
      | true => simp [endsInCharacters_of_all (List.cons_ne_nil q rest) hall]
      | false =>
        rw [endsInCharacters_cons hall]
        cases endsInCharacters rest with
        | false => simp
        | true => simp

theorem Composed.source_ne_nil {pieces : List Piece} (h : Composed pieces) {p : Piece}
    (hp : p ∈ pieces) (hcharacters : p.isCharacters = true) : p.source ≠ [] := by
  cases p with
  | element e source => cases hcharacters
  | plain kind source =>
    cases h.spelled kind source hp with
    | text hne => exact hne
    | cdata => simp [Piece.source]
    | comment => cases hcharacters
    | instruction => cases hcharacters

/-- The content ends in two pieces of character data at least. -/
def EndsInRun (pieces : List Piece) : Prop :=
  ∃ front p q, pieces = front ++ [p, q] ∧ p.isCharacters = true ∧ q.isCharacters = true

theorem endsInRun_concat_iff {pieces : List Piece} {q : Piece} :
    EndsInRun (pieces ++ [q]) ↔ (q.isCharacters && endsInCharacters pieces) = true := by
  rw [Bool.and_eq_true, endsInCharacters, Option.any_eq_true]
  constructor
  · rintro ⟨front, p, q', heq, hp, hq⟩
    rw [List.append_cons front] at heq
    obtain ⟨rfl, hlast⟩ := List.append_inj' heq rfl
    cases hlast
    exact ⟨hq, p, List.getLast?_concat, hp⟩
  · rintro ⟨hq, p, hp, hcharacters⟩
    obtain ⟨front, rfl⟩ := List.getLast?_eq_some_iff.mp hp
    exact ⟨front, p, q, by rw [List.append_assoc]; rfl, hcharacters, hq⟩

theorem sourceOf_kept_eq_iff {pieces : List Piece} (h : Composed pieces) :
    sourceOf (kept pieces) = sourceOf pieces ↔ ¬EndsInRun pieces := by
  rcases List.eq_nil_or_concat pieces with rfl | ⟨front, q, rfl⟩
  · exact iff_of_true rfl (by simp [EndsInRun])
  · rw [List.concat_eq_append] at h ⊢
    rw [kept_concat, endsInRun_concat_iff]
    split
    · next hrun =>
      refine iff_of_false (fun heq => ?_) (not_not_intro hrun)
      have hlength := congrArg List.length heq
      have hle := (prefix_sourceOf (prefix_kept front)).length_le
      have hq := List.length_pos_iff.mpr
        (h.source_ne_nil (by simp) (Bool.and_eq_true_iff.mp hrun).1)
      rw [sourceOf_concat, List.length_append] at hlength
      omega
    · next hrun => exact iff_of_true rfl hrun

/-! ### Reading content -/

namespace Content

/-- Adds a piece that lies between two cursors. -/
def add (content : Content) (start stop : Cursor) : Piece → Content
  | .plain kind _ =>
    if kind.isCharacters then content.addText start stop else content.addNode start stop
  | .element e _ => content.addElement start stop e

theorem children_add (content : Content) (start stop : Cursor) (p : Piece) :
    (content.add start stop p).children.reverse =
      content.children.reverse ++ p.element?.toList := by
  cases p with
  | element e source => simp [add, addElement, Piece.element?]
  | plain kind source =>
    rw [add]
    split
    · rw [addText]
      split <;> simp [Piece.element?]
    · simp [addNode, Piece.element?]

theorem afterText_add (content : Content) (start stop : Cursor) (p : Piece) :
    (content.add start stop p).afterText = p.isCharacters := by
  cases p with
  | element e source => rfl
  | plain kind source =>
    rw [add, Piece.isCharacters]
    split
    · next hkind =>
      rw [addText, hkind]
      split
      · next hafter => exact hafter
      · rfl
    · next hkind => exact (Bool.eq_false_iff.mpr hkind).symm

theorem range_add (content : Content) (start stop : Cursor) (p : Piece) :
    (content.add start stop p).range =
      if p.isCharacters && content.afterText then content.range
      else content.extended start stop := by
  cases p with
  | element e source => rfl
  | plain kind source =>
    rw [add, Piece.isCharacters]
    split
    · next hkind =>
      rw [addText, hkind, Bool.true_and]
      split <;> rfl
    · next hkind =>
      rw [Bool.eq_false_iff.mpr hkind, Bool.false_and]
      rfl

end Content

/-- What is read of an open element at `c`, its start tag ending at `inside`. -/
structure Opened.Holds (o : Opened) (inside : Cursor) (pieces : List Piece) (c : Cursor) :
    Prop where
  opened : ∃ text attributes,
    o.start.Takes text inside ∧ SpellsStart text o.tag.name attributes false
  taken : inside.Takes (sourceOf pieces) c
  composed : Composed pieces
  spelled : ∀ before child source after, pieces = before ++ .element child source :: after →
    Spelled (inside.location.after (sourceOf before)) source child
  children : o.content.children.reverse = pieces.filterMap Piece.element?
  range : o.content.range = if pieces = [] then none
    else some (inside, inside.offset + (sourceOf (kept pieces)).length)
  afterText : o.content.afterText = endsInCharacters pieces
  /-- A text that has just been read goes up to the next markup. -/
  markupAhead : (∃ p ∈ pieces.getLast?, p.isText = true) →
    c.rest = [] ∨ c.startsWith "<" = true

/-- What is read of the open elements, the innermost first.  The outermost starts at `root`. -/
def Underway (root : Cursor) : List Opened → Cursor → Prop
  | [], c => c = root
  | o :: outer, c => (∃ inside pieces, o.Holds inside pieces c) ∧ Underway root outer o.start

theorem Composed.concat {pieces : List Piece} (h : Composed pieces) {p : Piece}
    (hspells : ∀ kind source, p = .plain kind source → kind.Spells source)
    (hwhole : ∀ q ∈ pieces.getLast?, q.isText = true → p.isText = false) :
    Composed (pieces ++ [p]) where
  spelled kind source hmem := by
    rcases List.mem_append.mp hmem with hold | hnew
    · exact h.spelled kind source hold
    · exact hspells kind source (List.mem_singleton.mp hnew).symm
  whole := by
    refine List.isChain_append.mpr ⟨h.whole, List.isChain_singleton p, ?_⟩
    intro q hq r hr
    cases hr
    exact hwhole q hq

theorem Kind.Spells.not_markup {source : List Char} {c d : Cursor} (h : Kind.text.Spells source)
    (htakes : c.Takes source d) : c.rest ≠ [] ∧ c.startsWith "<" = false := by
  cases h with
  | text hne hmarkup =>
    obtain ⟨x, rest, rfl⟩ := List.exists_cons_of_ne_nil hne
    have hx : x ≠ '<' := fun hx => hmarkup (hx ▸ List.mem_cons_self)
    rw [Cursor.startsWith, htakes.rest]
    refine ⟨by simp, ?_⟩
    simp [List.isPrefixOf, hx.symm]

namespace Opened.Holds

variable {o : Opened} {inside c d : Cursor} {pieces : List Piece}

/-- The piece that is added last stands at `c`. -/
theorem spelled_concat (h : o.Holds inside pieces c) {p : Piece}
    (hspelled : ∀ child source, p = .element child source → Spelled c.location source child) :
    ∀ before child source after, pieces ++ [p] = before ++ .element child source :: after →
      Spelled (inside.location.after (sourceOf before)) source child := by
  intro before child source after heq
  rcases List.eq_nil_or_concat after with rfl | ⟨rest, last, rfl⟩
  · obtain ⟨rfl, hlast⟩ := List.append_inj' heq rfl
    rw [← h.taken.location]
    exact hspelled child source (List.singleton_inj.mp hlast)
  · rw [List.concat_eq_append, ← List.cons_append, ← List.append_assoc] at heq
    exact h.spelled before child source rest (List.append_inj' heq rfl).1

theorem range_concat (h : o.Holds inside pieces c) {p : Piece} (htakes : c.Takes p.source d) :
    (o.content.add c d p).range =
      some (inside, inside.offset + (sourceOf (kept (pieces ++ [p]))).length) := by
  rw [Content.range_add, h.afterText, kept_concat]
  split
  · next hrun =>
    have hne : pieces ≠ [] := by
      rintro rfl
      simp [endsInCharacters] at hrun
    rw [h.range, if_neg hne]
  · have hoffset := (h.taken.trans htakes).offset
    rw [← sourceOf_concat] at hoffset
    rw [Content.extended, h.range, ← hoffset]
    split
    · next hnone =>
      have hnil : pieces = [] := by
        by_contra hne
        rw [if_neg hne] at hnone
        cases hnone
      rw [hnil] at h
      rw [h.taken.eq_of_nil]
    · next first stop hsome =>
      split at hsome
      · cases hsome
      · cases hsome
        rfl

theorem add (h : o.Holds inside pieces c) {p : Piece} (htakes : c.Takes p.source d)
    (hcomposed : Composed (pieces ++ [p]))
    (hspelled : ∀ child source, p = .element child source → Spelled c.location source child)
    (hahead : p.isText = true → d.rest = [] ∨ d.startsWith "<" = true) :
    { o with content := o.content.add c d p }.Holds inside (pieces ++ [p]) d where
  opened := h.opened
  taken := by
    rw [sourceOf_concat]
    exact h.taken.trans htakes
  composed := hcomposed
  spelled := h.spelled_concat hspelled
  children := by
    rw [Content.children_add, h.children, List.filterMap_append]
    cases p <;> rfl
  range := by rw [h.range_concat htakes, if_neg (by simp)]
  afterText := by rw [Content.afterText_add, endsInCharacters_concat]
  markupAhead := by
    rintro ⟨q, hq, htext⟩
    rw [List.getLast?_concat] at hq
    cases hq
    exact hahead htext

/-- A text goes up to the next markup, so that no other text comes after it. -/
theorem add_plain (h : o.Holds inside pieces c) {kind : Kind} {source : List Char}
    (htakes : c.Takes source d) (hspells : kind.Spells source)
    (hahead : kind = .text → d.rest = [] ∨ d.startsWith "<" = true) :
    { o with content := o.content.add c d (.plain kind source) }.Holds inside
      (pieces ++ [Piece.plain kind source]) d := by
  have hcomposed : Composed (pieces ++ [.plain kind source]) := by
    refine h.composed.concat ?_ fun q hq htext => ?_
    · intro other text heq
      cases heq
      exact hspells
    · refine decide_eq_false fun hkind => ?_
      subst hkind
      obtain ⟨hne, hmarkup⟩ := hspells.not_markup htakes
      rcases h.markupAhead ⟨q, hq, htext⟩ with hrest | hstarts
      · exact hne hrest
      · rw [hmarkup] at hstarts
        cases hstarts
  refine add (p := .plain kind source) h htakes hcomposed ?_ fun htext => ?_
  · intro child text heq
    cases heq
  · exact hahead (of_decide_eq_true htext)

theorem add_element (h : o.Holds inside pieces c) {e : Element} {source : List Char}
    (htakes : c.Takes source d) (hspelled : Spelled c.location source e) :
    { o with content := o.content.addElement c d e }.Holds inside
      (pieces ++ [Piece.element e source]) d := by
  have hcomposed : Composed (pieces ++ [.element e source]) := by
    refine h.composed.concat ?_ fun _ _ _ => rfl
    intro kind text heq
    cases heq
  refine add (p := .element e source) h htakes hcomposed ?_ fun htext => ?_
  · intro child text heq
    cases heq
    exact hspelled
  · cases htext

theorem markup_eq (h : o.Holds inside pieces c) :
    o.content.markup = String.ofList (sourceOf (kept pieces)) := by
  have hleads : sourceOf (kept pieces) <+: inside.rest := by
    rw [h.taken.rest]
    exact (prefix_sourceOf (prefix_kept pieces)).trans (List.prefix_append _ _)
  rw [Content.markup, h.range]
  split
  · next hnone =>
    split at hnone
    · next hnil =>
      rw [hnil]
      rfl
    · cases hnone
  · next first stop hsome =>
    split at hsome
    · cases hsome
    · cases hsome
      rw [Nat.add_sub_cancel_left, ← List.prefix_iff_eq_take.mp hleads]

/-- At its end tag the element is complete. -/
theorem close (h : o.Holds inside pieces c) {closing : List Char} (htakes : c.Takes closing d)
    (hclosing : SpellsEnd closing o.tag.name) :
    ∃ text, o.start.Takes text d ∧ Spelled o.start.location text (o.close d) := by
  obtain ⟨opening, attributes, hopening, hspells⟩ := h.opened
  have hwhole := (hopening.trans h.taken).trans htakes
  refine ⟨_, hwhole, .full hspells hclosing h.composed ?_ rfl h.children h.markup_eq ?_⟩
  · intro before child source after heq
    rw [Location.after_append, ← hopening.location]
    exact h.spelled before child source after heq
  · rw [← hwhole.location]
    rfl

end Opened.Holds

theorem Opened.holds_nil {tag : Tag} {scope : List (String × String)} {start d : Cursor}
    {text : List Char} {attributes : List (QName × List Char)} (htakes : start.Takes text d)
    (hspells : SpellsStart text tag.name attributes false) :
    Holds { tag, scope, start } d [] d where
  opened := ⟨text, attributes, htakes, hspells⟩
  taken := .refl d
  composed := ⟨by simp, .nil⟩
  spelled := by simp
  children := rfl
  range := rfl
  afterText := rfl
  markupAhead := by simp

theorem spelled_empty {tag : Tag} {scope : List (String × String)} {start d : Cursor}
    {text : List Char} {attributes : List (QName × List Char)} (htakes : start.Takes text d)
    (hspells : SpellsStart text tag.name attributes true) :
    Spelled start.location text (Opened.close { tag, scope, start } d) := by
  refine .empty hspells rfl rfl rfl ?_
  rw [← htakes.location]
  rfl

/-! ### Reading elements -/

namespace Underway

variable {root c d : Cursor} {o : Opened} {outer : List Opened} {source : List Char}

theorem plain (h : Underway root (o :: outer) c) {kind : Kind} (htakes : c.Takes source d)
    (hspells : kind.Spells source)
    (hahead : kind = .text → d.rest = [] ∨ d.startsWith "<" = true) :
    Underway root ({ o with content := o.content.add c d (.plain kind source) } :: outer) d := by
  obtain ⟨⟨inside, pieces, hholds⟩, houter⟩ := h
  exact ⟨⟨inside, _, hholds.add_plain htakes hspells hahead⟩, houter⟩

theorem element (h : Underway root (o :: outer) c) {e : Element} (htakes : c.Takes source d)
    (hspelled : Spelled c.location source e) :
    Underway root ({ o with content := o.content.addElement c d e } :: outer) d := by
  obtain ⟨⟨inside, pieces, hholds⟩, houter⟩ := h
  exact ⟨⟨inside, _, hholds.add_element htakes hspelled⟩, houter⟩

end Underway

/-- By induction on the items that are read; what is read of the open elements is the invariant. -/
theorem restOfElement_spelled {root c d : Cursor} {inner : Opened} {outer : List Opened}
    {e : Element} (hopen : Underway root (inner :: outer) c)
    (h : restOfElement inner outer c = .ok (e, d)) :
    ∃ text, root.Takes text d ∧ Spelled root.location text e := by
  fun_induction restOfElement inner outer c with
  | case1 => cases h
  | case2 => cases h
  | case3 inner outer c hne f hread ih =>
    cases readItem_between hne hread with
    | comment htakes hspells => exact ih (hopen.plain htakes hspells (by simp)) h
  | case4 inner outer c hne f hread ih =>
    cases readItem_between hne hread with
    | instruction htakes hspells => exact ih (hopen.plain htakes hspells (by simp)) h
  | case5 inner outer c hne f hread ih =>
    cases readItem_between hne hread with
    | text htakes hspells hahead => exact ih (hopen.plain htakes hspells fun _ => hahead) h
    | cdata htakes hspells => exact ih (hopen.plain htakes hspells (by simp)) h
  | case6 inner outer c hne f hread =>
    cases readItem_between hne hread with
    | cutTag hrest =>
      rw [restOfElement, dif_pos hrest] at h
      cases h
  | case7 inner outer c hne tag f hread ihEmpty ihOpened =>
    cases readItem_between hne hread with
    | startTag htakes hspells =>
      obtain ⟨_, -, h⟩ := bind_eq_ok h
      cases hempty : tag.empty with
      | true =>
        rw [hempty] at hspells
        simp only [hempty, if_true] at h
        exact ihEmpty (hopen.element htakes (spelled_empty htakes hspells)) h
      | false =>
        rw [hempty] at hspells
        simp only [hempty, Bool.false_eq_true, if_false] at h
        exact ihOpened ⟨⟨f, [], Opened.holds_nil htakes hspells⟩, hopen⟩ h
  | case8 => cases h
  | case9 inner c hne name f hread hname =>
    cases readItem_between hne hread with
    | endTag htakes hspells =>
      cases h
      rw [not_not.mp hname] at hspells
      obtain ⟨⟨inside, pieces, hholds⟩, rfl⟩ := hopen
      exact hholds.close htakes hspells
  | case10 inner c hne name f hread hname parent rest content ih =>
    cases readItem_between hne hread with
    | endTag htakes hspells =>
      rw [not_not.mp hname] at hspells
      obtain ⟨⟨inside, pieces, hholds⟩, hparent⟩ := hopen
      obtain ⟨text, htext, hspelled⟩ := hholds.close htakes hspells
      exact ih (hparent.element htext hspelled) h

theorem readRoot_spelled {c d : Cursor} {e : Element} (hc : c.startsWith "<" = true)
    (h : readRoot c = .ok (e, d)) : ∃ text, c.Takes text d ∧ Spelled c.location text e := by
  obtain ⟨⟨result, f⟩, hread, h⟩ := bind_eq_ok h
  cases result with
  | none => cases h
  | some tag =>
    obtain ⟨text, attributes, _, htakes, hspells, -⟩ := readStartTag_takes hc hread
    obtain ⟨_, -, h⟩ := bind_eq_ok h
    cases hempty : tag.empty with
    | true =>
      rw [hempty] at hspells
      simp only [hempty, if_true] at h
      cases h
      exact ⟨text, htakes, spelled_empty htakes hspells⟩
    | false =>
      rw [hempty] at hspells
      simp only [hempty, Bool.false_eq_true, if_false] at h
      have hopen : Underway c [{ tag, scope := tag.scope [], start := c }] f :=
        ⟨⟨f, [], Opened.holds_nil htakes hspells⟩, rfl⟩
      exact restOfElement_spelled hopen h

/-! ### Documents -/

theorem skipDeclarationSpaces_moves : Moves skipDeclarationSpaces := by
  refine .bind .get fun c => ?_
  split
  · exact .pure _
  · exact .ite skipSpaces_moves (.ite (.pure _) (.fail _))

theorem readDeclaration_moves : Moves readDeclaration := by
  have hwritten := readWritten_eats.moves
  have hspaces := skipDeclarationSpaces_moves
  have hend : Moves (do skipSpaces; expectText "?>") :=
    .bind skipSpaces_moves fun _ => expectText_moves _
  refine .bind (take_moves _) fun _ => .bind skipSpaces_moves fun _ => ?_
  refine .bind (ahead_moves _) fun _ => .ite ?_ (.bind place_moves fun _ => .fail _)
  refine .bind hwritten fun _ => .bind hspaces fun _ => .bind (ahead_moves _) fun _ => ?_
  have hstandalone (found : Bool) : Moves (do
      if found then
        let _ ← readWritten
      skipSpaces
      expectText "?>") := by
    exact .ite (.bind hwritten fun _ => hend) hend
  have hrest := Moves.bind (ahead_moves "standalone") hstandalone
  exact .ite (.bind hwritten fun _ => .bind hspaces fun _ => hrest) hrest

theorem skipMisc_takes {c d : Cursor} (h : skipMisc c = .ok d) : ∃ text, c.Takes text d := by
  fun_induction skipMisc c with
  | case1 => cases h
  | case2 c e hcomment item f hread ih =>
    obtain ⟨-, comment, hcomment, -⟩ := readComment_takes hcomment hread
    obtain ⟨rest, hrest⟩ := ih h
    exact ⟨_, ((c.takes_takeWhile isSpace).trans hcomment).trans hrest⟩
  | case3 => cases h
  | case4 c e _ hinstruction item f hread ih =>
    obtain ⟨-, instruction, hinstruction, -⟩ := readInstruction_takes hinstruction hread
    obtain ⟨rest, hrest⟩ := ih h
    exact ⟨_, ((c.takes_takeWhile isSpace).trans hinstruction).trans hrest⟩
  | case5 c e =>
    obtain rfl : e = d := Except.ok.inj h
    exact ⟨_, c.takes_takeWhile isSpace⟩

theorem skipMark_reaches (c : Cursor) : c.Reaches (skipMark c) := by
  rw [skipMark]
  split
  · exact c.reaches_advance 1
  · exact .refl c

theorem skipDeclaration_reaches {c d : Cursor} (h : skipDeclaration c = .ok d) : c.Reaches d := by
  rw [skipDeclaration] at h
  split at h
  · cases hread : readDeclaration c with
    | error err =>
      rw [hread] at h
      cases h
    | ok result =>
      rw [hread] at h
      cases h
      exact readDeclaration_moves _ _ _ hread
  · cases h
    exact .refl c

/-- The root element of a source that can be read is read at its start tag. -/
theorem readRoot_of_parse {source : String} {root : Element} (h : parse source = .ok root) :
    ∃ before c d, (Cursor.start source.toList).Takes before c ∧ c.startsWith "<" = true ∧
      readRoot c = .ok (root, d) := by
  obtain ⟨c, hdeclaration, h⟩ := bind_eq_ok h
  obtain ⟨d, hmisc, h⟩ := bind_eq_ok h
  obtain ⟨mark, hmark⟩ := (skipMark_reaches (.start source.toList)).takes
  obtain ⟨declaration, hdeclaration⟩ := (skipDeclaration_reaches hdeclaration).takes
  obtain ⟨misc, hmisc⟩ := skipMisc_takes hmisc
  split at h
  · cases h
  split at h
  · next hstart =>
    obtain ⟨⟨found, e⟩, hroot, h⟩ := bind_eq_ok h
    obtain ⟨f, -, h⟩ := bind_eq_ok h
    split at h
    · cases h
      exact ⟨_, d, e, (hmark.trans hdeclaration).trans hmisc, hstart, hroot⟩
    · cases h
  · split at h
    · cases h
    · cases h

/-- A source that can be read has the root element in it. -/
theorem parse_spelled {source : String} {root : Element} (h : parse source = .ok root) :
    ∃ before text after, source.toList = before ++ text ++ after ∧
      Spelled (Location.start.after before) text root := by
  obtain ⟨before, c, d, hbefore, hstart, hroot⟩ := readRoot_of_parse h
  obtain ⟨text, htext, hspelled⟩ := readRoot_spelled hstart hroot
  rw [hbefore.location] at hspelled
  exact ⟨before, text, d.rest, (hbefore.trans htext).rest, hspelled⟩

/-- The elements below an element have their own parts of its text. -/
theorem Spelled.of_mem_preorder {place : Location} {text : List Char} {root : Element}
    (h : Spelled place text root) {e : Element} (he : e ∈ root.preorder) :
    ∃ before part after, text = before ++ part ++ after ∧ Spelled (place.after before) part e := by
  induction h with
  | @empty place text name attributes root hspells hname hchildren hmarkup hspan =>
    rw [Element.preorder_eq, hchildren, List.flatMap_nil, List.mem_singleton] at he
    subst he
    exact ⟨[], text, [], (List.append_nil text).symm, .empty hspells hname hchildren hmarkup hspan⟩
  | @full place opening closing pieces name attributes root hopening hclosing hcomposed hspelled
      hname hchildren hmarkup hspan ih =>
    rw [Element.preorder_eq, List.mem_cons, List.mem_flatMap] at he
    rcases he with rfl | ⟨child, hchild, he⟩
    · exact ⟨[], _, [], (List.append_nil _).symm,
        .full hopening hclosing hcomposed hspelled hname hchildren hmarkup hspan⟩
    · rw [hchildren, List.mem_filterMap] at hchild
      obtain ⟨p, hp, hchild⟩ := hchild
      cases p with
      | plain kind source => cases hchild
      | element other source =>
        cases hchild
        obtain ⟨front, back, hpieces⟩ := List.append_of_mem hp
        obtain ⟨before, part, after, htext, hpart⟩ := ih front child source back hpieces he
        refine ⟨opening ++ sourceOf front ++ before, part, after ++ sourceOf back ++ closing,
          ?_, ?_⟩
        · have hsource : sourceOf (.element child source :: back) = source ++ sourceOf back := by
            rw [sourceOf, List.flatMap_cons]
            rfl
          rw [hpieces, sourceOf_append, hsource, htext]
          simp only [List.append_assoc]
        · rw [Location.after_append]
          exact hpart

/-- Every element of a document stands in its source, where its span says.  Its markup is empty if
it is one tag.  Otherwise it is all that stands between its tags, unless that ends in several pieces
of character data; then the pieces after the first of these are missing. -/
theorem markup_between_tags {source : String} {root e : Element} (h : parse source = .ok root)
    (he : e ∈ root.preorder) :
    ∃ before text after, source.toList = before ++ text ++ after ∧
      e.span = ⟨Location.start.after before, Location.start.after (before ++ text)⟩ ∧
      ((∃ name attributes, SpellsStart text name attributes true ∧ e.name = name.base ∧
          e.children = [] ∧ e.markup = "") ∨
        ∃ name attributes opening pieces closing,
          text = opening ++ sourceOf pieces ++ closing ∧
          SpellsStart opening name attributes false ∧ SpellsEnd closing name ∧
          e.name = name.base ∧ Composed pieces ∧
          e.children = pieces.filterMap Piece.element? ∧
          (∀ front child part back, pieces = front ++ .element child part :: back →
            Spelled (Location.start.after (before ++ opening ++ sourceOf front)) part child) ∧
          e.markup = String.ofList (sourceOf (kept pieces)) ∧
          (e.markup = String.ofList (sourceOf pieces) ↔ ¬EndsInRun pieces)) := by
  obtain ⟨around, whole, rest, hsource, hroot⟩ := parse_spelled h
  obtain ⟨before, text, after, hwhole, hspelled⟩ := hroot.of_mem_preorder he
  have hplace : (Location.start.after around).after before = .after .start (around ++ before) :=
    (Location.after_append _ _ _).symm
  rw [hplace] at hspelled
  refine ⟨around ++ before, text, after ++ rest, ?_, ?_, ?_⟩
  · rw [hsource, hwhole]
    simp only [List.append_assoc]
  · rw [Location.after_append _ (around ++ before) text]
    cases hspelled with
    | empty _ _ _ _ hspan => exact hspan
    | full _ _ _ _ _ _ _ hspan => exact hspan
  · cases hspelled with
    | empty hspells hname hchildren hmarkup => exact .inl ⟨_, _, hspells, hname, hchildren, hmarkup⟩
    | full hopening hclosing hcomposed hchild hname hchildren hmarkup =>
      refine .inr ⟨_, _, _, _, _, rfl, hopening, hclosing, hname, hcomposed, hchildren, ?_,
        hmarkup, ?_⟩
      · intro front child part back hpieces
        rw [List.append_assoc, Location.after_append]
        exact hchild front child part back hpieces
      · rw [hmarkup, String.ofList_inj, sourceOf_kept_eq_iff hcomposed]

theorem exists_parse {α : Type} {source : String} {f : Element → α} {x : α}
    (h : (parse source).toOption.map f = some x) :
    ∃ root, parse source = .ok root ∧ f root = x := by
  cases hread : parse source with
  | error err =>
    rw [hread] at h
    cases h
  | ok root =>
    rw [hread] at h
    exact ⟨root, rfl, Option.some.inj h⟩

/-- A comment ends the first run of character data, and so all is kept. -/
theorem markup_between_tags_aside :
    ∃ root, parse "<a>one<![CDATA[two]]><!--three-->four</a>" = .ok root ∧
      ∃ before opening pieces closing after name attributes,
        "<a>one<![CDATA[two]]><!--three-->four</a>".toList =
          before ++ (opening ++ sourceOf pieces ++ closing) ++ after ∧
        SpellsStart opening name attributes false ∧ SpellsEnd closing name ∧
        String.ofList (sourceOf (kept pieces)) = "one<![CDATA[two]]><!--three-->four" := by
  obtain ⟨root, hroot, hmarkup⟩ : ∃ root,
      parse "<a>one<![CDATA[two]]><!--three-->four</a>" = .ok root ∧
        root.markup = "one<![CDATA[two]]><!--three-->four" := exists_parse (by decide +kernel)
  have hself : root ∈ root.preorder := by
    rw [Element.preorder_eq]
    exact List.mem_cons_self
  obtain ⟨before, text, after, hsource, -, hcases⟩ := markup_between_tags hroot hself
  refine ⟨root, hroot, ?_⟩
  rcases hcases with ⟨_, _, -, -, -, hempty⟩ |
    ⟨name, attributes, opening, pieces, closing, rfl, hopening, hclosing, -, -, -, -, hkept, -⟩
  · rw [hempty] at hmarkup
    exact absurd hmarkup (by decide)
  · exact ⟨before, opening, pieces, closing, after, name, attributes, hsource, hopening, hclosing,
      hkept.symm.trans hmarkup⟩

/-- The section after the text is missing, although it stands between the tags. -/
theorem markup_misses_section :
    ∃ root, parse "<a>head<![CDATA[x]]></a>" = .ok root ∧
      "<a>head<![CDATA[x]]></a>".toList =
        "<a>".toList ++ "head<![CDATA[x]]>".toList ++ "</a>".toList ∧
      SpellsStart "<a>".toList ⟨"", "a"⟩ [] false ∧ SpellsEnd "</a>".toList ⟨"", "a"⟩ ∧
      root.markup = "head" ∧ root.markup ≠ "head<![CDATA[x]]>" := by
  obtain ⟨root, hroot, hmarkup⟩ : ∃ root,
      parse "<a>head<![CDATA[x]]></a>" = .ok root ∧ root.markup = "head" :=
    exists_parse (by decide +kernel)
  have hword : Names ['a'] ⟨"", "a"⟩ := by
    refine ⟨fun x hx => ?_, by decide +kernel⟩
    rw [List.mem_singleton.mp hx]
    decide +kernel
  have hgap : IsGap [] := by simp [IsGap]
  have hopening : SpellsStart (['<'] ++ ['a'] ++ [] ++ [] ++ tagEnd false) ⟨"", "a"⟩ [] false :=
    .mk hword .nil hgap
  exact ⟨root, hroot, by decide, hopening, .mk hword hgap, hmarkup, by rw [hmarkup]; decide⟩

end StoryPlayer.Markup
