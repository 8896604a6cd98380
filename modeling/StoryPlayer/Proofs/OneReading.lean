import Mathlib.Data.List.Forall2
import StoryPlayer.Proofs.Spelling

/-! A start tag has one reading.  Names, gaps and values are runs of characters that end where a
character of another sort follows, so that a text begins with one start tag at most
(`SpellsStart.unique`), and what its attributes are written as stands for one value each
(`Valued.unique`). -/

namespace StoryPlayer.Markup

/-! ### Runs of characters -/

/-- A run of characters of one sort goes up to the first character of another. -/
theorem run_unique {sort : Char → Bool} {run other rest left : List Char}
    (hrun : ∀ x ∈ run, sort x = true) (hother : ∀ x ∈ other, sort x = true)
    (hrest : ∀ x ∈ rest.head?, sort x = false) (hleft : ∀ x ∈ left.head?, sort x = false)
    (h : run ++ rest = other ++ left) : run = other ∧ rest = left := by
  have htake : ∀ {cs more : List Char}, (∀ x ∈ cs, sort x = true) →
      (∀ x ∈ more.head?, sort x = false) → (cs ++ more).takeWhile sort = cs := by
    intro cs more hcs hmore
    rw [List.takeWhile_append_of_pos hcs]
    cases more with
    | nil => simp
    | cons x _ => simp [hmore x rfl]
  have heq : run = other := by rw [← htake hrun hrest, h, htake hother hleft]
  subst heq
  exact ⟨rfl, List.append_cancel_left h⟩

theorem not_isNameChar_of_isSpace {x : Char} (h : isSpace x = true) : isNameChar x = false := by
  simp only [isSpace, Bool.or_eq_true, beq_iff_eq] at h
  rcases h with ((rfl | rfl) | rfl) | rfl
  all_goals decide

theorem not_isSpace_of_isNameChar {x : Char} (h : isNameChar x = true) : isSpace x = false := by
  refine Bool.eq_false_iff.mpr fun hspace => ?_
  rw [not_isNameChar_of_isSpace hspace] at h
  cases h

/-! ### Names and attributes -/

theorem Names.head? {word : List Char} {name : QName} (h : Names word name) (rest : List Char) :
    ∀ x ∈ (word ++ rest).head?, isNameChar x = true := by
  cases word with
  | nil => cases h.2
  | cons y _ =>
    rintro x ⟨⟩
    exact h.1 y List.mem_cons_self

theorem Names.unique {word other rest left : List Char} {name named : QName}
    (h : Names word name) (hother : Names other named)
    (hrest : ∀ x ∈ rest.head?, isNameChar x = false)
    (hleft : ∀ x ∈ left.head?, isNameChar x = false)
    (heq : word ++ rest = other ++ left) : name = named ∧ rest = left := by
  obtain ⟨rfl, hrests⟩ := run_unique h.1 hother.1 hrest hleft heq
  exact ⟨Option.some.inj (h.2.symm.trans hother.2), hrests⟩

/-- A name ends where a gap starts, or what is behind it. -/
theorem head?_gap {gap rest : List Char} (hgap : IsGap gap)
    (hrest : ∀ x ∈ rest.head?, isNameChar x = false) :
    ∀ x ∈ (gap ++ rest).head?, isNameChar x = false := by
  cases gap with
  | nil => exact hrest
  | cons y _ =>
    rintro x ⟨⟩
    exact not_isNameChar_of_isSpace (hgap y List.mem_cons_self)

theorem SpellsAttribute.head? {text value : List Char} {name : QName}
    (h : SpellsAttribute text name value) (rest : List Char) :
    ∀ x ∈ (text ++ rest).head?, isNameChar x = true := by
  obtain ⟨hword, -⟩ := h
  simp only [List.append_assoc]
  exact hword.head? _

theorem SpellsAttribute.unique {text other rest left value valued : List Char}
    {name named : QName} (h : SpellsAttribute text name value)
    (hother : SpellsAttribute other named valued) (heq : text ++ rest = other ++ left) :
    name = named ∧ value = valued ∧ rest = left := by
  obtain @⟨_, _, _, _, _, mark, hword, hgap₁, hgap₂, hmark, hvalue, -⟩ := h
  obtain @⟨_, _, _, _, _, _, hword', hgap₁', hgap₂', hmark', hvalue', -⟩ := hother
  simp only [List.append_assoc, List.cons_append, List.nil_append] at heq
  have hequals : ∀ more, ∀ x ∈ ('=' :: more).head?, isNameChar x = false ∧ isSpace x = false := by
    rintro more x ⟨⟩
    decide
  have hquote : ∀ {c : Char}, c = '\'' ∨ c = '"' → ∀ more, ∀ x ∈ (c :: more).head?,
      isSpace x = false := by
    rintro c (rfl | rfl) more x ⟨⟩
    · decide
    · decide
  have hrun : ∀ {cs : List Char}, mark ∉ cs → ∀ x ∈ cs, (x != mark) = true := by
    intro cs hcs x hx
    simpa using fun hxmark : x = mark => hcs (hxmark ▸ hx)
  have hclose : ∀ more, ∀ x ∈ (mark :: more).head?, (x != mark) = false := by
    rintro more x ⟨⟩
    simp
  obtain ⟨rfl, hbehindName⟩ := hword.unique hword'
    (head?_gap hgap₁ fun x hx => (hequals _ x hx).1)
    (head?_gap hgap₁' fun x hx => (hequals _ x hx).1) heq
  obtain ⟨-, hbehindGap⟩ := run_unique hgap₁ hgap₁' (fun x hx => (hequals _ x hx).2)
    (fun x hx => (hequals _ x hx).2) hbehindName
  obtain ⟨-, hquotes⟩ := run_unique hgap₂ hgap₂' (hquote hmark _) (hquote hmark' _)
    (List.cons.inj hbehindGap).2
  obtain ⟨rfl, hvalues⟩ := List.cons.inj hquotes
  obtain ⟨rfl, hends⟩ := run_unique (hrun hvalue) (hrun hvalue') (hclose _) (hclose _) hvalues
  exact ⟨rfl, rfl, (List.cons.inj hends).2⟩

/-! ### Start tags -/

theorem head?_tagEnd (empty : Bool) (rest : List Char) :
    ∃ x, (tagEnd empty ++ rest).head? = some x ∧ isNameChar x = false ∧ isSpace x = false := by
  cases empty with
  | false => exact ⟨'>', rfl, by decide⟩
  | true => exact ⟨'/', rfl, by decide⟩

theorem not_isSpace_head?_tagEnd (empty : Bool) (rest : List Char) :
    ∀ x ∈ (tagEnd empty ++ rest).head?, isSpace x = false := by
  obtain ⟨y, hy, -, hspace⟩ := head?_tagEnd empty rest
  rw [hy]
  rintro x ⟨⟩
  exact hspace

theorem SpellsAttribute.not_isSpace_head? {text value : List Char} {name : QName}
    (h : SpellsAttribute text name value) (rest : List Char) :
    ∀ x ∈ (text ++ rest).head?, isSpace x = false :=
  fun x hx => not_isSpace_of_isNameChar (h.head? rest x hx)

/-- Behind a gap a tag ends or an attribute starts, but not both. -/
theorem end_ne_attribute {gap other text rest left value : List Char} {empty : Bool}
    {name : QName} (hgap : IsGap gap) (hother : IsGap other)
    (htext : SpellsAttribute text name value) :
    gap ++ (tagEnd empty ++ rest) ≠ other ++ (text ++ left) := by
  intro heq
  obtain ⟨-, hsame⟩ := run_unique hgap hother (not_isSpace_head?_tagEnd empty rest)
    (htext.not_isSpace_head? left) heq
  obtain ⟨x, hx, hname, -⟩ := head?_tagEnd empty rest
  rw [hsame] at hx
  rw [htext.head? left x hx] at hname
  cases hname

/-- The attributes go up to where the tag ends, by induction on one of their readings. -/
theorem SpellsAttributes.unique {middle other gap gap' rest left : List Char}
    {attributes others : List (QName × List Char)} {empty empty' : Bool}
    (h : SpellsAttributes middle attributes) (hother : SpellsAttributes other others)
    (hgap : IsGap gap) (hgap' : IsGap gap')
    (heq : middle ++ (gap ++ (tagEnd empty ++ rest)) =
      other ++ (gap' ++ (tagEnd empty' ++ left))) :
    attributes = others ∧ gap ++ (tagEnd empty ++ rest) = gap' ++ (tagEnd empty' ++ left) := by
  induction h generalizing other others with
  | nil =>
    cases hother with
    | nil => exact ⟨rfl, heq⟩
    | cons hspace _ htext _ =>
      simp only [List.append_assoc] at heq
      exact absurd heq (end_ne_attribute hgap hspace htext)
  | cons hspace _ htext hmore ih =>
    cases hother with
    | nil =>
      simp only [List.append_assoc] at heq
      exact absurd heq.symm (end_ne_attribute hgap' hspace htext)
    | cons hspace' _ htext' hmore' =>
      simp only [List.append_assoc] at heq
      obtain ⟨-, htexts⟩ := run_unique hspace hspace' (htext.not_isSpace_head? _)
        (htext'.not_isSpace_head? _) heq
      obtain ⟨rfl, rfl, hrests⟩ := htext.unique htext' htexts
      obtain ⟨rfl, hends⟩ := ih hmore' hrests
      exact ⟨rfl, hends⟩

theorem SpellsAttributes.head? {middle gap rest : List Char}
    {attributes : List (QName × List Char)} {empty : Bool}
    (h : SpellsAttributes middle attributes) (hgap : IsGap gap) :
    ∀ x ∈ (middle ++ (gap ++ (tagEnd empty ++ rest))).head?, isNameChar x = false := by
  cases h with
  | nil =>
    rw [List.nil_append]
    refine head?_gap hgap fun x hx => ?_
    obtain ⟨y, hy, hname, -⟩ := head?_tagEnd empty rest
    cases hy.symm.trans hx
    exact hname
  | cons hspace hne =>
    obtain ⟨y, others, rfl⟩ := List.exists_cons_of_ne_nil hne
    rintro x ⟨⟩
    exact not_isNameChar_of_isSpace (hspace y List.mem_cons_self)

/-- A text begins with one start tag at most. -/
theorem SpellsStart.unique {text other rest left : List Char} {name named : QName}
    {attributes others : List (QName × List Char)} {empty empty' : Bool}
    (h : SpellsStart text name attributes empty) (hother : SpellsStart other named others empty')
    (heq : text ++ rest = other ++ left) : name = named ∧ attributes = others := by
  obtain ⟨hword, hattributes, hgap⟩ := h
  obtain ⟨hword', hattributes', hgap'⟩ := hother
  simp only [List.append_assoc] at heq
  obtain ⟨rfl, hmiddles⟩ := hword.unique hword' (hattributes.head? hgap) (hattributes'.head? hgap')
    (List.cons.inj heq).2
  exact ⟨rfl, (hattributes.unique hattributes' hgap hgap' hmiddles).1⟩

/-! ### Values -/

theorem Reference.resolve_unique {reference : Reference} {place other : Location} {x y : Char}
    (h : reference.resolve place = .ok x) (hother : reference.resolve other = .ok y) : x = y := by
  cases reference with
  | character c =>
    cases h
    cases hother
    rfl
  | entity name =>
    rw [resolve] at h hother
    cases hname : predefined.lookup name with
    | none =>
      rw [hname] at h
      cases h
    | some c =>
      rw [hname] at h hother
      cases h
      cases hother
      rfl

theorem Normalizes.unique {cs value other : List Char} (h : Normalizes cs value)
    (hother : Normalizes cs other) : value = other := by
  induction h generalizing other with
  | nil =>
    cases hother
    rfl
  | reference hread hresolve _ ih =>
    cases hother with
    | reference hread' hresolve' hrest' =>
      cases hread.symm.trans hread'
      rw [Reference.resolve_unique hresolve hresolve', ih hrest']
    | character hne => exact absurd rfl hne
  | lineBreak _ ih =>
    cases hother with
    | lineBreak hrest' => rw [ih hrest']
    | character _ hbreak => exact absurd rfl (hbreak rfl)
  | character hne hbreak _ ih =>
    cases hother with
    | reference => exact absurd rfl hne
    | lineBreak => exact absurd rfl (hbreak rfl)
    | character _ _ hrest' => rw [ih hrest']

theorem Valued.unique {written : List (QName × List Char)} {values others : List (QName × String)}
    (h : Valued written values) (hother : Valued written others) : values = others := by
  refine Relator.RightUnique.forall₂ (fun w v u hv hu => ?_) h hother
  exact Prod.ext (hv.1.symm.trans hu.1) (String.toList_inj.mp (hv.2.unique hu.2))

end StoryPlayer.Markup
