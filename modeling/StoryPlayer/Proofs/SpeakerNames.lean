import Mathlib.Data.List.Chain
import StoryPlayer.Proofs.Lines
import StoryPlayer.Proofs.RawMarkup

/-! Speakers are told apart by their tags.  The label of a speaker is the name of the tag with a
space before each capital letter but the first character.  Of a name without spaces the label adds
just these: it is the one text that is the name again without its spaces and has a space before the
capital letters inside it and nowhere else (`eq_spaced_iff`).  So the label gives the name back, and
different tags are shown as different speakers. -/

namespace StoryPlayer

namespace Text

/-- The spaces in a text are those before its capital letters, the first character apart: of two
characters that follow each other, the first is a space exactly if the second is a capital. -/
structure SetsOffCapitals (text : List Char) : Prop where
  head : text.head? ≠ some ' '
  last : text.getLast? ≠ some ' '
  chain : text.IsChain fun a b => a = ' ' ↔ isCapital b = true

/-- Characters with a space before each capital letter. -/
def setOff (cs : List Char) : List Char :=
  cs.flatMap fun c => if isCapital c then [' ', c] else [c]

/-- The characters that are no spaces. -/
def unspaced (cs : List Char) : List Char := cs.filter fun c => c ≠ ' '

theorem isCapital_space : isCapital ' ' = false := by decide

theorem setOff_cons (c : Char) (rest : List Char) :
    setOff (c :: rest) = if isCapital c then ' ' :: c :: setOff rest else c :: setOff rest := by
  rw [setOff, List.flatMap_cons, ← setOff]
  split <;> rfl

theorem unspaced_cons {c : Char} (h : c ≠ ' ') (rest : List Char) :
    unspaced (c :: rest) = c :: unspaced rest :=
  List.filter_cons_of_pos (by simpa using h)

theorem unspaced_space (rest : List Char) : unspaced (' ' :: rest) = unspaced rest :=
  List.filter_cons_of_neg (by simp)

theorem ne_space_of_isCapital {c : Char} (h : isCapital c = true) : c ≠ ' ' := by
  rintro rfl
  rw [isCapital_space] at h
  cases h

/-! ### Spaces are put in and taken out -/

theorem unspaced_setOff {cs : List Char} (h : ' ' ∉ cs) : unspaced (setOff cs) = cs := by
  induction cs with
  | nil => rfl
  | cons c rest ih =>
    have hc : c ≠ ' ' := fun hc => h (hc ▸ List.mem_cons_self)
    have hrest := ih fun hrest => h (List.mem_cons_of_mem c hrest)
    rw [setOff_cons]
    split
    · rw [unspaced_space, unspaced_cons hc, hrest]
    · rw [unspaced_cons hc, hrest]

/-- After a character that is no space, the characters that are set off follow the rule. -/
theorem chain_setOff {cs : List Char} (h : ' ' ∉ cs) {c : Char} (hc : c ≠ ' ') :
    (c :: setOff cs).IsChain fun a b => a = ' ' ↔ isCapital b = true := by
  induction cs generalizing c with
  | nil => exact .singleton c
  | cons d rest ih =>
    have hd : d ≠ ' ' := fun hd => h (hd ▸ List.mem_cons_self)
    have hrest := ih (fun hrest => h (List.mem_cons_of_mem d hrest)) hd
    rw [setOff_cons]
    split
    · next hcapital =>
      refine .cons_cons (iff_of_false hc ?_) (.cons_cons (iff_of_true rfl hcapital) hrest)
      rw [isCapital_space]
      exact Bool.false_ne_true
    · next hcapital => exact .cons_cons (iff_of_false hc hcapital) hrest

theorem getLast?_setOff {cs : List Char} (h : ' ' ∉ cs) {c : Char} (hc : c ≠ ' ') :
    (c :: setOff cs).getLast? ≠ some ' ' := by
  induction cs generalizing c with
  | nil => simpa [setOff] using hc
  | cons d rest ih =>
    have hd : d ≠ ' ' := fun hd => h (hd ▸ List.mem_cons_self)
    have hrest := ih (fun hrest => h (List.mem_cons_of_mem d hrest)) hd
    rw [setOff_cons]
    split
    · rwa [List.getLast?_cons_cons, List.getLast?_cons_cons]
    · rwa [List.getLast?_cons_cons]

theorem setsOffCapitals_cons {cs : List Char} {c : Char} (h : ' ' ∉ c :: cs) :
    SetsOffCapitals (c :: setOff cs) := by
  have hc : c ≠ ' ' := fun hc => h (hc ▸ List.mem_cons_self)
  have hcs : ' ' ∉ cs := fun hcs => h (List.mem_cons_of_mem c hcs)
  exact ⟨by simpa using hc, getLast?_setOff hcs hc, chain_setOff hcs hc⟩

/-- A text that follows the rule is what is left of it without its spaces, set off again.  By
induction on the text behind a character `c`, which may be the space before a capital letter. -/
theorem eq_setOff {c : Char} {text : List Char}
    (hchain : (c :: text).IsChain fun a b => a = ' ' ↔ isCapital b = true)
    (hlast : (c :: text).getLast? ≠ some ' ') :
    (if c = ' ' then c :: text else text) = setOff (unspaced text) := by
  induction text generalizing c with
  | nil =>
    have hc : c ≠ ' ' := by simpa using hlast
    rw [if_neg hc]
    rfl
  | cons d rest ih =>
    obtain ⟨hd, hrest⟩ := List.isChain_cons_cons.mp hchain
    rw [List.getLast?_cons_cons] at hlast
    have ih := ih hrest hlast
    by_cases hc : c = ' '
    · have hcapital := hd.mp hc
      have hne := ne_space_of_isCapital hcapital
      rw [if_neg hne] at ih
      rw [if_pos hc, unspaced_cons hne, setOff_cons, if_pos hcapital, ← ih, hc]
    · have hplain : ¬isCapital d = true := fun hcapital => hc (hd.mpr hcapital)
      rw [if_neg hc]
      by_cases hspace : d = ' '
      · rw [if_pos hspace] at ih
        rw [hspace, unspaced_space, ← ih, hspace]
      · rw [if_neg hspace] at ih
        rw [unspaced_cons hspace, setOff_cons, if_neg hplain, ← ih]

theorem SetsOffCapitals.not_twice {text : List Char} (h : SetsOffCapitals text) :
    ¬[' ', ' '] <:+: text := by
  intro hinfix
  have hchain := List.IsChain.infix h.chain hinfix
  have hpair := List.isChain_pair.mp hchain
  rw [isCapital_space] at hpair
  exact Bool.false_ne_true (hpair.mp rfl)

/-! ### Labels -/

theorem unspaced_spaced {name : String} (h : ' ' ∉ name.toList) :
    unspaced (spaced name).toList = name.toList := by
  rw [spaced]
  cases hname : name.toList with
  | nil => rfl
  | cons c rest =>
    rw [hname] at h
    have hc : c ≠ ' ' := fun hc => h (hc ▸ List.mem_cons_self)
    have hrest : ' ' ∉ rest := fun hrest => h (List.mem_cons_of_mem c hrest)
    rw [String.toList_ofList, unspaced_cons hc, ← setOff, unspaced_setOff hrest]

theorem setsOffCapitals_spaced {name : String} (h : ' ' ∉ name.toList) :
    SetsOffCapitals (spaced name).toList := by
  rw [spaced]
  cases hname : name.toList with
  | nil => exact ⟨by decide, by decide, .nil⟩
  | cons c rest =>
    rw [hname] at h
    rw [String.toList_ofList]
    exact setsOffCapitals_cons h

/-- The label of a name is the only text that the two rules hold of. -/
theorem eq_spaced_iff {name : String} (h : ' ' ∉ name.toList) {text : List Char} :
    text = (spaced name).toList ↔ unspaced text = name.toList ∧ SetsOffCapitals text := by
  constructor
  · rintro rfl
    exact ⟨unspaced_spaced h, setsOffCapitals_spaced h⟩
  · rintro ⟨hname, hrules⟩
    rw [spaced, ← hname]
    cases text with
    | nil => rfl
    | cons c rest =>
      have hc : c ≠ ' ' := by simpa using hrules.head
      have hrest := eq_setOff hrules.chain hrules.last
      rw [if_neg hc] at hrest
      rw [unspaced_cons hc, String.toList_ofList, ← setOff, ← hrest]

theorem eq_of_spaced_eq {name other : String} (h : ' ' ∉ name.toList) (hother : ' ' ∉ other.toList)
    (heq : spaced name = spaced other) : name = other := by
  apply String.toList_inj.mp
  rw [← unspaced_spaced h, heq, unspaced_spaced hother]

end Text

/-! ### Tags -/

namespace Markup

theorem space_not_mem_base {word : List Char} {name : QName} (h : Names word name) :
    ' ' ∉ name.base.toList := by
  obtain ⟨hchars, hname⟩ := h
  have hmem : ∀ x ∈ name.base.toList, x ∈ word := by
    rw [QName.ofChars?, List.span_eq_takeWhile_dropWhile] at hname
    split at hname
    · next base hsplit =>
      obtain ⟨rfl, -⟩ := Prod.mk.inj hsplit
      split at hname
      · cases hname
        rw [String.toList_ofList]
        exact fun x hx => (List.takeWhile_prefix _).subset hx
      · cases hname
    · next space colon base hsplit =>
      obtain ⟨-, hbase⟩ := Prod.mk.inj hsplit
      split at hname
      · cases hname
        rw [String.toList_ofList]
        intro x hx
        apply (List.dropWhile_suffix (· != ':')).subset
        rw [hbase]
        exact List.mem_cons_of_mem colon hx
      · cases hname
  intro hspace
  have hspace := hchars ' ' (hmem ' ' hspace)
  exact absurd hspace (by decide)

theorem space_not_mem_name {source : String} {root e : Element} (h : parse source = .ok root)
    (he : e ∈ root.preorder) : ' ' ∉ e.name.toList := by
  obtain ⟨_, _, _, -, hroot⟩ := parse_spelled h
  obtain ⟨_, _, _, -, hspelled⟩ := hroot.of_mem_preorder he
  cases hspelled with
  | empty hspells hname =>
    obtain ⟨hword, -, -⟩ := hspells
    rw [hname]
    exact space_not_mem_base hword
  | full hopening _ _ _ hname =>
    obtain ⟨hword, -, -⟩ := hopening
    rw [hname]
    exact space_not_mem_base hword

end Markup

open Markup

/-- The names of the language start with small letters, so that none of them is a speaker's. -/
theorem ofElement_of_isSpeakerTag {e : Element} (h : isSpeakerTag e.name = true) :
    Instruction.ofElement e = .ok (.text (some (Text.spaced e.name))) := by
  unfold Instruction.ofElement
  split
  case h_13 => rw [if_pos h]
  all_goals
    next hname =>
      rw [hname] at h
      exact absurd h (by decide)

/-- What a speaker tag shows as its speaker, whatever the story is at. -/
theorem Machine.speaker_execute {m : Machine} {e : Element} (h : isSpeakerTag e.name = true) :
    (m.execute e).2.screen.speaker = Text.spaced e.name := by
  rw [execute_line (ofElement_of_isSpeakerTag h)]
  exact (m.showText_shows e _).speaker

namespace Text

/-- The label of a name without spaces is the name with a space before each capital letter inside
it, and nothing else: there is no other text of which that holds.  It neither starts nor ends with
a space, has no two in a row, and belongs to no other name.  Tags have names without spaces, so that
different speaker tags never show the same speaker. -/
theorem speakers_told_apart {name : String} (h : ' ' ∉ name.toList) :
    (∀ text : List Char, text = (spaced name).toList ↔
      unspaced text = name.toList ∧ SetsOffCapitals text) ∧
    unspaced (spaced name).toList = name.toList ∧
    (spaced name).toList.head? ≠ some ' ' ∧ (spaced name).toList.getLast? ≠ some ' ' ∧
    ¬[' ', ' '] <:+: (spaced name).toList ∧
    (∀ other : String, ' ' ∉ other.toList → spaced other = spaced name → other = name) ∧
    (∀ (e f : Element) (m n : Machine), e.name = name → ' ' ∉ f.name.toList →
      isSpeakerTag e.name = true → isSpeakerTag f.name = true →
      (n.execute f).2.screen.speaker = (m.execute e).2.screen.speaker → f.name = e.name) ∧
    ∀ (source : String) (root e : Element), parse source = .ok root → e ∈ root.preorder →
      ' ' ∉ e.name.toList := by
  have hrules := setsOffCapitals_spaced h
  refine ⟨fun text => eq_spaced_iff h, unspaced_spaced h, hrules.head, hrules.last,
    hrules.not_twice, fun other hother => eq_of_spaced_eq hother h, ?_,
    fun _ _ _ hparse he => space_not_mem_name hparse he⟩
  intro e f m n hname hf hspeaker hother hshown
  rw [Machine.speaker_execute hspeaker, Machine.speaker_execute hother] at hshown
  rw [← hname] at h
  exact eq_of_spaced_eq hf h hshown

/-- Capitals that follow each other are set off one by one, and so are those outside ASCII. -/
theorem speakers_told_apart_initials :
    ' ' ∉ "JRÉmileÖ".toList ∧ spaced "JRÉmileÖ" = "J R Émile Ö" ∧
      SetsOffCapitals "J R Émile Ö".toList ∧
      ∀ other : String, ' ' ∉ other.toList → spaced other = "J R Émile Ö" → other = "JRÉmileÖ" := by
  have hname : ' ' ∉ "JRÉmileÖ".toList := by decide
  have hlabel : spaced "JRÉmileÖ" = "J R Émile Ö" := by decide +kernel
  obtain ⟨hrules, -, -, -, -, hunique, -⟩ := speakers_told_apart hname
  rw [hlabel] at hrules hunique
  exact ⟨hname, hlabel, ((hrules _).mp rfl).2, hunique⟩

end Text

end StoryPlayer
