import StoryPlayer.Proofs.Calls

/-! What a line typed at a choice picks.  Commands, numbers and labels share one syntax: a line
whose trimmed text starts with a colon is a command, one that is a numeral picks by position and
never by label, and any other picks the label that it spells.  So each option can be picked by its
number, and by its label unless the label is taken for something else. -/

namespace StoryPlayer

namespace Text

/-- Nothing but blanks. -/
def AllBlank (text : String) : Prop := ∀ c ∈ text.toList, isBlank c = true

/-- No blank at either end. -/
def Tight (text : String) : Prop :=
  (∀ c ∈ text.toList.head?, isBlank c = false) ∧ ∀ c ∈ text.toList.getLast?, isBlank c = false

/-- `text` is `n` in decimal digits, with or without a plus sign, and `n` is below `2^64`. -/
def IsNumeral (text : String) (n : Nat) : Prop :=
  ∃ digits : List Char, (text.toList = digits ∨ text.toList = '+' :: digits) ∧ digits ≠ [] ∧
    (∀ d ∈ digits, d.isDigit = true) ∧ Nat.ofDigitChars 10 digits 0 = n ∧ n < UInt64.size

/-! ### Trimming -/

theorem dropWhile_of_head? {p : Char → Bool} {cs : List Char}
    (h : ∀ c, cs.head? = some c → p c = false) : cs.dropWhile p = cs := by
  cases cs with
  | nil => rfl
  | cons c rest => exact List.dropWhile_cons_of_neg (by simp [h c rfl])

/-- Blanks around a text that has none at its ends are what is trimmed. -/
theorem trim_padded {before word after : String} (hbefore : AllBlank before) (hword : Tight word)
    (hafter : AllBlank after) : trim (before ++ word ++ after) = word := by
  have hfront : (before ++ word ++ after).toList.dropWhile isBlank =
      (word.toList ++ after.toList).dropWhile isBlank := by
    rw [String.toList_append, String.toList_append, List.append_assoc]
    exact List.dropWhile_append_of_pos hbefore
  have hback : (word.toList ++ after.toList).reverse.dropWhile isBlank = word.toList.reverse := by
    rw [List.reverse_append,
      List.dropWhile_append_of_pos fun c hc => hafter c (List.mem_reverse.mp hc)]
    exact dropWhile_of_head? (by simpa using hword.2)
  rw [trim, hfront]
  cases hchars : word.toList with
  | nil =>
    have hnil : after.toList.dropWhile isBlank = [] := by
      rw [← List.append_nil after.toList, List.dropWhile_append_of_pos hafter]
      rfl
    rw [List.nil_append, hnil, ← String.ofList_toList (s := word), hchars]
    rfl
  | cons c rest =>
    have hkept : (word.toList ++ after.toList).dropWhile isBlank =
        word.toList ++ after.toList := by
      refine dropWhile_of_head? fun d hd => hword.1 d ?_
      simpa [hchars] using hd
    rw [← hchars, hkept, hback, List.reverse_reverse, String.ofList_toList]

theorem trim_of_tight {word : String} (h : Tight word) : trim word = word := by
  have hnone : AllBlank "" := nofun
  simpa using trim_padded hnone h hnone

/-! ### Numerals -/

theorem digitsValue_eq (digits : List Char) :
    digitsValue digits = Nat.ofDigitChars 10 digits 0 := by
  rw [digitsValue, Nat.ofDigitChars_eq_foldl]
  simp only [Nat.mul_comm]

theorem natural?_eq_some_iff {text : String} {n : Nat} :
    natural? text = some n ↔ IsNumeral text n := by
  constructor
  · intro h
    simp only [natural?, Option.ite_none_right_eq_some, Bool.and_eq_true, Bool.not_eq_true',
      List.isEmpty_eq_false_iff, List.all_eq_true, decide_eq_true_eq, Option.some.injEq] at h
    obtain ⟨⟨⟨hsome, hdigits⟩, hsize⟩, rfl⟩ := h
    refine ⟨_, ?_, hsome, hdigits, (digitsValue_eq _).symm, hsize⟩
    split
    · next rest hplus => exact .inr hplus
    · exact .inl rfl
  · rintro ⟨digits, htext, hsome, hdigits, rfl, hsize⟩
    rcases htext with htext | htext
    · simp only [natural?, htext]
      split
      · cases hdigits '+' List.mem_cons_self
      · simpa [digitsValue_eq, hsome, hsize] using hdigits
    · simp only [natural?, htext]
      simpa [digitsValue_eq, hsome, hsize] using hdigits

theorem isBlank_of_isDigit {c : Char} (h : c.isDigit = true) : isBlank c = false := by
  have hrange := Char.isDigit_iff_toNat.mp h
  simp only [show '0'.toNat = 48 from rfl, show '9'.toNat = 57 from rfl] at hrange
  simp only [isBlank, Bool.or_eq_false_iff, Bool.and_eq_false_iff, decide_eq_false_iff_not,
    beq_eq_false_iff_ne]
  omega

theorem toList_toString (n : Nat) : (toString n).toList = Nat.toDigits 10 n := by
  rw [Nat.toString_eq_repr, Nat.toList_repr]

theorem isNumeral_toString {n : Nat} (h : n < UInt64.size) : IsNumeral (toString n) n :=
  ⟨Nat.toDigits 10 n, .inl (toList_toString n), Nat.toDigits_ne_nil,
    fun _ hmem => Nat.isDigit_of_mem_toDigits (by decide) (by decide) hmem,
    Nat.ofDigitChars_ten_toDigits, h⟩

theorem isDigit_of_mem_toString {n : Nat} {c : Char} (h : c ∈ (toString n).toList) :
    c.isDigit = true := by
  rw [toList_toString] at h
  exact Nat.isDigit_of_mem_toDigits (by decide) (by decide) h

theorem tight_toString (n : Nat) : Tight (toString n) :=
  ⟨fun _ hc => isBlank_of_isDigit (isDigit_of_mem_toString (List.mem_of_head? hc)),
    fun _ hc => isBlank_of_isDigit (isDigit_of_mem_toString (List.mem_of_getLast? hc))⟩

end Text

namespace Player

open Text

/-- At a choice between `labels` the line is no command, and picks `label`. -/
def Picks (labels : List String) (line label : String) : Prop :=
  (trim line).toList.head? ≠ some ':' ∧ resolve? labels (trim line) = some label

/-! ### Resolution -/

theorem resolve?_of_numeral (labels : List String) {word : String} {n : Nat}
    (h : IsNumeral word n) :
    resolve? labels word = if n = 0 then none else labels[n - 1]? := by
  rw [resolve?, natural?_eq_some_iff.mpr h]
  cases n with
  | zero => rfl
  | succ n => rfl

theorem resolve?_of_not_numeral (labels : List String) {word : String}
    (h : ∀ n, ¬IsNumeral word n) :
    resolve? labels word = labels.find? (· = word) := by
  have hnone : natural? word = none :=
    Option.eq_none_iff_forall_ne_some.mpr fun n hn => h n (natural?_eq_some_iff.mp hn)
  rw [resolve?, hnone]

/-- What the player reads at a choice is what `Picks` says: with nothing to pick it just goes on. -/
theorem read_eq_choose_iff {m : Machine} (hphase : m.phase = .paused .choice)
    (line label : String) :
    read m line = .act (.choose label) ↔ Picks m.labels line label := by
  rw [read_eq_act_iff hphase, answer?, hphase, Picks]
  split
  · next hcommand => simp [hcommand]
  · next hword =>
    by_cases hlabels : m.labels = []
    · have hnone : resolve? m.labels (trim line) ≠ some label := by
        intro hlabel
        have hmem := resolve?_mem hlabel
        rw [hlabels] at hmem
        cases hmem
      rw [if_pos hlabels]
      exact iff_of_false (by simp) fun hpicks => hnone hpicks.2
    · simp [hword, hlabels]

/-! ### Answers -/

theorem picks_number {labels : List String} (hlength : labels.length < UInt64.size)
    (i : Fin labels.length) {before after : String} (hbefore : AllBlank before)
    (hafter : AllBlank after) :
    Picks labels (before ++ toString (i.val + 1) ++ after) labels[i] := by
  have hnumeral : IsNumeral (toString (i.val + 1)) (i.val + 1) :=
    isNumeral_toString (by omega)
  rw [Picks, trim_padded hbefore (tight_toString _) hafter]
  refine ⟨fun hcolon => ?_, ?_⟩
  · cases isDigit_of_mem_toString (List.mem_of_head? hcolon)
  · rw [resolve?_of_numeral labels hnumeral, if_neg (Nat.succ_ne_zero _)]
    simp

theorem picks_label {labels : List String} {label : String} (hmem : label ∈ labels)
    (htight : Tight label) (hcolon : label.toList.head? ≠ some ':')
    (hnumeral : ∀ n, ¬IsNumeral label n) : Picks labels label label := by
  rw [Picks, trim_of_tight htight, resolve?_of_not_numeral labels hnumeral]
  refine ⟨hcolon, ?_⟩
  have hsome : (labels.find? (· = label)).isSome = true :=
    List.find?_isSome.mpr ⟨label, hmem, by simp⟩
  obtain ⟨found, hfound⟩ := Option.isSome_iff_exists.mp hsome
  have hsame := List.find?_some hfound
  simp only [decide_eq_true_eq] at hsame
  rw [hfound, hsame]

/-- The numbers that the player prints are those that pick. -/
theorem getElem?_optionLines (labels : List String) (n i : Nat) :
    (optionLines n labels)[i]? =
      labels[i]?.map fun label => "  [" ++ toString (n + i) ++ "] " ++ label := by
  induction labels generalizing n i with
  | nil => rfl
  | cons label rest ih =>
    cases i with
    | zero => rfl
    | succ i =>
      show (optionLines (n + 1) rest)[i]? = _
      rw [ih, Nat.add_assoc, Nat.add_comm 1 i]
      rfl

/-- Whatever the labels on offer, fewer than `2^64`: the number of an option, blanks around it or
not, picks that option; no line picks anything but an option; a numeral picks by position or
nothing; and a label picks itself, unless it has blanks at its ends, starts like a command, or is a
numeral.  The player reads a line at a choice in this way, and prints these numbers. -/
theorem typed_answers {labels : List String} (hlength : labels.length < UInt64.size) :
    (∀ (i : Fin labels.length) (before after : String), AllBlank before → AllBlank after →
      Picks labels (before ++ toString (i.val + 1) ++ after) labels[i]) ∧
    (∀ line, resolve? labels (trim line) = none ∨
      ∃ label ∈ labels, resolve? labels (trim line) = some label) ∧
    (∀ line n, IsNumeral (trim line) n →
      resolve? labels (trim line) = if n = 0 then none else labels[n - 1]?) ∧
    (∀ label ∈ labels, Tight label → label.toList.head? ≠ some ':' → (∀ n, ¬IsNumeral label n) →
      Picks labels label label) ∧
    (∀ m : Machine, m.phase = .paused .choice → m.labels = labels →
      ∀ line label, Player.read m line = .act (.choose label) ↔ Picks labels line label) ∧
    ∀ i : Fin labels.length, (optionLines 1 labels)[i.val]? =
      some ("  [" ++ toString (i.val + 1) ++ "] " ++ labels[i]) := by
  refine ⟨fun i before after => picks_number hlength i, fun line => ?_,
    fun line n => resolve?_of_numeral labels, fun label => picks_label,
    fun m hphase hlabels line label => ?_, fun i => ?_⟩
  · cases hresolved : resolve? labels (trim line) with
    | none => exact .inl rfl
    | some label => exact .inr ⟨label, resolve?_mem hresolved, rfl⟩
  · rw [← hlabels]
    exact read_eq_choose_iff hphase line label
  · rw [getElem?_optionLines, Nat.add_comm]
    simp

/-- Labels that are a numeral, like a command, and in blanks. -/
def oddLabels : List String := ["2", "b", ":quit", " sp "]

/-- The number of an option is not taken for the label that is spelled so, and zero picks
nothing. -/
theorem typed_answers_odd :
    oddLabels.length < UInt64.size ∧ Picks oddLabels (" " ++ toString 2 ++ "\t") "b" ∧
      Picks oddLabels "b" "b" ∧ IsNumeral (trim " +0") 0 ∧
      resolve? oddLabels (trim " +0") = none := by
  have hlength : oddLabels.length < UInt64.size := by decide
  obtain ⟨hnumber, -, hnumeral, hlabel, -⟩ := typed_answers hlength
  have hzero : IsNumeral (trim " +0") 0 := natural?_eq_some_iff.mp (by decide)
  have hword : ∀ n, ¬IsNumeral "b" n := by
    intro n hn
    have hnone : natural? "b" = none := by decide
    cases hnone.symm.trans (natural?_eq_some_iff.mpr hn)
  have hbefore : AllBlank " " := List.all_eq_true.mp (by decide)
  have hafter : AllBlank "\t" := List.all_eq_true.mp (by decide)
  have htight : Tight "b" := by
    constructor
    · rintro c ⟨⟩
      decide
    · rintro c ⟨⟩
      decide
  exact ⟨hlength, hnumber ⟨1, by decide⟩ " " "\t" hbefore hafter,
    hlabel "b" (by decide) htight (by decide) hword, hzero, hnumeral " +0" 0 hzero⟩

end Player

end StoryPlayer
