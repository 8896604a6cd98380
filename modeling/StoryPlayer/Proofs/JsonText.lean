import StoryPlayer.Json.Reading

/-! JSON texts read back.  `Reads` says what a piece of text does to a reader, whatever stands
before and after the piece, so that the pieces of a text can be put together.  A value is `Legible`
if its text reads as the value in any surroundings, and is one line.  Strings are legible, and so
are arrays and objects of legible values. -/

namespace StoryPlayer.Json

/-! ### Characters of strings -/

theorem hexValue?_hexPair : ∀ n < 0x20, hexValue? (['0', '0'] ++ hexPair n) = some n := by decide

/-- A character reads as it was written: the reader finds its number, and goes on after it. -/
theorem takeUnits_escapeChar (c : Char) (units : List Nat) (rest : List Char) :
    takeUnits units (escapeChar c ++ rest) = takeUnits (c.toNat :: units) rest := by
  fun_cases escapeChar c with
  | case8 c hquote hbackslash _ _ _ _ _ hcontrol =>
    have hhex := hexValue?_hexPair c.toNat hcontrol
    simp only [hexPair, List.cons_append, List.nil_append] at hhex ⊢
    rw [takeUnits, hhex]
  | case9 c hquote hbackslash _ _ _ _ _ hplain =>
    rw [List.singleton_append, takeUnits, if_neg hplain]
    · exact hquote
    · exact fun _ _ _ _ _ h _ => hbackslash h
    · exact fun _ _ h _ => hbackslash h
  | case1 | case2 | case3 | case4 | case5 | case6 | case7 => simp [takeUnits, escaped?]

theorem takeUnits_escaped (text : List Char) (units : List Nat) (rest : List Char) :
    takeUnits units (text.flatMap escapeChar ++ '"' :: rest) =
      some (units.reverse ++ text.map Char.toNat, rest) := by
  induction text generalizing units with
  | nil => simp [takeUnits]
  | cons c text ih =>
    rw [List.flatMap_cons, List.append_assoc, takeUnits_escapeChar, ih]
    simp

/-- The number of a character is no half of a pair. -/
theorem joinUnits_cons (c : Char) (done : List Char) (rest : List Nat) :
    joinUnits done (c.toNat :: rest) = joinUnits (c :: done) rest := by
  have hcharacter : character? c.toNat = some c := by
    have hvalid : c.toNat.isValidChar := c.valid
    rw [character?, if_pos hvalid, Char.ofNat_toNat]
  cases rest with
  | nil => simp [joinUnits, hcharacter]
  | cons low rest =>
    have hwhole : ¬(0xD800 ≤ c.toNat ∧ c.toNat < 0xDC00) := by
      have hvalid := c.valid
      simp only [UInt32.isValidChar, Nat.isValidChar] at hvalid
      show ¬(0xD800 ≤ c.val.toNat ∧ c.val.toNat < 0xDC00)
      omega
    rw [joinUnits, hcharacter, if_neg]
    simp only [Bool.and_eq_true, decide_eq_true_eq]
    exact fun h => hwhole h.1.1

theorem joinUnits_map_toNat (text done : List Char) :
    joinUnits done (text.map Char.toNat) = some (done.reverse ++ text) := by
  induction text generalizing done with
  | nil => simp [joinUnits]
  | cons c text ih =>
    rw [List.map_cons, joinUnits_cons, ih]
    simp

theorem toList_quote (text : String) :
    (quote text).toList = '"' :: (text.toList.flatMap escapeChar ++ ['"']) := by
  simp [quote, String.toList_append]

theorem scan_quote (text : String) (done : List Token) (rest : List Char) :
    Token.scan done ((quote text).toList ++ rest) = Token.scan (.string text :: done) rest := by
  have hunits := takeUnits_escaped text.toList [] rest
  have hjoined := joinUnits_map_toNat text.toList []
  rw [toList_quote, List.cons_append, List.append_assoc, Token.scan]
  simp only [show isSpace '"' = false from rfl, show Token.ofCharacter? '"' = none from rfl,
    Bool.false_eq_true, if_false, if_true]
  split
  · next units left htaken =>
    obtain ⟨rfl, rfl⟩ := Prod.mk.inj (Option.some.inj (htaken.symm.trans hunits))
    simp only [List.reverse_nil, List.nil_append] at hjoined ⊢
    rw [hjoined]
    simp only [String.ofList_toList]
  · next hnone =>
    cases hnone.symm.trans hunits

/-! ### Pieces of text -/

/-- A reader that stands at `before` stands at `after` once it has read `text`, whatever it read
before and whatever follows. -/
def Reads (before : Reading) (text : List Char) (after : Reading) : Prop :=
  ∃ tokens : List Token,
    (∀ done rest, Token.scan done (text ++ rest) = Token.scan (tokens.reverse ++ done) rest) ∧
    tokens.foldlM Reading.next before = some after

theorem Reads.trans {first second third : Reading} {early late : List Char}
    (h₁ : Reads first early second) (h₂ : Reads second late third) :
    Reads first (early ++ late) third := by
  obtain ⟨tokens, hscan, hread⟩ := h₁
  obtain ⟨others, hscan', hread'⟩ := h₂
  refine ⟨tokens ++ others, fun done rest => ?_, ?_⟩
  · rw [List.append_assoc, hscan, hscan', List.reverse_append, List.append_assoc]
  · rw [List.foldlM_append, hread]
    exact hread'

/-- A bracket, a comma or a colon. -/
theorem Reads.character {before after : Reading} {c : Char} {token : Token}
    (htoken : Token.ofCharacter? c = some token) (hnext : before.next token = some after) :
    Reads before [c] after := by
  have hspace : isSpace c = false := by
    refine Bool.eq_false_iff.mpr fun hspace => ?_
    simp only [isSpace, Bool.or_eq_true, decide_eq_true_eq] at hspace
    rcases hspace with ((rfl | rfl) | rfl) | rfl <;> cases htoken
  refine ⟨[token], fun done rest => ?_, ?_⟩
  · rw [List.singleton_append, Token.scan, hspace, htoken]
    rfl
  · rw [List.foldlM_cons, hnext]
    rfl

theorem Reads.quote {before after : Reading} {text : String}
    (hnext : before.next (.string text) = some after) :
    Reads before (Json.quote text).toList after := by
  refine ⟨[.string text], scan_quote text, ?_⟩
  rw [List.foldlM_cons, hnext]
  rfl

/-- What reads as a value is also read as the first item of an array, as no value begins with the
bracket that closes one. -/
theorem Reads.firstItem {around : List Container} {text : List Char} {value : Json}
    {after : List Container}
    (h : Reads (.beforeValue (.array [] :: around)) text (.afterValue value after)) :
    Reads (.beforeItem around) text (.afterValue value after) := by
  obtain ⟨tokens, hscan, hread⟩ := h
  refine ⟨tokens, hscan, ?_⟩
  cases tokens with
  | nil => cases hread
  | cons token rest =>
    rw [List.foldlM_cons] at hread ⊢
    cases token with
    | closeArray => cases hread
    | openArray | openObject | closeObject | comma | colon | string | plain => exact hread

/-! ### Legible values -/

/-- The text of the value reads as the value wherever a value may stand, and has one line. -/
structure Legible (json : Json) : Prop where
  reads : ∀ around, Reads (.beforeValue around) json.render.toList (.afterValue json around)
  line : '\n' ∉ json.render.toList

theorem Legible.parse? {json : Json} (h : json.Legible) : parse? json.render = some json := by
  obtain ⟨tokens, hscan, hread⟩ := h.reads []
  have hscanned := hscan [] []
  rw [List.append_nil, List.append_nil, Token.scan, List.reverse_reverse] at hscanned
  rw [Json.parse?, hscanned]
  simp only [bind, Option.bind] at hread ⊢
  rw [hread]

theorem newline_not_mem_hexPair : ∀ n < 0x20, '\n' ∉ hexPair n := by decide

theorem newline_not_mem_escapeChar (c : Char) : '\n' ∉ escapeChar c := by
  fun_cases escapeChar c with
  | case8 c _ _ _ _ _ _ _ hcontrol => simp [newline_not_mem_hexPair c.toNat hcontrol]
  | case9 c _ _ hnewline => simpa [eq_comm] using hnewline
  | case1 | case2 | case3 | case4 | case5 | case6 | case7 => decide

theorem newline_not_mem_quote (text : String) : '\n' ∉ (quote text).toList := by
  simp [toList_quote, newline_not_mem_escapeChar]

theorem legible_string (text : String) : Legible (.string text) where
  reads _ := by
    rw [render]
    exact .quote rfl
  line := by
    rw [render]
    exact newline_not_mem_quote text

theorem renderItems_eq (items : List Json) : renderItems items = items.map render := by
  induction items with
  | nil => rfl
  | cons item rest ih => rw [renderItems, ih, List.map_cons]

/-- The text of a field of an object. -/
def fieldText (field : String × Json) : String := quote field.1 ++ ":" ++ field.2.render

theorem renderFields_eq (fields : List (String × Json)) :
    renderFields fields = fields.map fieldText := by
  induction fields with
  | nil => rfl
  | cons field rest ih => rw [renderFields, ih, List.map_cons, fieldText]

theorem newline_not_mem_intercalate {texts : List String}
    (h : ∀ text ∈ texts, '\n' ∉ text.toList) : '\n' ∉ (String.intercalate "," texts).toList := by
  rw [String.toList_intercalate]
  induction texts with
  | nil => exact List.not_mem_nil
  | cons text rest ih =>
    have hrest := ih fun other hmem => h other (List.mem_cons_of_mem _ hmem)
    have htext := h text List.mem_cons_self
    cases rest with
    | nil => simpa using htext
    | cons next rest =>
      rw [List.map_cons] at hrest
      rw [List.map_cons, List.map_cons, List.intercalate_cons_cons]
      simp only [List.mem_append, not_or]
      exact ⟨⟨htext, by decide⟩, hrest⟩

/-- By induction on the items that follow; `read` are those before, the last first. -/
theorem reads_items {item : Json} {rest : List Json} (h : ∀ x ∈ item :: rest, x.Legible)
    (read : List Json) (around : List Container) :
    Reads (.beforeValue (.array read :: around))
      ((String.intercalate "," ((item :: rest).map render)).toList ++ [']'])
      (.afterValue (.array (read.reverse ++ item :: rest)) around) := by
  induction rest generalizing item read with
  | nil =>
    have hitem := (h item List.mem_cons_self).reads (.array read :: around)
    have hclose : Reads (.afterValue item (.array read :: around)) [']']
      (.afterValue (.array (item :: read).reverse) around) := .character rfl rfl
    simpa using hitem.trans hclose
  | cons next rest ih =>
    have hitem := (h item List.mem_cons_self).reads (.array read :: around)
    have hcomma : Reads (.afterValue item (.array read :: around)) [',']
      (.beforeValue (.array (item :: read) :: around)) := .character rfl rfl
    have hrest := ih (fun x hmem => h x (List.mem_cons_of_mem _ hmem)) (item :: read)
    simpa using (hitem.trans hcomma).trans hrest

theorem legible_array {items : List Json} (h : ∀ item ∈ items, item.Legible) :
    Legible (.array items) where
  reads around := by
    have hopen : Reads (.beforeValue around) ['['] (.beforeItem around) := .character rfl rfl
    rw [render, renderItems_eq]
    cases items with
    | nil =>
      have hclose : Reads (.beforeItem around) [']'] (.afterValue (.array []) around) :=
        .character rfl rfl
      simpa using hopen.trans hclose
    | cons item rest => simpa using hopen.trans (reads_items h [] around).firstItem
  line := by
    rw [render, renderItems_eq]
    have hitems := @newline_not_mem_intercalate (items.map render) (by
      intro text hmem
      obtain ⟨item, hitem, rfl⟩ := List.mem_map.mp hmem
      exact (h item hitem).line)
    simp only [String.toList_append, List.mem_append, not_or]
    exact ⟨⟨by decide, hitems⟩, by decide⟩

/-- A field reads from any place at which a name may stand. -/
theorem reads_field {field : String × Json} (h : field.2.Legible) {start : Reading}
    {read : List (String × Json)} {around : List Container}
    (hstart : start.next (.string field.1) = some (.beforeColon read field.1 around)) :
    Reads start (fieldText field).toList
      (.afterValue field.2 (.object read field.1 :: around)) := by
  have hcolon : Reads (.beforeColon read field.1 around) [':']
    (.beforeValue (.object read field.1 :: around)) := .character rfl rfl
  have hvalue := h.reads (.object read field.1 :: around)
  simpa [fieldText] using (Reads.quote hstart).trans (hcolon.trans hvalue)

theorem reads_fields {field : String × Json} {rest : List (String × Json)}
    (h : ∀ x ∈ field :: rest, x.2.Legible) {start : Reading} {read : List (String × Json)}
    {around : List Container}
    (hstart : start.next (.string field.1) = some (.beforeColon read field.1 around)) :
    Reads start ((String.intercalate "," ((field :: rest).map fieldText)).toList ++ ['\x7d'])
      (.afterValue (.object (read.reverse ++ field :: rest)) around) := by
  induction rest generalizing field read start with
  | nil =>
    have hfield := reads_field (h field List.mem_cons_self) hstart
    have hclose : Reads (.afterValue field.2 (.object read field.1 :: around)) ['\x7d']
      (.afterValue (.object (field :: read).reverse) around) := .character rfl rfl
    simpa using hfield.trans hclose
  | cons next rest ih =>
    have hfield := reads_field (h field List.mem_cons_self) hstart
    have hcomma : Reads (.afterValue field.2 (.object read field.1 :: around)) [',']
      (.beforeName (field :: read) around) := .character rfl rfl
    have hrest := ih (fun x hmem => h x (List.mem_cons_of_mem _ hmem))
      (show (Reading.beforeName (field :: read) around).next (.string next.1) = _ from rfl)
    simpa using (hfield.trans hcomma).trans hrest

theorem legible_object {fields : List (String × Json)} (h : ∀ field ∈ fields, field.2.Legible) :
    Legible (.object fields) where
  reads around := by
    have hopen : Reads (.beforeValue around) ['\x7b'] (.beforeField around) := .character rfl rfl
    rw [render, renderFields_eq]
    cases fields with
    | nil =>
      have hclose : Reads (.beforeField around) ['\x7d'] (.afterValue (.object []) around) :=
        .character rfl rfl
      simpa using hopen.trans hclose
    | cons field rest =>
      have hfields := reads_fields h
        (show (Reading.beforeField around).next (.string field.1) = _ from rfl)
      simpa using hopen.trans hfields
  line := by
    rw [render, renderFields_eq]
    have hfields := @newline_not_mem_intercalate (fields.map fieldText) (by
      intro text hmem
      obtain ⟨field, hfield, rfl⟩ := List.mem_map.mp hmem
      simp only [fieldText, String.toList_append, List.mem_append, not_or]
      exact ⟨⟨newline_not_mem_quote field.1, by decide⟩, (h field hfield).line⟩)
    simp only [String.toList_append, List.mem_append, not_or]
    exact ⟨⟨by decide, hfields⟩, by decide⟩

end StoryPlayer.Json
