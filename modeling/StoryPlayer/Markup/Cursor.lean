import StoryPlayer.Markup.Character
import StoryPlayer.Markup.ReadError

/-! Reading a source from left to right.  A cursor is what is left of the source together with its
place there; `Scan` programs move a cursor forward or stop with an error.  A program that `Moves`
never goes back, so that what is left only shrinks. -/

namespace StoryPlayer.Markup

/-- What is left of a source, and where it starts there. -/
structure Cursor where
  rest : List Char
  location : Location
  /-- The number of characters before this place. -/
  offset : Nat
  deriving Inhabited

namespace Cursor

/-- The start of a source. -/
def start (source : List Char) : Cursor := ⟨source, .start, 0⟩

/-- The cursor `n` characters on, or at the end if fewer are left. -/
def advance (c : Cursor) (n : Nat) : Cursor :=
  ⟨c.rest.drop n, c.location.after (c.rest.take n), c.offset + (c.rest.take n).length⟩

/-- Whether `text` comes next. -/
def startsWith (c : Cursor) (text : String) : Bool := text.toList.isPrefixOf c.rest

/-- `d` is `c` or further on. -/
def Reaches (c d : Cursor) : Prop := ∃ n, d = c.advance n

theorem advance_zero (c : Cursor) : c.advance 0 = c := by
  simp [advance, Location.after]

theorem advance_advance (c : Cursor) (m n : Nat) : (c.advance m).advance n = c.advance (m + n) := by
  simp only [advance, List.drop_drop, ← Location.after_append, Nat.add_assoc, ← List.length_append,
    ← List.take_add]

theorem Reaches.refl (c : Cursor) : c.Reaches c := ⟨0, c.advance_zero.symm⟩

theorem Reaches.trans {c d e : Cursor} : c.Reaches d → d.Reaches e → c.Reaches e := by
  rintro ⟨m, rfl⟩ ⟨n, rfl⟩
  exact ⟨m + n, advance_advance c m n⟩

theorem Reaches.length_le {c d : Cursor} : c.Reaches d → d.rest.length ≤ c.rest.length := by
  rintro ⟨n, rfl⟩
  simp [advance]

theorem reaches_advance (c : Cursor) (n : Nat) : c.Reaches (c.advance n) := ⟨n, rfl⟩

/-- At least one character lies between `c` and `d`. -/
def Passes (c d : Cursor) : Prop := ∃ n, c.rest ≠ [] ∧ d = c.advance (n + 1)

theorem Passes.length_lt {c d : Cursor} : c.Passes d → d.rest.length < c.rest.length := by
  rintro ⟨n, hne, rfl⟩
  have := List.length_pos_iff.mpr hne
  simp only [advance, List.length_drop]
  omega

theorem Passes.reaches {c d : Cursor} : c.Passes d → c.Reaches d := by
  rintro ⟨n, _, rfl⟩
  exact ⟨_, rfl⟩

theorem Passes.then {c d e : Cursor} : c.Passes d → d.Reaches e → c.Passes e := by
  rintro ⟨m, hne, rfl⟩ ⟨n, rfl⟩
  exact ⟨m + n, hne, by rw [advance_advance]; congr 1; omega⟩

theorem Reaches.then {c d e : Cursor} : c.Reaches d → d.Passes e → c.Passes e := by
  rintro ⟨m, rfl⟩ ⟨n, hne, rfl⟩
  refine ⟨m + n, fun h => hne ?_, by rw [advance_advance]; congr 1⟩
  simp [advance, h]

theorem passes_advance {c : Cursor} (n : Nat) (hne : c.rest ≠ []) : c.Passes (c.advance (n + 1)) :=
  ⟨n, hne, rfl⟩

end Cursor

/-- Programs that read from a cursor. -/
abbrev Scan := StateT Cursor (Except ReadError)

theorem bind_eq_ok {ε α β : Type} {x : Except ε α} {f : α → Except ε β} {b : β}
    (h : (x >>= f) = .ok b) : ∃ a, x = .ok a ∧ f a = .ok b := by
  cases x with
  | error err => cases h
  | ok a => exact ⟨a, rfl, h⟩

theorem Scan.of_bind {α β : Type} {scan : Scan α} {next : α → Scan β} {c e : Cursor} {b : β}
    (h : (scan >>= next) c = .ok (b, e)) : ∃ a d, scan c = .ok (a, d) ∧ next a d = .ok (b, e) := by
  change (scan c >>= fun p => next p.1 p.2) = _ at h
  obtain ⟨⟨a, d⟩, hscan, hnext⟩ := bind_eq_ok h
  exact ⟨a, d, hscan, hnext⟩

/-- The program never moves its cursor back. -/
def Moves {α : Type} (scan : Scan α) : Prop :=
  ∀ c a d, scan c = .ok (a, d) → c.Reaches d

/-- The program moves its cursor by at least one character. -/
def Eats {α : Type} (scan : Scan α) : Prop :=
  ∀ c a d, scan c = .ok (a, d) → c.Passes d

namespace Moves

variable {α β : Type}

theorem pure (a : α) : Moves (Pure.pure a : Scan α) := by
  intro c x d h
  cases h
  exact .refl c

theorem fail (e : ReadError) : Moves (throw e : Scan α) := by
  intro c x d h
  cases h

theorem get : Moves (MonadState.get : Scan Cursor) := by
  intro c x d h
  cases h
  exact .refl c

theorem bind {scan : Scan α} {next : α → Scan β} (h : Moves scan) (hn : ∀ a, Moves (next a)) :
    Moves (scan >>= next) := by
  intro c b e he
  obtain ⟨a, d, hs, hd⟩ := Scan.of_bind he
  exact (h c a d hs).trans (hn a d b e hd)

theorem ite {p : Prop} [Decidable p] {s t : Scan α} (hs : Moves s) (ht : Moves t) :
    Moves (if p then s else t) := by
  split
  · exact hs
  · exact ht

end Moves

theorem Eats.moves {α : Type} {scan : Scan α} (h : Eats scan) : Moves scan :=
  fun c a d hs => (h c a d hs).reaches

theorem Eats.bind {α β : Type} {scan : Scan α} {next : α → Scan β} (h : Eats scan)
    (hn : ∀ a, Moves (next a)) : Eats (scan >>= next) := by
  intro c b e he
  obtain ⟨a, d, hs, hd⟩ := Scan.of_bind he
  exact (h c a d hs).then (hn a d b e hd)

theorem Moves.eats {α β : Type} {scan : Scan α} {next : α → Scan β} (h : Moves scan)
    (hn : ∀ a, Eats (next a)) : Eats (scan >>= next) := by
  intro c b e he
  obtain ⟨a, d, hs, hd⟩ := Scan.of_bind he
  exact (h c a d hs).then (hn a d b e hd)

theorem Moves.lift {α : Type} (result : Except ReadError α) :
    Moves (liftM result : Scan α) := by
  intro c a d h
  cases result with
  | error e => cases h
  | ok a => cases h; exact .refl c

theorem Eats.fail {α : Type} (e : ReadError) : Eats (throw e : Scan α) := by
  intro c x d h
  cases h

/-! ### Steps -/

/-- The next `n` characters, or all that are left if there are fewer. -/
def take (n : Nat) : Scan (List Char) := fun c => .ok (c.rest.take n, c.advance n)

/-- The place of the cursor. -/
def place : Scan Location := do return (← get).location

/-- The characters up to the first that does not satisfy `p`. -/
def takeWhile (p : Char → Bool) : Scan (List Char) := do
  take ((← get).rest.takeWhile p).length

/-- Passes over spaces. -/
def skipSpaces : Scan Unit := do
  let _ ← takeWhile isSpace

/-- Whether `text` comes next. -/
def ahead (text : String) : Scan Bool := do return (← get).startsWith text

/-- The characters before the first place at which `stop` accepts what is left. -/
def before (stop : List Char → Bool) : List Char → List Char
  | [] => []
  | c :: rest => if stop (c :: rest) then [] else c :: before stop rest

/-- The characters up to the first place that `stop` accepts, or to the end.  All of them have to be
allowed in a document. -/
def takeUpTo (stop : List Char → Bool) : Scan (List Char) := do
  let c ← get
  let taken := before stop c.rest
  match taken.dropWhile isAllowed with
  | [] => take taken.length
  | bad :: _ => throw (.forbidden bad (c.location.after (taken.takeWhile isAllowed)))

/-- The characters up to `text`, or to the end. -/
def takeUpToText (text : String) : Scan (List Char) := takeUpTo text.toList.isPrefixOf

/-- Passes over the character `wanted`. -/
def expect (wanted : Char) : Scan Unit := do
  let c ← get
  match c.rest with
  | [] => throw .endOfStream
  | found :: _ =>
    if found = wanted then
      let _ ← take 1
    else throw (.expected wanted (leadByte found) c.location)

/-- Passes over `wanted`. -/
def expectText (wanted : String) : Scan Unit := do
  if ← ahead wanted then
    let _ ← take wanted.toList.length
  else throw (.expectedText wanted (← place))

/-- Passes over a quotation mark, single or double, and returns it. -/
def quote : Scan Char := do
  let c ← get
  match c.rest with
  | [] => throw .endOfStream
  | found :: _ =>
    if found = '\'' || found = '"' then
      let _ ← take 1
      return found
    else throw (.expectedQuote (leadByte found) c.location)

theorem take_moves (n : Nat) : Moves (take n) := by
  intro c a d h
  cases h
  exact c.reaches_advance n

/-- A program that first takes characters passes one if there is one. -/
theorem passes_of_take {α : Type} {n : Nat} {next : List Char → Scan α} {c d : Cursor} {a : α}
    (hne : c.rest ≠ []) (hn : ∀ cs, Moves (next cs)) (h : (take (n + 1) >>= next) c = .ok (a, d)) :
    c.Passes d :=
  (Cursor.passes_advance n hne).then (hn _ _ _ _ h)

theorem place_moves : Moves place := .bind .get fun _ => .pure _

theorem takeWhile_moves (p : Char → Bool) : Moves (takeWhile p) :=
  .bind .get fun _ => take_moves _

theorem skipSpaces_moves : Moves skipSpaces := .bind (takeWhile_moves _) fun _ => .pure _

theorem ahead_moves (text : String) : Moves (ahead text) := .bind .get fun _ => .pure _

theorem takeUpTo_moves (stop : List Char → Bool) : Moves (takeUpTo stop) := by
  refine .bind .get fun c => ?_
  dsimp only
  split
  · exact take_moves _
  · exact .fail _

theorem takeUpTo_passes {stop : List Char → Bool} {c d : Cursor} {cs : List Char}
    (hne : c.rest ≠ []) (hs : stop c.rest = false) (h : takeUpTo stop c = .ok (cs, d)) :
    c.Passes d := by
  obtain ⟨x, rest, hc⟩ := List.exists_cons_of_ne_nil hne
  have hb : before stop c.rest = x :: before stop rest := by
    rw [hc] at hs ⊢
    simp [before, hs]
  obtain ⟨_, _, hget, htake⟩ := Scan.of_bind h
  cases hget
  cases hd : (before stop c.rest).dropWhile isAllowed with
  | cons bad _ =>
    simp only [hd] at htake
    cases htake
  | nil =>
    simp only [hd] at htake
    rw [hb] at htake
    cases htake
    exact Cursor.passes_advance _ hne

theorem takeUpToText_moves (text : String) : Moves (takeUpToText text) := takeUpTo_moves _

theorem expect_moves (wanted : Char) : Moves (expect wanted) := by
  refine .bind .get fun c => ?_
  split
  · exact .fail _
  · exact .ite (.bind (take_moves _) fun _ => .pure _) (.fail _)

theorem expectText_moves (wanted : String) : Moves (expectText wanted) := by
  refine .bind (ahead_moves _) fun _ => ?_
  exact .ite (.bind (take_moves _) fun _ => .pure _) (.bind place_moves fun _ => .fail _)

theorem quote_moves : Moves quote := by
  refine .bind .get fun c => ?_
  split
  · exact .fail _
  · exact .ite (.bind (take_moves _) fun _ => .pure _) (.fail _)

end StoryPlayer.Markup
