import StoryPlayer.Text.Blank

/-! Story flags: a finite set of names, kept in increasing order.  Operations take a text and act on
its words. -/

namespace StoryPlayer

open Text

/-- `name` at its place in an increasing list, unless it is there already. -/
def insertName (name : String) : List String → List String
  | [] => [name]
  | n :: rest =>
    if name < n then name :: n :: rest
    else if name = n then n :: rest
    else n :: insertName name rest

theorem mem_insertName {name x : String} {names : List String} :
    x ∈ insertName name names ↔ x = name ∨ x ∈ names := by
  induction names with
  | nil => simp [insertName]
  | cons n rest ih =>
    simp only [insertName]
    split
    · simp
    · split
      · next h => simp [h]
      · simp only [List.mem_cons, ih]; exact or_left_comm

theorem pairwise_insertName {name : String} {names : List String}
    (h : names.Pairwise (· < ·)) : (insertName name names).Pairwise (· < ·) := by
  induction names with
  | nil => simp [insertName]
  | cons n rest ih =>
    have ⟨hn, hrest⟩ := List.pairwise_cons.mp h
    simp only [insertName]
    split
    · next hlt =>
      refine List.pairwise_cons.mpr ⟨fun x hx => ?_, h⟩
      rcases List.mem_cons.mp hx with rfl | hx
      · exact hlt
      · exact String.lt_trans hlt (hn x hx)
    · next hge =>
      split
      · exact h
      · next hne =>
        refine List.pairwise_cons.mpr ⟨fun x hx => ?_, ih hrest⟩
        rcases mem_insertName.mp hx with rfl | hx
        · exact Classical.byContradiction fun hgt =>
            hne (String.le_antisymm (String.not_lt.mp hgt) (String.not_lt.mp hge))
        · exact hn x hx

/-- The flags that are set, in increasing order. -/
structure Flags where
  names : List String
  increasing : names.Pairwise (· < ·)

namespace Flags

def empty : Flags := ⟨[], .nil⟩

instance : Inhabited Flags := ⟨empty⟩

def insert (flags : Flags) (name : String) : Flags :=
  ⟨insertName name flags.names, pairwise_insertName flags.increasing⟩

def erase (flags : Flags) (name : String) : Flags :=
  ⟨flags.names.filter (· != name), flags.increasing.filter _⟩

/-- Sets one flag more; the answer is whether it or one before was clear. -/
def setNext (state : Bool × Flags) (name : String) : Bool × Flags :=
  (state.1 || !state.2.names.contains name, state.2.insert name)

/-- Clears one flag more; the answer is whether it or one before was set. -/
def clearNext (state : Bool × Flags) (name : String) : Bool × Flags :=
  (state.1 || state.2.names.contains name, state.2.erase name)

/-- Sets the flags that `text` names, one after the other; the answer is whether one of them was
clear when its turn came. -/
def setEach (flags : Flags) (text : String) : Bool × Flags :=
  (words text).foldl setNext (false, flags)

/-- Clears the flags that `text` names, one after the other; the answer is whether one of them was
set when its turn came. -/
def clearEach (flags : Flags) (text : String) : Bool × Flags :=
  (words text).foldl clearNext (false, flags)

/-- Sets every flag that `text` names. -/
def set (flags : Flags) (text : String) : Flags := (flags.setEach text).2

def clear (flags : Flags) (text : String) : Flags := (flags.clearEach text).2

/-- Whether every flag that `text` names is set. -/
def areSet (flags : Flags) (text : String) : Bool :=
  (words text).all fun name => flags.names.contains name

/-- Whether no flag that `text` names is set. -/
def areClear (flags : Flags) (text : String) : Bool :=
  (words text).all fun name => !flags.names.contains name

instance : Membership String Flags := ⟨fun flags name => name ∈ flags.names⟩

theorem mem_def {flags : Flags} {name : String} : name ∈ flags ↔ name ∈ flags.names := Iff.rfl

theorem mem_insert {flags : Flags} {name x : String} :
    x ∈ flags.insert name ↔ x = name ∨ x ∈ flags := mem_insertName

theorem mem_erase {flags : Flags} {name x : String} :
    x ∈ flags.erase name ↔ x ≠ name ∧ x ∈ flags := by
  simp [mem_def, erase, and_comm]

theorem areSet_eq_true_iff {flags : Flags} {text : String} :
    flags.areSet text = true ↔ ∀ x ∈ words text, x ∈ flags := by
  simp [areSet, mem_def]

theorem areClear_eq_true_iff {flags : Flags} {text : String} :
    flags.areClear text = true ↔ ∀ x ∈ words text, x ∉ flags := by
  simp [areClear, mem_def]

theorem mem_foldl_setNext {names : List String} {state : Bool × Flags} {x : String} :
    x ∈ (names.foldl setNext state).2 ↔ x ∈ names ∨ x ∈ state.2 := by
  induction names generalizing state with
  | nil => simp
  | cons name rest ih =>
    rw [List.foldl_cons, ih, setNext, mem_insert, List.mem_cons]
    grind

theorem mem_foldl_clearNext {names : List String} {state : Bool × Flags} {x : String} :
    x ∈ (names.foldl clearNext state).2 ↔ x ∉ names ∧ x ∈ state.2 := by
  induction names generalizing state with
  | nil => simp
  | cons name rest ih =>
    rw [List.foldl_cons, ih, clearNext, mem_erase, List.mem_cons]
    grind

theorem mem_set {flags : Flags} {text x : String} :
    x ∈ flags.set text ↔ x ∈ words text ∨ x ∈ flags := mem_foldl_setNext

theorem mem_clear {flags : Flags} {text x : String} :
    x ∈ flags.clear text ↔ x ∉ words text ∧ x ∈ flags := mem_foldl_clearNext

/-- A name that comes twice is new only once, but new it is. -/
theorem foldl_setNext_fst {names : List String} {state : Bool × Flags} :
    (names.foldl setNext state).1 = true ↔ state.1 = true ∨ ∃ x ∈ names, x ∉ state.2 := by
  induction names generalizing state with
  | nil => simp
  | cons name rest ih =>
    have hname : (setNext state name).1 = true ↔ state.1 = true ∨ name ∉ state.2 := by
      simp [setNext, mem_def]
    rw [List.foldl_cons, ih, hname, setNext]
    simp only [mem_insert, List.mem_cons]
    grind

theorem foldl_clearNext_fst {names : List String} {state : Bool × Flags} :
    (names.foldl clearNext state).1 = true ↔ state.1 = true ∨ ∃ x ∈ names, x ∈ state.2 := by
  induction names generalizing state with
  | nil => simp
  | cons name rest ih =>
    have hname : (clearNext state name).1 = true ↔ state.1 = true ∨ name ∈ state.2 := by
      simp [clearNext, mem_def]
    rw [List.foldl_cons, ih, hname, clearNext]
    simp only [mem_erase, List.mem_cons]
    grind

/-- Some flag was clear exactly if not all of them were set. -/
theorem setEach_eq (flags : Flags) (text : String) :
    flags.setEach text = (!flags.areSet text, flags.set text) := by
  refine Prod.ext (Bool.eq_iff_iff.mpr ?_) rfl
  rw [setEach, foldl_setNext_fst, Bool.not_eq_true', ← Bool.not_eq_true, areSet_eq_true_iff]
  simp

theorem clearEach_eq (flags : Flags) (text : String) :
    flags.clearEach text = (!flags.areClear text, flags.clear text) := by
  refine Prod.ext (Bool.eq_iff_iff.mpr ?_) rfl
  rw [clearEach, foldl_clearNext_fst, Bool.not_eq_true', ← Bool.not_eq_true, areClear_eq_true_iff]
  simp

end Flags

end StoryPlayer
