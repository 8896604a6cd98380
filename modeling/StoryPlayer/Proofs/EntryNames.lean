import Mathlib.Data.Set.Finite.List
import StoryPlayer.Proofs.Failures

/-! The names of documents.  The document to start with is looked for under its name as it is given,
and loaded under its name without the `./` at the start.  The two agree on names that do not start
so.  What is accepted is always found exactly if each path of the library is also there without its
`./`, and what is found is always accepted exactly if each path of the library starts with `./`, so
that nothing is ever found. -/

namespace StoryPlayer

open Markup

namespace Library

/-- A path after `n` times `./`. -/
def dotted : (n : Nat) → (path : String) → String
  | 0, path => path
  | n + 1, path => "./" ++ dotted n path

/-- The path without the `./` at its start. -/
def bare (path : String) : String := String.ofList (stripDots path.toList)

/-- Whether a path starts with `./`. -/
def IsDotted (path : String) : Prop := "./".toList <+: path.toList

/-- A document is found at the path, whether it can be read or not. -/
def Finds (library : Library) (path : String) : Prop :=
  ∀ fault, library.fetch path = .error fault → fault.code ≠ "LOAD_NOT_FOUND"

/-! ### Paths -/

theorem stripDots_eq_self {path : List Char} (h : ¬"./".toList <+: path) :
    stripDots path = path := by
  unfold stripDots
  split
  · next rest => exact absurd ⟨rest, rfl⟩ h
  · rfl

theorem not_prefix_stripDots (path : List Char) : ¬"./".toList <+: stripDots path := by
  fun_induction stripDots path with
  | case1 rest ih => exact ih
  | case2 path hother =>
    rintro ⟨rest, rfl⟩
    exact hother rest rfl

theorem not_isDotted_bare (path : String) : ¬IsDotted (bare path) := by
  simpa only [IsDotted, bare, String.toList_ofList] using not_prefix_stripDots path.toList

theorem bare_eq_self_iff {path : String} : bare path = path ↔ ¬IsDotted path := by
  constructor
  · intro h hdotted
    rw [← h] at hdotted
    exact not_isDotted_bare path hdotted
  · intro h
    rw [bare, stripDots_eq_self h, String.ofList_toList]

theorem bare_dotted (n : Nat) (path : String) : bare (dotted n path) = bare path := by
  induction n with
  | zero => rfl
  | succ n ih =>
    rw [← ih, bare, bare, dotted, String.toList_append]
    rfl

theorem length_dotted (n : Nat) (path : String) :
    (dotted n path).length = 2 * n + path.length := by
  induction n with
  | zero => rw [Nat.mul_zero, Nat.zero_add]; rfl
  | succ n ih =>
    rw [dotted, String.length_append, ih, show "./".length = 2 from rfl]
    omega

theorem dotted_injective (path : String) : Function.Injective fun n => dotted n path := by
  intro n k h
  have hlength := congrArg String.length h
  simp only [length_dotted] at hlength
  omega

/-! ### Looking for documents -/

theorem fetch_eq {library : Library} {path source : String}
    (h : library.get? (bare path) = some source) :
    library.fetch path = (parse source).mapError .malformed := by
  rw [fetch, show library.get? (String.ofList (stripDots path.toList)) = some source from h]

theorem fetch_of_not_mem {library : Library} {path : String} (h : bare path ∉ library.keys) :
    library.fetch path = .error (.unknownDocument path) := by
  have hnone : library.get? (bare path) = none := Table.get?_eq_none_iff.mpr h
  rw [fetch, show library.get? (String.ofList (stripDots path.toList)) = none from hnone]

theorem finds_iff {library : Library} {path : String} :
    library.Finds path ↔ bare path ∈ library.keys := by
  constructor
  · intro h
    refine Classical.byContradiction fun hnone => ?_
    exact h _ (fetch_of_not_mem hnone) rfl
  · intro h fault hfault
    obtain ⟨source, hsource⟩ := Option.ne_none_iff_exists'.mp
      (mt Table.get?_eq_none_iff.mp (not_not_intro h))
    rw [fetch_eq hsource] at hfault
    cases hparse : parse source with
    | ok root =>
      rw [hparse] at hfault
      cases hfault
    | error cause =>
      rw [hparse] at hfault
      cases hfault
      simp [Fault.code]

theorem entry_some_eq_ok_iff {library : Library} {file name : String} :
    library.entry (some file) = .ok name ↔ file ∈ library.keys ∧ name = file := by
  rw [entry, ← Table.has_eq_true_iff]
  split
  · next h => simp [h, eq_comm]
  · next h => simp [h]

theorem mem_keys_of_entry {library : Library} {named : Option String} {name : String}
    (h : library.entry named = .ok name) : name ∈ library.keys := by
  cases named with
  | some file =>
    obtain ⟨hmem, rfl⟩ := entry_some_eq_ok_iff.mp h
    exact hmem
  | none =>
    simp only [entry] at h
    split at h
    · next hmain =>
      cases h
      exact Table.has_eq_true_iff.mp hmain
    · split at h
      · cases h
        exact List.mem_singleton.mpr rfl
      · cases h

/-! ### Starting -/

/-- What is accepted is found at the paths that are in the library bare as well. -/
theorem entry_finds_iff (library : Library) :
    (∀ named name, library.entry named = .ok name → library.Finds name) ↔
      ∀ key ∈ library.keys, bare key ∈ library.keys := by
  constructor
  · intro h key hkey
    exact finds_iff.mp (h (some key) key (entry_some_eq_ok_iff.mpr ⟨hkey, rfl⟩))
  · intro h named name hentry
    exact finds_iff.mpr (h name (mem_keys_of_entry hentry))

/-- Were all that is found accepted, a path that is not dotted would be in the library under
infinitely many names. -/
theorem finds_entry_iff (library : Library) :
    (∀ name, library.Finds name → library.entry (some name) = .ok name) ↔
      ∀ key ∈ library.keys, IsDotted key := by
  constructor
  · intro h key hkey
    refine Classical.byContradiction fun hplain => ?_
    have hall : ∀ n, dotted n key ∈ {path | path ∈ library.keys} := by
      intro n
      have hfinds : library.Finds (dotted n key) := by
        rw [finds_iff, bare_dotted, bare_eq_self_iff.mpr hplain]
        exact hkey
      exact (entry_some_eq_ok_iff.mp (h _ hfinds)).1
    have hinfinite := Set.infinite_of_injective_forall_mem (dotted_injective key) hall
    exact hinfinite (List.finite_toSet library.keys)
  · intro h name hfinds
    exact absurd (h _ (finds_iff.mp hfinds)) (not_isDotted_bare name)

theorem code_of_entry {library : Library} {named : Option String} {fault : Fault}
    (h : library.entry named = .error fault) : fault.code ≠ "LOAD_NOT_FOUND" := by
  cases named with
  | some file =>
    simp only [entry] at h
    split at h
    · cases h
    · cases h
      simp [Fault.code]
  | none =>
    simp only [entry] at h
    split at h
    · cases h
    · split at h
      · cases h
      · cases h
        simp [Fault.code]

theorem opening_eq_error_iff {library : Library} {named block : Option String} {delay : Nat}
    {name : String} (h : library.entry named = .ok name) (fault : Fault) :
    Machine.opening library named block delay = .error fault ↔
      ∃ after, (Machine.new library delay).load name block = (.error fault, after) := by
  simp only [Machine.opening, h, bind, Except.bind]
  split
  · next hload => simp [hload]
  · next hload => simp [hload]

theorem opening_not_found_iff (library : Library) (named block : Option String) (delay : Nat) :
    (∃ fault, Machine.opening library named block delay = .error fault ∧
      fault.code = "LOAD_NOT_FOUND") ↔
      ∃ name, library.entry named = .ok name ∧ bare name ∉ library.keys := by
  cases hentry : library.entry named with
  | error fault =>
    have hopening : Machine.opening library named block delay = .error fault := by
      rw [Machine.opening, hentry]
      rfl
    simp [hopening, code_of_entry hentry]
  | ok name =>
    have hfails := @Machine.failsWith_load_iff (.new library delay) name _ block (.inl rfl)
    constructor
    · rintro ⟨fault, hopening, hcode⟩
      obtain ⟨after, hload⟩ := (opening_eq_error_iff hentry fault).mp hopening
      obtain ⟨cause, hfetch, hcause⟩ := hfails.mp ⟨fault, after, by rw [hload], hcode⟩
      exact ⟨name, rfl, fun hmem => finds_iff.mpr hmem cause hfetch hcause⟩
    · rintro ⟨other, hother, hnone⟩
      cases hother
      obtain ⟨fault, after, hload, hcode⟩ := hfails.mpr ⟨_, fetch_of_not_mem hnone, rfl⟩
      have hopening := (opening_eq_error_iff hentry fault).mpr ⟨after, Option.some.inj hload⟩
      exact ⟨fault, hopening, hcode⟩

/-- For every library: how the name of the document to start with is looked for, and how it is
loaded, agree on names that do not start with `./`; and the exact conditions under which what is
accepted is found, and what is found is accepted. -/
theorem entry_against_fetch (library : Library) :
    (∀ name, ¬IsDotted name → (library.entry (some name) = .ok name ↔ library.Finds name)) ∧
    ((∀ named name, library.entry named = .ok name → library.Finds name) ↔
      ∀ key ∈ library.keys, bare key ∈ library.keys) ∧
    (∀ named block delay,
      (∃ fault, Machine.opening library named block delay = .error fault ∧
        fault.code = "LOAD_NOT_FOUND") ↔
      ∃ name, library.entry named = .ok name ∧ bare name ∉ library.keys) ∧
    ((∀ name, library.Finds name → library.entry (some name) = .ok name) ↔
      ∀ key ∈ library.keys, IsDotted key) := by
  refine ⟨fun name hplain => ?_, library.entry_finds_iff, library.opening_not_found_iff,
    library.finds_entry_iff⟩
  rw [finds_iff, bare_eq_self_iff.mpr hplain, entry_some_eq_ok_iff]
  exact and_iff_left rfl

/-- A library whose only path starts with `./`. -/
def dottedLibrary : Library := [("./main.xml", "<block id='start'/>")]

/-- A library whose only path does not. -/
def plainLibrary : Library := [("main.xml", "<block id='start'/>")]

/-- Each way in which the two differ: the only document is the one to start with, and is not found;
and a document is found under a name that is refused. -/
theorem entry_and_fetch_differ :
    (dottedLibrary.entry none = .ok "./main.xml" ∧ ¬dottedLibrary.Finds "./main.xml" ∧
      Machine.opening dottedLibrary none none 300 = .error (.unknownDocument "./main.xml")) ∧
    plainLibrary.Finds "./main.xml" ∧
      plainLibrary.entry (some "./main.xml") = .error (.unknownEntry "./main.xml") := by
  refine ⟨⟨rfl, ?_, rfl⟩, ?_, rfl⟩
  · rw [finds_iff]
    decide
  · rw [finds_iff]
    decide

end Library

end StoryPlayer
