import StoryPlayer.Proofs.Documents
import StoryPlayer.Proofs.Journal

/-! Where faults come from.  A machine that plays the documents of a library, and that its host has
put nothing else into, fails for one reason only: some element of the document in place raises a
fault.  The element lacks an attribute, or it names a block or a document that cannot be had. -/

namespace StoryPlayer

open Markup

/-! ### Faults of one element -/

/-- The codes of the faults that an element can raise. -/
def elementCodes : List String :=
  ["ENGINE_MISSING_ATTRIBUTE", "ENGINE_UNKNOWN_BLOCK", "ENGINE_NO_BLOCKS", "LOAD_NOT_FOUND",
    "XML_PARSE_ERROR"]

theorem bind_eq_error {α β : Type} {x : Except Fault α} {f : α → Except Fault β} {fault : Fault}
    (h : (x >>= f) = .error fault) :
    x = .error fault ∨ ∃ a, x = .ok a ∧ f a = .error fault := by
  cases x with
  | error other =>
    cases h
    exact .inl rfl
  | ok a => exact .inr ⟨a, rfl, h⟩

theorem mapM_eq_error {α β : Type} {f : α → Except Fault β} {xs : List α} {fault : Fault}
    (h : xs.mapM f = .error fault) : ∃ x ∈ xs, f x = .error fault := by
  induction xs with
  | nil => cases h
  | cons x rest ih =>
    rw [List.mapM_cons] at h
    rcases bind_eq_error h with hfirst | ⟨first, -, h⟩
    · exact ⟨x, List.mem_cons_self, hfirst⟩
    · rcases bind_eq_error h with hothers | ⟨others, -, h⟩
      · obtain ⟨y, hy, hfault⟩ := ih hothers
        exact ⟨y, List.mem_cons_of_mem _ hy, hfault⟩
      · cases h

theorem code_of_required {e : Element} {attr : String} {fault : Fault}
    (h : required e attr = .error fault) : fault.code ∈ elementCodes := by
  rw [required] at h
  split at h
  · cases h
  · cases h
    show "ENGINE_MISSING_ATTRIBUTE" ∈ elementCodes
    decide

theorem Offer.code_of_ofElement {e : Element} {fault : Fault}
    (h : Offer.ofElement e = .error fault) : fault.code ∈ elementCodes := by
  rcases bind_eq_error h with hlabel | ⟨label, -, h⟩
  · exact code_of_required hlabel
  · cases h

theorem Instruction.code_of_ofElement {e : Element} {fault : Fault}
    (h : Instruction.ofElement e = .error fault) : fault.code ∈ elementCodes := by
  unfold Instruction.ofElement at h
  split at h
  case h_8 =>
    rcases bind_eq_error h with hoffers | ⟨offers, -, h⟩
    · obtain ⟨option, -, hoption⟩ := mapM_eq_error hoffers
      exact Offer.code_of_ofElement hoption
    · cases h
  case h_10 | h_11 | h_12 =>
    rcases bind_eq_error h with hvalue | ⟨value, -, h⟩
    · exact code_of_required hvalue
    · cases h
  all_goals cases h

theorem Library.code_of_fetch {library : Library} {path : String} {fault : Fault}
    (h : library.fetch path = .error fault) : fault.code ∈ elementCodes := by
  rw [fetch] at h
  split at h
  · cases h
    show "LOAD_NOT_FOUND" ∈ elementCodes
    decide
  · next source _ =>
    cases hparse : parse source with
    | ok root =>
      rw [hparse] at h
      cases h
    | error cause =>
      rw [hparse] at h
      cases h
      show "XML_PARSE_ERROR" ∈ elementCodes
      decide

namespace Machine

theorem code_of_call {m : Machine} {id : String} {fault : Fault}
    (h : (m.call id).1 = .error fault) : fault.code ∈ elementCodes := by
  rw [call] at h
  split at h
  · cases h
  · cases h
    show "ENGINE_UNKNOWN_BLOCK" ∈ elementCodes
    decide

theorem code_of_load {m : Machine} {file : String} {block : Option String} {fault : Fault}
    (h : (m.load file block).1 = .error fault) : fault.code ∈ elementCodes := by
  rw [load] at h
  split at h
  · rw [install] at h
    split at h
    · exact code_of_call h
    · cases h
      show "ENGINE_NO_BLOCKS" ∈ elementCodes
      decide
  · next hfetch =>
    cases h
    exact Library.code_of_fetch hfetch

theorem code_of_execute {m : Machine} {e : Element} {fault : Fault}
    (h : (m.execute e).1 = .error fault) : fault.code ∈ elementCodes := by
  rw [execute] at h
  split at h
  · next i _ =>
    cases i with
    | call block => exact code_of_call h
    | goto block => exact code_of_call h
    | load file block => exact code_of_load h
    | block gate =>
      simp only [perform] at h
      split at h
      · cases h
      · cases h
    | title | description | text | toDescription | clearScreen | pause | choice | flag | ignored =>
      cases h
  · next hread =>
    cases h
    exact Instruction.code_of_ofElement hread

end Machine

/-! ### Faults of a story -/

namespace Machine

/-- The machine plays one of the documents of a library, and holds elements of no other. -/
structure InStory (library : Library) (m : Machine) : Prop where
  document : ∃ path root, library.fetch path = .ok root ∧ m.WellFormed (some root)
  library : m.library = library

end Machine

/-- The fault is raised by an element of one of the documents, in a machine that plays it. -/
def Library.Raises (library : Library) (fault : Fault) : Prop :=
  ∃ path root e m, library.fetch path = .ok root ∧ e ∈ root.preorder ∧ m.library = library ∧
    Machine.WellFormed (some root) m ∧ (m.execute e).1 = .error fault

theorem Library.Raises.code {library : Library} {fault : Fault} (h : library.Raises fault) :
    fault.code ∈ elementCodes := by
  obtain ⟨_, _, _, _, _, _, _, _, hexecute⟩ := h
  exact Machine.code_of_execute hexecute

theorem Library.fetch_of_document? {library : Library} {e root : Element}
    (h : library.document? e = some root) : ∃ path, library.fetch path = .ok root := by
  rw [document?] at h
  split at h
  · next file _ _ =>
    cases hfetch : library.fetch file with
    | ok found =>
      rw [hfetch] at h
      cases h
      exact ⟨file, hfetch⟩
    | error fault =>
      rw [hfetch] at h
      cases h
  · cases h

namespace Machine

theorem InStory.of_fields {library : Library} {m after : Machine} (h : m.InStory library)
    (hlibrary : after.library = m.library)
    (hformed : ∀ root, m.WellFormed (some root) → after.WellFormed (some root)) :
    after.InStory library := by
  obtain ⟨path, root, hfetch, hm⟩ := h.document
  exact ⟨⟨path, root, hfetch, hformed root hm⟩, hlibrary.trans h.library⟩

theorem InStory.write {library : Library} {m : Machine} (h : m.InStory library)
    (surface : Surface) (markup : String) : (m.write surface markup).InStory library :=
  h.of_fields rfl fun _ hm => ⟨hm.blocks, hm.frames, hm.offers, hm.labels⟩

theorem InStory.takeJournal {library : Library} {m : Machine} (h : m.InStory library) :
    m.takeJournal.2.InStory library :=
  h.of_fields rfl fun _ hm => ⟨hm.blocks, hm.frames, hm.offers, hm.labels⟩

theorem InStory.start {library : Library} {m start : Machine} {turn : Turn}
    (h : m.InStory library) (hstart : Starts m turn start) : start.InStory library := by
  refine h.of_fields ?_ fun _ hm => hm.start hstart
  rcases hstart.cases with ⟨-, rfl⟩ | ⟨-, hlibrary, -⟩
  · rfl
  · exact hlibrary

/-- A step stays in the document, or it goes on in one that the library has. -/
theorem InStory.step {library : Library} {m : Machine} (h : m.InStory library) :
    m.step.2.InStory library := by
  obtain ⟨path, root, hfetch, hm⟩ := h.document
  have hafter := hm.step
  cases hplaced : (Moment.step m).document? with
  | none =>
    rw [hplaced] at hafter
    exact ⟨⟨path, root, hfetch, hafter⟩, m.step_library.trans h.library⟩
  | some other =>
    rw [hplaced] at hafter
    obtain ⟨e, -, hdocument⟩ := Option.bind_eq_some_iff.mp hplaced
    rw [h.library] at hdocument
    obtain ⟨path', hfetch'⟩ := Library.fetch_of_document? hdocument
    exact ⟨⟨path', other, hfetch', hafter⟩, m.step_library.trans h.library⟩

theorem InStory.raises {library : Library} {m after : Machine} {fault : Fault}
    (h : m.InStory library) (hstep : m.step = (.error fault, after)) : library.Raises fault := by
  obtain ⟨path, root, hfetch, hm⟩ := h.document
  have hstepped := m.step_stepped
  rw [hstep] at hstepped
  cases hstepped with
  | @failed e left _ _ hpop hexecute =>
    obtain ⟨hmem, htaken⟩ := hm.take hpop
    refine ⟨path, root, e, m.take e left, hfetch, hmem, h.library, htaken, ?_⟩
    rw [hexecute]

/-- A story stays among its documents, and what it fails with is raised by one of their elements. -/
theorem InStory.plays {library : Library} {m after : Machine} {result : Except Fault Unit}
    (h : m.InStory library) (hplays : Plays m result after) :
    after.InStory library ∧ ∀ fault, result = .error fault → library.Raises fault := by
  induction hplays with
  | paused => exact ⟨h, nofun⟩
  | @failed m after fault _ hstep =>
    have hafter := h.step
    rw [hstep] at hafter
    refine ⟨hafter, fun other heq => ?_⟩
    cases heq
    exact h.raises hstep
  | ended _ hstep =>
    have hafter := h.step
    rw [hstep] at hafter
    exact ⟨hafter, nofun⟩
  | more _ hstep _ ih =>
    have hnext := h.step
    rw [hstep] at hnext
    exact ih hnext

theorem inStory_opening {library : Library} {file block : Option String} {delay : Nat}
    {m : Machine} (h : opening library file block delay = .ok m) : m.InStory library := by
  obtain ⟨entry, root, hfetch, hinstall⟩ := install_of_opening h
  have hquiet := (new library delay).quiet_install entry root block
  have hformed := (new library delay).wellFormed_install entry root block
  rw [hinstall] at hquiet hformed
  exact ⟨⟨entry, root, hfetch, hformed⟩, hquiet.library⟩

end Machine

end StoryPlayer
