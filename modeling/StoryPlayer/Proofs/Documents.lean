import StoryPlayer.Proofs.History

/-! Where the elements of a machine come from.  A machine holds elements in three places: the table
of blocks, the frames under way and the options on offer.  At any time all of them are elements of
one document, the one that was put in place last, whether by the host or by an element that ran.  In
each place they are of the kind that belongs there. -/

namespace StoryPlayer

open Markup

/-! ### Elements of a document -/

namespace Markup.Element

theorem mem_outlineAll {depth : Nat} {entry : Nat × Element} {elements : List Element} :
    entry ∈ outlineAll depth elements ↔ ∃ e ∈ elements, entry ∈ outline depth e := by
  induction elements with
  | nil => simp [outlineAll]
  | cons e rest ih => simp [outlineAll, ih]

theorem self_mem_outline (depth : Nat) (e : Element) : (depth, e) ∈ outline depth e := by
  rw [outline_eq]
  exact List.mem_cons_self

/-- The children of an element in an outline are in it, one level below.  The recursion is on the
element that is outlined. -/
theorem child_mem_outline {e child : Element} (hchild : child ∈ e.children) {level : Nat} :
    ∀ (root : Element) (depth : Nat), (level, e) ∈ outline depth root →
      (level + 1, child) ∈ outline depth root := by
  intro root depth he
  rw [outline_eq] at he ⊢
  refine List.mem_cons_of_mem _ (mem_outlineAll.mpr ?_)
  rcases List.mem_cons.mp he with hself | hbelow
  · obtain ⟨rfl, rfl⟩ := Prod.mk.inj hself
    exact ⟨child, hchild, self_mem_outline _ child⟩
  · obtain ⟨below, hmem, hbelow⟩ := mem_outlineAll.mp hbelow
    exact ⟨below, hmem, child_mem_outline hchild below (depth + 1) hbelow⟩
termination_by root => sizeOf root
decreasing_by
  obtain ⟨name, attributes, children, markup, span⟩ := root
  have hlt : sizeOf below < sizeOf children := List.sizeOf_lt_of_mem hmem
  simp only [mk.sizeOf_spec]
  omega

theorem mem_preorder {e root : Element} :
    e ∈ root.preorder ↔ ∃ level, (level, e) ∈ outline 0 root := by
  simp [preorder]

theorem child_mem_preorder {root e child : Element} (he : e ∈ root.preorder)
    (hchild : child ∈ e.children) : child ∈ root.preorder := by
  obtain ⟨level, hlevel⟩ := mem_preorder.mp he
  exact mem_preorder.mpr ⟨level + 1, child_mem_outline hchild root 0 hlevel⟩

end Markup.Element

theorem Blocks.mem_foldl_collect {elements : List Element} {blocks : Blocks}
    {entry : String × Element} (h : entry ∈ (elements.foldl collect blocks).table) :
    entry ∈ blocks.table ∨ entry.2 ∈ elements ∧ declaredId? entry.2 = some entry.1 := by
  induction elements generalizing blocks with
  | nil => exact .inl h
  | cons e rest ih =>
    rcases ih h with hcollected | ⟨hmem, hid⟩
    · rw [collect] at hcollected
      split at hcollected
      · next id hid =>
        rw [table_declare] at hcollected
        rcases Table.mem_put hcollected with rfl | hold
        · exact .inr ⟨List.mem_cons_self, hid⟩
        · exact .inl hold
      · exact .inl hcollected
    · exact .inr ⟨List.mem_cons_of_mem _ hmem, hid⟩

/-- A block that is found under an id is a block of the document. -/
theorem Blocks.get?_ofRoot {root e : Element} {id : String} (h : (ofRoot root).get? id = some e) :
    e ∈ root.preorder ∧ e.name = "block" := by
  rw [get?_eq_table] at h
  rcases mem_foldl_collect (Table.mem_of_get? h) with hnone | ⟨hmem, hid⟩
  · cases hnone
  · refine ⟨hmem, ?_⟩
    rw [declaredId?] at hid
    split at hid
    · next hname => exact hname
    · cases hid

/-! ### What is read off an element -/

theorem mem_of_mapM {α β : Type} {f : α → Except Fault β} {xs : List α} {ys : List β}
    (h : xs.mapM f = .ok ys) {y : β} (hy : y ∈ ys) : ∃ x ∈ xs, f x = .ok y := by
  induction xs generalizing ys with
  | nil =>
    cases h
    cases hy
  | cons x rest ih =>
    rw [List.mapM_cons] at h
    obtain ⟨first, hfirst, h⟩ := bind_eq_ok h
    obtain ⟨others, hothers, h⟩ := bind_eq_ok h
    cases h
    rcases List.mem_cons.mp hy with rfl | hy
    · exact ⟨x, List.mem_cons_self, hfirst⟩
    · obtain ⟨z, hz, hread⟩ := ih hothers hy
      exact ⟨z, List.mem_cons_of_mem _ hz, hread⟩

/-- What an element is that stands for an instruction which makes use of it. -/
def Instruction.From (e : Element) : Instruction → Prop
  | block gate => e.name = "block" ∧ gate = .ofElement e
  | toDescription => e.name = "to-description"
  | choice offers =>
    (e.children.filter fun child => child.name = "option").mapM Offer.ofElement = .ok offers
  | _ => True

theorem Instruction.from_of_ofElement {e : Element} {i : Instruction}
    (h : Instruction.ofElement e = .ok i) : i.From e := by
  unfold Instruction.ofElement at h
  split at h
  case h_1 hname => cases h; exact ⟨hname, rfl⟩
  case h_5 hname => cases h; exact hname
  case h_8 =>
    obtain ⟨offers, hoffers, heq⟩ := bind_eq_ok h
    cases heq
    exact hoffers
  case h_10 | h_11 | h_12 =>
    obtain ⟨value, -, heq⟩ := bind_eq_ok h
    cases heq
    trivial
  case h_13 =>
    split at h
    · cases h; trivial
    · cases h; trivial
  all_goals
    cases h
    trivial

/-- The offer stands for an option in the element `e`. -/
structure Offer.From (e : Element) (offer : Offer) : Prop where
  mem : offer.element ∈ e.children
  name : offer.element.name = "option"
  label : offer.element.attr? "of" = some offer.label
  gate : offer.gate = .ofElement offer.element

theorem Offer.from_of_choice {e : Element} {offers : List Offer} {offer : Offer}
    (h : Instruction.ofElement e = .ok (.choice offers)) (hmem : offer ∈ offers) :
    offer.From e := by
  obtain ⟨option, hoption, hread⟩ := mem_of_mapM (Instruction.from_of_ofElement h) hmem
  obtain ⟨hchild, hname⟩ := List.mem_filter.mp hoption
  obtain ⟨label, hlabel, heq⟩ := bind_eq_ok hread
  cases heq
  refine ⟨hchild, of_decide_eq_true hname, ?_, rfl⟩
  rw [required] at hlabel
  split at hlabel
  · next value hvalue =>
    cases hlabel
    exact hvalue
  · cases hlabel

theorem mem_foldl_consider {offers : List Offer} {state : Table Element × Flags}
    {entry : String × Element} (h : entry ∈ (offers.foldl consider state).1) :
    entry ∈ state.1 ∨ ∃ offer ∈ offers, entry = (offer.label, offer.element) := by
  induction offers generalizing state with
  | nil => exact .inl h
  | cons offer rest ih =>
    rcases ih h with hconsidered | ⟨other, hother, heq⟩
    · rw [consider] at hconsidered
      split at hconsidered
      · rcases Table.mem_put hconsidered with heq | hold
        · exact .inr ⟨offer, List.mem_cons_self, heq⟩
        · exact .inl hold
      · exact .inl hconsidered
    · exact .inr ⟨other, List.mem_cons_of_mem _ hother, heq⟩

theorem nodup_foldl_consider {offers : List Offer} {state : Table Element × Flags}
    (h : state.1.keys.Nodup) : (offers.foldl consider state).1.keys.Nodup := by
  induction offers generalizing state with
  | nil => exact h
  | cons offer rest ih =>
    apply ih
    rw [consider]
    split
    · exact Table.nodup_keys_put h _ _
    · exact h

/-! ### Documents that are put in place -/

/-- The document that an element puts in place. -/
def Library.document? (library : Library) (e : Element) : Option Element :=
  match Instruction.ofElement e with
  | .ok (.load file _) => (library.fetch file).toOption
  | _ => none

/-- The document that is put in place at a moment. -/
def Moment.document? : Moment → Option Element
  | step m => m.stack.upcoming?.bind m.library.document?
  | install root => some root
  | clear _ _ => none

/-- The document that was put in place last. -/
def lastDocument (past : List Moment) : Option Element :=
  (past.filterMap Moment.document?).getLast?

theorem lastDocument_append (past : List Moment) (moment : Moment) :
    lastDocument (past ++ [moment]) = moment.document?.or (lastDocument past) := by
  rw [lastDocument, List.filterMap_append, List.getLast?_append]
  cases hdocument : moment.document? with
  | none => simp [hdocument, lastDocument]
  | some root => simp [hdocument]

/-- The elements of a document, if there is one. -/
def elementsOf (document : Option Element) : List Element := document.elim [] Element.preorder

theorem child_mem_elementsOf {document : Option Element} {e child : Element}
    (he : e ∈ elementsOf document) (hchild : child ∈ e.children) :
    child ∈ elementsOf document := by
  cases document with
  | none => cases he
  | some root => exact Element.child_mem_preorder he hchild

/-! ### Well-formed machines -/

/-- The name of the elements that are entered in a role. -/
def Role.tag : Role → String
  | standard => "block"
  | option => "option"
  | toDescription => "to-description"

/-- The frame is for one of `elements`, in its proper role, and is not past its end. -/
structure Frame.Within (elements : List Element) (frame : Frame) : Prop where
  mem : frame.element ∈ elements
  name : frame.element.name = frame.role.tag
  done : frame.done ≤ frame.element.children.length

namespace Machine

/-- All elements that the machine holds are of one document, and where they belong. -/
structure WellFormed (document : Option Element) (m : Machine) : Prop where
  blocks : m.blocks = document.elim {} Blocks.ofRoot
  frames : ∀ frame ∈ m.stack, frame.Within (elementsOf document)
  offers : ∀ entry ∈ m.offers, entry.2 ∈ elementsOf document ∧ entry.2.name = "option" ∧
    entry.2.attr? "of" = some entry.1
  labels : m.labels.Nodup

theorem WellFormed.quiet {document : Option Element} {m after : Machine}
    (h : m.WellFormed document) (hquiet : Quiet m after)
    (hframes : ∀ frame ∈ after.stack, frame.Within (elementsOf document)) :
    after.WellFormed document := by
  refine ⟨hquiet.blocks.trans h.blocks, hframes, ?_, ?_⟩
  · rw [hquiet.offers]
    exact h.offers
  · rw [Machine.labels, hquiet.offers]
    exact h.labels

theorem WellFormed.push {document : Option Element} {m : Machine} (h : m.WellFormed document)
    {e : Element} {role : Role} (he : e ∈ elementsOf document) (hname : e.name = role.tag) :
    (m.push e role).WellFormed document := by
  refine h.quiet (m.quiet_stack _) fun frame hmem => ?_
  rcases List.mem_cons.mp hmem with rfl | hbelow
  · exact ⟨he, hname, Nat.zero_le _⟩
  · exact h.frames frame hbelow

theorem WellFormed.unwind {document : Option Element} {m : Machine} (h : m.WellFormed document) :
    m.unwind.WellFormed document := by
  refine h.quiet (m.quiet_stack _) fun frame hmem => h.frames frame ?_
  exact (List.dropWhile_sublist _).subset hmem

theorem WellFormed.finish {document : Option Element} {m : Machine} (h : m.WellFormed document) :
    m.finish.WellFormed document := by
  rw [finish_eq]
  exact ⟨h.blocks, h.frames, h.offers, h.labels⟩

/-- The next element and the frames that it leaves are of the same document. -/
theorem WellFormed.take {document : Option Element} {m : Machine} (h : m.WellFormed document)
    {e : Element} {left : Stack} (hpop : m.stack.unwind.pop? = some (e, left)) :
    e ∈ elementsOf document ∧ (m.take e left).WellFormed document := by
  have hframes := h.unwind.frames
  rw [show m.unwind.stack = m.stack.unwind from rfl] at hframes
  cases hstack : m.stack.unwind with
  | nil =>
    rw [hstack] at hpop
    cases hpop
  | cons frame rest =>
    rw [hstack] at hpop hframes
    obtain ⟨child, hnext, heq⟩ := Option.map_eq_some_iff.mp hpop
    cases heq
    have htop := hframes frame List.mem_cons_self
    obtain ⟨hlt, hget⟩ := List.getElem?_eq_some_iff.mp hnext
    have hchild : e ∈ frame.element.children := hget ▸ List.getElem_mem hlt
    refine ⟨child_mem_elementsOf htop.mem hchild, h.blocks, fun other hmem => ?_, h.offers,
      h.labels⟩
    rcases List.mem_cons.mp hmem with rfl | hbelow
    · exact ⟨htop.mem, htop.name, hlt⟩
    · exact hframes other (List.mem_cons_of_mem _ hbelow)

theorem WellFormed.call {document : Option Element} {m : Machine} (h : m.WellFormed document)
    (id : String) : (m.call id).2.WellFormed document := by
  rw [Machine.call]
  split
  · next block hblock =>
    rw [h.blocks] at hblock
    cases document with
    | none => cases hblock
    | some root =>
      obtain ⟨hmem, hname⟩ := Blocks.get?_ofRoot hblock
      exact h.push hmem hname
  · exact h

theorem wellFormed_install (m : Machine) (file : String) (root : Element) (block : Option String) :
    (m.install file root block).2.WellFormed (some root) := by
  have hplaced : (m.withDocument file root).WellFormed (some root) :=
    ⟨rfl, nofun, nofun, List.nodup_nil⟩
  rw [install]
  split
  · exact hplaced.call _
  · exact hplaced

theorem WellFormed.showText {document : Option Element} {m : Machine} (h : m.WellFormed document)
    (markup : String) (speaker : Option String) :
    (m.showText markup speaker).WellFormed document := by
  have hline : (m.putLine markup speaker).WellFormed document := by
    refine h.quiet (m.quiet_putLine markup speaker) ?_
    rw [putLine_stack]
    exact h.frames
  simp only [Machine.showText]
  split
  · exact ⟨hline.blocks, hline.frames, hline.offers, hline.labels⟩
  · split
    · exact hline
    · exact ⟨hline.blocks, hline.frames, hline.offers, hline.labels⟩

theorem WellFormed.showChoice {document : Option Element} {m : Machine} (h : m.WellFormed document)
    {e : Element} {offers : List Offer} (he : e ∈ elementsOf document)
    (hread : Instruction.ofElement e = .ok (.choice offers)) :
    (m.showChoice offers).WellFormed document := by
  refine ⟨h.blocks, h.frames, fun entry hmem => ?_, nodup_foldl_consider List.nodup_nil⟩
  rcases mem_foldl_consider hmem with hnone | ⟨offer, hoffer, rfl⟩
  · cases hnone
  · have hfrom := Offer.from_of_choice hread hoffer
    exact ⟨child_mem_elementsOf he hfrom.mem, hfrom.name, hfrom.label⟩

/-- An element keeps a machine well-formed, with the document that it puts in place if it does. -/
theorem WellFormed.perform {document : Option Element} {m : Machine} (h : m.WellFormed document)
    {e : Element} {i : Instruction} (he : e ∈ elementsOf document)
    (hread : Instruction.ofElement e = .ok i) :
    (m.perform e i).2.WellFormed ((m.library.document? e).or document) := by
  have hfrom := Instruction.from_of_ofElement hread
  rw [Library.document?, hread]
  cases i with
  | block gate =>
    show (m.perform e (.block gate)).2.WellFormed document
    simp only [Machine.perform]
    split
    · next flags _ =>
      have hflags : { m with flags }.WellFormed document :=
        ⟨h.blocks, h.frames, h.offers, h.labels⟩
      exact hflags.push he hfrom.1
    · exact h
  | text speaker => exact h.showText e.markup speaker
  | toDescription => exact h.push he hfrom
  | choice offers => exact h.showChoice he hread
  | call block => exact h.call block
  | goto block =>
    have hempty : { m with stack := [] }.WellFormed document := by
      refine h.quiet (m.quiet_stack []) fun frame hmem => ?_
      cases hmem
    exact hempty.call block
  | load file block =>
    simp only [Machine.perform, Machine.load]
    cases hfetch : m.library.fetch file with
    | ok root => exact m.wellFormed_install file root block
    | error fault => exact h
  | title | description | clearScreen | pause | flag | ignored =>
    exact ⟨h.blocks, h.frames, h.offers, h.labels⟩

theorem WellFormed.execute {document : Option Element} {m : Machine} (h : m.WellFormed document)
    {e : Element} (he : e ∈ elementsOf document) :
    (m.execute e).2.WellFormed ((m.library.document? e).or document) := by
  rw [Machine.execute]
  split
  · next i hread => exact h.perform he hread
  · next fault hread =>
    rw [Library.document?, hread]
    exact h

theorem WellFormed.step {document : Option Element} {m : Machine} (h : m.WellFormed document) :
    m.step.2.WellFormed ((Moment.step m).document?.or document) := by
  refine step_keeps (fun hnil => ?_) (fun {e left result after} hpop hrun => ?_) (·.unwind)
    (·.finish)
  · rw [Moment.document?, ← Stack.upcoming?_unwind, hnil]
    exact h
  · obtain ⟨he, htaken⟩ := h.take hpop
    have hafter := htaken.execute he
    rw [hrun] at hafter
    rw [Moment.document?, Stack.upcoming?_of_pop? hpop]
    exact hafter

theorem WellFormed.leavePause {document : Option Element} {m : Machine}
    (h : m.WellFormed document) : m.leavePause.WellFormed document := by
  have hrunning : { m with
      phase := .running
      generation := m.generation + 1
      journal := .proceeded :: m.journal }.WellFormed document :=
    ⟨h.blocks, h.frames, h.offers, h.labels⟩
  refine hrunning.quiet m.quiet_leavePause ?_
  rw [Machine.leavePause, flush_stack]
  exact h.frames

theorem WellFormed.start {document : Option Element} {m start : Machine} {turn : Turn}
    (h : m.WellFormed document) (hstart : Starts m turn start) : start.WellFormed document := by
  cases hstart with
  | play => exact h
  | resume => exact h.leavePause
  | @choose _ option hoption =>
    obtain ⟨hmem, hname, -⟩ := h.offers _ (Table.mem_of_get? hoption)
    have hpushed : (m.push option .option).WellFormed document := h.push hmem hname
    have hentered : (m.enterOption option).WellFormed document :=
      ⟨hpushed.blocks, hpushed.frames, nofun, List.nodup_nil⟩
    exact hentered.leavePause

theorem wellFormed_tracked : Tracked fun past m => m.WellFormed (lastDocument past) where
  step hm := by
    rw [lastDocument_append]
    exact hm.step
  install file root block hm := by
    rw [lastDocument_append]
    exact wellFormed_install _ file root block
  start hm hstart := hm.start hstart
  set _ hm := ⟨hm.blocks, hm.frames, hm.offers, hm.labels⟩
  clear _ hm := by
    rw [lastDocument_append]
    exact ⟨hm.blocks, hm.frames, hm.offers, hm.labels⟩
  write _ _ hm := ⟨hm.blocks, hm.frames, hm.offers, hm.labels⟩

/-- Every machine that a host can come to has a history, and whatever its history is, the machine is
well-formed for the document that was put in place last. -/
theorem reachable_wellFormed {m : Machine} (h : Reachable (fun _ => True) m) :
    (∃ past, History m past) ∧ ∀ past, History m past → m.WellFormed (lastDocument past) := by
  refine ⟨m.reachable_iff_history.mp h, fun past hpast => ?_⟩
  refine wellFormed_tracked.history (fun library choiceDelay => ?_) hpast
  exact ⟨rfl, nofun, nofun, List.nodup_nil⟩

/-- At the crossroads the frame and the two options on offer are of the document there. -/
theorem reachable_wellFormed_crossroads :
    ∃ m past, History m past ∧ lastDocument past = some crossroads ∧
      m.labels = ["left", "right"] ∧ m.WellFormed (some crossroads) := by
  have hpast : History _ _ :=
    .call (.turn .play) 4 (.call (.install "main.xml" crossroads none) 0 (.new [] 300) rfl) rfl
  have hreached := reachable_wellFormed ((reachable_iff_history _).mpr ⟨_, hpast⟩)
  exact ⟨_, _, hpast, rfl, rfl, hreached.2 _ hpast⟩

end Machine

end StoryPlayer
