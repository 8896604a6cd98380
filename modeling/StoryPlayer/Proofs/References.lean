import Mathlib.Algebra.Group.Action.Defs
import Mathlib.Algebra.Order.BigOperators.Group.List
import Mathlib.Algebra.Order.Ring.Nat
import Mathlib.Order.WellFoundedSet
import StoryPlayer.Proofs.Documents
import StoryPlayer.Proofs.Journal
import StoryPlayer.Proofs.Simulation

/-! What makes a story run forever.  A block refers to the blocks that it calls, goes to or loads,
anywhere in it.  If no block of a library refers to itself, at first hand or through others, then
every block has a weight: more than the elements in it and the weights of the blocks that these
refer to.  The weight of what is left to run falls with every step, so that each call of a host
ends, whatever the flags and whatever the reader chooses. -/

namespace StoryPlayer

open Markup

/-- The place of a block: the path under which its document is listed, and its id. -/
structure Place where
  path : String
  id : String
  deriving DecidableEq, Repr

namespace Library

/-! ### References -/

/-- The path under which a document is listed that is asked for as `path`. -/
def listed (path : String) : String := String.ofList (stripDots path.toList)

/-- The document that is listed under a path. -/
def root? (library : Library) (path : String) : Option Element :=
  (library.get? path).bind fun source => (parse source).toOption

/-- The block that is declared at a place. -/
def block? (library : Library) (place : Place) : Option Element :=
  (library.root? place.path).bind fun root => (Blocks.ofRoot root).get? place.id

/-- The place to which an element leads that stands in the document listed under `path`. -/
def target? (library : Library) (path : String) (e : Element) : Option Place :=
  match Instruction.ofElement e with
  | .ok (.call id) | .ok (.goto id) => some ⟨path, id⟩
  | .ok (.load file block) =>
    (library.root? (listed file)).bind fun root =>
      (block.or (Blocks.ofRoot root).first?).map fun id => ⟨listed file, id⟩
  | _ => none

/-- The places of the blocks to which elements lead that are anywhere in the block at a place. -/
def references (library : Library) (place : Place) : List Place :=
  ((library.block? place).elim [] fun block =>
    block.preorder.filterMap (library.target? place.path)).filter fun target =>
      (library.block? target).isSome

/-- The places of all blocks. -/
def places (library : Library) : List Place :=
  library.keys.flatMap fun path =>
    (library.root? path).elim [] fun root => (Blocks.ofRoot root).ids.map fun id => ⟨path, id⟩

/-- No block refers to itself, at first hand or through others. -/
def Acyclic (library : Library) : Prop :=
  ∀ place, ¬Relation.TransGen (fun a b => b ∈ library.references a) place place

theorem root?_listed {library : Library} {file : String} {root : Element}
    (h : library.fetch file = .ok root) : library.root? (listed file) = some root := by
  rw [fetch] at h
  rw [root?, listed]
  split at h
  · cases h
  · next source hsource =>
    rw [hsource]
    cases hparse : parse source with
    | ok found =>
      rw [hparse] at h
      cases h
      exact congrArg Except.toOption hparse
    | error cause =>
      rw [hparse] at h
      cases h

theorem mem_places {library : Library} {place : Place} {block : Element}
    (h : library.block? place = some block) : place ∈ library.places := by
  obtain ⟨root, hroot, hblock⟩ := Option.bind_eq_some_iff.mp h
  obtain ⟨source, hsource, -⟩ := Option.bind_eq_some_iff.mp hroot
  have hkey : place.path ∈ library.keys := by
    rw [← Table.has_eq_true_iff, Table.has, List.any_eq_true]
    exact ⟨_, Table.mem_of_get? hsource, decide_eq_true rfl⟩
  rw [Blocks.get?_eq_table] at hblock
  have hid : place.id ∈ (Blocks.ofRoot root).ids :=
    List.mem_map.mpr ⟨_, Table.mem_of_get? hblock, rfl⟩
  refine List.mem_flatMap.mpr ⟨place.path, hkey, ?_⟩
  rw [hroot]
  exact List.mem_map.mpr ⟨place.id, hid, rfl⟩

/-- A reference leads from a block to a block. -/
theorem mem_places_of_reference {library : Library} {place target : Place}
    (h : target ∈ library.references place) :
    target ∈ library.places ∧ place ∈ library.places := by
  obtain ⟨hmem, hsome⟩ := List.mem_filter.mp h
  obtain ⟨block, hblock⟩ := Option.isSome_iff_exists.mp hsome
  refine ⟨mem_places hblock, ?_⟩
  cases hplace : library.block? place with
  | none =>
    rw [hplace] at hmem
    cases hmem
  | some found => exact mem_places hplace

theorem acyclic_of_rank {library : Library} (rank : Place → Nat)
    (h : ∀ place ∈ library.places, ∀ target ∈ library.references place,
      rank target < rank place) : library.Acyclic := by
  intro place hcycle
  have hfalls : ∀ {a b}, Relation.TransGen (fun a b => b ∈ library.references a) a b →
      rank b < rank a := by
    intro a b hpath
    induction hpath with
    | single href => exact h _ (mem_places_of_reference href).2 _ href
    | tail _ href ih => exact Nat.lt_trans (h _ (mem_places_of_reference href).2 _ href) ih
  exact Nat.lt_irrefl _ (hfalls hcycle)

/-- There are finitely many blocks, so that references cannot be followed forever. -/
theorem Acyclic.wellFounded {library : Library} (h : library.Acyclic) :
    WellFounded fun b a => b ∈ library.references a := by
  let closure : Place → Place → Prop := fun b a =>
    Relation.TransGen (fun a b => b ∈ library.references a) a b
  have htrans : IsTrans Place closure := ⟨fun _ _ _ hab hbc => Relation.TransGen.trans hbc hab⟩
  have hirrefl : Std.Irrefl closure := ⟨h⟩
  have hstrict : IsStrictOrder Place closure := { hirrefl, htrans with }
  have hfinite : {place | place ∈ library.places}.Finite := library.places.finite_toSet
  refine Subrelation.wf (fun href => ?_)
    (Set.wellFoundedOn_iff.mp (hfinite.wellFoundedOn (r := closure)))
  exact ⟨.single href, mem_places_of_reference href⟩

/-! ### Weights -/

/-- What an element of the document listed under `path` may cost to run: a step for itself and each
element in it, and the weights of the places to which they lead. -/
def cost (library : Library) (weight : Place → Nat) (path : String) (e : Element) : Nat :=
  (e.preorder.map fun x => 1 + (library.target? path x).elim 0 weight).sum

/-- Each block weighs at least as much as its elements may cost. -/
def Weighs (library : Library) (weight : Place → Nat) : Prop :=
  ∀ place block, library.block? place = some block →
    (block.children.map (library.cost weight place.path)).sum ≤ weight place

theorem cost_eq (library : Library) (weight : Place → Nat) (path : String) (e : Element) :
    library.cost weight path e = 1 + (library.target? path e).elim 0 weight +
      (e.children.map (library.cost weight path)).sum := by
  have hbelow : ∀ elements : List Element,
      ((elements.flatMap Element.preorder).map fun x =>
        1 + (library.target? path x).elim 0 weight).sum =
        (elements.map (library.cost weight path)).sum := by
    intro elements
    induction elements with
    | nil => rfl
    | cons first rest ih =>
      rw [List.flatMap_cons, List.map_append, List.sum_append, ih, List.map_cons, List.sum_cons,
        cost]
  rw [cost, Element.preorder_eq, List.map_cons, List.sum_cons, hbelow]

/-- A place weighs nothing if no block is there.  Otherwise each element of the block is reckoned to
cost a step and all the weights that the block refers to. -/
theorem exists_weight {library : Library} (h : library.Acyclic) :
    ∃ weight : Place → Nat, ∀ place, weight place =
      ((library.block? place).elim [] Element.preorder).length *
        (1 + ((library.references place).map weight).sum) := by
  refine ⟨h.wellFounded.fix fun place rest =>
    ((library.block? place).elim [] Element.preorder).length *
      (1 + ((library.references place).attach.map fun target => rest target.1 target.2).sum),
    fun place => ?_⟩
  rw [h.wellFounded.fix_eq]
  exact congrArg (fun weights => _ * (1 + List.sum weights)) List.attach_map_val

/-- An element of a block that leads to a block leads to one that the block refers to. -/
theorem mem_references {library : Library} {place target : Place} {block x : Element}
    (hblock : library.block? place = some block) (hx : x ∈ block.preorder)
    (htarget : library.target? place.path x = some target)
    (hsome : (library.block? target).isSome = true) : target ∈ library.references place := by
  refine List.mem_filter.mpr ⟨?_, hsome⟩
  rw [hblock]
  exact List.mem_filterMap.mpr ⟨x, hx, htarget⟩

/-- Each element of a block leads to a block that is referred to, to a place without a block, or
nowhere. -/
theorem Acyclic.exists_weighs {library : Library} (h : library.Acyclic) :
    ∃ weight, library.Weighs weight := by
  obtain ⟨weight, hweight⟩ := exists_weight h
  refine ⟨weight, fun place block hblock => ?_⟩
  have hplace := hweight place
  rw [hblock, Option.elim_some] at hplace
  have hstep : ∀ x ∈ block.preorder, 1 + (library.target? place.path x).elim 0 weight ≤
      1 + ((library.references place).map weight).sum := by
    intro x hx
    cases htarget : library.target? place.path x with
    | none => exact Nat.add_le_add_left (Nat.zero_le _) 1
    | some target =>
      refine Nat.add_le_add_left ?_ 1
      cases hsome : library.block? target with
      | none =>
        have hnone := hweight target
        rw [hsome, Option.elim_none, List.length_nil, Nat.zero_mul] at hnone
        rw [Option.elim_some, hnone]
        exact Nat.zero_le _
      | some found =>
        have hmem := mem_references hblock hx htarget (by rw [hsome]; rfl)
        exact List.single_le_sum (fun _ _ => Nat.zero_le _) _ (List.mem_map_of_mem hmem)
  calc (block.children.map (library.cost weight place.path)).sum
      ≤ library.cost weight place.path block := by
        rw [cost_eq]
        exact Nat.le_add_left _ _
    _ ≤ block.preorder.length * (1 + ((library.references place).map weight).sum) := by
        have hsum := List.sum_le_card_nsmul
          (block.preorder.map fun x => 1 + (library.target? place.path x).elim 0 weight)
          (1 + ((library.references place).map weight).sum) (by simpa using hstep)
        rwa [List.length_map, smul_eq_mul] at hsum
    _ = weight place := hplace.symm

/-- What the elements of `todo` may cost to run. -/
def burden (library : Library) (weight : Place → Nat) (path : String) (todo : Todo) : Nat :=
  (todo.map fun entry => library.cost weight path entry.1).sum

section

variable (library : Library) (weight : Place → Nat) (path : String)

theorem burden_cons (e : Element) (inDescription : Bool) (rest : Todo) :
    library.burden weight path ((e, inDescription) :: rest) =
      library.cost weight path e + library.burden weight path rest := rfl

theorem burden_append (first second : Todo) :
    library.burden weight path (first ++ second) =
      library.burden weight path first + library.burden weight path second := by
  rw [burden, List.map_append, List.sum_append, burden, burden]

theorem burden_part (inDescription : Bool) (elements : List Element) :
    library.burden weight path (.part inDescription elements) =
      (elements.map (library.cost weight path)).sum := by
  rw [burden, Todo.part, List.map_map]
  rfl

end

end Library

theorem map_eq_ok {α β : Type} {x : Except Fault α} {f : α → β} {b : β}
    (h : x.map f = .ok b) : ∃ a, x = .ok a ∧ f a = b := by
  cases x with
  | error fault => cases h
  | ok a => exact ⟨a, rfl, Except.ok.inj h⟩

theorem Blocks.get?_of_target {blocks : Blocks} {id : String} {block : Element}
    (h : blocks.target id = .ok block) : blocks.get? id = some block := by
  rw [target] at h
  split at h
  · next found hfound =>
    cases h
    exact hfound
  · cases h

theorem Blocks.get?_of_entrance {blocks : Blocks} {file : String} {id : Option String}
    {block : Element} (h : blocks.entrance file id = .ok block) :
    ∃ start, id.or blocks.first? = some start ∧ blocks.get? start = some block := by
  rw [entrance] at h
  split at h
  · next start hstart => exact ⟨start, hstart, get?_of_target h⟩
  · cases h

/-- The path under which the document is listed in which a story goes on after an instruction that
stands in the document listed under `path`. -/
def Instruction.onward (path : String) : Instruction → String
  | load file _ => Library.listed file
  | _ => path

namespace Machine

/-! ### One step -/

/-- The machine plays the document that is listed under `path`: the blocks that it knows are those
that are declared there. -/
def Stands (path : String) (m : Machine) : Prop :=
  ∀ id block, m.blocks.get? id = some block → m.library.block? ⟨path, id⟩ = some block

theorem Stands.of_eq {path : String} {m after : Machine} (h : m.Stands path)
    (hblocks : after.blocks = m.blocks) (hlibrary : after.library = m.library) :
    after.Stands path := by
  intro id block hblock
  rw [hblocks] at hblock
  rw [hlibrary]
  exact h id block hblock

theorem stands_install {m : Machine} {file : String} {root : Element}
    (h : m.library.fetch file = .ok root) (block : Option String) :
    (m.install file root block).2.Stands (Library.listed file) := by
  have hquiet := m.quiet_install file root block
  intro id found hfound
  rw [hquiet.blocks] at hfound
  rw [hquiet.library]
  exact Option.bind_eq_some_iff.mpr ⟨root, Library.root?_listed h, hfound⟩

/-- An element goes on in the document that it names if it loads one, and else stays where it is; it
may also fail and change nothing. -/
theorem Stands.execute {path : String} {m : Machine} (h : m.Stands path) {e : Element}
    {i : Instruction} (hread : Instruction.ofElement e = .ok i) :
    (m.execute e).2.Stands (i.onward path) ∨ ∃ fault, m.execute e = (.error fault, m) := by
  by_cases hload : ∃ file block, i = .load file block
  · obtain ⟨file, block, rfl⟩ := hload
    cases hfetch : m.library.fetch file with
    | ok root =>
      rw [execute_load hread hfetch]
      exact .inl (stands_install hfetch block)
    | error fault =>
      refine .inr ⟨fault, ?_⟩
      simp only [Machine.execute, hread, perform, load, hfetch]
  · have honward : i.onward path = path := by
      cases i with
      | load file block => exact absurd ⟨file, block, rfl⟩ hload
      | _ => rfl
    rw [honward]
    have heffect := m.execute_effect e
    generalize m.execute e = outcome at heffect ⊢
    obtain ⟨result, after⟩ := outcome
    cases heffect with
    | quiet hquiet => exact .inl (h.of_eq hquiet.blocks hquiet.library)
    | paused hquiet => exact .inl (h.of_eq hquiet.blocks hquiet.library)
    | choice => exact .inl (h.of_eq rfl rfl)
    | installed hinstalls =>
      rw [hread] at hinstalls
      exact absurd ⟨_, _, Except.ok.inj hinstalls⟩ hload

theorem settle_blocks (outcome : Outcome Unit) :
    (settle outcome).2.blocks = outcome.2.blocks := by
  obtain ⟨phase, h⟩ := settle_agrees outcome
  rw [h]

theorem Stands.dispatch {path : String} {m : Machine} (h : m.Stands path) {e : Element}
    {inDescription : Bool} {rest : Todo} {i : Instruction}
    (hleft : m.stack.continuation = (e, inDescription) :: rest)
    (hread : Instruction.ofElement e = .ok i) :
    m.step.2.Stands (i.onward path) ∨ m.step.2.Stands path ∧ ∃ fault, m.step.1 = .error fault := by
  obtain ⟨left, -, -, hstep⟩ := step_dispatch hleft
  have htaken : (m.take e left).Stands path := h
  rw [hstep]
  rcases htaken.execute hread with honward | ⟨fault, hfailed⟩
  · exact .inl (honward.of_eq (settle_blocks _) (settle_library _))
  · rw [hfailed]
    exact .inr ⟨htaken, fault, rfl⟩

/-- A step leads to a document of the library again. -/
theorem Stands.step {path : String} {m : Machine} (h : m.Stands path) :
    ∃ path', m.step.2.Stands path' := by
  cases hleft : m.stack.continuation with
  | nil =>
    rw [step_idle hleft, finish_eq]
    exact ⟨path, h⟩
  | cons entry rest =>
    obtain ⟨e, inDescription⟩ := entry
    cases hread : Instruction.ofElement e with
    | error fault =>
      obtain ⟨left, -, -, hstep⟩ := step_dispatch hleft
      rw [hstep, Machine.execute, hread]
      exact ⟨path, h⟩
    | ok i =>
      rcases h.dispatch hleft hread with honward | ⟨hstays, -⟩
      · exact ⟨_, honward⟩
      · exact ⟨path, hstays⟩

/-- Whatever an instruction leaves to run costs less than what was left before it: a block that is
entered by name costs no more than the place that is named weighs. -/
theorem Stands.burden_remainder {path : String} {m : Machine} (h : m.Stands path)
    {weight : Place → Nat} (hweight : m.library.Weighs weight) {e : Element}
    {inDescription : Bool} {rest todo : Todo} {i : Instruction}
    (hread : Instruction.ofElement e = .ok i)
    (hleft : m.remainder e inDescription rest i = .ok todo) :
    m.library.burden weight (i.onward path) todo <
      m.library.burden weight path ((e, inDescription) :: rest) := by
  rw [Library.burden_cons, Library.cost_eq]
  have hnamed : ∀ {onto id block} (inDescription : Bool),
      m.library.target? path e = some ⟨onto, id⟩ → m.library.block? ⟨onto, id⟩ = some block →
      m.library.burden weight onto (.part inDescription block.children) ≤
        (m.library.target? path e).elim 0 weight := by
    intro onto id block inDescription hplace hblock
    rw [hplace, Option.elim_some, Library.burden_part]
    exact hweight ⟨onto, id⟩ block hblock
  cases i with
  | block gate =>
    cases hleft
    show m.library.burden weight path (if _ then _ else _) < _
    split
    · rw [Library.burden_append, Library.burden_part]
      omega
    · omega
  | toDescription =>
    cases hleft
    show m.library.burden weight path (_ ++ _) < _
    rw [Library.burden_append, Library.burden_part]
    omega
  | call id =>
    obtain ⟨block, hblock, rfl⟩ := map_eq_ok hleft
    have hplace : m.library.target? path e = some ⟨path, id⟩ := by rw [Library.target?, hread]
    have hle := hnamed inDescription hplace (h _ _ (Blocks.get?_of_target hblock))
    show m.library.burden weight path (_ ++ _) < _
    rw [Library.burden_append]
    omega
  | goto id =>
    obtain ⟨block, hblock, rfl⟩ := map_eq_ok hleft
    have hplace : m.library.target? path e = some ⟨path, id⟩ := by rw [Library.target?, hread]
    have hle := hnamed false hplace (h _ _ (Blocks.get?_of_target hblock))
    show m.library.burden weight path _ < _
    omega
  | load file id =>
    simp only [remainder] at hleft
    split at hleft
    · next root hfetch =>
      obtain ⟨block, hblock, rfl⟩ := map_eq_ok hleft
      obtain ⟨start, hstart, hfound⟩ := Blocks.get?_of_entrance hblock
      have hroot := Library.root?_listed hfetch
      have hplace : m.library.target? path e = some ⟨Library.listed file, start⟩ := by
        rw [Library.target?, hread]
        simp only [hroot, Option.bind_some, hstart, Option.map_some]
      have hle := hnamed false hplace (Option.bind_eq_some_iff.mpr ⟨root, hroot, hfound⟩)
      show m.library.burden weight (Library.listed file) _ < _
      omega
    · cases hleft
  | title | description | text | clearScreen | pause | choice | flag | ignored =>
    cases hleft
    show m.library.burden weight path rest < _
    omega

/-- A step after which something is left to run leaves less to run. -/
theorem Stands.step_burden {path : String} {m next : Machine} (h : m.Stands path)
    {weight : Place → Nat} (hweight : m.library.Weighs weight) (hstep : m.step = (.ok true, next)) :
    ∃ path', next.Stands path' ∧ m.library.burden weight path' next.stack.continuation <
      m.library.burden weight path m.stack.continuation := by
  cases hleft : m.stack.continuation with
  | nil =>
    rw [step_idle hleft] at hstep
    cases hstep
  | cons entry rest =>
    obtain ⟨e, inDescription⟩ := entry
    have hremainder := step_remainder hleft
    rw [hstep] at hremainder
    cases hread : Instruction.ofElement e with
    | error fault =>
      rw [hread] at hremainder
      cases hremainder
    | ok i =>
      rw [hread, show (Except.ok i >>= m.remainder e inDescription rest) =
        m.remainder e inDescription rest i from rfl] at hremainder
      cases htodo : m.remainder e inDescription rest i with
      | error fault =>
        rw [htodo] at hremainder
        cases hremainder
      | ok todo =>
        rw [htodo] at hremainder
        have hnext := h.dispatch hleft hread
        rw [hstep] at hnext
        refine ⟨i.onward path, hnext.resolve_right fun hfailed => ?_, ?_⟩
        · obtain ⟨-, fault, hfault⟩ := hfailed
          cases hfault
        · rw [hremainder.2]
          exact h.burden_remainder hweight hread htodo

/-! ### Whole calls -/

/-- By induction on a bound for what is left to run. -/
theorem Stands.play_ends {path : String} {m : Machine} (h : m.Stands path) {weight : Place → Nat}
    (hweight : m.library.Weighs weight) {bound : Nat}
    (hbound : m.library.burden weight path m.stack.continuation < bound) :
    ∃ outcome, m.play bound = some outcome := by
  induction bound generalizing m path with
  | zero => exact absurd hbound (Nat.not_lt_zero _)
  | succ bound ih =>
    rw [play]
    split
    · exact ⟨_, rfl⟩
    · split
      · exact ⟨_, rfl⟩
      · next next hstep =>
        obtain ⟨path', hnext, hlt⟩ := h.step_burden hweight hstep
        have hlibrary : next.library = m.library := by
          rw [← m.step_library, hstep]
        rw [← hlibrary] at hweight hlt hbound
        exact ih hnext hweight (by omega)
      · exact ⟨_, rfl⟩

theorem Starts.stands {path : String} {m start : Machine} {turn : Turn}
    (hstart : Starts m turn start) (h : m.Stands path) : start.Stands path := by
  cases hstart with
  | play => exact h
  | resume => exact h.of_eq m.quiet_leavePause.blocks m.quiet_leavePause.library
  | @choose _ option =>
    have hquiet := (m.enterOption option).quiet_leavePause
    exact h.of_eq hquiet.blocks hquiet.library

/-- The host takes its documents from the library only. -/
def FromLibrary (operation : Operation) : Prop :=
  ∀ file root block, operation ≠ .install file root block

theorem reachable_stands {m : Machine} (h : Reachable FromLibrary m) : ∃ path, m.Stands path := by
  induction h with
  | new library choiceDelay => exact ⟨"", nofun⟩
  | @call m after result operation bound _ hallowed hrun ih =>
    obtain ⟨path, hm⟩ := ih
    cases operation with
    | load file block =>
      obtain rfl := snd_eq_of_some hrun
      show ∃ path, (m.load file block).2.Stands path
      rw [load]
      split
      · next root hfetch => exact ⟨_, stands_install hfetch block⟩
      · exact ⟨path, hm⟩
    | install file root block => exact absurd rfl (hallowed file root block)
    | turn t =>
      obtain ⟨⟨answer, m'⟩, hturn, heq⟩ := Option.map_eq_some_iff.mp hrun
      obtain ⟨-, rfl⟩ := Prod.mk.inj heq
      rcases m.starts_or_refused t with ⟨start, hstart⟩ | ⟨fault, hrefused⟩
      · rw [hstart.run_eq] at hturn
        refine (plays_of_play hturn).keeps (P := fun m => ∃ path, m.Stands path) ?_
          ⟨path, hstart.stands hm⟩
        rintro m ⟨path, hm⟩ -
        exact hm.step
      · rw [hrefused] at hturn
        cases hturn
        exact ⟨path, hm⟩
    | step =>
      obtain rfl := snd_eq_of_some hrun
      exact hm.step
    | setFlags text =>
      obtain rfl := snd_eq_of_some hrun
      exact ⟨path, hm⟩
    | clearFlags text =>
      obtain rfl := snd_eq_of_some hrun
      exact ⟨path, hm⟩
    | deliver task =>
      obtain rfl := snd_eq_of_some hrun
      refine ⟨path, hm.of_eq ?_ ?_⟩
      · show (m.deliver task).2.blocks = _
        rw [deliver]
        split <;> rfl
      · show (m.deliver task).2.library = _
        rw [deliver]
        split <;> rfl

/-- If no block of the library refers to itself, every call comes to an end, whatever the host did
before with documents of the library. -/
theorem acyclic_calls_end {m : Machine} (h : Reachable FromLibrary m)
    (hacyclic : m.library.Acyclic) (turn : Turn) :
    ∃ bound result after, turn.run bound m = some (result, after) := by
  obtain ⟨path, hm⟩ := reachable_stands h
  obtain ⟨weight, hweight⟩ := hacyclic.exists_weighs
  rcases m.starts_or_refused turn with ⟨start, hstart⟩ | ⟨fault, hrefused⟩
  · have hlibrary : start.library = m.library := by
      rcases hstart.cases with ⟨-, rfl⟩ | ⟨-, hlibrary, -⟩
      · rfl
      · exact hlibrary
    rw [← hlibrary] at hweight
    obtain ⟨⟨result, after⟩, hplay⟩ := (hstart.stands hm).play_ends hweight (Nat.lt_succ_self _)
    exact ⟨_, result, after, (hstart.run_eq _).trans hplay⟩
  · exact ⟨0, .error fault, m, hrefused 0⟩

/-- A house with a hall that is called first, and with a cave below. -/
def cellar : Library :=
  [("main", "<block id='in'><call block='hall'/><block id='hall'/><load file='./cave'/></block>"),
    ("cave", "<block id='pit'/>")]

/-- The first block refers to both others, and these refer to none, so that a story that is loaded
there can be played until it stops. -/
theorem acyclic_calls_end_cellar :
    cellar.references ⟨"main", "in"⟩ = [⟨"main", "hall"⟩, ⟨"cave", "pit"⟩] ∧
    ∃ m, Reachable FromLibrary m ∧ m.stack.length = 1 ∧ m.library.Acyclic ∧
      ∃ bound result after, Turn.run bound m .play = some (result, after) := by
  let rank : Place → Nat := fun place => if place.id = "in" then 1 else 0
  let m : Machine := ((new cellar 300).load "main" none).2
  have hcomputed : cellar.references ⟨"main", "in"⟩ = [⟨"main", "hall"⟩, ⟨"cave", "pit"⟩] ∧
      (∀ place ∈ cellar.places, ∀ target ∈ cellar.references place, rank target < rank place) ∧
      m.library = cellar ∧ m.stack.length = 1 := by decide +kernel
  obtain ⟨hreferences, hrank, hlibrary, hstack⟩ := hcomputed
  have hreached : Reachable FromLibrary m :=
    .call (.load "main" none) 0 (.new cellar 300) nofun rfl
  have hacyclic : m.library.Acyclic := hlibrary ▸ Library.acyclic_of_rank rank hrank
  exact ⟨hreferences, m, hreached, hstack, hacyclic, acyclic_calls_end hreached hacyclic .play⟩

end Machine

end StoryPlayer
