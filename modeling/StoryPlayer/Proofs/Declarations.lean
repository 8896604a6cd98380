import Mathlib.Data.List.Induction
import StoryPlayer.Story.Blocks

/-! The table of blocks against the document.  The blocks with an id, listed in document order, say
all that the table holds: its ids are those of the list without the repeats, each stands for the
last block that has it, and the repeats are what the table notes as duplicates.  The index agrees
with the table at every stage of the collection, so that no look-up goes astray. -/

namespace StoryPlayer

open Markup

/-- The blocks with an id among `elements`, each with its id. -/
def declarations (elements : List Element) : List (String × Element) :=
  (elements.filter fun e => e.name = "block").filterMap fun e => e.id?.map fun id => (id, e)

/-- The block that is declared last under an id. -/
def lastDeclared? (declared : List (String × Element)) (id : String) : Option Element :=
  (declared.filter fun declaration => declaration.1 = id).getLast?.map Prod.snd

/-- The names at those places of a list before which they occur in it. -/
def repeats (names : List String) : List String :=
  (names.zipIdx.filter fun place => (names.take place.2).contains place.1).map Prod.fst

theorem repeats_concat (names : List String) (name : String) :
    repeats (names ++ [name]) = repeats names ++ if name ∈ names then [name] else [] := by
  have hbefore : ∀ place ∈ names.zipIdx,
      ((names ++ [name]).take place.2).contains place.1 =
        (names.take place.2).contains place.1 := by
    intro place hplace
    have hlt := List.snd_lt_of_mem_zipIdx hplace
    rw [List.take_append_of_le_length (by omega)]
  rw [repeats, List.zipIdx_append, List.filter_append, List.map_append, List.filter_congr hbefore,
    ← repeats]
  congr 1
  by_cases hname : name ∈ names
  · simp [hname]
  · simp [hname]

theorem eraseDups_concat (names : List String) (name : String) :
    (names ++ [name]).eraseDups =
      names.eraseDups ++ if name ∈ names then [] else [name] := by
  rw [List.eraseDups_append]
  congr 1
  by_cases hname : name ∈ names
  · simp [List.removeAll, hname]
  · simp [List.removeAll, hname, List.eraseDups_cons]

theorem head?_eraseDups (names : List String) : names.eraseDups.head? = names.head? := by
  cases names with
  | nil => rfl
  | cons name rest => rw [List.eraseDups_cons, List.head?_cons, List.head?_cons]

theorem length_eraseDups_add_length_repeats (names : List String) :
    names.eraseDups.length + (repeats names).length = names.length := by
  induction names using List.reverseRecOn with
  | nil => rfl
  | append_singleton names name ih =>
    rw [eraseDups_concat, repeats_concat]
    by_cases hname : name ∈ names
    · simp [hname]
      omega
    · simp [hname]
      omega

namespace Blocks

/-- Declares blocks one after the other. -/
def declareAll (blocks : Blocks) (declared : List (String × Element)) : Blocks :=
  declared.foldl (fun blocks d => blocks.declare d.1 d.2) blocks

/-- The blocks among the first `n` elements of a document. -/
def stage (root : Element) (n : Nat) : Blocks := (root.preorder.take n).foldl collect {}

theorem foldl_collect (elements : List Element) (blocks : Blocks) :
    elements.foldl collect blocks = blocks.declareAll (declarations elements) := by
  induction elements generalizing blocks with
  | nil => rfl
  | cons e rest ih =>
    rw [List.foldl_cons, ih, collect, declaredId?]
    by_cases hname : e.name = "block"
    · cases hid : e.id? with
      | none => simp [declarations, declareAll, hname, hid]
      | some id => simp [declarations, declareAll, hname, hid]
    · simp [declarations, declareAll, hname]

theorem table_declareAll (declared : List (String × Element)) :
    (declareAll {} declared).table = .ofPairs declared := by
  have hfold : ∀ blocks : Blocks, (blocks.declareAll declared).table =
      declared.foldl (fun table d => table.put d.1 d.2) blocks.table := by
    induction declared with
    | nil => exact fun _ => rfl
    | cons d rest ih =>
      intro blocks
      show ((blocks.declare d.1 d.2).declareAll rest).table = _
      rw [ih, table_declare, List.foldl_cons]
  exact hfold {}

theorem ids_declareAll (declared : List (String × Element)) :
    (declareAll {} declared).ids = (declared.map Prod.fst).eraseDups := by
  rw [ids, table_declareAll, Table.keys_ofPairs]

theorem duplicates_declareAll (declared : List (String × Element)) :
    (declareAll {} declared).duplicates = repeats (declared.map Prod.fst) := by
  induction declared using List.reverseRecOn with
  | nil => rfl
  | append_singleton declared d ih =>
    have hids : d.1 ∈ (declareAll {} declared).ids ↔ d.1 ∈ declared.map Prod.fst := by
      rw [ids_declareAll, List.mem_eraseDups]
    have hlast : declareAll {} (declared ++ [d]) = (declareAll {} declared).declare d.1 d.2 :=
      List.foldl_append
    rw [hlast, duplicates_declare, ih, List.map_append, List.map_singleton, repeats_concat]
    by_cases hmem : d.1 ∈ declared.map Prod.fst
    · rw [if_pos (hids.mpr hmem), if_pos hmem]
    · rw [if_neg (mt hids.mp hmem), if_neg hmem, List.append_nil]

theorem ofRoot_eq (root : Element) : ofRoot root = declareAll {} (declarations root.preorder) :=
  foldl_collect root.preorder {}

theorem get?_eq_none_iff {blocks : Blocks} {id : String} :
    blocks.get? id = none ↔ id ∉ blocks.ids := by
  rw [get?_eq_table]
  exact Table.get?_eq_none_iff

/-- The first entry is that of the first id, and its block is the one that the id stands for. -/
theorem firstBlock?_eq (blocks : Blocks) :
    blocks.firstBlock? =
      blocks.ids.head?.bind fun id => (blocks.get? id).map fun block => (id, block) := by
  rw [firstBlock?, ids, Table.keys, List.head?_map]
  cases htable : blocks.table with
  | nil => rfl
  | cons entry rest =>
    have hget : blocks.get? entry.1 = some entry.2 := by
      rw [get?_eq_table]
      refine Table.get?_of_mem blocks.indexed.nodup_keys ?_
      rw [htable]
      exact List.mem_cons_self
    simp [hget]

/-- The table of the blocks of a document, read off the list of its declarations.  After any number
of elements, the index leads to the entry with that very id. -/
theorem ofRoot_lists_declarations (root : Element) :
    let blocks := ofRoot root
    let declared := declarations root.preorder
    blocks.ids = (declared.map Prod.fst).eraseDups ∧
    (∀ id, blocks.get? id = lastDeclared? declared id) ∧
    (∀ id, blocks.get? id = none ↔ id ∉ declared.map Prod.fst) ∧
    (blocks.firstBlock? = declared.head?.bind fun d =>
      (lastDeclared? declared d.1).map fun block => (d.1, block)) ∧
    blocks.duplicates = repeats (declared.map Prod.fst) ∧
    blocks.ids.length + blocks.duplicates.length = declared.length ∧
    ∀ n id position, (stage root n).index.get? id = some position →
      ∃ block, (stage root n).table[position]? = some (id, block) := by
  intro blocks declared
  have hblocks : blocks = declareAll {} declared := ofRoot_eq root
  have hids : blocks.ids = (declared.map Prod.fst).eraseDups := by
    rw [hblocks, ids_declareAll]
  have hget : ∀ id, blocks.get? id = lastDeclared? declared id := by
    intro id
    rw [get?_eq_table, hblocks, table_declareAll, Table.get?_ofPairs, lastDeclared?]
  have hduplicates : blocks.duplicates = repeats (declared.map Prod.fst) := by
    rw [hblocks, duplicates_declareAll]
  refine ⟨hids, hget, fun id => ?_, ?_, hduplicates, ?_, fun n id position hfound => ?_⟩
  · rw [get?_eq_none_iff, hids, List.mem_eraseDups]
  · rw [firstBlock?_eq, hids, head?_eraseDups, List.head?_map]
    cases declared.head? with
    | none => rfl
    | some d => simp [hget]
  · rw [hids, hduplicates, length_eraseDups_add_length_repeats, List.length_map]
  · have hkey := ((stage root n).indexed id position).mp hfound
    rw [Table.keys, List.getElem?_map, Option.map_eq_some_iff] at hkey
    obtain ⟨⟨key, block⟩, hentry, rfl⟩ := hkey
    exact ⟨block, hentry⟩

end Blocks

end StoryPlayer
