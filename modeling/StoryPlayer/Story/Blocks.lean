import StoryPlayer.Markup.Element

/-! The blocks of a document that have an id, at any depth, in document order.  An id that is
declared again keeps its first position and means the last block. -/

namespace StoryPlayer

open Markup

/-- The blocks of a document by their ids, the position of each id among them, and the ids that were
declared again, once for each time that they were. -/
structure Blocks where
  table : Table Element := []
  index : Table Nat := []
  duplicates : List String := []
  indexed : index.Indexes table := by exact Table.Indexes.nil

namespace Blocks

instance : Inhabited Blocks := ⟨{}⟩

/-- Declares `element` as the block `id`. -/
def declare (blocks : Blocks) (id : String) (element : Element) : Blocks :=
  match h : blocks.index.get? id with
  | some position =>
    { blocks with
      table := blocks.table.setAt position element
      duplicates := blocks.duplicates ++ [id]
      indexed := blocks.indexed.setAt position element }
  | none =>
    { blocks with
      table := blocks.table ++ [(id, element)]
      index := blocks.index.put id blocks.table.length
      indexed := blocks.indexed.concat h element }

/-- The id under which an element is declared, if it is a block with an id. -/
def declaredId? (element : Element) : Option String :=
  if element.name = "block" then element.id? else none

/-- Declares an element if it is a block with an id. -/
def collect (blocks : Blocks) (element : Element) : Blocks :=
  match declaredId? element with
  | some id => blocks.declare id element
  | none => blocks

/-- The blocks of the document with the root element `root`. -/
def ofRoot (root : Element) : Blocks := root.preorder.foldl collect {}

/-- The block with an id. -/
def get? (blocks : Blocks) (id : String) : Option Element :=
  (blocks.index.get? id).bind fun position => blocks.table[position]?.map Prod.snd

def ids (blocks : Blocks) : List String := blocks.table.keys

/-- The first id with its block. -/
def firstBlock? (blocks : Blocks) : Option (String × Element) := blocks.table.head?

def first? (blocks : Blocks) : Option String := blocks.firstBlock?.map Prod.fst

theorem get?_eq_table (blocks : Blocks) (id : String) : blocks.get? id = blocks.table.get? id :=
  blocks.indexed.get?_eq id

theorem table_declare (blocks : Blocks) (id : String) (element : Element) :
    (blocks.declare id element).table = blocks.table.put id element := by
  rw [declare]
  split
  · next position hfound =>
    have hkey := (blocks.indexed id position).mp hfound
    exact (Table.put_eq_setAt blocks.indexed.nodup_keys hkey element).symm
  · next hnone =>
    have hnew := blocks.indexed.get?_eq_none_iff.mp hnone
    exact (Table.put_eq_concat hnew element).symm

theorem duplicates_declare (blocks : Blocks) (id : String) (element : Element) :
    (blocks.declare id element).duplicates =
      if id ∈ blocks.ids then blocks.duplicates ++ [id] else blocks.duplicates := by
  rw [declare]
  split
  · next position hfound =>
    have hkey : id ∈ blocks.ids := List.mem_of_getElem? ((blocks.indexed id position).mp hfound)
    rw [if_pos hkey]
  · next hnone =>
    have hnew : id ∉ blocks.ids := blocks.indexed.get?_eq_none_iff.mp hnone
    rw [if_neg hnew]

end Blocks

end StoryPlayer
