import StoryPlayer.Command.Path
import StoryPlayer.Host.Failure
import StoryPlayer.Story.Library

/-! Folders of files, and the story documents in them: the files whose names end in `.xml`. -/

namespace StoryPlayer

inductive Node where
  | file (content : ByteArray)
  | folder (entries : List (String × Node))
  deriving Inhabited

namespace Node

/-- What is found by following names from a node that lies in the folders `above`, innermost
first. -/
def follow (above : List Node) (node : Node) : List String → Option Node
  | [] => some node
  | name :: rest =>
    match node with
    | file _ => none
    | folder entries =>
      if name = ".." then
        match above with
        | [] => follow [] node rest
        | parent :: outer => follow outer parent rest
      else match entries.lookup name with
        | some child => follow (node :: above) child rest
        | none => none

/-- What is at a path, in the file system with the root folder `root`.  A path that ends in a slash
is that of a folder, and nothing is found at a path that is too long. -/
def find? (root : Node) (path : String) : Option Node :=
  if !Path.isShort path then none
  else match follow [] root (Path.names path) with
    | some (file content) => if Path.endsInSlash path then none else some (file content)
    | found => found

mutual

/-- The files in a node, each with the names that lead to it. -/
def files : Node → List (List String × ByteArray)
  | file content => [([], content)]
  | folder entries => filesOf entries

/-- The files in the entries of a folder. -/
def filesOf : List (String × Node) → List (List String × ByteArray)
  | [] => []
  | (name, node) :: rest =>
    (files node).map (fun (names, content) => (name :: names, content)) ++ filesOf rest

end

/-- Whether a name is that of a story document: it ends in `.xml` and has something before that. -/
def isDocumentName (name : String) : Bool :=
  ".xml".toList.isSuffixOf name.toList && ".xml".length < name.length

/-- The story documents in a folder, each with the names that lead to it, in the order of a walk
that goes through the entries of each folder by name. -/
def documents (node : Node) : List (List String × ByteArray) :=
  (node.files.filter fun (names, _) => names.getLast?.any isDocumentName).mergeSort
    fun a b => !b.1.lex a.1 fun s t => decide (s < t)

end Node

namespace Library

/-- Reads documents; the first that is no UTF-8 is reported with its path under `root`. -/
def ofDocuments (root : String) : List (List String × ByteArray) → Except Failure Library
  | [] => .ok []
  | (names, content) :: rest => do
    match String.fromUTF8? content with
    | none => .error (.unreadable (names.foldl Path.join root))
    | some source => return (String.intercalate "/" names, source) :: (← ofDocuments root rest)

/-- The documents of the story in the folder at the path `root`, where `node` is found. -/
def ofFolder (root : String) (node : Option Node) : Except Failure Library := do
  match node with
  | none => .error (.noFolder root)
  | some (.file _) => .error (.notFolder root)
  | some (.folder entries) =>
    match ← ofDocuments root (Node.folder entries).documents with
    | [] => .error (.noDocuments root)
    | library => return library

end Library

end StoryPlayer
