/-! Paths in a file system: names between slashes, where `.` and the empty name stand for nothing
and `..` for the folder above. -/

namespace StoryPlayer.Path

def isAbsolute (path : String) : Bool := path.toList.head? = some '/'

/-- The names in a path, `..` included. -/
def names (path : String) : List String :=
  ((path.toList.splitBy fun a b => a ≠ '/' && b ≠ '/').filter (· ≠ ['/'])).map String.ofList
    |>.filter (· ≠ ".")

def endsInSlash (path : String) : Bool := path.toList.getLast? = some '/'

/-- Whether a path can be looked up: it has less than 4096 bytes. -/
def isShort (path : String) : Bool := path.utf8ByteSize < 4096

def join (path name : String) : String :=
  if endsInSlash path then path ++ name else path ++ "/" ++ name

/-- A path without `.` and repeated slashes, that starts at the root: a relative path is taken from
the folder `cwd`.  Two slashes at the start, and no more than two, are kept, and so is a slash at
the end.  The empty path has no such form. -/
def absolute? (cwd path : String) : Option String :=
  if path.isEmpty then none
  else
    let start :=
      if isAbsolute path then
        if "//".toList.isPrefixOf path.toList && !"///".toList.isPrefixOf path.toList then "//"
        else "/"
      else cwd
    let whole := (names path).foldl join start
    some (if endsInSlash path && !endsInSlash whole then whole ++ "/" else whole)

end StoryPlayer.Path
