import CfiSlack.Text.Cut

/-!
# Path names

Paths are written with slashes. Empty parts mean nothing, a single dot is the directory itself and
two dots are its parent.
-/
namespace CfiSlack.Path

def parts (path : String) : List String :=
  ((Text.cut '/' path.toList).filter fun p => !p.isEmpty).map String.ofList

def isAbsolute (path : String) : Bool := path.toList.head? == some '/'

/-- Whether a path ends with a slash and so names a directory. -/
def endsInSlash (path : String) : Bool := path.toList.getLast? == some '/'

/-- The parts that name something. -/
def names (path : String) : List String := (parts path).filter fun p => p ≠ "."

def fileName? (path : String) : Option String :=
  (names path).getLast?.filter fun name => name ≠ ".."

/-- What follows the last dot of a name; a dot at the start does not count. -/
def nameExtension? (name : String) : Option String :=
  let reversed := name.toList.reverse
  match reversed.dropWhile (· ≠ '.') with
  | [] => none
  | [_] => none
  | _ :: _ :: _ => some (String.ofList (reversed.takeWhile (· ≠ '.')).reverse)

def extension? (path : String) : Option String := (fileName? path).bind nameExtension?

def child (directory name : String) : String :=
  if directory.isEmpty then name
  else if endsInSlash directory then directory ++ name
  else directory ++ "/" ++ name

/-- The parts of the directory that holds what a path leads to. -/
def parentParts? (path : String) : Option (List String) :=
  match names path with
  | [] => none
  | ns => some ns.dropLast

end CfiSlack.Path
