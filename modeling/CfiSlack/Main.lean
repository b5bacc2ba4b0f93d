import CfiSlack.Execution

/-!
# The program

Takes the files that a command looks at from the disk, carries the command out on them, and writes
back what it changed.
-/
namespace CfiSlack.Main

/-- The variable that limits the number of workers. -/
def workersVariable : String := "OAG_MAX_CORES"

def pathsOf : Command → List String
  | .generate program output policies tables =>
    program :: output :: policies.map (Session.edgeFile output) ++ tables.types.toList ++
      (tables.dump.map fun (dump, locations) => [dump, locations]).getD []
  | .metrics program edges output _ _ => [program, edges, output]
  | .aggregate program edges output map _ _ => [program, edges, output] ++ map.toList
  | .paths program _ _ output => [program, output]

def diskName (l : Location) : String := "/" ++ "/".intercalate l

def entryNames? (l : Location) : IO (Option (List String)) := do
  let directory := (← IO.currentDir) / diskName l
  try
    return some ((← directory.readDir).toList.map IO.FS.DirEntry.fileName)
  catch _ => return none

/-- Take what stands at a location into a tree. -/
def look (t : FileTree) (l : Location) : IO FileTree := do
  if (← entryNames? l).isSome then
    return { t with directories := l :: t.directories }
  try
    let bytes ← IO.FS.readBinFile (diskName l)
    return t.put l bytes.toList
  catch _ => return t

/-- Take what stands along a path into a tree, and the text files below it. -/
def lookAlong (t : FileTree) (path : String) : IO FileTree := do
  let mut l := if Path.isAbsolute path then [] else t.home
  let mut t := t
  for part in Path.parts path do
    l := if part = "." then l else if part = ".." then l.dropLast else l ++ [part]
    t ← look t l
  for name in (← entryNames? l).getD [] do
    if Path.nameExtension? name = some dumpExtension then
      t ← look t (l ++ [name])
  return t

def writeBack (older newer : FileTree) : IO Unit := do
  for l in newer.directories.reverse do
    if !older.directories.contains l then
      IO.FS.createDirAll (diskName l)
  for (l, bytes) in newer.changedSince older do
    IO.FS.writeBinFile (diskName l) (ByteArray.mk bytes.toArray)

/-- With a request for silence only errors are logged. -/
def isShown (i : Invocation) (e : LogEntry) : Bool := i.verbose || !i.silent || e.level = .error

def execute (i : Invocation) : IO UInt32 := do
  let home := Path.names (← IO.currentDir).toString
  let t ← (pathsOf i.command).foldlM lookAlong (.empty home)
  let e := i.command.run t (.ofEnv (← IO.getEnv workersVariable))
  writeBack t e.files
  for entry in e.log.filter (isShown i) do
    IO.eprintln entry.text
  IO.eprint e.terminal
  return UInt32.ofNat e.exitCode

end CfiSlack.Main

def main (args : List String) : IO UInt32 := do
  match CfiSlack.Invocation.parse args with
  | .ok invocation => CfiSlack.Main.execute invocation
  | .error e =>
    if e.exitCode = 0 then IO.println e.message else IO.eprintln e.message
    return UInt32.ofNat e.exitCode
