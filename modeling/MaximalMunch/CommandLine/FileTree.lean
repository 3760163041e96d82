import MaximalMunch.CommandLine.Host
import MaximalMunch.CommandLine.Path

/-!
# File trees

A file system as a value: files, directories and a current directory. A path is walked part by part
(`FileTree.follow`): each part is looked up in what the parts before it have led to, which must be a
directory, also if the part is a dot, two dots or empty. `FileTree.host` is a host on which commands
run without touching anything real.
-/

namespace MaximalMunch

/-- What is at a place of a file tree. -/
inductive FileNode where
  | file (bytes : Text.Bytes)
  | directory
deriving DecidableEq

/-- A place of a file tree: the names that lead to it from the root. -/
abbrev FilePlace := List String

/-- Files and directories, each with its place. The root is always a directory. -/
structure FileTree where
  nodes : List (FilePlace × FileNode)
  /-- Where paths begin that do not begin at the root. -/
  current : FilePlace

namespace FileTree

/-- Why a file tree refuses something. -/
inductive Refusal where
  | missing
  | exists
  | notADirectory
  | isADirectory
  | nameTooLong
deriving DecidableEq, Repr

/-- The reason in words. -/
def Refusal.reason : Refusal → String
  | .missing => "No such file or directory (os error 2)"
  | .exists => "File exists (os error 17)"
  | .notADirectory => "Not a directory (os error 20)"
  | .isADirectory => "Is a directory (os error 21)"
  | .nameTooLong => "File name too long (os error 36)"

/-- The tree that has nothing but the current directory. -/
def empty (current : FilePlace) : FileTree where
  nodes := (List.range current.length).map fun n => (current.take (n + 1), .directory)
  current := current

/-- What is at a place. -/
def node? (t : FileTree) (place : FilePlace) : Option FileNode :=
  if place.isEmpty then some .directory
  else (t.nodes.find? (·.1 = place)).map (·.2)

/-- The tree with something put at a place. -/
def put (t : FileTree) (place : FilePlace) (node : FileNode) : FileTree :=
  { t with nodes := (place, node) :: t.nodes.filter (·.1 ≠ place) }

/-! ## Walking -/

/-- The place to which one part leads from another place, which must be a directory. Nothing has to
be there yet. -/
def follow (t : FileTree) (here : FilePlace) (part : String) : Except Refusal FilePlace :=
  match t.node? here with
  | none => .error .missing
  | some (.file _) => .error .notADirectory
  | some .directory =>
    if part.isEmpty || part = "." then .ok here
    else if part = ".." then .ok here.dropLast
    else if Path.maxPartBytes < part.utf8ByteSize then .error .nameTooLong
    else .ok (here ++ [part])

/-- The place to which some parts of a path lead, one after the other. -/
def followAll (t : FileTree) (path : String) (parts : List String) : Except Refusal FilePlace :=
  if path.isEmpty then .error .missing
  else if Path.maxBytes < path.utf8ByteSize then .error .nameTooLong
  else parts.foldlM t.follow (if path.startsWith "/" then [] else t.current)

/-- What is at the end of a path. -/
def lookUp (t : FileTree) (path : String) : Except Refusal FileNode := do
  match t.node? (← t.followAll path (Path.parts path)) with
  | some node => return node
  | none => .error .missing

/-- The path leads to a directory. -/
def isDirectory (t : FileTree) (path : String) : Bool :=
  match t.lookUp path with
  | .ok .directory => true
  | _ => false

/-! ## Reading and changing -/

/-- The bytes of a file. A directory can be opened but not read. -/
def read (t : FileTree) (path : String) : Except AccessError Text.Bytes :=
  match t.lookUp path with
  | .error refusal => .error (.notOpened refusal.reason)
  | .ok .directory => .error (.notRead Refusal.isADirectory.reason)
  | .ok (.file bytes) => .ok bytes

/-- A change of a file tree, which may be refused. What has been changed before a refusal stays
changed. -/
abbrev Change := ExceptT Refusal (StateM FileTree)

/-- Makes a file or replaces it. A name with a slash after it names a directory. -/
def write (path : String) (bytes : Text.Bytes) : Change Unit := do
  let t ← get
  let (before, last) := (Path.splitLast? path).getD ([], ".")
  let here ← t.followAll path before
  let place ← t.follow here (if path.endsWith "/" then "." else last)
  if t.node? place = some .directory then throw .isADirectory
  set (t.put place (.file bytes))

/-- Makes a directory. Nothing may be there. -/
def makeDirectory (path : String) : Change Unit := do
  let t ← get
  let (before, last) := (Path.splitLast? path).getD ([], ".")
  let here ← t.followAll path before
  let place ← t.follow here last
  if (t.node? place).isSome then throw .exists
  set (t.put place .directory)

/-- Makes a directory unless it is there. -/
def ensureDirectory (path : String) : Change Unit := do
  try makeDirectory path
  catch refusal =>
    unless refusal = .exists && (← get).isDirectory path do throw refusal

/-- Makes the first of some directories unless it is there. If that fails because something on the
way is missing, those after it are made before. -/
def ensureAll : List String → Change Unit
  | [] => return
  | path :: around => do
    try ensureDirectory path
    catch
      | .missing => do
        ensureAll around
        ensureDirectory path
      | refusal => throw refusal

/-- Makes a directory and those around it, as far as they are missing. -/
def makeDirectories (path : String) : Change Unit :=
  ensureAll (Path.ancestors path)

/-- Runs a change and gives the reason if it is refused. -/
def attempt (change : Change Unit) : StateM FileTree (Except String Unit) := do
  return (← change.run).mapError Refusal.reason

/-- A host whose files are a tree and whose stopwatch always tells `elapsed`. -/
def host (elapsed : String) : Host (StateM FileTree) where
  read path := do return (← get).read path
  write path bytes := attempt (write path bytes)
  makeDirectories path := attempt (makeDirectories path)
  startStopwatch := return (return elapsed)

end FileTree

end MaximalMunch
