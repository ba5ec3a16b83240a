import BpmnModel.Failure

/-!
# Files

* `Files` — what a program needs of the files around it: the calls that `load_file`, `load_config`
  and `run` make.
* `FileTree` — a directory with files in it, as a value; `StateM FileTree` has such files. Writing
  is all or nothing.
-/

namespace BpmnModel

/-- Access to files by path. -/
class Files (m : Type → Type) where
  /-- Whether there is a file or directory. -/
  isThere : String → m Bool
  /-- The text of a file. -/
  read : String → m (Except FileFault String)
  /-- Makes a text the whole content of a file. -/
  write : String → String → m (Except FileFault Unit)
  /-- Where the configuration of the user would be, if the system has a place for it. -/
  userConfig : m (Option String)

/-- A working directory: files and directories by the names on the way to them. -/
structure FileTree where
  files : List (List String × String)
  directories : List (List String)
  userConfig : Option String

/-- What a path leads to. -/
inductive Place where
  | file (names : List String) (text : String)
  | directory
  /-- Nothing, in a directory that is there. -/
  | vacant (names : List String)
  /-- Nowhere. -/
  | blocked (fault : FileFault)

namespace FileTree

/-- The names on the way that a path spells. Steps that stay where they are do not count. -/
def names (path : String) : List String :=
  (path.splitOn "/").filter fun name => name ≠ "" ∧ name ≠ "."

/-- A working directory with these files, by path, and these empty directories. -/
def ofPaths (files : List (String × String)) (directories : List String)
    (userConfig : Option String) : FileTree where
  files := files.map fun (path, text) => (names path, text)
  directories := directories.map names
  userConfig := userConfig

/-- Where absolute paths start. -/
def top : List String := ["/"]

/-- Whether names stay outside the working directory: on the way up from it, or at the top. Of those
directories only this is known that they are there. -/
def isOutside (names : List String) : Bool :=
  names.all (· = "..") || names = top

/-- Whether the names lead to a directory. -/
def isDirectory (t : FileTree) (names : List String) : Bool :=
  isOutside names || t.directories.contains names ||
    t.files.any fun (file, _) => names.length < file.length && names.isPrefixOf file

/-- The directory above. Nothing is above the top. -/
def above (names : List String) : List String :=
  if names = top then top
  else if isOutside names then names ++ [".."]
  else names.dropLast

/-- How many bytes the name of a file can have. -/
def maxName : Nat := 255

/-- What names lead to from a directory. -/
def follow (t : FileTree) (here : List String) : List String → Place
  | [] => .directory
  | name :: rest =>
    if name = "" ∨ name = "." then t.follow here rest
    else if name = ".." then t.follow (above here) rest
    else if maxName < name.utf8ByteSize then .blocked .nameTooLong
    else
      let next := here ++ [name]
      if t.isDirectory next then t.follow next rest
      else
        match t.files.lookup next, rest with
        | some text, [] => .file next text
        | some _, _ :: _ => .blocked .notDirectory
        | none, [] => .vacant next
        | none, _ :: _ => .blocked .missing

/-- How many bytes a path can have. -/
def maxPath : Nat := 4095

/-- Why a text is no path at all. -/
def pathFault? (path : String) : Option FileFault :=
  if path.contains '\x00' then some .nulInName
  else if path = "" then some .missing
  else if maxPath < path.utf8ByteSize then some .nameTooLong
  else none

/-- Where a path starts. -/
def start (path : String) : List String :=
  if path.startsWith "/" then top else []

/-- What a path leads to. -/
def locate (t : FileTree) (path : String) : Place :=
  match pathFault? path with
  | some fault => .blocked fault
  | none => t.follow (start path) (path.splitOn "/")

/-- The text of a file. -/
def read (t : FileTree) (path : String) : Except FileFault String :=
  match t.locate path with
  | .file _ text => .ok text
  | .directory => .error .isDirectory
  | .vacant _ => .error .missing
  | .blocked fault => .error fault

/-- Whether there is a file or directory. -/
def isThere (t : FileTree) (path : String) : Bool :=
  match t.locate path with
  | .file .. | .directory => true
  | .vacant _ | .blocked _ => false

/-- Whether a path spells the place of a file as that of a directory: by slashes after a name in a
directory that is there. -/
def namesDirectory (t : FileTree) (path : String) : Bool :=
  (pathFault? path).isNone && path.endsWith "/" &&
    match (path.splitOn "/").reverse.dropWhile (· = "") with
    | [] => false
    | name :: way =>
      name ≠ "." && name ≠ ".." &&
        match t.follow (start path) way.reverse with
        | .directory => true
        | .file .. | .vacant _ | .blocked _ => false

/-- Makes a text the whole content of a file. -/
def write (t : FileTree) (path text : String) : Except FileFault FileTree :=
  match t.locate path with
  | .file names _ =>
    .ok { t with files := t.files.map fun (n, x) => if n = names then (n, text) else (n, x) }
  | .vacant names => .ok { t with files := t.files ++ [(names, text)] }
  | .directory => .error .isDirectory
  | .blocked fault => .error (if t.namesDirectory path then .isDirectory else fault)

end FileTree

instance : Files (StateM FileTree) where
  isThere path := return (← get).isThere path
  read path := return (← get).read path
  write path text := do
    match (← get).write path text with
    | .ok t => set t; return .ok ()
    | .error fault => return .error fault
  userConfig := return (← get).userConfig

end BpmnModel
