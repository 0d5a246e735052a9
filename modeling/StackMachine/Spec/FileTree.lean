import StackMachine.Spec.Command

namespace StackMachine

/-- Files and directories by their segments from the root. The root is no member. -/
structure FileTree where
  files : List (List String × String) := []
  dirs : List (List String) := []

namespace FileTree

def isDir (t : FileTree) (place : List String) : Bool := place.isEmpty || t.dirs.contains place

def file? (t : FileTree) (place : List String) : Option String := t.files.lookup place

def follow? (t : FileTree) (dir : List String) (segment : String) : Option (List String) :=
  if segment = "" ∨ segment = "." then some dir
  else if segment = ".." then (if dir.isEmpty then none else some dir.dropLast)
  else if t.isDir (dir ++ [segment]) then some (dir ++ [segment])
  else none

def isProperName (segment : String) : Bool := segment ∉ ["", ".", ".."]

/-- The segments of a relative path; no path is empty or holds a NUL. -/
def segments? (path : String) : Option (List String) :=
  let chars := path.toList
  if chars.isEmpty || chars.head? == some '/' || chars.contains '\x00' then none
  else some ((path.splitOn "/"))

def place? (t : FileTree) (path : String) : Option (List String) := do
  let segments ← segments? path
  let last ← segments.getLast?
  if isProperName last then
    let dir ← segments.dropLast.foldlM t.follow? []
    return dir ++ [last]
  else none

def read? (t : FileTree) (path : String) : Option String := (t.place? path).bind t.file?

def store (t : FileTree) (place : List String) (text : String) : FileTree :=
  { t with files := (place, text) :: t.files.filter (·.1 ≠ place) }

def write? (t : FileTree) (path text : String) : Option FileTree := do
  let place ← t.place? path
  if t.isDir place then none else return t.store place text

def enter? (state : FileTree × List String) (segment : String) :
    Option (FileTree × List String) :=
  let (t, dir) := state
  match t.follow? dir segment with
  | some dir => some (t, dir)
  | none =>
    let place := dir ++ [segment]
    if segment = ".." ∨ (t.file? place).isSome then none
    else some ({ t with dirs := place :: t.dirs }, place)

/-- Create a directory and the ones above it. The empty path names the root. -/
def createDir? (t : FileTree) (path : String) : Option FileTree :=
  if path = "" then some t
  else (segments? path).bind fun segments => (segments.foldlM enter? (t, [])).map Prod.fst

def add (t : FileTree) (file : String × String) : FileTree :=
  let t := ((parentPath? file.1).bind t.createDir?).getD t
  (t.write? file.1 file.2).getD t

def ofFiles (files : List (String × String)) : FileTree := files.foldl add {}

def attempt (operation : FileTree → Option FileTree) : StateM FileTree Bool := do
  match operation (← get) with
  | some t =>
    set t
    return true
  | none => return false

def access : FileAccess (StateM FileTree) where
  read? path := do return (← get).read? path
  createDir path := attempt (·.createDir? path)
  write path text := attempt (·.write? path text)

end FileTree

end StackMachine
