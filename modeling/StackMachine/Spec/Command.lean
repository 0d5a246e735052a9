import StackMachine.Spec.Source

namespace StackMachine

/-- The file operations that the command needs. Each one says whether it succeeded. -/
structure FileAccess (m : Type → Type) where
  read? : String → m (Option String)
  createDir : String → m Bool
  write : String → String → m Bool

inductive CommandError where
  | usage
  | read (path : String)
  | parse (path : String)
  | spec (error : SpecError)
  | create (path : String)
  | write (path : String)
  deriving DecidableEq

namespace CommandError

def message : CommandError → String
  | usage => "usage: flowcheck_codegen [spec.json] [opcodes_out.rs]"
  | read path => "read " ++ path
  | parse path => "parse " ++ path
  | spec error => error.message
  | create path => "create " ++ path
  | write path => "write " ++ path

def cause? : CommandError → Option String
  | spec error => error.cause?
  | _ => none

def report (e : CommandError) : String :=
  match e.cause? with
  | some cause => "Error: " ++ e.message ++ "\n\nCaused by:\n    " ++ cause
  | none => "Error: " ++ e.message

end CommandError

/-- The segments of a path that name something, each with the number of characters up to its end.
A dot counts only in front. -/
def pathSegments (path : List Char) : List (List Char × Nat) :=
  let rec go (position : Nat) (segment : List Char) (found : List (List Char × Nat)) :
      List Char → List (List Char × Nat)
    | [] => (segment.reverse, position) :: found
    | '/' :: rest => go (position + 1) [] ((segment.reverse, position) :: found) rest
    | c :: rest => go (position + 1) (c :: segment) found rest
  ((go 0 [] [] path).reverse).filter fun s => s.1 ≠ [] && (s.1 ≠ ['.'] || s.2 == 1)

def parentPath? (path : String) : Option String :=
  match (pathSegments path.toList).reverse with
  | [] => none
  | [_] => some (if path.toList.head? = some '/' then "/" else "")
  | _ :: (_, stop) :: _ => some (String.ofList (path.toList.take stop))

namespace Command

def defaultSpecPath : String := "flowcheck/opcodes.json"

def defaultOutputPath : String := "flowcheck/src/opcodes_gen.rs"

def paths : List String → Except CommandError (String × String)
  | [] => .ok (defaultSpecPath, defaultOutputPath)
  | [spec] => .ok (spec, defaultOutputPath)
  | [spec, output] => .ok (spec, output)
  | _ => .error .usage

def outputFor (path text : String) : Except CommandError String :=
  match Spec.ofText? text with
  | none => .error (.parse path)
  | some spec => spec.generate.mapError .spec

def deliver {m : Type → Type} [Monad m] (files : FileAccess m) (path text : String) :
    m (Except CommandError Unit) := do
  let parent := parentPath? path
  let ready ← match parent with
    | some parent => files.createDir parent
    | none => pure true
  if !ready then return .error (.create (parent.getD ""))
  if ← files.write path text then return .ok ()
  return .error (.write path)

def run {m : Type → Type} [Monad m] (files : FileAccess m) (args : List String) :
    m (Except CommandError Unit) := do
  match paths args with
  | .error e => return .error e
  | .ok (specPath, outputPath) =>
    match ← files.read? specPath with
    | none => return .error (.read specPath)
    | some text =>
      match outputFor specPath text with
      | .error e => return .error e
      | .ok output => deliver files outputPath output

end Command

end StackMachine
