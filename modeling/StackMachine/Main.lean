import StackMachine.Spec.Command

namespace StackMachine.CommandLine

def succeeds (action : IO Unit) : IO Bool := do
  try
    action
    return true
  catch _ => return false

def disk : FileAccess IO where
  read? path := do
    try
      return some (← IO.FS.readFile path)
    catch _ => return none
  createDir path := if path = "" then return true else succeeds (IO.FS.createDirAll path)
  write path text := succeeds (IO.FS.writeFile path text)

end StackMachine.CommandLine

open StackMachine in
def main (args : List String) : IO UInt32 := do
  match ← Command.run CommandLine.disk args with
  | .ok () => return 0
  | .error e =>
    IO.eprintln e.report
    return 1
