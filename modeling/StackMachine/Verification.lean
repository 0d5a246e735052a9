import StackMachine.JumpTable.Wire
import StackMachine.Verification.Message
import StackMachine.Verification.Traversal

namespace StackMachine

structure Config where
  maxCodeLength : Nat := 24576
  stackLimit : Nat := stackCapacity
  deriving DecidableEq

/-- Lengths are bounded by the largest offset, whatever the configuration says. -/
def Config.lengthBound (cfg : Config) : Nat := min cfg.maxCodeLength maxOffset

def checkLength (code : Code) (cfg : Config) : Except VerifyError Unit :=
  if cfg.lengthBound < code.size then .error (.codeTooLarge code.size cfg.lengthBound)
  else .ok ()

def traverse (code : Code) (tables : JumpTables) (cfg : Config) (mask : TraceMask) : Traversal :=
  Traversal.run (Setting.of code tables mask) Scheduler.newest
    (Traversal.start cfg.stackLimit code.size)

def outcomeOf {α : Type} : Except VerifyError α → Option VerifyError
  | .ok _ => none
  | .error e => some e

def verifyTraced (code : Code) (tables : JumpTables) (cfg : Config) (mask : TraceMask) :
    Except VerifyError Unit × List Event :=
  let opening := mask.record (.runStart code.size tables.size) []
  match checkLength code cfg with
  | .error e => (.error e, opening ++ mask.record (.runEnd (some e)) [])
  | .ok () =>
    let last := traverse code tables cfg mask
    let verdict := last.verdict
    (verdict.map fun _ => (),
      opening ++ (mask.record (.runEnd (outcomeOf verdict)) last.log).reverse)

def verify (code : Code) (tables : JumpTables) (cfg : Config) : Except VerifyError Unit :=
  (verifyTraced code tables cfg TraceMask.none).1

def isValid (code : Code) (tables : JumpTables) : Bool := (verify code tables {}).isOk

structure VerifiedCode where
  code : Code
  tables : JumpTables
  jumpDests : JumpDests
  memo : DepthMemo
  deriving DecidableEq

namespace VerifiedCode

def isJumpDest (v : VerifiedCode) (offset : Nat) : Bool := v.jumpDests.isValid offset

def listed (v : VerifiedCode) (src : Nat) : Lookup := v.tables.lookup src

/-- The depth with which the instruction at `pc` is reached, if it is reached and is no
terminator. -/
def depthAt? (v : VerifiedCode) (pc : Nat) : Option Nat := v.memo.get? pc

end VerifiedCode

def verifyOwned (code : Code) (tables : JumpTables) (cfg : Config) :
    Except VerifyError VerifiedCode :=
  match checkLength code cfg with
  | .error e => .error e
  | .ok () =>
    match (traverse code tables cfg TraceMask.none).verdict with
    | .error e => .error e
    | .ok memo => .ok ⟨code, tables, JumpDests.ofCode code, memo⟩

def decodeRegion (kind : TableKind) (bytes : Array UInt8) : Except VerifyError JumpTable :=
  (JumpTable.decode bytes).mapError (.table kind)

/-- Decode both table regions, the jump table first, and verify code against them. -/
def verifyRegions (code : Code) (jumpRegion trapRegion : Array UInt8) (cfg : Config) :
    Except VerifyError JumpTables := do
  let jumps ← decodeRegion .jump jumpRegion
  let traps ← decodeRegion .trap trapRegion
  verify code ⟨jumps, traps⟩ cfg
  return ⟨jumps, traps⟩

end StackMachine
