import StackMachine.Exploration
import StackMachine.Listing
import StackMachine.Main
import StackMachine.Opcode.Info
import StackMachine.Proofs.AbstractRun
import StackMachine.Proofs.Agreement
import StackMachine.Proofs.AppendedCode
import StackMachine.Proofs.Assembler.NarrowestPush
import StackMachine.Proofs.Assembler.Patching
import StackMachine.Proofs.BigEndian
import StackMachine.Proofs.Boundary
import StackMachine.Proofs.Checked.Verification
import StackMachine.Proofs.CodeEnd
import StackMachine.Proofs.DepthMemo
import StackMachine.Proofs.ExecutedBytes
import StackMachine.Proofs.Exploration.Frontier
import StackMachine.Proofs.Interleaving
import StackMachine.Proofs.JumpDests
import StackMachine.Proofs.JumpTable.Lookup
import StackMachine.Proofs.LayoutAgreement
import StackMachine.Proofs.LinearWork
import StackMachine.Proofs.Listing
import StackMachine.Proofs.Lockstep
import StackMachine.Proofs.Machine
import StackMachine.Proofs.Narrowing
import StackMachine.Proofs.Rejection
import StackMachine.Proofs.OnePass
import StackMachine.Proofs.ReportedDepth
import StackMachine.Proofs.Soundness
import StackMachine.Proofs.Spec.Canonical
import StackMachine.Proofs.Spec.HexByte
import StackMachine.Proofs.Spec.StackEffects
import StackMachine.Proofs.Stack
import StackMachine.Proofs.Stack.InPlace
import StackMachine.Proofs.Stack.PlainList
import StackMachine.Proofs.StackAction
import StackMachine.Proofs.Text
import StackMachine.Proofs.Tiling
import StackMachine.Proofs.Tracing
import StackMachine.Proofs.Traversal.Ledger
import StackMachine.Proofs.Traversal.Verdict
import StackMachine.Proofs.WiderLimits
import StackMachine.Proofs.Workload.Dispatch
import StackMachine.Proofs.Workload.Static
import StackMachine.Spec.FileTree
import StackMachine.Workload
