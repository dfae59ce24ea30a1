import StackMachine.Command.FileTree
import StackMachine.Main
import StackMachine.Proofs.Assembly.RoundTrip
import StackMachine.Proofs.Module.RoundTrip
import StackMachine.Proofs.Session.Bounds
import StackMachine.Proofs.Session.CutOff
import StackMachine.Proofs.Session.Calls
import StackMachine.Proofs.Session.Context
import StackMachine.Proofs.Session.Linkage
import StackMachine.Proofs.Assembly.Grammar
import StackMachine.Proofs.Assembly.Acceptance
import StackMachine.Proofs.Module.Format
import StackMachine.Proofs.Session.Budget
import StackMachine.Proofs.Session.Termination
import StackMachine.Proofs.Session.Extension
import StackMachine.Proofs.Heap.Memory
import StackMachine.Proofs.Session.Faults
import StackMachine.Proofs.Assembly.Size
import StackMachine.Proofs.Command.FileTree
import StackMachine.Proofs.Command.Compiled
import StackMachine.Proofs.Heap.Accounting
import StackMachine.Proofs.Assembly.Names
import StackMachine.Proofs.Assembly.Concatenation
import StackMachine.Proofs.Module.Truncation
import StackMachine.Proofs.Module.Instructions
import StackMachine.Proofs.Module.Shortest
import StackMachine.Proofs.Assembly.Numbers
import StackMachine.Proofs.Session.Arithmetic
import StackMachine.Proofs.NameIndex
import StackMachine.Proofs.Command.Options
import StackMachine.Proofs.Fixture.Directives
import StackMachine.Proofs.Command.Conformance
