import LuaBytecode.Action
import LuaBytecode.BaseLibrary
import LuaBytecode.Cell
import LuaBytecode.Double
import LuaBytecode.Double.Text
import LuaBytecode.Embedding
import LuaBytecode.Engine
import LuaBytecode.Execution
import LuaBytecode.Fault
import LuaBytecode.Frame
import LuaBytecode.Heap
import LuaBytecode.Host
import LuaBytecode.Instruction
import LuaBytecode.Loop
import LuaBytecode.Metamethod
import LuaBytecode.Number
import LuaBytecode.Number.Numeral
import LuaBytecode.Opcode
import LuaBytecode.Operator
import LuaBytecode.Proofs.Alike.Action
import LuaBytecode.Proofs.Alike.Engine
import LuaBytecode.Proofs.Alike.Machine
import LuaBytecode.Proofs.Alike.Transcript
import LuaBytecode.Proofs.Call.Values
import LuaBytecode.Proofs.Double.Decimal
import LuaBytecode.Proofs.Double.Rounding
import LuaBytecode.Proofs.Double.Text
import LuaBytecode.Proofs.Double.Units
import LuaBytecode.Proofs.Double.Value
import LuaBytecode.Proofs.Fault.Located
import LuaBytecode.Proofs.Fault.Protected
import LuaBytecode.Proofs.Fault.Report
import LuaBytecode.Proofs.Fault.Trail
import LuaBytecode.Proofs.Frame.Register
import LuaBytecode.Proofs.Instruction.Checked
import LuaBytecode.Proofs.Instruction.Constructor
import LuaBytecode.Proofs.Instruction.Layout
import LuaBytecode.Proofs.Instruction.Mistake
import LuaBytecode.Proofs.Instruction.Routine
import LuaBytecode.Proofs.Instruction.Walk
import LuaBytecode.Proofs.Instruction.Writes
import LuaBytecode.Proofs.Loop.Numeral
import LuaBytecode.Proofs.Loop.Range
import LuaBytecode.Proofs.Loop.Rounds
import LuaBytecode.Proofs.Metamethod.Assignment
import LuaBytecode.Proofs.Metamethod.Resolution
import LuaBytecode.Proofs.Number.Base
import LuaBytecode.Proofs.Number.Grammar
import LuaBytecode.Proofs.Number.Numeral
import LuaBytecode.Proofs.Number.Order
import LuaBytecode.Proofs.Operator.Result
import LuaBytecode.Proofs.Operator.Unary
import LuaBytecode.Proofs.Prototype.Building
import LuaBytecode.Proofs.Prototype.Pools
import LuaBytecode.Proofs.Run.Agreement
import LuaBytecode.Proofs.Run.Balance
import LuaBytecode.Proofs.Run.Depth
import LuaBytecode.Proofs.Run.Footprint
import LuaBytecode.Proofs.Run.Inherited
import LuaBytecode.Proofs.Run.Instruction
import LuaBytecode.Proofs.Run.Isolation
import LuaBytecode.Proofs.Run.Machine
import LuaBytecode.Proofs.Run.Move
import LuaBytecode.Proofs.Run.Parts
import LuaBytecode.Proofs.Run.Sound
import LuaBytecode.Proofs.Run.Tables
import LuaBytecode.Proofs.Run.Walk
import LuaBytecode.Proofs.SizeHint.Rounding
import LuaBytecode.Proofs.Table.Border
import LuaBytecode.Proofs.Table.Canonical
import LuaBytecode.Proofs.Table.Enumeration
import LuaBytecode.Proofs.Table.FiniteMap
import LuaBytecode.Proofs.Table.Items
import LuaBytecode.Proofs.Table.Key
import LuaBytecode.Proofs.Table.Leading
import LuaBytecode.Proofs.Table.Overlap
import LuaBytecode.Proofs.Table.Refusal
import LuaBytecode.Proofs.Table.Traversal
import LuaBytecode.Proofs.Table.WellFormed
import LuaBytecode.Proofs.Text.Digit
import LuaBytecode.Proofs.Variable.Boxes
import LuaBytecode.Proofs.Variable.Change
import LuaBytecode.Proofs.Variable.Event
import LuaBytecode.Proofs.Variable.Foreign
import LuaBytecode.Proofs.Variable.Invariant
import LuaBytecode.Proofs.Variable.Linked
import LuaBytecode.Proofs.Variable.Share
import LuaBytecode.Proofs.Variable.Stack
import LuaBytecode.Proofs.Word.Division
import LuaBytecode.Proofs.Word.Shift
import LuaBytecode.Prototype
import LuaBytecode.Prototype.Builder
import LuaBytecode.Run
import LuaBytecode.Service
import LuaBytecode.SizeHint
import LuaBytecode.Table
import LuaBytecode.Table.Key
import LuaBytecode.Table.Snapshot
import LuaBytecode.Text.Blank
import LuaBytecode.Text.Digit
import LuaBytecode.Value
