import LuaBytecode.Ast.Basic
import LuaBytecode.Compiler.Code
import LuaBytecode.Compiler.Emit
import LuaBytecode.Compiler.FuncState
import LuaBytecode.Compiler.Resolve
import LuaBytecode.Fault
import LuaBytecode.Host.Snapshot
import LuaBytecode.Instruction.FloatByte
import LuaBytecode.Instruction.Opcode
import LuaBytecode.Instruction.Word
import LuaBytecode.Machine.Api
import LuaBytecode.Machine.Arith
import LuaBytecode.Machine.Coerce
import LuaBytecode.Machine.Enter
import LuaBytecode.Machine.Frame
import LuaBytecode.Machine.Library
import LuaBytecode.Machine.Meta
import LuaBytecode.Machine.Run
import LuaBytecode.Machine.State
import LuaBytecode.Machine.Step
import LuaBytecode.Number.Binary64
import LuaBytecode.Number.FloatText
import LuaBytecode.Number.Read
import LuaBytecode.Number.Shortest
import LuaBytecode.Proto.Basic
import LuaBytecode.Proto.Listing
import LuaBytecode.Table.Basic
import LuaBytecode.Table.Key
import LuaBytecode.Text.Escaped
import LuaBytecode.Text.Quoted
import LuaBytecode.Value.Basic
import LuaBytecode.Proofs.Instruction.Access
import LuaBytecode.Proofs.Instruction.Fields
import LuaBytecode.Proofs.Instruction.LeastByte
import LuaBytecode.Proofs.Instruction.Layout
import LuaBytecode.Proofs.Compiler.Run
import LuaBytecode.Proofs.Compiler.Frame
import LuaBytecode.Proofs.Compiler.Names
import LuaBytecode.Proofs.Compiler.Shapes
import LuaBytecode.Proofs.Compiler.Operands
import LuaBytecode.Proofs.Compiler.Scopes
import LuaBytecode.Proofs.Compiler.Functions
import LuaBytecode.Proofs.Compiler.Expressions
import LuaBytecode.Proofs.Compiler.Statements
import LuaBytecode.Proofs.Compiler.Registers
import LuaBytecode.Proofs.Machine.Plain
import LuaBytecode.Proofs.Machine.Execution
import LuaBytecode.Proofs.Compiler.Reference
import LuaBytecode.Proofs.Compiler.Simulation
import LuaBytecode.Proofs.Compiler.Lexical
import LuaBytecode.Proofs.Compiler.Scoping
import LuaBytecode.Proofs.Compiler.NameResolution
import LuaBytecode.Proofs.Compiler.BuiltExprs
import LuaBytecode.Proofs.Compiler.BuiltStmts
import LuaBytecode.Proofs.Compiler.WellFormedCode
import LuaBytecode.Proofs.Number.Encoding
import LuaBytecode.Proofs.Table.Hash
import LuaBytecode.Proofs.Table.Normal
import LuaBytecode.Proofs.Table.Write
import LuaBytecode.Proofs.Table.Slots
import LuaBytecode.Proofs.Table.Traversal
import LuaBytecode.Proofs.Table.Border
import LuaBytecode.Proofs.Machine.NumericLoop
import LuaBytecode.Proofs.Machine.FloorDivision
import LuaBytecode.Proofs.Machine.Steps
import LuaBytecode.Proofs.Compiler.Settling
import LuaBytecode.Proofs.Compiler.OperatorMeaning
import LuaBytecode.Proofs.Compiler.OperatorCode
import LuaBytecode.Proofs.Compiler.OperatorChains
import LuaBytecode.Proofs.Compiler.OperatorTerms
import LuaBytecode.Proofs.Compiler.BlockMeaning
import LuaBytecode.Proofs.Compiler.Flows
import LuaBytecode.Proofs.Machine.CallStack
import LuaBytecode.Proofs.Machine.Registers
import LuaBytecode.Proofs.Machine.Calls
import LuaBytecode.Proofs.Machine.FrameInvariant
import LuaBytecode.Proofs.Machine.HostCalls
import LuaBytecode.Proofs.Machine.HostRequests
import LuaBytecode.Proofs.Compiler.SimpleStatements
import LuaBytecode.Proofs.Compiler.ControlFlow
import LuaBytecode.Proofs.Compiler.StructuredBlocks
import LuaBytecode.Proofs.Compiler.MeaningPreserved
