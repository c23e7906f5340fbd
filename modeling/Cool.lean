import Cool.Main
import Cool.Proofs.Class.Outline
import Cool.Proofs.Lowering.Gaps
import Cool.Proofs.Lowering.Operands
import Cool.Proofs.Lowering.Simulation
import Cool.Proofs.Lowering.Functions
import Cool.Proofs.Lowering.FunctionNames
import Cool.Proofs.Lowering.Calls
import Cool.Proofs.Class.Hierarchy
import Cool.Proofs.Typing.Arguments
import Cool.Proofs.Bril.Memory
import Cool.Proofs.Bril.RegisterTypes
import Cool.Proofs.Class.Slots
import Cool.Proofs.Lowering.RegisterTypes
import Cool.Proofs.Lowering.FunctionTypes
import Cool.Proofs.Lowering.MemorySafety
import Cool.Proofs.Lowering.ControlFlow
import Cool.Proofs.Class.Layout
import Cool.Proofs.Lowering.Unboxed
import Cool.Proofs.Tree.Height
import Cool.Proofs.Class.Ancestors
import Cool.Proofs.Lowering.Alike
import Cool.Proofs.Lowering.Resolution
import Cool.Proofs.Lowering.Frees
import Cool.Proofs.Token.LineEndings
import Cool.Proofs.Lowering.Initialization
import Cool.Proofs.Typing.CaseOrder
import Cool.Proofs.Lowering.Extended
import Cool.Proofs.Bril.Text
import Cool.Proofs.Class.Cycles
import Cool.Proofs.Class.Order
import Cool.Proofs.Token.Strings
import Cool.Proofs.Token.Comments
import Cool.Proofs.Source.Positions
import Cool.Proofs.Lowering.Fresh
import Cool.Proofs.Class.Nearest
import Cool.Proofs.Lowering.Literals
