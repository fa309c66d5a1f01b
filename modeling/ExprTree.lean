import ExprTree.Arena
import ExprTree.Capture
import ExprTree.Code
import ExprTree.Compile
import ExprTree.Conversion
import ExprTree.Error
import ExprTree.Float.Decimal
import ExprTree.Float.Format
import ExprTree.Heap
import ExprTree.Host
import ExprTree.Host.Native
import ExprTree.Kind
import ExprTree.Member
import ExprTree.Node
import ExprTree.Node.Build
import ExprTree.Node.Free
import ExprTree.Node.Same
import ExprTree.Node.Substitute
import ExprTree.Node.Walk
import ExprTree.Operator
import ExprTree.Proofs.Addressing
import ExprTree.Proofs.Agreement
import ExprTree.Proofs.Arithmetic
import ExprTree.Proofs.CallOrder
import ExprTree.Proofs.Captures
import ExprTree.Proofs.Captures.Exact
import ExprTree.Proofs.Captures.Surroundings
import ExprTree.Proofs.Computation
import ExprTree.Proofs.Concatenation
import ExprTree.Proofs.Construction
import ExprTree.Proofs.Conversions
import ExprTree.Proofs.Conversions.Boxing
import ExprTree.Proofs.Conversions.Numbers
import ExprTree.Proofs.Division
import ExprTree.Proofs.Emission
import ExprTree.Proofs.FreeParameters
import ExprTree.Proofs.HostCalls
import ExprTree.Proofs.Identities
import ExprTree.Proofs.Interleaving
import ExprTree.Proofs.Interleaving.Runs
import ExprTree.Proofs.Interleaving.SelfContained
import ExprTree.Proofs.Interleaving.Trees
import ExprTree.Proofs.Interleaving.Values
import ExprTree.Proofs.Interleaving.Worlds
import ExprTree.Proofs.Isolation
import ExprTree.Proofs.Layout
import ExprTree.Proofs.Lexical
import ExprTree.Proofs.Lifting
import ExprTree.Proofs.Limits
import ExprTree.Proofs.Logic
import ExprTree.Proofs.NaturalTypes
import ExprTree.Proofs.Occurrences
import ExprTree.Proofs.Operands
import ExprTree.Proofs.Quoting
import ExprTree.Proofs.Records
import ExprTree.Proofs.Renaming
import ExprTree.Proofs.Replies
import ExprTree.Proofs.Representation
import ExprTree.Proofs.Scoping
import ExprTree.Proofs.Sessions
import ExprTree.Proofs.Shifts
import ExprTree.Proofs.Simulation
import ExprTree.Proofs.Simulation.Invocations
import ExprTree.Proofs.Simulation.Nodes
import ExprTree.Proofs.Simulation.Variables
import ExprTree.Proofs.Snapshot
import ExprTree.Proofs.Soundness
import ExprTree.Proofs.Substitution
import ExprTree.Proofs.Substitution.Composition
import ExprTree.Proofs.Substitution.Places
import ExprTree.Proofs.Substitution.Unchanged
import ExprTree.Proofs.Texts
import ExprTree.Proofs.Typing
import ExprTree.Proofs.Walk
import ExprTree.Proofs.Watching
import ExprTree.Proofs.WellFormed
import ExprTree.Proofs.Words
import ExprTree.Run
import ExprTree.Schema
import ExprTree.Scope
import ExprTree.Ty
import ExprTree.Value
import ExprTree.Value.Text
import ExprTree.Word
import ExprTree.World
