import QuadScript.Main
import QuadScript.Service
import QuadScript.Proofs.Names
import QuadScript.Proofs.Tables
import QuadScript.Proofs.Steps
import QuadScript.Proofs.Emission
import QuadScript.Proofs.Endings
import QuadScript.Proofs.Optimizer.Propagate
import QuadScript.Proofs.Exact
import QuadScript.Proofs.Optimizer.Fold
import QuadScript.Proofs.Optimizer.DeadTemps
import QuadScript.Proofs.Optimizer.Totality
import QuadScript.Proofs.Optimizer.Soundness
import QuadScript.Proofs.Renaming.Lowering
import QuadScript.Proofs.Emitted
import QuadScript.Proofs.Temporaries
import QuadScript.Proofs.Expressions
import QuadScript.Proofs.Placement
import QuadScript.Proofs.EvaluationOrder
import QuadScript.Proofs.Statements
import QuadScript.Proofs.StatementCode
import QuadScript.Proofs.Scopes
import QuadScript.Proofs.CallStack
import QuadScript.Proofs.Declarations
import QuadScript.Proofs.SingleAssignment
import QuadScript.Proofs.Optimizer.Thinning
import QuadScript.Proofs.Balance
import QuadScript.Proofs.CallingConvention
import QuadScript.Proofs.Surplus
import QuadScript.Proofs.Jumps
import QuadScript.Proofs.Faults
import QuadScript.Proofs.Messages
import QuadScript.Proofs.Remarks
import QuadScript.Proofs.Events
import QuadScript.Proofs.Kinds
import QuadScript.Proofs.Symbols
import QuadScript.Proofs.Initialization
import QuadScript.Proofs.Parts
import QuadScript.Proofs.Occurrences
import QuadScript.Proofs.DeadCode
import QuadScript.Proofs.OpenScopes
import QuadScript.Proofs.Callees
import QuadScript.Proofs.Continuity
import QuadScript.Proofs.NeutralDoubles
import QuadScript.Proofs.Optimizer.Identities
import QuadScript.Proofs.Redeclaration
import QuadScript.Proofs.Readable
import QuadScript.Proofs.Shape
import QuadScript.Proofs.Liveness
import QuadScript.Proofs.Initializers
import QuadScript.Proofs.Unread
import QuadScript.Proofs.Replacement
import QuadScript.Proofs.UnusedVariables
import QuadScript.Proofs.Operators
import QuadScript.Proofs.Updates
import QuadScript.Proofs.Returns
import QuadScript.Proofs.Optimizer.Convergence
import QuadScript.Proofs.Ceiling
import QuadScript.Proofs.Visits
import QuadScript.Proofs.Hoisting
import QuadScript.Proofs.BlockScopes
import QuadScript.Proofs.Equality
import QuadScript.Proofs.Numerals
import QuadScript.Proofs.Spellings
import QuadScript.Proofs.ScopePaths
import QuadScript.Proofs.SymbolTable
