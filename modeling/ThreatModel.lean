import ThreatModel.Sorted
import ThreatModel.Text.Quoted
import ThreatModel.Table
import ThreatModel.Term.Basic
import ThreatModel.Term.Matching
import ThreatModel.Term.Unification
import ThreatModel.Model.Kind
import ThreatModel.Diagnostic.Cause
import ThreatModel.Diagnostic.Basic
import ThreatModel.Diagnostic.Fault
import ThreatModel.Theory.Basic
import ThreatModel.Theory.Declare
import ThreatModel.Policy
import ThreatModel.Store.Basic
import ThreatModel.Store.Registry
import ThreatModel.Model.Expr
import ThreatModel.Model.Command
import ThreatModel.Model.Basic
import ThreatModel.Model.Part
import ThreatModel.Callable.Basic
import ThreatModel.Callable.Recursion
import ThreatModel.Declarations.Basic
import ThreatModel.Declarations.OfModel
import ThreatModel.Graph.Basic
import ThreatModel.Graph.Reachable
import ThreatModel.System.Instance
import ThreatModel.Elaboration.Scope
import ThreatModel.Elaboration.Build
import ThreatModel.Elaboration.Expr
import ThreatModel.Elaboration.Command
import ThreatModel.Elaboration.Instance
import ThreatModel.Formula.Basic
import ThreatModel.Formula.Constraint
import ThreatModel.Formula.Solver
import ThreatModel.Formula.Check
import ThreatModel.Formula.OfLemma
import ThreatModel.System.Basic
import ThreatModel.System.Compile
import ThreatModel.System.Transcript
import ThreatModel.Run.State
import ThreatModel.Run.Move
import ThreatModel.Run.Step
import ThreatModel.Run.Explore
import ThreatModel.Report.Block
import ThreatModel.Report.Diagnostics
import ThreatModel.Report.Trace
import ThreatModel.Proofs.Distinct
import ThreatModel.Proofs.Result
import ThreatModel.Proofs.Table
import ThreatModel.Proofs.Requests
import ThreatModel.Proofs.Policy.Rights
import ThreatModel.Proofs.Term.Substitution
import ThreatModel.Proofs.Term.Matching
import ThreatModel.Proofs.Term.Constants
import ThreatModel.Proofs.Term.Names
import ThreatModel.Proofs.Term.Renaming
import ThreatModel.Proofs.Term.Triangular
import ThreatModel.Proofs.Term.Unification
import ThreatModel.Proofs.Theory.Innermost
import ThreatModel.Proofs.Theory.Evaluation
import ThreatModel.Proofs.Theory.NormalForm
import ThreatModel.Proofs.Theory.WellFormed
import ThreatModel.Proofs.Theory.Declared
import ThreatModel.Proofs.Theory.Renaming
import ThreatModel.Proofs.Theory.Budget
import ThreatModel.Proofs.Theory.Transactions
import ThreatModel.Proofs.Theory.Reduction
import ThreatModel.Proofs.Theory.Normalization
import ThreatModel.Proofs.Theory.Confluence
import ThreatModel.Proofs.Theory.Substitution
import ThreatModel.Proofs.Theory.Hygiene
import ThreatModel.Proofs.Theory.Extension
import ThreatModel.Proofs.Theory.Firing
import ThreatModel.Proofs.Declarations.Sound
import ThreatModel.Proofs.Declarations.Stages
import ThreatModel.Proofs.Declarations.Diagnosed
import ThreatModel.Proofs.Callable.Declared
import ThreatModel.Proofs.Callable.Recursion
import ThreatModel.Proofs.Callable.Colours
import ThreatModel.Proofs.Callable.Cycles
import ThreatModel.Proofs.Declarations.Namespace
import ThreatModel.Proofs.Callable.Reordering
import ThreatModel.Proofs.Callable.Overrides
import ThreatModel.Proofs.Declarations.Reordering
import ThreatModel.Proofs.Graph.Basic
import ThreatModel.Proofs.Graph.Preorder
import ThreatModel.Proofs.Graph.Assignment
import ThreatModel.Proofs.Graph.Growth
import ThreatModel.Proofs.Graph.Embedding
import ThreatModel.Proofs.Graph.Shape
import ThreatModel.Proofs.Elaboration.Rules
import ThreatModel.Proofs.Elaboration.Derivation
import ThreatModel.Proofs.Elaboration.Growth
import ThreatModel.Proofs.Elaboration.Scoping
import ThreatModel.Proofs.Elaboration.Stepwise
import ThreatModel.Proofs.Elaboration.Shifting
import ThreatModel.Proofs.Elaboration.Recursion
import ThreatModel.Proofs.Elaboration.Depth
import ThreatModel.Proofs.Elaboration.Pairing
import ThreatModel.Proofs.Elaboration.Widening
import ThreatModel.Proofs.Elaboration.Lockstep
import ThreatModel.Proofs.Elaboration.Sound
import ThreatModel.Proofs.Elaboration.Leaks
import ThreatModel.Proofs.System.Compiled
import ThreatModel.Proofs.System.Widening
import ThreatModel.Proofs.Elaboration.Assigned
import ThreatModel.Proofs.Elaboration.Files
import ThreatModel.Proofs.Elaboration.Branching
import ThreatModel.Proofs.Elaboration.Shape
import ThreatModel.Proofs.Elaboration.Accesses
import ThreatModel.Proofs.Elaboration.Mediation
import ThreatModel.Proofs.Elaboration.Regranting
import ThreatModel.Proofs.System.Grants
import ThreatModel.Proofs.System.Shifting
import ThreatModel.Proofs.System.Nonces
import ThreatModel.Proofs.Formula.Constraint
import ThreatModel.Proofs.Formula.Domain
import ThreatModel.Proofs.Formula.Solver
import ThreatModel.Proofs.Formula.Renaming
import ThreatModel.Proofs.Formula.Lexicon
import ThreatModel.Proofs.Formula.Closed
import ThreatModel.Proofs.Formula.Satisfaction
import ThreatModel.Proofs.Formula.Ordering
import ThreatModel.Proofs.Formula.Acyclic
import ThreatModel.Proofs.Formula.Equality
import ThreatModel.Proofs.Formula.Correspondence
import ThreatModel.Proofs.Formula.Reachability
import ThreatModel.Proofs.Formula.Flaws
import ThreatModel.Proofs.System.Statements
import ThreatModel.Proofs.System.Vocabulary
import ThreatModel.Proofs.System.Rejection
import ThreatModel.Proofs.Run.Step
import ThreatModel.Proofs.Run.Values
import ThreatModel.Proofs.Store.Refinement
import ThreatModel.Proofs.Run.Sound
import ThreatModel.Proofs.Run.Conservation
import ThreatModel.Proofs.Run.Files
import ThreatModel.Proofs.Run.Independence
import ThreatModel.Proofs.Run.Interleaving
import ThreatModel.Proofs.Run.Exploration
import ThreatModel.Proofs.Run.Events
import ThreatModel.Proofs.Run.Outcome
import ThreatModel.Proofs.Run.Causality
import ThreatModel.Proofs.Run.Removals
import ThreatModel.Proofs.Run.Freshness
import ThreatModel.Proofs.Run.Safety
import ThreatModel.Proofs.Run.Mirror
import ThreatModel.Proofs.Run.Widening
import ThreatModel.Proofs.Run.Search
import ThreatModel.Proofs.Run.Enumeration
import ThreatModel.Proofs.Run.Truncation
import ThreatModel.Proofs.Elaboration.Parts
import ThreatModel.Proofs.Elaboration.Drawn
import ThreatModel.Proofs.Elaboration.Inlined
import ThreatModel.Proofs.Elaboration.Builtins
import ThreatModel.Proofs.Elaboration.Guards
import ThreatModel.Proofs.Run.FirstMatch
import ThreatModel.Proofs.Elaboration.Loops
import ThreatModel.Proofs.Elaboration.Variables
import ThreatModel.Proofs.Elaboration.Identifiers
import ThreatModel.Proofs.Elaboration.Returns
import ThreatModel.Proofs.Elaboration.WriteOnce
import ThreatModel.Proofs.Elaboration.Unrolling
import ThreatModel.Proofs.Elaboration.Interception
