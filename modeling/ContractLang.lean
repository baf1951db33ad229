import ContractLang.Check.Basic
import ContractLang.Check.Calls
import ContractLang.Check.Checker
import ContractLang.Check.Effect
import ContractLang.Check.Exits
import ContractLang.Check.Inference
import ContractLang.Check.Judgement
import ContractLang.Check.Script
import ContractLang.Check.Statements
import ContractLang.CompilationUnit.Basic
import ContractLang.CompilationUnit.Edit
import ContractLang.CompilationUnit.Render
import ContractLang.CompilationUnit.Returns
import ContractLang.Error
import ContractLang.Index
import ContractLang.Literal.Bytes
import ContractLang.Literal.Pool
import ContractLang.Node
import ContractLang.Operation.Spec
import ContractLang.Operation.Standard
import ContractLang.Operation.Table
import ContractLang.Position
import ContractLang.Scope.Basic
import ContractLang.Scope.Descriptor
import ContractLang.Scope.Tree
import ContractLang.Ty
import ContractLang.Proofs.Links
import ContractLang.Proofs.Runs.Lifecycle
import ContractLang.Proofs.Runs.Observe
import ContractLang.Proofs.Runs.Compatible
import ContractLang.Proofs.Runs.Related
import ContractLang.Proofs.Runs.Scripts
import ContractLang.Proofs.Scope.Evolve
import ContractLang.Proofs.Scope.Lookup
import ContractLang.Proofs.Statements.Decides
import ContractLang.Proofs.Statements.Growth
import ContractLang.Proofs.Statements.Pass
import ContractLang.Proofs.Statements.WellTyped
import ContractLang.Proofs.Typing.Agreement
import ContractLang.Proofs.Typing.Answers
import ContractLang.Proofs.Typing.Laws
import ContractLang.Proofs.Typing.Plain
import ContractLang.Proofs.Typing.Recall
import ContractLang.Proofs.Typing.Transfer
import ContractLang.Proofs.Refinement
import ContractLang.Proofs.Typing.Inquiry
import ContractLang.Proofs.Typing.Pursuit
import ContractLang.Proofs.Typing.Course
import ContractLang.Proofs.Statements.Refining
import ContractLang.Proofs.Typing.Footprint
import ContractLang.Proofs.Typing.Order
import ContractLang.Proofs.Typing.Settled
import ContractLang.Proofs.Typing.Evidence
import ContractLang.Proofs.Typing.Settling
import ContractLang.Proofs.Typing.Slack
import ContractLang.Proofs.Statements.Returns
import ContractLang.Proofs.Statements.Enduring
import ContractLang.Proofs.Statements.Replay
import ContractLang.Proofs.Statements.Repeat
import ContractLang.Proofs.Statements.Again
import ContractLang.Proofs.Scope.Slots
import ContractLang.Proofs.Scope.Layout
import ContractLang.Proofs.Scope.Nesting
import ContractLang.Proofs.Runs.Reachable
import ContractLang.Proofs.Statements.Depth
import ContractLang.Proofs.Runs.Deepening
import ContractLang.Proofs.Statements.Exits
import ContractLang.Proofs.Statements.Unify
import ContractLang.Proofs.Runs.Resolving
import ContractLang.Proofs.Literal.Interning
import ContractLang.Proofs.Literal.Distinct
import ContractLang.Proofs.Literal.Grammar
import ContractLang.Proofs.Scope.Chain
import ContractLang.Proofs.Scope.Visible
import ContractLang.Proofs.Scope.Relocate
import ContractLang.Proofs.Scope.Offsets
import ContractLang.Proofs.Scope.InPlace
import ContractLang.Proofs.Scope.Retain
import ContractLang.Proofs.Runs.Moments
import ContractLang.Proofs.Statements.Flow
import ContractLang.Proofs.Statements.Targets
import ContractLang.Proofs.Statements.Assigned
import ContractLang.Proofs.Statements.Paths
import ContractLang.Proofs.Aborts.Mute
import ContractLang.Proofs.Aborts.Lag
import ContractLang.Proofs.Aborts.Compare
import ContractLang.Proofs.Aborts.Simulate
import ContractLang.Proofs.Aborts.Follow
import ContractLang.Proofs.Aborts.Lenient
import ContractLang.Proofs.Runs.Several
import ContractLang.Proofs.Typing.Keeping
import ContractLang.Proofs.Typing.Mirror
import ContractLang.Proofs.Typing.Arity
import ContractLang.Proofs.Typing.Compose
import ContractLang.Proofs.Typing.Blame
import ContractLang.Proofs.Statements.Terminal
import ContractLang.Proofs.Bounds.Places
import ContractLang.Proofs.Bounds.Walks
import ContractLang.Proofs.Bounds.Guard
import ContractLang.Proofs.Bounds.Secure
import ContractLang.Proofs.Bounds.Assembled
import ContractLang.Proofs.Scope.Mature
import ContractLang.Proofs.Runs.Matured
import ContractLang.Proofs.Typing.Declared
import ContractLang.Proofs.Scope.Translate
import ContractLang.Proofs.Outline
import ContractLang.Proofs.Decide
import ContractLang.Proofs.Typing.Reproduce
import ContractLang.Proofs.Typing.Validate
import ContractLang.Proofs.Typing.EveryCall
