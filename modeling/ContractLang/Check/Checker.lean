import ContractLang.Check.Effect
import ContractLang.Check.Script
import ContractLang.Check.Statements

/-!
# The checker

A checker is a specification of operations, a configuration, and possibly a
parser that supplies the bodies of functions on their first call. It answers
queries about a compilation unit (`ContractLang.Checker.answer`).

Judgements are decided by the rules, whose own judgements are decided one level
further down (`ContractLang.Supply.context`). Without a parser, the depth that can
be needed is bounded by the size of the unit: along operands and children no node
comes twice, and a body is only entered if it is not being resolved already. A
parser brings new nodes, so it states what depth they may need.
-/

namespace ContractLang

/-- A supplier of function bodies, with notes of type `σ`. -/
structure BodyParser (σ : Type) where
  /-- Builds the definition of a function on behalf of a call, given the scope of the
  call, its node and the name of the function. -/
  parse : ScopeId → NodeId → String → Script σ (Except Error NodeId)
  /-- How much further checks may nest because of the nodes it builds. -/
  depth : Nat

/-- A checker of compilation units. -/
structure Checker (σ : Type) where
  /-- What is known about operations. -/
  spec : OpSpec
  /-- How lenient the checker is. -/
  config : Config
  /-- The supplier of function bodies, if there is one. -/
  parser : Option (BodyParser σ)

namespace Context

variable {σ : Type} (ctx : Context σ)

/-- Decides a judgement by the rule for it. -/
def rule (obtain : BodySource σ) : {α : Type} → Judgement α → Check σ α
  | _, .typeOf resolving expr => ctx.typeRule obtain resolving expr
  | _, .returnType resolving body => ctx.returnTypeRule resolving body
  | _, .calls expr => ctx.callsRule expr
  | _, .statement stmt => ctx.statementRule stmt

/-- Answers a query. -/
def answer : {α : Type} → Query α → Check σ α
  | _, .typeOf expr => ctx.judge (.typeOf [] expr)
  | _, .expression expr => ctx.checkExpr expr
  | _, .statements body => ctx.checkChildren body
  | _, .function definition => ctx.checkFunction definition
  | _, .arguments call => ctx.checkArguments call
  | _, .pairTypes call => ctx.pairTypes call
  | _, .quadrupleTypes call => ctx.quadrupleTypes call
  | _, .resolveField call field => ctx.resolveField call field
  | _, .returnType body => ctx.judge (.returnType [] body)

end Context

/-- A way to obtain definitions that may put queries to a checker, each under a
configuration. -/
abbrev Supply (σ : Type) := (Config → {β : Type} → Query β → Check σ β) → BodySource σ

namespace Supply

variable {σ : Type}

/-- The context in which the rules apply, nesting judgements at most `depth` levels deep,
where definitions come from `supply`. -/
def context (supply : Supply σ) (spec : OpSpec) : (depth : Nat) → Config → Context σ
  | 0, config => ⟨spec, config, fun _ => throw .outOfDepth⟩
  | depth + 1, config =>
    ⟨spec, config, fun judgement =>
      (supply.context spec depth config).rule
        (supply fun config => (supply.context spec depth config).answer) judgement⟩

@[simp] theorem spec_context (supply : Supply σ) (spec : OpSpec) (config : Config) (d : Nat) :
    (supply.context spec d config).spec = spec := by
  cases d <;> rfl

@[simp] theorem config_context (supply : Supply σ) (spec : OpSpec) (config : Config) (d : Nat) :
    (supply.context spec d config).config = config := by
  cases d <;> rfl

end Supply

namespace BodyParser

variable {σ : Type}

/-- The source of definitions that a parser is, if its queries are answered by
`answer`. -/
def source (parser : BodyParser σ) (answer : Config → {β : Type} → Query β → Check σ β) :
    BodySource σ := fun scope call name => do
  Check.liftExcept (← (parser.parse scope call name).run answer)

end BodyParser

namespace Checker

variable {σ : Type}

/-- The checker with another configuration. -/
def withConfig (checker : Checker σ) (config : Config) : Checker σ :=
  { checker with config }

/-- The way in which a checker obtains definitions: from its parser, if it has one. -/
def supply (checker : Checker σ) : Supply σ := fun answer =>
  Context.materialize (checker.parser.map fun parser => parser.source answer)

/-- The context in which the rules of a checker apply, nesting judgements at most `depth`
levels deep. -/
def context (checker : Checker σ) (depth : Nat) : Context σ :=
  checker.supply.context checker.spec depth checker.config

@[simp] theorem config_context (checker : Checker σ) (d : Nat) :
    (checker.context d).config = checker.config :=
  Supply.config_context ..

/-- The depth to which judgements about a unit may nest without new nodes: on the way
from a statement down to an expression no node comes twice, and neither does any
below a call that enters one more of the functions. -/
def ownDepth (code : CompilationUnit) : Nat :=
  4 * ((code.size + 2) * (code.size + 2))

/-- The depth to which judgements about a unit may nest. -/
def depth (checker : Checker σ) (code : CompilationUnit) : Nat :=
  ownDepth code + (checker.parser.elim 0 BodyParser.depth)

/-- Answers a query. -/
def answer (checker : Checker σ) {α : Type} (query : Query α) : Check σ α := do
  (checker.context (checker.depth (← Check.code))).answer query

/-- The answer to a query, and the state with all that was found out on the way to it. -/
def ask (checker : Checker σ) {α : Type} (query : Query α) (state : CheckState σ) :
    Except Halt α × CheckState σ :=
  (checker.answer query).exec state

/-- Runs a script, answering its queries. -/
def runScript (checker : Checker σ) {α : Type} (script : Script σ α) : Check σ α :=
  script.run fun config => (checker.withConfig config).answer

end Checker

end ContractLang
