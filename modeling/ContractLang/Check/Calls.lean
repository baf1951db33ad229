import ContractLang.Check.Judgement

/-!
# Calls of operations

Typing an expression does not look at the arguments of most calls. A second walk
over the expression does (`ContractLang.Context.callsRule`): it types every part,
and compares the arguments of every operation with its signature
(`ContractLang.Context.checkArguments`).

An operation can give several values at once, which are then bound by one
statement (`ContractLang.Context.multiValue`), and it can be qualified with a
field, which determines its type (`ContractLang.Context.resolveField`).
-/

namespace ContractLang

namespace Context

open Check

variable {σ : Type} (ctx : Context σ)

/-- The name that a node calls. -/
def callName (call : NodeId) : Check σ String := do
  match (← code).form call with
  | .call name => return name
  | _ => raise (.notMultiValue (← textOf call))

/-! ### Arguments -/

/-- Compares one argument of an operation with what is expected at its position. -/
def checkArgument (call : NodeId) (name : String) (position : Nat) (argument : NodeId) :
    Check σ Unit := do
  let expected ← liftExcept (ctx.spec.argumentType name position)
  let received ← ctx.judge (.typeOf [] argument)
  rejectIf (expected.clashes received) do
    raiseAt (← node argument).position
      (.argumentMismatch position expected.name received.name (← textOf call))

/-- Compares the arguments of an operation with its signature, from a position on. -/
def checkArgumentsFrom (call : NodeId) (name : String) : Nat → List NodeId → Check σ Unit
  | _, [] => pure ()
  | position, argument :: rest => do
    ctx.checkArgument call name position argument
    checkArgumentsFrom call name (position + 1) rest

/-- Compares the arguments of an operation with its signature. -/
def checkArguments (call : NodeId) : Check σ Unit := do
  let name ← callName call
  ctx.checkArgumentsFrom call name 0 ((← code).children call)

/-- Types a part of an expression and checks the calls inside it. -/
def checkPart (part : NodeId) : Check σ Unit := do
  discard <| ctx.judge (.typeOf [] part)
  ctx.judge (.calls part)

/-- Checks the calls inside an expression, inner ones first. -/
def callsRule (expr : NodeId) : Check σ Unit := do
  let node ← node expr
  match node.form with
  | .call name =>
    let isFunction :=
      node.definition.isSome || ((← code).scopes.binding? node.scope name).isSome
    node.children.forM ctx.checkPart
    if isFunction then pure () else ctx.checkArguments expr
  | form => form.operands.forM ctx.checkPart

/-- The type of an expression all of whose parts are in order. -/
def checkExpr (expr : NodeId) : Check σ Ty := do
  let type ← ctx.judge (.typeOf [] expr)
  ctx.judge (.calls expr)
  return type

/-! ### Several values -/

/-- The list with its first unknown type replaced. -/
def fillUnknown (type : Ty) : List Ty → List Ty
  | [] => []
  | .unknown :: rest => type :: rest
  | slot :: rest => slot :: fillUnknown type rest

/-- The first `count` types that a called operation gives, in the order of its
signature. The type of the call stands in for the first unknown one. -/
def multiValue (call : NodeId) (count : Nat) : Check σ (List Ty) := do
  let name ← callName call
  let type ← ctx.judge (.typeOf [] call)
  rejectIf (← node call).definition.isSome (raise (.notMultiValue name))
  match ctx.spec.resultTypes name count with
  | .ok types => return fillUnknown type types
  | .error _ => raise (.notMultiValue name)

/-- The types of a value of double width, high word first. -/
def pairTypes (call : NodeId) : Check σ (List Ty) :=
  ctx.multiValue call 2

/-- The types of the result of a wide division, quotient first and high words first.
The signature has them the other way round. -/
def quadrupleTypes (call : NodeId) : Check σ (List Ty) := do
  return (← ctx.multiValue call 4).reverse

/-! ### Fields -/

/-- Qualifies a call with a field, which determines its type. -/
def resolveField (call : NodeId) (field : String) : Check σ Ty := do
  let name ← callName call
  let type ← liftExcept (ctx.spec.fieldType name field)
  modifyCode fun code => (code.setField call field).setType call type
  return type

end Context

end ContractLang
