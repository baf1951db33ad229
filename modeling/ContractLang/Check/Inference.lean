import ContractLang.Check.Judgement

/-!
# Typing expressions

The type of an expression is determined from its form and the types of its parts
(`ContractLang.Context.typeRule`). Where it comes out known it goes on record in
the node and is not determined again; only literals, constants, parentheses and
casts have nothing to record.

A call is one of a function if the nearest declaration of its name is a function,
and one of an operation otherwise. The first call of a function obtains its
definition (`ContractLang.Context.materialize`): meanwhile the function is
pending, so that a recursive call met on the way is left untyped, and afterwards
it is resolved, or unresolved again if there was no definition to be had.
-/

namespace ContractLang

namespace Context

open Check

variable {σ : Type} (ctx : Context σ)

/-! ### Operands and conditions -/

/-- Fails because typing an operand failed, naming the operand. -/
def operandFault {α : Type} (operand : NodeId) (error : Error) : Check σ α := do
  raiseAt error.position (.invalidOperand (← textOf operand) error.cause)

/-- Fails because an operand has the invalid type. -/
def operandInvalid {α : Type} (operand : NodeId) : Check σ α := do
  let text ← textOf operand
  raise (.invalidOperand text (.typeMismatch "a value" Ty.invalid.name text))

/-- The type of an operand. An error inside the operand is wrapped in one that names
it. -/
def operandType (resolving : List NodeId) (operand : NodeId) : Check σ Ty := do
  let type ← (ctx.judge (.typeOf resolving operand)).onFault (operandFault operand)
  rejectIf (type = .invalid) (operandInvalid operand)
  return type

/-- Requires a type of the operand on one side of an operator, if a known one is
expected there. -/
def expectOperand (expr : NodeId) (side : String) (expected received : Ty) : Check σ Unit :=
  rejectIf (expected.isKnown ∧ expected ≠ received) do
    raise (.operandMismatch side expected.name received.name (← textOf expr))

/-- Requires a condition to be a truth value. -/
def expectCondition (resolving : List NodeId) (cond : NodeId) : Check σ Unit := do
  let received ← ctx.judge (.typeOf resolving cond)
  rejectIf (received ≠ .uint64) do
    raiseAt (← node cond).position (.conditionType received.name)

/-! ### The forms of expressions -/

/-- The type of a name used as a value. -/
def identType (scope : ScopeId) (name : String) : Check σ Ty := do
  match (← code).scopes.lookup scope name with
  | .error error => raise (.identLookupFailed name error.cause.message)
  | .ok descriptor =>
    if descriptor.type = .invalid then raise (.identLookupFailed name "invalid type")
    else return descriptor.type

/-- The type of an operator between two operands. -/
def binaryType (resolving : List NodeId) (expr : NodeId) (op : String) (lhs rhs : NodeId) :
    Check σ Ty := do
  let result ← liftExcept (ctx.spec.resultType op 0)
  let left ← liftExcept (ctx.spec.argumentType op 0)
  let right ← liftExcept (ctx.spec.argumentType op 1)
  let leftReceived ← ctx.operandType resolving lhs
  let rightReceived ← ctx.operandType resolving rhs
  expectOperand expr "left" left leftReceived
  expectOperand expr "right" right rightReceived
  rejectIf (leftReceived ≠ rightReceived) (typeMismatch expr leftReceived rightReceived)
  return result

/-- The type of an operator before its operand, which has to be that of the operand. -/
def unaryType (resolving : List NodeId) (expr : NodeId) (op : String) (value : NodeId) :
    Check σ Ty := do
  let result ← liftExcept (ctx.spec.resultType op 0)
  let expected ← liftExcept (ctx.spec.argumentType op 0)
  let received ← ctx.operandType resolving value
  rejectIf (expected.isKnown ∧ expected ≠ received) (typeMismatch expr expected received)
  rejectIf (result ≠ received) (typeMismatch expr result received)
  return result

/-- The type of a choice between two values, which have to agree. -/
def choiceType (resolving : List NodeId) (cond yes no : NodeId) : Check σ Ty := do
  ctx.expectCondition resolving cond
  let first ← ctx.judge (.typeOf resolving yes)
  let second ← ctx.judge (.typeOf resolving no)
  rejectIf (first ≠ second) (raise (.branchMismatch first.name second.name))
  return first

/-- The type of a cast, which only an untyped value needs. -/
def castType (resolving : List NodeId) (target : Ty) (value : NodeId) : Check σ Ty := do
  let source ← ctx.judge (.typeOf resolving value)
  rejectIf (source ≠ .unknown ∧ source ≠ target)
    (raise (.castFailed source.name target.name))
  return target

/-! ### Calls -/

/-- The type of a call of an operation: the declared one, or, if this is unknown, that of
the argument it depends on. -/
def operationType (resolving : List NodeId) (call : Node) (name : String) : Check σ Ty := do
  let type ← liftExcept (ctx.spec.declaredType name call.field)
  if type = .unknown then
    match ctx.spec.dependentOn? name call.children with
    | some argument => ctx.judge (.typeOf resolving argument)
    | none => return .unknown
  else
    return type

/-- The error that is reported when the definition of a function was not obtained. -/
def unresolvedBy (name : String) : Halt → Halt
  | .outOfDepth => .outOfDepth
  | .fault error =>
    match error.cause with
    | .functionNotResolved f reason => .fault (.unplaced (.functionNotResolved f reason))
    | cause => .fault (.unplaced (.functionNotResolved name cause.message))

/-- Obtains the definition of a function on behalf of a call. -/
def materialize (source : Option (BodySource σ)) (scope : ScopeId) (call : NodeId)
    (name : String) : Check σ NodeId := do
  changeScopes fun scopes => scopes.setBinding scope name (.pending call)
  let obtained ← outcome <|
    match source with
    | some source => source scope call name
    | none => raise (.functionNotResolved name "no function parser configured")
  match obtained with
  | .ok definition =>
    changeScopes fun scopes => scopes.setBinding scope name (.resolved definition)
    return definition
  | .error halt =>
    changeScopes fun scopes => scopes.setBinding scope name .unresolved
    throw (unresolvedBy name halt)

/-- The type of a call of a function with a definition. A known one completes the
descriptor of the function. -/
def definedType (resolving : List NodeId) (call : NodeId) (scope : ScopeId) (name : String)
    (definition : NodeId) : Check σ Ty := do
  modifyCode fun code => code.setDefinition call definition
  let type ← ctx.functionType resolving definition
  complete scope name type
  return type

/-- The type of a call. The definition of a function that has none yet is got from
`obtain`. -/
def callType (obtain : BodySource σ) (resolving : List NodeId) (id : NodeId)
    (name : String) : Check σ Ty := do
  let call ← node id
  match (← code).scopes.binding? call.scope name with
  | some (.resolved definition) => ctx.definedType resolving id call.scope name definition
  | some (.pending _) => return .unknown
  | some .unresolved =>
    let definition ← obtain call.scope id name
    ctx.definedType resolving id call.scope name definition
  | none =>
    if ctx.spec.isBuiltin name then ctx.operationType resolving call name
    else raise (.functionLookupFailed name)

/-! ### The rule -/

/-- The type of a node, by its form. -/
def formType (obtain : BodySource σ) (resolving : List NodeId) (id : NodeId) :
    Form → Check σ Ty
  | .literal type _ => pure type
  | .const _ type _ => pure type
  | .ident name => do
    let scope := (← node id).scope
    memo id (identType scope name)
  | .binary op lhs rhs => memo id (ctx.binaryType resolving id op lhs rhs)
  | .group value => ctx.judge (.typeOf resolving value)
  | .unary op value => memo id (ctx.unaryType resolving id op value)
  | .choice cond yes no => memo id (ctx.choiceType resolving cond yes no)
  | .cast target value => ctx.castType resolving target value
  | .call name => memo id (ctx.callType obtain resolving id name)
  | .runtimeField op field _ => memo id (liftExcept (ctx.spec.fieldType op field))
  | .runtimeArg op _ => memo id (liftExcept (ctx.spec.resultType op 0))
  | form => raise (.notAnExpression form.label)

/-- The type of an expression. An error that has no place yet is reported at the
expression. -/
def typeRule (obtain : BodySource σ) (resolving : List NodeId) (expr : NodeId) :
    Check σ Ty := do
  let node ← node expr
  located node.position (ctx.formType obtain resolving expr node.form)

end Context

end ContractLang
