import ContractLang.Check.Checker
import ContractLang.Proofs.Bounds.Walks

/-!
# A checker on its guard

The checker reads and changes nodes and scopes by number, and nothing in its rules asks whether
there is one of that number. A guard does (`ContractLang.Guard`): here are the rules with a look
at all that is read or changed by number, right before this is done, and with something else done
first for whatever does not exist (`ContractLang.Guard.look`). What that is can be chosen freely,
so that a guard can abort the check, or change the unit beyond recognition. If guards make no
difference, whatever they do, then nothing is ever read or changed that does not exist.

Whenever something has been changed, all that anything in the unit refers to then is looked at as
well (`ContractLang.Guard.lookOver`). Rules that read nothing on their own, but turn to other
judgements for it, are as they were. The scripts of a parser are guarded in the same way.
-/

namespace ContractLang

open Check

/-- What is to be done when something is looked at that does not exist. -/
structure Guard (σ : Type) where
  /-- What is done for the place of a node or of a scope that does not exist. -/
  missing : Place → Check σ Unit

/-- What is looked at to carry out an edit. -/
def Edit.lookedAt (code : CompilationUnit) {α : Type} (e : Edit α) : List Place :=
  e.places ++
    match e with
    | .update scope _ _ => (code.scopes.chain scope).map .scope
    | _ => []

namespace Guard

variable {σ : Type} (g : Guard σ) (ctx : Context σ)

/-- The unit, of which some places are looked at. -/
def look (places : CompilationUnit → List Place) : Check σ CompilationUnit := do
  let code ← code
  ((places code).filter fun p => ¬code.Has p).forM g.missing
  return code

/-- Looks at all that anything in the unit refers to. -/
def lookOver : Check σ Unit :=
  discard <| g.look CompilationUnit.references

/-! ### Reading and refining the unit -/

/-- A node of the unit. -/
def node (id : NodeId) : Check σ Node :=
  return (← g.look fun _ => [.node id]).node id

/-- The text of a node. -/
def textOf (id : NodeId) : Check σ String :=
  return (← g.look fun code => (code.rendered id).map .node).render id

/-- The scopes, to look names up from one of them. -/
def scopesFrom (scope : ScopeId) : Check σ ScopeTree :=
  return (← g.look fun code => (code.scopes.chain scope).map .scope).scopes

/-- Changes the unit at a node. -/
def modifyCode (id : NodeId) (f : CompilationUnit → CompilationUnit) : Check σ Unit := do
  discard <| g.node id
  Check.modifyCode f
  g.lookOver

/-- Changes what a name is found to be, which may fail. -/
def changeScopes (scope : ScopeId) (f : ScopeTree → Except Error ScopeTree) : Check σ Unit := do
  discard <| g.scopesFrom scope
  Check.changeScopes f
  g.lookOver

/-- Gives the nearest descriptor of a name a type, if that is a known one and the
descriptor has none. -/
def complete (scope : ScopeId) (name : String) (type : Ty) : Check σ Unit :=
  if type.isKnown then g.changeScopes scope fun scopes => scopes.refine scope name type
  else pure ()

/-- Puts a type on record for a node, if it is a known one. -/
def record (id : NodeId) (type : Ty) : Check σ Unit :=
  if type.isKnown then g.modifyCode id fun code => code.setType id type else pure ()

/-- The type on record for a node if it is known, and else the one that `infer` gives,
which then goes on record. -/
def memo (id : NodeId) (infer : Check σ Ty) : Check σ Ty := do
  let known := (← g.node id).type
  if known.isKnown then
    return known
  let type ← infer
  g.record id type
  return type

/-- Fails because the value of a node has another type than expected. -/
def typeMismatch {α : Type} (id : NodeId) (expected received : Ty) : Check σ α := do
  raise (.typeMismatch expected.name received.name (← g.textOf id))

/-! ### Operands and conditions -/

/-- Fails because typing an operand failed, naming the operand. -/
def operandFault {α : Type} (operand : NodeId) (error : Error) : Check σ α := do
  raiseAt error.position (.invalidOperand (← g.textOf operand) error.cause)

/-- Fails because an operand has the invalid type. -/
def operandInvalid {α : Type} (operand : NodeId) : Check σ α := do
  let text ← g.textOf operand
  raise (.invalidOperand text (.typeMismatch "a value" Ty.invalid.name text))

/-- The type of an operand. -/
def operandType (resolving : List NodeId) (operand : NodeId) : Check σ Ty := do
  let type ← (ctx.judge (.typeOf resolving operand)).onFault (g.operandFault operand)
  rejectIf (type = .invalid) (g.operandInvalid operand)
  return type

/-- Requires a type of the operand on one side of an operator, if a known one is
expected there. -/
def expectOperand (expr : NodeId) (side : String) (expected received : Ty) : Check σ Unit :=
  rejectIf (expected.isKnown ∧ expected ≠ received) do
    raise (.operandMismatch side expected.name received.name (← g.textOf expr))

/-- Requires a condition to be a truth value. -/
def expectCondition (resolving : List NodeId) (cond : NodeId) : Check σ Unit := do
  let received ← ctx.judge (.typeOf resolving cond)
  rejectIf (received ≠ .uint64) do
    raiseAt (← g.node cond).position (.conditionType received.name)

/-! ### The forms of expressions -/

/-- The type of a name used as a value. -/
def identType (scope : ScopeId) (name : String) : Check σ Ty := do
  match (← g.scopesFrom scope).lookup scope name with
  | .error error => raise (.identLookupFailed name error.cause.message)
  | .ok descriptor =>
    if descriptor.type = .invalid then raise (.identLookupFailed name "invalid type")
    else return descriptor.type

/-- The type of an operator between two operands. -/
def binaryType (resolving : List NodeId) (expr : NodeId) (op : String) (lhs rhs : NodeId) :
    Check σ Ty := do
  let result ← liftExcept (ctx.spec.resultType op 0)
  let left ← liftExcept (ctx.spec.argumentType op 0)
  let right ← liftExcept (ctx.spec.argumentType op 1)
  let leftReceived ← g.operandType ctx resolving lhs
  let rightReceived ← g.operandType ctx resolving rhs
  g.expectOperand expr "left" left leftReceived
  g.expectOperand expr "right" right rightReceived
  rejectIf (leftReceived ≠ rightReceived) (g.typeMismatch expr leftReceived rightReceived)
  return result

/-- The type of an operator before its operand. -/
def unaryType (resolving : List NodeId) (expr : NodeId) (op : String) (value : NodeId) :
    Check σ Ty := do
  let result ← liftExcept (ctx.spec.resultType op 0)
  let expected ← liftExcept (ctx.spec.argumentType op 0)
  let received ← g.operandType ctx resolving value
  rejectIf (expected.isKnown ∧ expected ≠ received) (g.typeMismatch expr expected received)
  rejectIf (result ≠ received) (g.typeMismatch expr result received)
  return result

/-- The type of a choice between two values. -/
def choiceType (resolving : List NodeId) (cond yes no : NodeId) : Check σ Ty := do
  g.expectCondition ctx resolving cond
  let first ← ctx.judge (.typeOf resolving yes)
  let second ← ctx.judge (.typeOf resolving no)
  rejectIf (first ≠ second) (raise (.branchMismatch first.name second.name))
  return first

/-! ### Calls -/

/-- Settles a function for which a definition has been obtained, or has not. -/
def settle (scope : ScopeId) (name : String) : Except Halt NodeId → Check σ NodeId
  | .ok definition => do
    g.changeScopes scope fun scopes => scopes.setBinding scope name (.resolved definition)
    return definition
  | .error halt => do
    g.changeScopes scope fun scopes => scopes.setBinding scope name .unresolved
    throw (Context.unresolvedBy name halt)

/-- Obtains the definition of a function on behalf of a call. -/
def materialize (source : Option (BodySource σ)) (scope : ScopeId) (call : NodeId)
    (name : String) : Check σ NodeId := do
  g.changeScopes scope fun scopes => scopes.setBinding scope name (.pending call)
  let obtained ← outcome <|
    match source with
    | some source => source scope call name
    | none => raise (.functionNotResolved name "no function parser configured")
  g.settle scope name obtained

/-- The type of a call of a function with a definition. -/
def definedType (resolving : List NodeId) (call : NodeId) (scope : ScopeId) (name : String)
    (definition : NodeId) : Check σ Ty := do
  g.modifyCode call fun code => code.setDefinition call definition
  let type ← ctx.functionType resolving definition
  g.complete scope name type
  return type

/-- The type of a call. -/
def callType (obtain : BodySource σ) (resolving : List NodeId) (id : NodeId)
    (name : String) : Check σ Ty := do
  let call ← g.node id
  match (← g.scopesFrom call.scope).binding? call.scope name with
  | some (.resolved definition) => g.definedType ctx resolving id call.scope name definition
  | some (.pending _) => return .unknown
  | some .unresolved =>
    let definition ← obtain call.scope id name
    g.definedType ctx resolving id call.scope name definition
  | none =>
    if ctx.spec.isBuiltin name then ctx.operationType resolving call name
    else raise (.functionLookupFailed name)

/-- The type of a node, by its form. -/
def formType (obtain : BodySource σ) (resolving : List NodeId) (id : NodeId) :
    Form → Check σ Ty
  | .literal type _ => pure type
  | .const _ type _ => pure type
  | .ident name => do
    let scope := (← g.node id).scope
    g.memo id (g.identType scope name)
  | .binary op lhs rhs => g.memo id (g.binaryType ctx resolving id op lhs rhs)
  | .group value => ctx.judge (.typeOf resolving value)
  | .unary op value => g.memo id (g.unaryType ctx resolving id op value)
  | .choice cond yes no => g.memo id (g.choiceType ctx resolving cond yes no)
  | .cast target value => ctx.castType resolving target value
  | .call name => g.memo id (g.callType ctx obtain resolving id name)
  | .runtimeField op field _ => g.memo id (liftExcept (ctx.spec.fieldType op field))
  | .runtimeArg op _ => g.memo id (liftExcept (ctx.spec.resultType op 0))
  | form => raise (.notAnExpression form.label)

/-- The type of an expression. -/
def typeRule (obtain : BodySource σ) (resolving : List NodeId) (expr : NodeId) :
    Check σ Ty := do
  let node ← g.node expr
  located node.position (g.formType ctx obtain resolving expr node.form)

/-! ### Bodies -/

/-- The type that a statement leaves the function with, unknown if it does not. -/
def exitType (resolving : List NodeId) (stmt : NodeId) : Check σ Ty := do
  match (← g.node stmt).form with
  | .ret (some value) _ => ctx.judge (.typeOf resolving value)
  | .abort => return if ctx.config.typelessAbort then .unknown else .uint64
  | .branch _ | .block => ctx.judge (.returnType resolving stmt)
  | _ => return .unknown

/-- The common type of the exits so far and those of one more statement. -/
def unifyExits (resolving : List NodeId) (sofar : Ty) (stmt : NodeId) : Check σ Ty := do
  let type ← g.exitType ctx resolving stmt
  rejectIf (sofar.clashes type) do
    raiseAt (← g.node stmt).position (.blockMismatch sofar.name type.name)
  return if type.isKnown then type else sofar

/-- The common type of all exits of a body. -/
def returnTypeRule (resolving : List NodeId) (body : NodeId) : Check σ Ty := do
  (← g.node body).children.foldlM (g.unifyExits ctx resolving) .unknown

/-! ### Calls of operations -/

/-- The name that a node calls. -/
def callName (call : NodeId) : Check σ String := do
  match (← g.node call).form with
  | .call name => return name
  | _ => raise (.notMultiValue (← g.textOf call))

/-- Compares one argument of an operation with what is expected at its position. -/
def checkArgument (call : NodeId) (name : String) (position : Nat) (argument : NodeId) :
    Check σ Unit := do
  let expected ← liftExcept (ctx.spec.argumentType name position)
  let received ← ctx.judge (.typeOf [] argument)
  rejectIf (expected.clashes received) do
    raiseAt (← g.node argument).position
      (.argumentMismatch position expected.name received.name (← g.textOf call))

/-- Compares the arguments of an operation with its signature, from a position on. -/
def checkArgumentsFrom (call : NodeId) (name : String) : Nat → List NodeId → Check σ Unit
  | _, [] => pure ()
  | position, argument :: rest => do
    g.checkArgument ctx call name position argument
    checkArgumentsFrom call name (position + 1) rest

/-- Compares the arguments of an operation with its signature. -/
def checkArguments (call : NodeId) : Check σ Unit := do
  let name ← g.callName call
  g.checkArgumentsFrom ctx call name 0 (← g.node call).children

/-- Checks the calls inside an expression, inner ones first. -/
def callsRule (expr : NodeId) : Check σ Unit := do
  let node ← g.node expr
  match node.form with
  | .call name =>
    let isFunction :=
      node.definition.isSome || ((← g.scopesFrom node.scope).binding? node.scope name).isSome
    node.children.forM ctx.checkPart
    if isFunction then pure () else g.checkArguments ctx expr
  | form => form.operands.forM ctx.checkPart

/-- The first `count` types that a called operation gives. -/
def multiValue (call : NodeId) (count : Nat) : Check σ (List Ty) := do
  let name ← g.callName call
  let type ← ctx.judge (.typeOf [] call)
  rejectIf (← g.node call).definition.isSome (raise (.notMultiValue name))
  match ctx.spec.resultTypes name count with
  | .ok types => return Context.fillUnknown type types
  | .error _ => raise (.notMultiValue name)

/-- The types of the result of a wide division, quotient first and high words first. -/
def quadrupleTypes (call : NodeId) : Check σ (List Ty) := do
  return (← g.multiValue ctx call 4).reverse

/-- Qualifies a call with a field, which determines its type. -/
def resolveField (call : NodeId) (field : String) : Check σ Ty := do
  let name ← g.callName call
  let type ← liftExcept (ctx.spec.fieldType name field)
  g.modifyCode call fun code => (code.setField call field).setType call type
  return type

/-! ### Statements -/

/-- Checks all children of a node. -/
def checkChildren (id : NodeId) : Check σ Unit := do
  (← g.node id).children.forM fun child => ctx.judge (.statement child)

/-- Binds a name to a value of a given type. -/
def bindTarget (stmt : NodeId) (scope : ScopeId) (name : String) (type : Ty) :
    Check σ Unit := do
  let descriptor ← liftExcept ((← g.scopesFrom scope).lookup scope name)
  rejectIf (descriptor.type.clashes type) (g.typeMismatch stmt descriptor.type type)
  g.complete scope name type

/-- The types of the values that an assignment gives its targets. -/
def valueTypes (targets : Targets) (value : NodeId) : Check σ (List Ty) :=
  match targets with
  | .single _ => do return [← ctx.judge (.typeOf [] value)]
  | .pair .. => g.multiValue ctx value 2
  | .quadruple .. => g.quadrupleTypes ctx value

/-- Checks an assignment or a declaration of variables. -/
def checkTargets (stmt : NodeId) (scope : ScopeId) (targets : Targets) (value : NodeId) :
    Check σ Unit := do
  discard <| ctx.checkExpr value
  let types ← g.valueTypes ctx targets value
  (targets.names.zip types).forM fun (name, type) => g.bindTarget stmt scope name type
  g.modifyCode stmt fun code => code.setTargetTypes stmt types

/-- Connects a function that still waits for its body with a definition. -/
def bindDefinition (scope : ScopeId) (name : String) (definition : NodeId) : Check σ Unit := do
  if (← g.scopesFrom scope).binding? scope name = some .unresolved then
    g.changeScopes scope fun scopes => scopes.setBinding scope name (.resolved definition)
  else pure ()

/-- Compares the return type of a definition with the nearest descriptor of its name. -/
def reconcile (definition : NodeId) (name : String) (type : Ty) : Check σ Unit := do
  let code ← g.look fun code => .node definition ::
    ((code.scopes.chain (code.node definition).scope).map .scope ++
      (code.rendered definition).map .node)
  let node := code.node definition
  match code.scopes.find? node.scope name with
  | none => pure ()
  | some descriptor =>
    rejectIf (descriptor.type.clashes type)
      (raiseAt node.position
        (.typeMismatch descriptor.type.name type.name (code.render definition)))
    g.complete node.scope name type

/-- Checks the body of a function, and gives its return type. -/
def checkFunction (definition : NodeId) : Check σ Ty := do
  let node ← g.node definition
  match node.form with
  | .function name _ _ =>
    g.bindDefinition node.scope name definition
    g.checkChildren ctx definition
    let code ← g.look fun code => .node definition :: (code.examined definition).map .node
    rejectIf (¬code.alwaysReturns definition)
      (raiseAt (code.node definition).position (.missingReturn name))
    let type ← ctx.functionType [] definition
    g.reconcile definition name type
    return type
  | form => raiseAt node.position (.notAnExpression form.label)

/-- Checks that a field of an inner transaction is set to a value of its type. -/
def checkInnerField (stmt : NodeId) (field : String) (value : NodeId) : Check σ Unit := do
  let expected ← liftExcept (ctx.spec.fieldType Context.innerFieldOp field)
  let received ← ctx.checkExpr value
  rejectIf (received.isKnown ∧ received ≠ expected) (g.typeMismatch stmt expected received)
  g.modifyCode stmt fun code => code.setType stmt expected

/-- Checks a conditional statement or a loop: its condition, then its children. -/
def checkGuarded (stmt cond : NodeId) : Check σ Unit := do
  discard <| ctx.checkExpr cond
  g.expectCondition ctx [] cond
  g.checkChildren ctx stmt

/-- Checks a statement, by its form. -/
def checkForm (stmt : NodeId) (scope : ScopeId) : Form → Check σ Unit
  | .program | .block => g.checkChildren ctx stmt
  | .function .. => discard <| g.checkFunction ctx stmt
  | .ret (some value) _ | .breakLoop (some value) => discard <| ctx.checkExpr value
  | .ret none _ | .breakLoop none => pure ()
  | .abort | .innerBegin | .innerSubmit | .const .. => pure ()
  | .innerField field value => g.checkInnerField ctx stmt field value
  | .assign targets value | .declare targets value => g.checkTargets ctx stmt scope targets value
  | .branch cond | .loop cond => g.checkGuarded ctx stmt cond
  | _ => discard <| ctx.checkExpr stmt

/-- Checks a statement. -/
def statementRule (stmt : NodeId) : Check σ Unit := do
  let node ← g.node stmt
  located node.position (g.checkForm ctx stmt node.scope node.form)

/-! ### Judgements and queries -/

/-- Decides a judgement by the rule for it. -/
def rule (obtain : BodySource σ) : {α : Type} → Judgement α → Check σ α
  | _, .typeOf resolving expr => g.typeRule ctx obtain resolving expr
  | _, .returnType resolving body => g.returnTypeRule ctx resolving body
  | _, .calls expr => g.callsRule ctx expr
  | _, .statement stmt => g.statementRule ctx stmt

/-- Answers a query. -/
def answer : {α : Type} → Query α → Check σ α
  | _, .typeOf expr => ctx.judge (.typeOf [] expr)
  | _, .expression expr => ctx.checkExpr expr
  | _, .statements body => g.checkChildren ctx body
  | _, .function definition => g.checkFunction ctx definition
  | _, .arguments call => g.checkArguments ctx call
  | _, .pairTypes call => g.multiValue ctx call 2
  | _, .quadrupleTypes call => g.quadrupleTypes ctx call
  | _, .resolveField call field => g.resolveField ctx call field
  | _, .returnType body => ctx.judge (.returnType [] body)

/-! ### Checkers -/

/-- Runs a script, whose queries are answered by `answer`. -/
def run {α : Type} (answer : Config → {β : Type} → Query β → Check σ β) :
    Script σ α → Check σ α
  | .done value => pure value
  | .edit e next => do
    match (← g.look e.lookedAt).apply e with
    | .ok (value, code) =>
      Check.modifyCode fun _ => code
      g.lookOver
      run answer (next (.ok value))
    | .error error => run answer (next (.error error))
  | .query config q next => do
    match ← outcome (answer config q) with
    | .ok value => run answer (next (.ok value))
    | .error (.fault error) => run answer (next (.error error))
    | .error .outOfDepth => throw .outOfDepth
  | .read next => do run answer (next (← get))
  | .write notes next => do
    modify fun state => { state with notes }
    run answer next

/-- The source of definitions that a parser is. -/
def source (parser : BodyParser σ) (answer : Config → {β : Type} → Query β → Check σ β) :
    BodySource σ := fun scope call name => do
  liftExcept (← g.run answer (parser.parse scope call name))

/-- The context in which the rules of a checker apply, nesting judgements at most `depth`
levels deep. -/
def context (checker : Checker σ) : (depth : Nat) → Config → Context σ
  | 0, config => ⟨checker.spec, config, fun _ => throw .outOfDepth⟩
  | depth + 1, config =>
    ⟨checker.spec, config, g.rule (context checker depth config)
      (g.materialize (checker.parser.map fun parser =>
        g.source parser fun config => g.answer (context checker depth config)))⟩

/-- Answers a query on behalf of a checker. -/
def ask (checker : Checker σ) {α : Type} (query : Query α) (state : CheckState σ) :
    Except Halt α × CheckState σ :=
  (g.answer (g.context checker (checker.depth state.code) checker.config) query).exec state

end Guard

end ContractLang
