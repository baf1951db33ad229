import ContractLang.Check.Calls
import ContractLang.Check.Exits
import ContractLang.Check.Inference
import ContractLang.CompilationUnit.Returns

/-!
# Checking statements

Statements are checked one after another, from the outside to the inside, and
the first error ends the check (`ContractLang.Context.statementRule`). On the way,
the types of assigned values complete the descriptors of variables that were
declared without a type (`ContractLang.Context.checkTargets`), and the return types
of functions complete theirs (`ContractLang.Context.checkFunction`).
-/

namespace ContractLang

namespace Context

open Check

variable {σ : Type} (ctx : Context σ)

/-- Checks all children of a node. -/
def checkChildren (id : NodeId) : Check σ Unit := do
  ((← code).children id).forM fun child => ctx.judge (.statement child)

/-! ### Assignments -/

/-- Binds a name to a value of a given type: the nearest descriptor of the name must
not clash with it, and takes it over if it has no known type. -/
def bindTarget (stmt : NodeId) (scope : ScopeId) (name : String) (type : Ty) :
    Check σ Unit := do
  let descriptor ← liftExcept ((← code).scopes.lookup scope name)
  rejectIf (descriptor.type.clashes type) (typeMismatch stmt descriptor.type type)
  complete scope name type

/-- The types of the values that an assignment gives its targets. -/
def valueTypes (targets : Targets) (value : NodeId) : Check σ (List Ty) :=
  match targets with
  | .single _ => do return [← ctx.judge (.typeOf [] value)]
  | .pair .. => ctx.pairTypes value
  | .quadruple .. => ctx.quadrupleTypes value

/-- Checks an assignment or a declaration of variables. -/
def checkTargets (stmt : NodeId) (scope : ScopeId) (targets : Targets) (value : NodeId) :
    Check σ Unit := do
  discard <| ctx.checkExpr value
  let types ← ctx.valueTypes targets value
  (targets.names.zip types).forM fun (name, type) => bindTarget stmt scope name type
  modifyCode fun code => code.setTargetTypes stmt types

/-! ### Functions -/

/-- Connects a function that still waits for its body with a definition. -/
def bindDefinition (scope : ScopeId) (name : String) (definition : NodeId) : Check σ Unit := do
  if (← code).scopes.binding? scope name = some .unresolved then
    changeScopes fun scopes => scopes.setBinding scope name (.resolved definition)
  else pure ()

/-- Compares the return type of a definition with the nearest descriptor of its name,
if there is one, which takes it over if it has no known type. -/
def reconcile (definition : NodeId) (name : String) (type : Ty) : Check σ Unit := do
  let code ← code
  let node := code.node definition
  match code.scopes.find? node.scope name with
  | none => pure ()
  | some descriptor =>
    rejectIf (descriptor.type.clashes type)
      (raiseAt node.position
        (.typeMismatch descriptor.type.name type.name (code.render definition)))
    complete node.scope name type

/-- Checks the body of a function, requires it to return on every path, and gives its
return type. -/
def checkFunction (definition : NodeId) : Check σ Ty := do
  let node ← node definition
  match node.form with
  | .function name _ _ =>
    bindDefinition node.scope name definition
    ctx.checkChildren definition
    let code ← code
    rejectIf (¬code.alwaysReturns definition)
      (raiseAt (code.node definition).position (.missingReturn name))
    let type ← ctx.functionType [] definition
    reconcile definition name type
    return type
  | form => raiseAt node.position (.notAnExpression form.label)

/-! ### The rule -/

/-- The operation whose fields are those of an inner transaction. -/
def innerFieldOp : String := "itxn_field"

/-- Checks that a field of an inner transaction is set to a value of its type. -/
def checkInnerField (stmt : NodeId) (field : String) (value : NodeId) : Check σ Unit := do
  let expected ← liftExcept (ctx.spec.fieldType innerFieldOp field)
  let received ← ctx.checkExpr value
  rejectIf (received.isKnown ∧ received ≠ expected) (typeMismatch stmt expected received)
  modifyCode fun code => code.setType stmt expected

/-- Checks a conditional statement or a loop: its condition, then its children. -/
def checkGuarded (stmt cond : NodeId) : Check σ Unit := do
  discard <| ctx.checkExpr cond
  ctx.expectCondition [] cond
  ctx.checkChildren stmt

/-- Checks a statement, by its form. -/
def checkForm (stmt : NodeId) (scope : ScopeId) : Form → Check σ Unit
  | .program | .block => ctx.checkChildren stmt
  | .function .. => discard <| ctx.checkFunction stmt
  | .ret (some value) _ | .breakLoop (some value) => discard <| ctx.checkExpr value
  | .ret none _ | .breakLoop none => pure ()
  | .abort | .innerBegin | .innerSubmit | .const .. => pure ()
  | .innerField field value => ctx.checkInnerField stmt field value
  | .assign targets value | .declare targets value => ctx.checkTargets stmt scope targets value
  | .branch cond | .loop cond => ctx.checkGuarded stmt cond
  | _ => discard <| ctx.checkExpr stmt

/-- Checks a statement. An error that has no place yet is reported at the statement. -/
def statementRule (stmt : NodeId) : Check σ Unit := do
  let node ← node stmt
  located node.position (ctx.checkForm stmt node.scope node.form)

end Context

end ContractLang
