import ContractLang.Proofs.Links

/-!
# Typing without a memory

The checker keeps what it finds out: types go on record in the nodes, calls are
connected with definitions, descriptors are completed. This file has the rules that
it keeps to while doing so, with nothing kept. A type is then a function of the unit
alone (`ContractLang.Typing.type`), whatever has been asked for before, and that is
what the checker's answers are measured against.

The rules turn to one another through `ContractLang.Verdicts`, the types that
expressions and bodies have one level further down; `ContractLang.Typing.verdicts`
starts from no verdict at all and applies the rules again and again.
-/

namespace ContractLang

/-- What the type of an expression depends on. -/
structure Typing where
  /-- What is known about operations. -/
  spec : OpSpec
  /-- How lenient typing is. -/
  config : Config
  /-- The unit that the expressions belong to. -/
  code : CompilationUnit

/-- The types that the rules turn to. Each depends on the functions whose return type is
being determined. -/
structure Verdicts where
  /-- The type of an expression. -/
  typeOf : (resolving : List NodeId) → (expr : NodeId) → Except Halt Ty
  /-- The one type of the exits of a body. -/
  returnType : (resolving : List NodeId) → (body : NodeId) → Except Halt Ty

namespace Typing

variable {α : Type} (T : Typing) (v : Verdicts)

/-! ### Failing -/

/-- Fails at no place in particular. -/
def raise (cause : Cause) : Except Halt α :=
  .error (.fault (.unplaced cause))

/-- An answer of the specification, as one of typing. -/
def lift (answer : Except Error α) : Except Halt α :=
  answer.mapError .fault

/-- Fails if `bad` holds. -/
def rejectIf (bad : Prop) [Decidable bad] (error : Error) : Except Halt Unit :=
  if bad then .error (.fault error) else .ok ()

/-- The same answer, with another error if there is one. -/
def mapFault (f : Error → Error) : Except Halt α → Except Halt α
  | .error (.fault error) => .error (.fault (f error))
  | answer => answer

/-! ### Operands and conditions -/

/-- The error that reports another one inside an operand. -/
def operandFault (operand : NodeId) (error : Error) : Error :=
  ⟨.invalidOperand (T.code.render operand) error.cause, error.position⟩

/-- The error that reports an operand of the invalid type. -/
def operandInvalid (operand : NodeId) : Error :=
  .unplaced (.invalidOperand (T.code.render operand)
    (.typeMismatch "a value" Ty.invalid.name (T.code.render operand)))

/-- The error that reports another type of a node than expected. -/
def mismatch (expr : NodeId) (expected received : Ty) : Error :=
  .unplaced (.typeMismatch expected.name received.name (T.code.render expr))

/-- The error that reports another type of an operand than expected. -/
def operandMismatch (expr : NodeId) (side : String) (expected received : Ty) : Error :=
  .unplaced (.operandMismatch side expected.name received.name (T.code.render expr))

/-- The type of an operand. -/
def operandType (resolving : List NodeId) (operand : NodeId) : Except Halt Ty := do
  let type ← mapFault (T.operandFault operand) (v.typeOf resolving operand)
  rejectIf (type = .invalid) (T.operandInvalid operand)
  return type

/-- Requires a condition to be a truth value. -/
def expectCondition (resolving : List NodeId) (cond : NodeId) : Except Halt Unit := do
  let received ← v.typeOf resolving cond
  rejectIf (received ≠ .uint64) ⟨.conditionType received.name, (T.code.node cond).position⟩

/-! ### The forms of expressions -/

/-- The type of a name used as a value. -/
def identType (scope : ScopeId) (name : String) : Except Halt Ty :=
  match T.code.scopes.lookup scope name with
  | .error error => raise (.identLookupFailed name error.cause.message)
  | .ok descriptor =>
    if descriptor.type = .invalid then raise (.identLookupFailed name "invalid type")
    else .ok descriptor.type

/-- The type of an operator between two operands. -/
def binaryType (resolving : List NodeId) (expr : NodeId) (op : String) (lhs rhs : NodeId) :
    Except Halt Ty := do
  let result ← lift (T.spec.resultType op 0)
  let left ← lift (T.spec.argumentType op 0)
  let right ← lift (T.spec.argumentType op 1)
  let leftReceived ← T.operandType v resolving lhs
  let rightReceived ← T.operandType v resolving rhs
  rejectIf (left.isKnown ∧ left ≠ leftReceived)
    (T.operandMismatch expr "left" left leftReceived)
  rejectIf (right.isKnown ∧ right ≠ rightReceived)
    (T.operandMismatch expr "right" right rightReceived)
  rejectIf (leftReceived ≠ rightReceived) (T.mismatch expr leftReceived rightReceived)
  return result

/-- The type of an operator before its operand. -/
def unaryType (resolving : List NodeId) (expr : NodeId) (op : String) (value : NodeId) :
    Except Halt Ty := do
  let result ← lift (T.spec.resultType op 0)
  let expected ← lift (T.spec.argumentType op 0)
  let received ← T.operandType v resolving value
  rejectIf (expected.isKnown ∧ expected ≠ received) (T.mismatch expr expected received)
  rejectIf (result ≠ received) (T.mismatch expr result received)
  return result

/-- The type of a choice between two values. -/
def choiceType (resolving : List NodeId) (cond yes no : NodeId) : Except Halt Ty := do
  T.expectCondition v resolving cond
  let first ← v.typeOf resolving yes
  let second ← v.typeOf resolving no
  rejectIf (first ≠ second) (.unplaced (.branchMismatch first.name second.name))
  return first

/-- The type of a cast. -/
def castType (resolving : List NodeId) (target : Ty) (value : NodeId) : Except Halt Ty := do
  let source ← v.typeOf resolving value
  rejectIf (source ≠ .unknown ∧ source ≠ target)
    (.unplaced (.castFailed source.name target.name))
  return target

/-! ### Calls -/

/-- The type of a call of an operation. -/
def operationType (resolving : List NodeId) (call : Node) (name : String) :
    Except Halt Ty := do
  let type ← lift (T.spec.declaredType name call.field)
  if type = .unknown then
    match T.spec.dependentOn? name call.children with
    | some argument => v.typeOf resolving argument
    | none => .ok .unknown
  else
    .ok type

/-- The return type of a function, which is unknown while it is being determined. -/
def functionType (resolving : List NodeId) (definition : NodeId) : Except Halt Ty :=
  if resolving.contains definition then .ok .unknown
  else v.returnType (definition :: resolving) definition

/-- The type of a call. A function that has no definition yet is given none. -/
def callType (resolving : List NodeId) (call : Node) (name : String) : Except Halt Ty :=
  match T.code.scopes.binding? call.scope name with
  | some (.resolved definition) => functionType v resolving definition
  | some (.pending _) => .ok .unknown
  | some .unresolved => raise (.functionNotResolved name "no function parser configured")
  | none =>
    if T.spec.isBuiltin name then T.operationType v resolving call name
    else raise (.functionLookupFailed name)

/-! ### The rules -/

/-- The type of a node, by its form. -/
def formType (resolving : List NodeId) (id : NodeId) : Form → Except Halt Ty
  | .literal type _ => .ok type
  | .const _ type _ => .ok type
  | .ident name => T.identType (T.code.node id).scope name
  | .binary op lhs rhs => T.binaryType v resolving id op lhs rhs
  | .group value => v.typeOf resolving value
  | .unary op value => T.unaryType v resolving id op value
  | .choice cond yes no => T.choiceType v resolving cond yes no
  | .cast target value => castType v resolving target value
  | .call name => T.callType v resolving (T.code.node id) name
  | .runtimeField op field _ => lift (T.spec.fieldType op field)
  | .runtimeArg op _ => lift (T.spec.resultType op 0)
  | form => raise (.notAnExpression form.label)

/-- The type of an expression. An error that has no place yet is reported at the
expression. -/
def typeRule (resolving : List NodeId) (expr : NodeId) : Except Halt Ty :=
  mapFault (·.orPosition (T.code.node expr).position)
    (T.formType v resolving expr (T.code.form expr))

/-- A definition of a function has no type, whatever the verdicts. -/
theorem exists_typeRule_of_isDefinition {x : NodeId} (h : T.code.IsDefinition x) :
    ∃ e, ∀ v resolving, T.typeRule v resolving x = .error (.fault e) := by
  obtain ⟨name, params, inlined, hform⟩ := h
  refine ⟨(Error.unplaced (.notAnExpression (T.code.form x).label)).orPosition
    (T.code.node x).position, fun v resolving => ?_⟩
  unfold typeRule
  rw [hform]
  rfl

/-- The type that a statement leaves the function with, unknown if it does not. -/
def exitType (resolving : List NodeId) (stmt : NodeId) : Except Halt Ty :=
  match T.code.form stmt with
  | .ret (some value) _ => v.typeOf resolving value
  | .abort => .ok (if T.config.typelessAbort then .unknown else .uint64)
  | .branch _ | .block => v.returnType resolving stmt
  | _ => .ok .unknown

/-- The common type of the exits so far and those of one more statement. -/
def unifyExits (resolving : List NodeId) (sofar : Ty) (stmt : NodeId) : Except Halt Ty := do
  let type ← T.exitType v resolving stmt
  rejectIf (sofar.clashes type)
    ⟨.blockMismatch sofar.name type.name, (T.code.node stmt).position⟩
  return if type.isKnown then type else sofar

/-- The common type of all exits of a body. -/
def returnTypeRule (resolving : List NodeId) (body : NodeId) : Except Halt Ty :=
  (T.code.children body).foldlM (T.unifyExits v resolving) .unknown

/-- The verdicts that are reached by nesting the rules at most `depth` levels deep. -/
def verdicts : (depth : Nat) → Verdicts
  | 0 => ⟨fun _ _ => .error .outOfDepth, fun _ _ => .error .outOfDepth⟩
  | depth + 1 => ⟨T.typeRule (verdicts depth), T.returnTypeRule (verdicts depth)⟩

/-- **The type of an expression**, found without a memory. -/
def type (expr : NodeId) : Except Halt Ty :=
  (T.verdicts (Checker.ownDepth T.code)).typeOf [] expr

/-- The return type of a function, found without a memory. -/
def returnType (definition : NodeId) : Except Halt Ty :=
  (T.verdicts (Checker.ownDepth T.code)).returnType [definition] definition

end Typing

/-- What the answers of a checker about a unit are measured against. -/
def Checker.typing {σ : Type} (checker : Checker σ) (code : CompilationUnit) : Typing :=
  ⟨checker.spec, checker.config, code⟩

end ContractLang
