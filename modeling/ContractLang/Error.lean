import ContractLang.Position

/-!
# Errors

An error is a cause together with the position it is reported at, if it has one.
The causes are those of declaring and looking up names, of pooling literals, of
consulting the table of operations and of typing expressions and statements.
Types and code occur in a cause as they are shown to the user, that is, as text.

`ContractLang.Cause.invalidOperand` wraps the cause of a failure inside an
operand, so causes nest along the path from an expression down to the operand at
fault; `ContractLang.Cause.path` lists the names met on it.
-/

namespace ContractLang

/-- Why an operation failed. -/
inductive Cause where
  /-- A variable is declared where its name is taken. -/
  | variableDeclared (name : String)
  /-- A constant is declared where its name is taken. -/
  | constantDeclared (name : String)
  /-- A function is declared where its name is taken. -/
  | functionDeclared (name : String)
  /-- No enclosing scope declares the name. -/
  | identNotDefined (ident : String)
  /-- An identifier has no type. -/
  | identLookupFailed (ident reason : String)
  /-- A descriptor to be replaced does not exist. -/
  | updateFailed (ident : String)
  /-- A descriptor was to be replaced by one of another kind. -/
  | kindChanged (ident : String)
  /-- A literal of this type cannot be pooled. -/
  | unknownLiteralType (type value : String)
  /-- A byte literal is malformed. -/
  | literalFormat (literal reason : String)
  /-- The table has no such operation. -/
  | unknownOperation (op : String)
  /-- The operation has no such field. -/
  | unknownField (op field : String)
  /-- The operation has no result or argument at this position. -/
  | invalidPosition (op kind : String) (position : Nat)
  /-- An operand of a binary operation has the wrong type. -/
  | operandMismatch (side expected received expr : String)
  /-- A value has the wrong type. -/
  | typeMismatch (expected received expr : String)
  /-- An argument of a call has the wrong type. -/
  | argumentMismatch (position : Nat) (expected received expr : String)
  /-- An operand cannot be typed, for the inner cause. -/
  | invalidOperand (operand : String) (inner : Cause)
  /-- A condition is no truth value. -/
  | conditionType (received : String)
  /-- The branches of a conditional expression have different types. -/
  | branchMismatch (first second : String)
  /-- The exits of a function have different types. -/
  | blockMismatch (first second : String)
  /-- A value cannot be cast to the type. -/
  | castFailed (source target : String)
  /-- The name called is neither a function nor an operation. -/
  | functionLookupFailed (function : String)
  /-- A call does not give the several values wanted of it. -/
  | notMultiValue (function : String)
  /-- The body of a function could not be obtained. -/
  | functionNotResolved (function reason : String)
  /-- A function may end without returning. -/
  | missingReturn (function : String)
  /-- A node that has no type was to be typed. -/
  | notAnExpression (kind : String)
  deriving DecidableEq, Repr

namespace Cause

/-- The name of a cause. -/
def name : Cause → String
  | variableDeclared .. => "VariableAlreadyDeclared"
  | constantDeclared .. => "ConstantAlreadyDeclared"
  | functionDeclared .. => "FunctionAlreadyDeclared"
  | identNotDefined .. => "IdentNotDefined"
  | identLookupFailed .. => "IdentLookupFailed"
  | updateFailed .. => "UpdateFailed"
  | kindChanged .. => "DescriptorKindChanged"
  | unknownLiteralType .. => "UnknownLiteralType"
  | literalFormat .. => "LiteralFormatError"
  | unknownOperation .. => "UnknownOperation"
  | unknownField .. => "UnknownField"
  | invalidPosition .. => "InvalidPosition"
  | operandMismatch .. => "OperandTypeMatchError"
  | typeMismatch .. => "TypeMatchError"
  | argumentMismatch .. => "ArgumentTypeMatchError"
  | invalidOperand .. => "InvalidOperand"
  | conditionType .. => "ConditionTypeError"
  | branchMismatch .. => "BranchTypeMismatch"
  | blockMismatch .. => "BlockTypeMismatch"
  | castFailed .. => "CastError"
  | functionLookupFailed .. => "FunctionLookupFailed"
  | notMultiValue .. => "NotMultiValue"
  | functionNotResolved .. => "FunctionNotResolved"
  | missingReturn .. => "MissingReturn"
  | notAnExpression .. => "NotAnExpression"

/-- The text of a cause. -/
def message : Cause → String
  | variableDeclared v => s!"variable '{v}' already declared"
  | constantDeclared c => s!"const '{c}' already declared"
  | functionDeclared f => s!"function '{f}' already defined"
  | identNotDefined ident => s!"ident '{ident}' not defined"
  | identLookupFailed ident reason => s!"ident lookup for {ident} failed: {reason}"
  | updateFailed ident => s!"failed to update ident {ident}"
  | kindChanged ident => s!"descriptor kind of '{ident}' cannot change"
  | unknownLiteralType type value => s!"unknown literal type {type} ({value})"
  | literalFormat literal reason => s!"cannot parse byte literal {literal}: {reason}"
  | unknownOperation op => s!"op '{op}' not in the language"
  | unknownField op field => s!"field '{field}' of '{op}' lookup failed"
  | invalidPosition op kind position => s!"{kind} position {position} of '{op}' is not defined"
  | operandMismatch side expected received expr =>
    s!"incompatible {side} operand type: '{expected}' vs '{received}' in expr '{expr}'"
  | typeMismatch expected received expr =>
    s!"incompatible types: '{expected}' vs '{received}' in expr '{expr}'"
  | argumentMismatch position expected received expr =>
    s!"incompatible types at argument {position}: (exp) {expected} vs {received} (actual) "
      ++ s!"in expr '{expr}'"
  | invalidOperand operand inner => s!"operand '{operand}' has invalid type: {inner.message}"
  | conditionType received => s!"cond type is '{received}', expected 'uint64'"
  | branchMismatch first second => s!"if blocks types mismatch '{first}' vs '{second}'"
  | blockMismatch first second => s!"block types mismatch: {first} vs {second}"
  | castFailed source target => s!"cannot cast {source} to {target}"
  | functionLookupFailed function => s!"function {function} lookup failed"
  | notMultiValue function => s!"function {function} does not return multiple values"
  | functionNotResolved function reason =>
    s!"function {function} body could not be resolved: {reason}"
  | missingReturn function => s!"function {function} may not return on all paths"
  | notAnExpression kind => s!"node '{kind}' is not an expression"

/-- The advice that goes with a cause, if there is any. -/
def tip? : Cause → Option String
  | variableDeclared v => some s!"Variable `{v}` is already declared in this scope"
  | constantDeclared c => some s!"Constant `{c}` is already declared in this scope"
  | functionDeclared f => some s!"Function `{f}` already defined"
  | identNotDefined ident => some s!"`{ident}` is not declared in any enclosing scope"
  | identLookupFailed ident _ => some s!"`{ident}` could not be resolved to a typed value"
  | updateFailed _ => none
  | kindChanged ident =>
    some s!"`{ident}` cannot change between variable, constant and function"
  | unknownLiteralType .. => some "Only uint64 and byte[] literals can be pooled"
  | literalFormat .. =>
    some "Byte literals are either \"quoted\" strings or 0x-prefixed hex"
  | unknownOperation op => some s!"`{op}` is not an operation of the language"
  | unknownField op field => some s!"`{op}` has no field `{field}`"
  | invalidPosition op _ _ => some s!"Check the number of values `{op}` takes and returns"
  | operandMismatch _ expected received _ =>
    some s!"Expected operand type `{expected}`, received `{received}`"
  | typeMismatch expected received _ =>
    some s!"Expected type `{expected}`, received `{received}`"
  | argumentMismatch position expected received _ =>
    some s!"Expected argument {position} of type `{expected}`, received `{received}`"
  | invalidOperand .. => none
  | conditionType received => some s!"Conditions must be `uint64`, received `{received}`"
  | branchMismatch .. => some "Both branches of an if expression must have the same type"
  | blockMismatch .. => some "Every return of a function must have the same type"
  | castFailed .. => none
  | functionLookupFailed function =>
    some s!"`{function}` is neither a declared function nor a builtin"
  | notMultiValue function => some s!"`{function}` does not produce multiple values"
  | functionNotResolved .. => none
  | missingReturn function =>
    some s!"Add a return or an else branch at the end of `{function}`"
  | notAnExpression _ => none

/-- The names met from a cause down through every operand to the one at fault. -/
def path : Cause → List String
  | invalidOperand operand inner => (invalidOperand operand inner).name :: inner.path
  | cause => [cause.name]

end Cause

/-- A failure and the place it is reported at. -/
structure Error where
  /-- Why the operation failed. -/
  cause : Cause
  /-- Where it failed, if that is a place in a source. -/
  position : Option Position
  deriving DecidableEq, Repr

namespace Error

/-- An error that is reported at no place. -/
def unplaced (cause : Cause) : Error := ⟨cause, none⟩

/-- The error, reported at `position` unless it already has a place. -/
def orPosition (e : Error) (position : Option Position) : Error :=
  { e with position := e.position.or position }

/-- A second place is never taken over the first. -/
theorem orPosition_orPosition (e : Error) (p q : Option Position) :
    (e.orPosition p).orPosition q = e.orPosition (p.or q) := by
  simp [orPosition, Option.or_assoc]

end Error

end ContractLang
