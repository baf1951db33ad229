import ContractLang.Error
import ContractLang.Ty

/-!
# What is known about operations

The checker is told about operators, built-in functions and the fields of the
running transaction by a specification, and knows nothing about them otherwise.
An unknown type in a signature accepts any argument; as a result it stands for a
type that depends on an argument or on a field.
-/

namespace ContractLang

/-- A description of the operations of the language. -/
structure OpSpec where
  /-- The type of a result of an operation, by position. -/
  resultType : String → Nat → Except Error Ty
  /-- The type an operation expects of an argument, by position. -/
  argumentType : String → Nat → Except Error Ty
  /-- The type of a field of an operation. -/
  fieldType : String → String → Except Error Ty
  /-- Whether an operation can be called like a function. -/
  isBuiltin : String → Bool
  /-- The position of the argument that gives an operation its type, if one does. -/
  dependentArgument? : String → Option Nat

namespace OpSpec

/-- The first `count` result types of an operation, in order. -/
def resultTypes (spec : OpSpec) (op : String) (count : Nat) : Except Error (List Ty) :=
  (List.range count).mapM (spec.resultType op)

/-- The type that the specification gives for an operation with or without a field: that
of the field, or that of the first result. An operation without results has an unknown
type. -/
def declaredType (spec : OpSpec) (op : String) : (field : Option String) → Except Error Ty
  | some field => spec.fieldType op field
  | none =>
    match spec.resultType op 0 with
    | .ok type => .ok type
    | .error error =>
      if error.cause matches .invalidPosition .. then .ok .unknown else .error error

/-- The argument that gives an operation its type, if the operation has one and it is
among those given. -/
def dependentOn? {α : Type} (spec : OpSpec) (op : String) (arguments : List α) : Option α :=
  (spec.dependentArgument? op).bind fun i => arguments[i]?

end OpSpec

end ContractLang
