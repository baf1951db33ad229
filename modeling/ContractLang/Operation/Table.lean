import ContractLang.Operation.Spec

/-!
# Specifications given by tables

A specification can be written down as data: the signature of every operation,
the names that can be called, the operations whose type depends on an argument,
and the fields. `ContractLang.OpTable.toSpec` turns such a table into a
specification, and decides what is answered about an entry that is missing.
Of two entries for one name, the first counts.
-/

namespace ContractLang

/-- The types of the arguments and results of an operation. -/
structure Signature where
  /-- The types of the arguments. -/
  arguments : List Ty
  /-- The types of the results. -/
  results : List Ty
  deriving DecidableEq, Repr

/-- A specification of operations, as data. -/
structure OpTable where
  /-- The operations and their signatures. -/
  signatures : List (String × Signature)
  /-- The operations that can be called like functions. -/
  builtins : List String
  /-- The operations whose type is that of an argument, with its position. -/
  dependent : List (String × Nat)
  /-- The operations with fields, and the types of these. -/
  fields : List (String × List (String × Ty))
  deriving DecidableEq, Repr

namespace OpTable

/-- The signature of an operation. -/
def signature (table : OpTable) (op : String) : Except Error Signature :=
  match table.signatures.lookup op with
  | some signature => .ok signature
  | none => .error (.unplaced (.unknownOperation op))

/-- The entry at a position of a signature, where `kind` tells arguments and results
apart in the error for a missing one. -/
def entryAt (types : List Ty) (op kind : String) (position : Nat) : Except Error Ty :=
  match types[position]? with
  | some type => .ok type
  | none => .error (.unplaced (.invalidPosition op kind position))

/-- The type of a result of an operation. -/
def resultType (table : OpTable) (op : String) (position : Nat) : Except Error Ty := do
  entryAt (← table.signature op).results op "result" position

/-- The type of an argument of an operation. -/
def argumentType (table : OpTable) (op : String) (position : Nat) : Except Error Ty := do
  entryAt (← table.signature op).arguments op "argument" position

/-- The type of a field of an operation. -/
def fieldType (table : OpTable) (op field : String) : Except Error Ty :=
  match (table.fields.lookup op).bind fun fields => fields.lookup field with
  | some type => .ok type
  | none => .error (.unplaced (.unknownField op field))

/-- The specification that a table gives. -/
def toSpec (table : OpTable) : OpSpec where
  resultType := table.resultType
  argumentType := table.argumentType
  fieldType := table.fieldType
  isBuiltin op := table.builtins.contains op
  dependentArgument? op := table.dependent.lookup op

end OpTable

end ContractLang
