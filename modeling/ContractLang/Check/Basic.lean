import ContractLang.CompilationUnit.Edit
import ContractLang.CompilationUnit.Render

/-!
# Computations of the checker

The checker reads and refines a compilation unit, and it can fail. What it has
found out before it fails is kept: a computation gives a new state in either case,
so that another attempt can build on it.

A computation fails with an error of the program under analysis
(`ContractLang.Halt.fault`), or because it is nested more deeply than it was given
leave to be (`ContractLang.Halt.outOfDepth`). The second says nothing about the
program, so it passes through every rule that treats errors.

Beside the unit, the state has room for notes of whoever supplies the bodies of
functions; the checker itself does not look at them.
-/

namespace ContractLang

/-- Why a computation of the checker ends without an answer. -/
inductive Halt where
  /-- The program is at fault. -/
  | fault (error : Error)
  /-- The computation is nested too deeply. -/
  | outOfDepth
  deriving DecidableEq, Repr

/-- What a computation of the checker works on. -/
structure CheckState (σ : Type) where
  /-- The program under analysis. -/
  code : CompilationUnit
  /-- The notes of the supplier of function bodies. -/
  notes : σ

/-- A computation of the checker. -/
abbrev Check (σ : Type) := ExceptT Halt (StateM (CheckState σ))

/-- How lenient the checker is. -/
structure Config where
  /-- An abort is compatible with any return type, and not only with that of words. -/
  typelessAbort : Bool
  deriving DecidableEq, Repr

/-- The strict configuration. -/
def Config.strict : Config := ⟨false⟩

namespace Check

variable {σ α : Type}

/-! ### Failing -/

/-- Fails with an error. -/
def fail (error : Error) : Check σ α :=
  throw (.fault error)

/-- Fails at no place in particular. -/
def raise (cause : Cause) : Check σ α :=
  fail (.unplaced cause)

/-- Fails at a place. -/
def raiseAt (position : Option Position) (cause : Cause) : Check σ α :=
  fail ⟨cause, position⟩

/-- Fails if `answer` is an error, and gives the answer otherwise. -/
def liftExcept (answer : Except Error α) : Check σ α :=
  match answer with
  | .ok a => pure a
  | .error e => fail e

/-- Fails as `failure` does if `bad` holds. -/
def rejectIf (bad : Prop) [Decidable bad] (failure : Check σ Unit) : Check σ Unit :=
  if bad then failure else pure ()

/-- Treats an error by `handler`. -/
def onFault (action : Check σ α) (handler : Error → Check σ α) : Check σ α :=
  tryCatch action fun halt =>
    match halt with
    | .fault error => handler error
    | .outOfDepth => throw .outOfDepth

/-- Reports the errors of `action` at `position` unless they have a place. -/
def located (position : Option Position) (action : Check σ α) : Check σ α :=
  action.onFault fun error => fail (error.orPosition position)

/-- The answer of `action`, or why it has none. -/
def outcome (action : Check σ α) : Check σ (Except Halt α) :=
  tryCatch (Except.ok <$> action) fun halt => pure (.error halt)

/-! ### Reading and refining the unit -/

/-- The unit. -/
def code : Check σ CompilationUnit :=
  return (← get).code

/-- A node of the unit. -/
def node (id : NodeId) : Check σ Node :=
  return (← code).node id

/-- The text of a node. -/
def textOf (id : NodeId) : Check σ String :=
  return (← code).render id

/-- Changes the unit. -/
def modifyCode (f : CompilationUnit → CompilationUnit) : Check σ Unit :=
  modify fun state => { state with code := f state.code }

/-- Changes the scopes, which may fail. -/
def changeScopes (f : ScopeTree → Except Error ScopeTree) : Check σ Unit := do
  let scopes ← liftExcept (f (← code).scopes)
  modifyCode fun code => code.withScopes scopes

/-- Gives the nearest descriptor of a name a type, if that is a known one and the
descriptor has none. -/
def complete (scope : ScopeId) (name : String) (type : Ty) : Check σ Unit :=
  if type.isKnown then changeScopes fun scopes => scopes.refine scope name type else pure ()

/-- Puts a type on record for a node, if it is a known one. -/
def record (id : NodeId) (type : Ty) : Check σ Unit :=
  if type.isKnown then modifyCode fun code => code.setType id type else pure ()

/-- The type on record for a node if it is known, and else the one that `infer` gives,
which then goes on record. -/
def memo (id : NodeId) (infer : Check σ Ty) : Check σ Ty := do
  let known := (← node id).type
  if known.isKnown then
    return known
  let type ← infer
  record id type
  return type

/-- Fails because the value of a node has another type than expected. -/
def typeMismatch (id : NodeId) (expected received : Ty) : Check σ α := do
  raise (.typeMismatch expected.name received.name (← textOf id))

end Check

end ContractLang
