import ContractLang.Index
import ContractLang.Ty

/-!
# Descriptors

A descriptor is what a scope knows about a name: its type, and its role as a
variable on the stack, a pooled constant or a function. A function is declared
before its body is looked at, so its role includes how far it has been connected
with a definition (`ContractLang.Binding`).
-/

namespace ContractLang

/-- How far a function has been connected with its definition. -/
inductive Binding where
  /-- The body has not been asked for. -/
  | unresolved
  /-- The body is being obtained on behalf of a call. -/
  | pending (call : NodeId)
  /-- The function is defined by a node. -/
  | resolved (definition : NodeId)
  deriving DecidableEq, Repr

/-- What a name stands for. -/
inductive Role where
  /-- A variable in a slot of the stack. -/
  | var (address : Nat)
  /-- A named literal, at an offset of the pool. -/
  | const (offset : Nat) (value : String)
  /-- A function. -/
  | func (binding : Binding)
  deriving DecidableEq, Repr

namespace Role

/-- Whether two roles are of the same kind. -/
def sameKind : Role → Role → Bool
  | var _, var _ => true
  | const _ _, const _ _ => true
  | func _, func _ => true
  | _, _ => false

/-- The slot of a variable or the pool offset of a constant. -/
def address? : Role → Option Nat
  | var address => some address
  | const offset _ => some offset
  | func _ => none

/-- The slot of a variable. -/
def slot? : Role → Option Nat
  | var address => some address
  | _ => none

/-- A role is of its own kind. -/
@[simp] theorem sameKind_self (r : Role) : r.sameKind r = true := by
  cases r <;> rfl

end Role

/-- What a scope knows about a name. -/
structure Descriptor where
  /-- The name it was made for. -/
  name : String
  /-- The type of the value, or the return type of the function. -/
  type : Ty
  /-- What the name stands for. -/
  role : Role
  deriving DecidableEq, Repr

namespace Descriptor

/-- How far a function has been connected with its definition; nothing for a name
that is no function. -/
def binding? (d : Descriptor) : Option Binding :=
  match d.role with
  | .func binding => some binding
  | _ => none

/-- Whether the name stands for a constant. -/
def isConst (d : Descriptor) : Bool :=
  match d.role with
  | .const .. => true
  | _ => false

/-- Whether the name stands for a function. -/
def isFunc (d : Descriptor) : Bool :=
  d.binding?.isSome

end Descriptor

end ContractLang
