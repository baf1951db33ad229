import ContractLang.Literal.Pool
import ContractLang.Scope.Basic

/-!
# The tree of scopes

The scopes of a compilation unit form a tree in which every scope but the root
has an enclosing one with a smaller number. Scopes are only ever added. The
literal pool is kept beside them, because declaring a constant pools its value.

A name is looked up along the chain of enclosing scopes
(`ContractLang.ScopeTree.chain`), from the inside to the outside, and the first
scope that declares it decides (`ContractLang.ScopeTree.declaring?`).
Declarations, in contrast, concern one scope alone, so that an inner name can
hide an outer one.
-/

namespace ContractLang

/-- The scopes of a compilation unit, and its literal pool. -/
structure ScopeTree where
  /-- The scopes, by number. -/
  scopes : Array Scope
  /-- The pooled literals. -/
  pool : Pool

namespace ScopeTree

/-- The tree that consists of a root scope. -/
def initial (name : String) : ScopeTree :=
  ⟨#[.fresh name none 0], .initial⟩

/-- The number of the root scope. -/
def root : ScopeId := 0

/-- The scope with a given number. -/
def scope (tree : ScopeTree) (id : ScopeId) : Scope :=
  tree.scopes.getD id default

/-- The tree with one scope changed. -/
def modifyScope (tree : ScopeTree) (id : ScopeId) (f : Scope → Scope) : ScopeTree :=
  { tree with scopes := tree.scopes.modify id f }

/-- Changing a scope changes no other one. -/
theorem scope_modifyScope {tree : ScopeTree} {id other : ScopeId} {f : Scope → Scope} :
    (tree.modifyScope id f).scope other
      = if other = id ∧ other < tree.scopes.size then f (tree.scope other)
        else tree.scope other := by
  unfold scope modifyScope
  by_cases h : other < tree.scopes.size
  · by_cases hid : other = id
    · subst hid
      simp [Array.getD, h, Array.getElem_modify_self]
    · have hid' : ¬id = other := fun e => hid e.symm
      simp [Array.getD, h, hid, hid', Array.getElem_modify]
  · simp [Array.getD, h]

/-- Changing a scope leaves the literals alone. -/
@[simp] theorem pool_modifyScope {tree : ScopeTree} {id : ScopeId} {f : Scope → Scope} :
    (tree.modifyScope id f).pool = tree.pool :=
  rfl

/-! ### Looking names up -/

/-- The first scopes, at most `count`, on the way from a scope to the root. -/
def ancestry (tree : ScopeTree) : (count : Nat) → ScopeId → List ScopeId
  | 0, _ => []
  | count + 1, id =>
    id :: match (tree.scope id).parent with
      | some parent => tree.ancestry count parent
      | none => []

/-- The scopes from a given one to the root. Numbers decrease on the way, so there are
no more of them than the number of the first allows. -/
def chain (tree : ScopeTree) (id : ScopeId) : List ScopeId :=
  tree.ancestry (id + 1) id

/-- The nearest scope that declares a name. -/
def declaring? (tree : ScopeTree) (id : ScopeId) (name : String) : Option ScopeId :=
  (tree.chain id).find? fun s => (tree.scope s).declares name

/-- The nearest descriptor of a name, if there is one. -/
def find? (tree : ScopeTree) (id : ScopeId) (name : String) : Option Descriptor :=
  (tree.declaring? id name).bind fun s => (tree.scope s).get? name

/-- The nearest descriptor of a name. -/
def lookup (tree : ScopeTree) (id : ScopeId) (name : String) : Except Error Descriptor :=
  match tree.find? id name with
  | some descriptor => .ok descriptor
  | none => .error (.unplaced (.identNotDefined name))

/-- How far the function that a name stands for has been connected with its
definition, if the nearest declaration of the name is a function. -/
def binding? (tree : ScopeTree) (id : ScopeId) (name : String) : Option Binding :=
  (tree.find? id name).bind Descriptor.binding?

/-! ### Changing the tree -/

/-- Opens a scope, whose slots begin where the next variable of its parent would be. -/
def openScope (tree : ScopeTree) (name : String) (parent : ScopeId) : ScopeTree × ScopeId :=
  ({ tree with
      scopes := tree.scopes.push (.fresh name (some parent) (tree.scope parent).nextAddress) },
    tree.scopes.size)

/-- Pools a literal. -/
def intern (tree : ScopeTree) (text : String) (type : Ty) : Except Error (Nat × ScopeTree) :=
  match tree.pool.intern text type with
  | .ok (offset, pool) => .ok (offset, { tree with pool })
  | .error e => .error e

/-- Declares a variable and gives its slot. -/
def declareVar (tree : ScopeTree) (id : ScopeId) (name : String) (type : Ty) :
    Except Error (Nat × ScopeTree) :=
  if (tree.scope id).declares name then .error (.unplaced (.variableDeclared name))
  else
    .ok ((tree.scope id).nextAddress, tree.modifyScope id fun s => s.declareVar name type)

/-- Declares a constant, pooling its value, and gives its offset. -/
def declareConst (tree : ScopeTree) (id : ScopeId) (name : String) (type : Ty)
    (value : String) : Except Error (Nat × ScopeTree) :=
  if (tree.scope id).declares name then .error (.unplaced (.constantDeclared name))
  else
    match tree.intern value type with
    | .ok (offset, tree) =>
      .ok (offset,
        tree.modifyScope id fun s => s.insert name ⟨name, type, .const offset value⟩)
    | .error e => .error e

/-- Declares a function, whose body remains to be obtained. -/
def declareFunc (tree : ScopeTree) (id : ScopeId) (name : String) (type : Ty) :
    Except Error ScopeTree :=
  if (tree.scope id).declares name then .error (.unplaced (.functionDeclared name))
  else
    .ok (tree.modifyScope id fun s => s.insert name ⟨name, type, .func .unresolved⟩)

/-- Replaces the nearest descriptor of a name by one of the same kind. -/
def update (tree : ScopeTree) (id : ScopeId) (name : String) (descriptor : Descriptor) :
    Except Error ScopeTree :=
  match tree.declaring? id name with
  | none => .error (.unplaced (.updateFailed name))
  | some s =>
    match (tree.scope s).get? name with
    | none => .error (.unplaced (.updateFailed name))
    | some old =>
      if old.role.sameKind descriptor.role then
        .ok (tree.modifyScope s fun scope => scope.replace name descriptor)
      else .error (.unplaced (.kindChanged name))

/-- Moves the variables of a scope to the slots from `base` on. -/
def remap (tree : ScopeTree) (id : ScopeId) (base : Nat) : ScopeTree :=
  tree.modifyScope id fun s => s.remap base

/-- Makes the nearest descriptor of a name that of a function connected with its
definition as `binding` says. -/
def setBinding (tree : ScopeTree) (id : ScopeId) (name : String) (binding : Binding) :
    Except Error ScopeTree :=
  match tree.lookup id name with
  | .ok descriptor => tree.update id name { descriptor with role := .func binding }
  | .error e => .error e

/-- Gives the nearest descriptor of a name a type, unless it has a known one. -/
def refine (tree : ScopeTree) (id : ScopeId) (name : String) (type : Ty) :
    Except Error ScopeTree :=
  match tree.lookup id name with
  | .ok descriptor =>
    if descriptor.type.isKnown then .ok tree
    else tree.update id name { descriptor with type }
  | .error e => .error e

end ScopeTree

end ContractLang
