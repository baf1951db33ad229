import ContractLang.CompilationUnit.Basic

/-!
# Edits

Everything that builds a compilation unit, as data: creating and linking nodes,
opening scopes, declaring names and pooling literals. An edit is indexed by the
type of its answer, and an edit that fails leaves the unit as it was
(`ContractLang.CompilationUnit.apply`), which its type alone shows: there is a
new unit only where there is an answer.
-/

namespace ContractLang

/-- A change to a compilation unit that answers with an `α`. -/
inductive Edit : Type → Type where
  /-- Create a node, with its children. -/
  | create (scope : ScopeId) (form : Form) (children : List NodeId) : Edit NodeId
  /-- Make a node the last child of another. -/
  | append (parent child : NodeId) : Edit Unit
  /-- Add a definition to a program. -/
  | addFunction (program definition : NodeId) : Edit Unit
  /-- Give a node its position. -/
  | setPosition (node : NodeId) (position : Option Position) : Edit Unit
  /-- Qualify a call with a field. -/
  | setField (call : NodeId) (field : String) : Edit Unit
  /-- Open a scope. -/
  | openScope (name : String) (parent : ScopeId) : Edit ScopeId
  /-- Declare a variable, which is given a slot. -/
  | declareVar (scope : ScopeId) (name : String) (type : Ty) : Edit Nat
  /-- Declare a constant, which is given an offset of the pool. -/
  | declareConst (scope : ScopeId) (name : String) (type : Ty) (value : String) : Edit Nat
  /-- Declare a function. -/
  | declareFunc (scope : ScopeId) (name : String) (type : Ty) : Edit Unit
  /-- Replace the nearest descriptor of a name. -/
  | update (scope : ScopeId) (name : String) (descriptor : Descriptor) : Edit Unit
  /-- Move the variables of a scope. -/
  | remap (scope : ScopeId) (base : Nat) : Edit Unit
  /-- Pool a literal, which is given an offset. -/
  | intern (text : String) (type : Ty) : Edit Nat

namespace CompilationUnit

/-- The unit with another tree of scopes. -/
def withScopes (code : CompilationUnit) (scopes : ScopeTree) : CompilationUnit :=
  { code with scopes }

/-- Whether a node is a call. -/
def isCall (code : CompilationUnit) (id : NodeId) : Bool :=
  code.form id matches .call _

/-- Carries an edit out. -/
def apply (code : CompilationUnit) :
    {α : Type} → Edit α → Except Error (α × CompilationUnit)
  | _, .create scope form children =>
    let (code, id) := code.create scope form children
    .ok (id, code)
  | _, .append parent child => .ok ((), code.append parent child)
  | _, .addFunction program definition => .ok ((), code.addFunction program definition)
  | _, .setPosition node position => .ok ((), code.setPosition node position)
  | _, .setField call field =>
    .ok ((), if code.isCall call then code.setField call field else code)
  | _, .openScope name parent =>
    let (scopes, id) := code.scopes.openScope name parent
    .ok (id, code.withScopes scopes)
  | _, .declareVar scope name type =>
    (code.scopes.declareVar scope name type).map fun (slot, t) => (slot, code.withScopes t)
  | _, .declareConst scope name type value =>
    (code.scopes.declareConst scope name type value).map fun (offset, t) =>
      (offset, code.withScopes t)
  | _, .declareFunc scope name type =>
    (code.scopes.declareFunc scope name type).map fun t => ((), code.withScopes t)
  | _, .update scope name descriptor =>
    (code.scopes.update scope name descriptor).map fun t => ((), code.withScopes t)
  | _, .remap scope base => .ok ((), code.withScopes (code.scopes.remap scope base))
  | _, .intern text type =>
    (code.scopes.intern text type).map fun (offset, t) => (offset, code.withScopes t)

/-- What an edit of the scopes gives comes from the new scopes. -/
theorem exists_of_map_eq_ok {β γ : Type} {r : Except Error β} {f : β → γ} {c : γ}
    (h : r.map f = .ok c) : ∃ b, r = .ok b ∧ f b = c := by
  cases r with
  | ok b => exact ⟨b, rfl, Except.ok.inj h⟩
  | error e => cases h

end CompilationUnit

end ContractLang
