import ContractLang.Proofs.Statements.Returns

/-!
# Functions that return nothing

Whether aborts have a type is a matter of configuration. It makes a difference to functions whose
only exits are aborts: in the strict configuration a call of one has the type of a word, in the
lenient one it has no type. Such a function is mute (`ContractLang.CompilationUnit.Mute`), and the
names by which mute functions are called and defined are the places where the difference is left
behind in the scopes (`ContractLang.CompilationUnit.MuteName`). It does no harm as long as mute
functions are used for what they do only (`ContractLang.CompilationUnit.Procedural`).

So a unit that has been checked leniently lags behind one that has been checked strictly, by the
types of calls of mute functions and of the descriptors of mute names
(`ContractLang.CompilationUnit.Lags`). It keeps doing so when both go on record for the same
things, and when only the strict one does for a mute function.
-/

namespace ContractLang

/-- The operands whose types matter to a node. An assertion of a type takes what has none for one of
that type, and so does a field that is set; and the value that a loop is left with is not used. -/
def Form.demands : Form → List NodeId
  | .cast .. | .innerField .. | .breakLoop _ => []
  | form => form.operands

namespace CompilationUnit

variable {code code' code'' : CompilationUnit} {x f : NodeId} {home : ScopeId} {name : String}

/-! ### What is built in the same way -/

/-- Two units are the same apart from scopes and from what is on record. -/
def SameBuild (code code' : CompilationUnit) : Prop :=
  ∀ id, (code'.node id).fixed = (code.node id).fixed

namespace SameBuild

theorem refl (code : CompilationUnit) : code.SameBuild code := fun _ => rfl

theorem symm (h : code.SameBuild code') : code'.SameBuild code := fun id => (h id).symm

theorem trans (h : code.SameBuild code') (h' : code'.SameBuild code'') : code.SameBuild code'' :=
  fun id => (h' id).trans (h id)

variable (h : code.SameBuild code')

include h

theorem form (id : NodeId) : code'.form id = code.form id :=
  Node.congr_fixed Node.form (fun _ => rfl) (h id)

theorem scope (id : NodeId) : (code'.node id).scope = (code.node id).scope :=
  Node.congr_fixed Node.scope (fun _ => rfl) (h id)

theorem children (id : NodeId) : code'.children id = code.children id :=
  Node.congr_fixed Node.children (fun _ => rfl) (h id)

theorem field (id : NodeId) : (code'.node id).field = (code.node id).field :=
  Node.congr_fixed Node.field (fun _ => rfl) (h id)

theorem position (id : NodeId) : (code'.node id).position = (code.node id).position :=
  Node.congr_fixed Node.position (fun _ => rfl) (h id)

end SameBuild

/-- Changing what is on record for a node changes nothing else. -/
theorem sameBuild_modifyNode {g : Node → Node} (hg : ∀ node, (g node).fixed = node.fixed) :
    code.SameBuild (code.modifyNode x g) := by
  intro id
  exact field_modifyNode Node.fixed hg

/-- A unit comes before another one, which is built like it, with scopes that have been
refined. -/
structure Precedes (code code' : CompilationUnit) : Prop where
  build : code.SameBuild code'
  scopes : code.scopes.RefinesTo code'.scopes

namespace Precedes

theorem refl (code : CompilationUnit) : code.Precedes code :=
  ⟨.refl code, .refl _⟩

theorem trans (h : code.Precedes code') (h' : code'.Precedes code'') : code.Precedes code'' :=
  ⟨h.build.trans h'.build, h.scopes.trans h'.scopes⟩

theorem modifyNode {g : Node → Node} (hg : ∀ node, (g node).fixed = node.fixed) :
    code.Precedes (code.modifyNode x g) :=
  ⟨sameBuild_modifyNode hg, .refl _⟩

theorem withScopes {scopes : ScopeTree} (h : code.scopes.RefinesTo scopes) :
    code.Precedes (code.withScopes scopes) :=
  ⟨.refl code, h⟩

theorem calls (h : code.Precedes code') (hcalls : code.Calls x f) : code'.Calls x f := by
  obtain ⟨name, hform, hname⟩ := hcalls
  refine ⟨name, (h.build.form x).trans hform, ?_⟩
  rw [h.build.scope]
  exact h.scopes.binding?_eq_some hname nofun

end Precedes

/-! ### Mute functions -/

/-- A function returns no value, neither directly nor inside blocks and conditional
statements. -/
def Mute (code : CompilationUnit) (f : NodeId) : Prop :=
  ∀ value, ¬code.Returns Form.IsBranching f value

/-- A node calls a mute function. -/
def CallsMute (code : CompilationUnit) (x : NodeId) : Prop :=
  ∃ f, code.Calls x f ∧ code.Mute f

/-- A name that is declared in a scope is one by which a mute function is called or defined. -/
inductive MuteName (code : CompilationUnit) (home : ScopeId) (name : String) : Prop
  | call {x : NodeId} (hmute : code.CallsMute x) (hform : code.form x = .call name)
    (hhome : code.scopes.declaring? (code.node x).scope name = some home)
  | definition {f : NodeId} {params : List Param} {inlined : Bool} (hmute : code.Mute f)
    (hform : code.form f = .function name params inlined)
    (hhome : code.scopes.declaring? (code.node f).scope name = some home)

/-- The type of one node matters to another one: it is an operand, or the argument that an operation
takes its type from. -/
inductive Demands (spec : OpSpec) (code : CompilationUnit) (x y : NodeId) : Prop
  | operand (hmem : y ∈ (code.form x).demands)
  | argument {name : String} (hform : code.form x = .call name)
    (hdependent : spec.dependentOn? name (code.children x) = some y)

/-- Mute functions are used for what they do only. -/
structure Procedural (spec : OpSpec) (code : CompilationUnit) : Prop where
  /-- The type of a call of a mute function does not matter. -/
  apart : ∀ {x}, code.CallsMute x → ∀ y, ¬code.Demands spec y x
  /-- The name of a mute function is not used as a value. -/
  unread : ∀ {home name}, code.MuteName home name → ∀ x, code.form x = .ident name →
    code.scopes.declaring? (code.node x).scope name ≠ some home
  /-- Nor does another function go by it. -/
  unshared : ∀ {home name}, code.MuteName home name → ∀ f,
    code.scopes.bindingAt home name = some (.resolved f) → code.Mute f

section Mute

theorem SameBuild.mute (h : code.SameBuild code') (hf : code.Mute f) : code'.Mute f :=
  fun value hvalue => hf value (hvalue.congr h.symm.form h.symm.children)

theorem Precedes.callsMute (h : code.Precedes code') (hx : code.CallsMute x) :
    code'.CallsMute x :=
  hx.imp fun _ hf => ⟨h.calls hf.1, h.build.mute hf.2⟩

theorem Precedes.muteName (h : code.Precedes code') (hname : code.MuteName home name) :
    code'.MuteName home name := by
  have hhome : ∀ {y}, code.scopes.declaring? (code.node y).scope name = some home →
      code'.scopes.declaring? (code'.node y).scope name = some home := fun {y} hy => by
    rw [h.build.scope, h.scopes.declaring?]
    exact hy
  cases hname with
  | call hmute hform hcall =>
    exact .call (h.callsMute hmute) ((h.build.form _).trans hform) (hhome hcall)
  | definition hmute hform hdef =>
    exact .definition (h.build.mute hmute) ((h.build.form _).trans hform) (hhome hdef)

/-- A body of statements that return nothing is mute. -/
theorem mute_of_forall {b : NodeId} (h : ∀ stmt ∈ code.children b,
    ¬(code.form stmt).IsBranching ∧
      ∀ value definition, code.form stmt ≠ .ret (some value) definition) :
    code.Mute b := by
  intro value hvalue
  cases hvalue with
  | here hmem hform => exact (h _ hmem).2 _ _ hform
  | inside hmem hform _ => exact (h _ hmem).1 hform

/-- What is inside a mute function is mute. -/
theorem Mute.of_mem {b stmt : NodeId} (h : code.Mute b) (hmem : stmt ∈ code.children b)
    (hform : (code.form stmt).IsBranching) : code.Mute stmt :=
  fun value hvalue => h value (.inside hmem hform hvalue)

/-- A mute function has no value to return. -/
theorem Mute.form_ne {b stmt value : NodeId} {definition : Option NodeId} (h : code.Mute b)
    (hmem : stmt ∈ code.children b) : code.form stmt ≠ .ret (some value) definition :=
  fun hform => h value (.here hmem hform)

end Mute

end CompilationUnit

end ContractLang
