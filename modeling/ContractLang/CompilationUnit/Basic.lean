import ContractLang.Node
import ContractLang.Scope.Tree

/-!
# Compilation units

A compilation unit owns all nodes and scopes that the parts of a program are made
of. Nodes are created from the leaves upwards and never removed, and every link
is the number of a node, so a call can refer to the definition that contains it.

A number that belongs to no node is read as that of an empty block
(`ContractLang.CompilationUnit.node`), which makes every walk over a unit total.
-/

namespace ContractLang

/-- The nodes and scopes of a program under analysis. -/
structure CompilationUnit where
  /-- The nodes, by number. -/
  nodes : Array Node
  /-- The scopes and the literal pool. -/
  scopes : ScopeTree

namespace CompilationUnit

/-- The unit with no node and a single scope. -/
def initial : CompilationUnit :=
  ⟨#[], .initial "global"⟩

/-- The number of nodes. -/
def size (code : CompilationUnit) : Nat :=
  code.nodes.size

/-- The node with a given number. -/
def node (code : CompilationUnit) (id : NodeId) : Node :=
  code.nodes.getD id default

/-- The form of a node. -/
def form (code : CompilationUnit) (id : NodeId) : Form :=
  (code.node id).form

/-- The children of a node. -/
def children (code : CompilationUnit) (id : NodeId) : List NodeId :=
  (code.node id).children

/-- The unit with one node changed. -/
def modifyNode (code : CompilationUnit) (id : NodeId) (f : Node → Node) : CompilationUnit :=
  { code with nodes := code.nodes.modify id f }

section ModifyNode

variable {code : CompilationUnit} {id other : NodeId} {f : Node → Node}

/-- Changing a node changes no other one. -/
theorem node_modifyNode :
    (code.modifyNode id f).node other
      = if other = id ∧ other < code.size then f (code.node other) else code.node other := by
  unfold node modifyNode size
  by_cases h : other < code.nodes.size
  · by_cases hid : other = id
    · subst hid
      simp [Array.getD, h, Array.getElem_modify_self]
    · have hid' : ¬id = other := fun e => hid e.symm
      simp [Array.getD, h, hid, hid', Array.getElem_modify]
  · simp [Array.getD, h]

/-- What the change leaves alone is the same for all nodes. -/
theorem field_modifyNode {α : Type} (g : Node → α) (hg : ∀ node, g (f node) = g node) :
    g ((code.modifyNode id f).node other) = g (code.node other) := by
  rw [node_modifyNode]
  split
  · exact hg _
  · rfl

/-- Changing a node neither adds nor removes one. -/
@[simp] theorem size_modifyNode : (code.modifyNode id f).size = code.size := by
  simp [modifyNode, size]

/-- Changing a node leaves the scopes alone. -/
@[simp] theorem scopes_modifyNode : (code.modifyNode id f).scopes = code.scopes :=
  rfl

end ModifyNode

/-! ### Building the tree -/

/-- Notes which node an operand belongs to. -/
def adopt (code : CompilationUnit) (parent child : NodeId) : CompilationUnit :=
  code.modifyNode child fun node => { node with parent := some parent }

/-- Makes a node the last child of another. -/
def append (code : CompilationUnit) (parent child : NodeId) : CompilationUnit :=
  (code.adopt parent child).modifyNode parent fun node =>
    { node with children := node.children ++ [child] }

/-- Creates a node, to which its operands and the given children then belong. -/
def create (code : CompilationUnit) (scope : ScopeId) (form : Form) (children : List NodeId) :
    CompilationUnit × NodeId :=
  let id := code.size
  let code := { code with nodes := code.nodes.push (.ofForm scope form) }
  let code := form.operands.foldl (fun code operand => code.adopt id operand) code
  (children.foldl (fun code child => code.append id child) code, id)

/-- Whether a node defines a function that is to be inlined. -/
def isInlined (code : CompilationUnit) (id : NodeId) : Bool :=
  match code.form id with
  | .function _ _ inlined => inlined
  | _ => false

/-- Appends a definition to a program, and lists it there unless it is to be
inlined. -/
def addFunction (code : CompilationUnit) (program definition : NodeId) : CompilationUnit :=
  let listed := !code.isInlined definition && code.form program matches .program
  (code.append program definition).modifyNode program fun node =>
    if listed then { node with listed := node.listed ++ [definition] } else node

/-- Gives a node its position. -/
def setPosition (code : CompilationUnit) (id : NodeId) (position : Option Position) :
    CompilationUnit :=
  code.modifyNode id fun node => { node with position }

/-! ### Recording what is found out about a node -/

/-- Puts a type on record for a node. -/
def setType (code : CompilationUnit) (id : NodeId) (type : Ty) : CompilationUnit :=
  code.modifyNode id fun node => { node with type }

/-- Puts the types of the variables that a node binds on record. -/
def setTargetTypes (code : CompilationUnit) (id : NodeId) (types : List Ty) : CompilationUnit :=
  code.modifyNode id fun node => { node with targetTypes := types }

/-- Qualifies a call with a field. -/
def setField (code : CompilationUnit) (id : NodeId) (field : String) : CompilationUnit :=
  code.modifyNode id fun node => { node with field := some field }

/-- Connects a call with the definition of the function called. -/
def setDefinition (code : CompilationUnit) (id definition : NodeId) : CompilationUnit :=
  code.modifyNode id fun node => { node with definition := some definition }

end CompilationUnit

end ContractLang
