import ContractLang.Index
import ContractLang.Position
import ContractLang.Ty

/-!
# Nodes of the syntax tree

A node has a *form*, which is fixed when it is created: what kind of statement or
expression it is, with its names, literals and operands. Everything that is found
out later stands beside the form: the node's place in the tree, its position in
a source, and what the checker has recorded about it.

Operands belong to the form; the statements of a body, the branches of a
conditional statement and the arguments of a call are *children* of the node,
because more of them can be appended.
-/

namespace ContractLang

/-- The names that an assignment or a declaration of variables binds. -/
inductive Targets where
  /-- One value. -/
  | single (name : String)
  /-- A value of double width, high word first. -/
  | pair (high low : String)
  /-- The result of a wide division, quotient first and high words first. -/
  | quadruple (high low remHigh remLow : String)
  deriving DecidableEq, Repr

namespace Targets

/-- The names, in order. -/
def names : Targets → List String
  | single name => [name]
  | pair high low => [high, low]
  | quadruple high low remHigh remLow => [high, low, remHigh, remLow]

/-- The number of names. -/
def arity (targets : Targets) : Nat :=
  targets.names.length

end Targets

/-- A parameter of a function. -/
structure Param where
  /-- The name of the parameter. -/
  name : String
  /-- The declared type. -/
  type : Ty
  deriving DecidableEq, Repr

/-- What a node is, as it was written. -/
inductive Form where
  /-- A whole program; its children are functions and statements. -/
  | program
  /-- The definition of a function; its children are the statements of the body. -/
  | function (name : String) (params : List Param) (inlined : Bool)
  /-- A sequence of statements, which are its children. -/
  | block
  /-- Leaving a function, with the definition of that function where it is noted. -/
  | ret (value definition : Option NodeId)
  /-- Aborting the program. -/
  | abort
  /-- The beginning of an inner transaction. -/
  | innerBegin
  /-- The submission of an inner transaction. -/
  | innerSubmit
  /-- Setting a field of an inner transaction. -/
  | innerField (field : String) (value : NodeId)
  /-- Leaving a loop. -/
  | breakLoop (value : Option NodeId)
  /-- Assigning to variables. -/
  | assign (targets : Targets) (value : NodeId)
  /-- Declaring variables with their values. -/
  | declare (targets : Targets) (value : NodeId)
  /-- Declaring a constant. -/
  | const (name : String) (type : Ty) (value : String)
  /-- A name used as a value. -/
  | ident (name : String)
  /-- A literal. -/
  | literal (type : Ty) (text : String)
  /-- An operator between two operands. -/
  | binary (op : String) (lhs rhs : NodeId)
  /-- An expression in parentheses. -/
  | group (value : NodeId)
  /-- An operator before its operand. -/
  | unary (op : String) (value : NodeId)
  /-- A choice between two values. -/
  | choice (cond yes no : NodeId)
  /-- A conditional statement; its children are the branches. -/
  | branch (cond : NodeId)
  /-- A loop; its child is the body. -/
  | loop (cond : NodeId)
  /-- A value taken as one of a given type. -/
  | cast (target : Ty) (value : NodeId)
  /-- A call; its children are the arguments. -/
  | call (name : String)
  /-- Reading a field of a transaction or of the running system. -/
  | runtimeField (op field : String) (indices : List String)
  /-- Reading an argument of the program. -/
  | runtimeArg (op number : String)
  deriving DecidableEq, Repr

namespace Form

/-- A short description of the form, for messages. -/
def label : Form → String
  | program => "program"
  | function .. => "func"
  | block => "block"
  | ret .. => "ret"
  | abort => "error"
  | innerBegin => "begin"
  | innerSubmit => "end"
  | innerField .. => "assignItxn"
  | breakLoop _ => "break"
  | assign (.single _) _ => "assign"
  | assign (.pair ..) _ => "assign tuple"
  | assign (.quadruple ..) _ => "assign quadruple"
  | declare (.single _) _ => "var"
  | declare (.pair ..) _ => "var, var"
  | declare (.quadruple ..) _ => "divmodw"
  | const .. => "const"
  | ident _ => "expr ident"
  | literal .. => "expr liter"
  | binary .. => "expr OP expr"
  | group _ => "(expr)"
  | unary .. => "OP expr"
  | choice .. => "if expr"
  | branch _ => "if stmt"
  | loop _ => "for stmt"
  | cast .. => "type cast"
  | call _ => "fun call"
  | runtimeField .. => "runtime field"
  | runtimeArg .. => "runtime arg"

/-- Whether nodes of the form can be typed. -/
def isExpression : Form → Bool
  | const .. | ident _ | literal .. | binary .. | group _ | unary .. | choice .. | cast ..
  | call _ | runtimeField .. | runtimeArg .. => true
  | _ => false

/-- The operands of the form, from left to right. -/
def operands : Form → List NodeId
  | ret (some value) _ | breakLoop (some value) => [value]
  | innerField _ value | assign _ value | declare _ value => [value]
  | group value | unary _ value | cast _ value => [value]
  | binary _ lhs rhs => [lhs, rhs]
  | choice cond yes no => [cond, yes, no]
  | branch cond | loop cond => [cond]
  | _ => []

/-- The number of variables that the form binds. -/
def arity : Form → Nat
  | assign targets _ | declare targets _ => targets.arity
  | _ => 0

end Form

/-- A node of the syntax tree. -/
structure Node where
  /-- What the node is. -/
  form : Form
  /-- The scope that its names are looked up from. -/
  scope : ScopeId
  /-- Where it stands in a source, if anywhere. -/
  position : Option Position
  /-- The node it is an operand or a child of. -/
  parent : Option NodeId
  /-- Its children, in order. -/
  children : List NodeId
  /-- The type on record for it. -/
  type : Ty
  /-- The types on record for the variables it binds. -/
  targetTypes : List Ty
  /-- The field that qualifies it, if it is a call. -/
  field : Option String
  /-- The definition of the function it calls, once that is found. -/
  definition : Option NodeId
  /-- The functions to be emitted as subroutines, if it is a program. -/
  listed : List NodeId
  deriving DecidableEq, Repr

namespace Node

/-- A node of a given form about which nothing else is known. -/
def ofForm (scope : ScopeId) (form : Form) : Node where
  form := form
  scope := scope
  position := none
  parent := none
  children := []
  type := .unknown
  targetTypes := List.replicate form.arity .unknown
  field := none
  definition := none
  listed := []

instance : Inhabited Node := ⟨ofForm 0 .block⟩

end Node

end ContractLang
