import ContractLang.CompilationUnit.Basic

/-!
# Nodes as text

Messages show code as it would read in a source
(`ContractLang.CompilationUnit.render`), and a whole tree can be shown in outline,
one node a line, each level indented four columns further
(`ContractLang.CompilationUnit.outline`).

Both walks descend along links from node to node. In a tree no path is longer
than there are nodes, which bounds how far they descend.
-/

namespace ContractLang

namespace CompilationUnit

/-- How reading a field at run time is written, according to where the operation takes
its indices. -/
def runtimeFieldText (op field : String) (indices : List String) : String :=
  let first := indices.getD 0 ""
  let second := indices.getD 1 ""
  if op == "gtxn" || op == "gtxns" then s!"{op}[{first}].{field}"
  else if op == "gtxna" then s!"{op}[{first}].{field}[{second}]"
  else if op == "txna" || op == "itxna" then s!"{op}.{field}[{first}]"
  else if op == "txnas" then s!"{op}.{field}[var]"
  else s!"{op}.{field}"

/-- A keyword, followed by a value if there is one. -/
def keywordText (render : NodeId → String) (keyword : String) : Option NodeId → String
  | some value => keyword ++ " " ++ render value
  | none => keyword

/-- The text of a node, given that of the nodes it is linked to. -/
def nodeText (render : NodeId → String) (node : Node) : String :=
  match node.form with
  | .program | .block | .abort => node.form.label
  | .innerBegin => "itxn_begin"
  | .innerSubmit => "itxn_submit"
  | .function name _ _ => "function " ++ name
  | .ret value _ => keywordText render "return" value
  | .innerField field value => "itxn." ++ field ++ " = " ++ render value
  | .breakLoop value => keywordText render "break" value
  | .assign targets value => ", ".intercalate targets.names ++ " = " ++ render value
  | .declare targets value =>
    "var (" ++ ", ".intercalate (node.targetTypes.map Ty.name) ++ ") "
      ++ ", ".intercalate targets.names ++ " = " ++ render value
  | .const name type value => s!"const ({type}) {name} = {value}"
  | .ident name => "ident " ++ name
  | .literal _ text => text
  | .binary op lhs rhs => render lhs ++ " " ++ op ++ " " ++ render rhs
  | .group value => "(" ++ render value ++ ")"
  | .unary op value => op ++ " " ++ render value
  | .choice cond yes no =>
    "if " ++ render cond ++ " \x7b " ++ render yes ++ " \x7d else \x7b " ++ render no ++ " \x7d"
  | .branch cond => "if " ++ render cond
  | .loop cond => "for " ++ render cond
  | .cast target value => target.name ++ "(" ++ render value ++ ")"
  | .call name =>
    let call := name ++ "(" ++ ", ".intercalate (node.children.map render) ++ ")"
    match node.field with
    | some field => call ++ "." ++ field
    | none => call
  | .runtimeField op field indices => runtimeFieldText op field indices
  | .runtimeArg op number => op ++ " " ++ number

/-- The text of a node, following at most `depth` links downwards. -/
def renderWithin (code : CompilationUnit) : (depth : Nat) → NodeId → String
  | 0, _ => ""
  | depth + 1, id => nodeText (code.renderWithin depth) (code.node id)

/-- A node as it would read in a source. -/
def render (code : CompilationUnit) (id : NodeId) : String :=
  code.renderWithin (code.size + 1) id

/-- The lines of the outline below a node, each with its level, following at most `depth`
links downwards. -/
def outlineWithin (code : CompilationUnit) : (depth level : Nat) → NodeId → List (Nat × NodeId)
  | 0, _, _ => []
  | depth + 1, level, id =>
    (level, id) :: (code.children id).flatMap (code.outlineWithin depth (level + 1))

/-- A line of an outline. -/
def outlineLine (code : CompilationUnit) (line : Nat × NodeId) : String :=
  "".pushn ' ' (4 * line.1) ++ code.render line.2 ++ "\n"

/-- A node and all that is below it, one node a line. -/
def outline (code : CompilationUnit) (id : NodeId) : String :=
  String.join ((code.outlineWithin (code.size + 1) 0 id).map code.outlineLine)

end CompilationUnit

end ContractLang
