import ContractLang.CompilationUnit.Basic

/-!
# Bodies that always return

A function has to return a value on every path. Whether it does is judged from
the last statement of its body alone: it must leave the function, or be a
conditional statement with two branches each of which always returns
(`ContractLang.CompilationUnit.alwaysReturns`).
-/

namespace ContractLang

namespace CompilationUnit

/-- Whether every path through a body leaves the function, following at most `depth` links
downwards. -/
def alwaysReturnsWithin (code : CompilationUnit) : (depth : Nat) → NodeId → Bool
  | 0, _ => false
  | depth + 1, body =>
    match (code.children body).getLast? with
    | none => false
    | some last =>
      match code.form last with
      | .ret .. | .abort => true
      | .branch _ =>
        let branches := code.children last
        branches.length == 2 && branches.all (code.alwaysReturnsWithin depth)
      | _ => false

/-- Whether every path through a body leaves the function. -/
def alwaysReturns (code : CompilationUnit) (body : NodeId) : Bool :=
  code.alwaysReturnsWithin (code.size + 1) body

end CompilationUnit

end ContractLang
