import ContractLang.Check.Judgement

/-!
# The exits of a body

A body leaves its function at the `return` and abort statements that are in it,
directly or inside nested blocks and conditional statements. All values that it
can leave with have to be of one type, which is the return type of the body
(`ContractLang.Context.returnTypeRule`); exits of no known type do not count, and
neither do those inside loops.
-/

namespace ContractLang

namespace Context

open Check

variable {σ : Type} (ctx : Context σ)

/-- The type that a statement leaves the function with, unknown if it does not. -/
def exitType (resolving : List NodeId) (stmt : NodeId) : Check σ Ty := do
  match (← code).form stmt with
  | .ret (some value) _ => ctx.judge (.typeOf resolving value)
  | .abort => return if ctx.config.typelessAbort then .unknown else .uint64
  | .branch _ | .block => ctx.judge (.returnType resolving stmt)
  | _ => return .unknown

/-- The common type of the exits so far and those of one more statement. -/
def unifyExits (resolving : List NodeId) (sofar : Ty) (stmt : NodeId) : Check σ Ty := do
  let type ← ctx.exitType resolving stmt
  rejectIf (sofar.clashes type) do
    raiseAt (← node stmt).position (.blockMismatch sofar.name type.name)
  return if type.isKnown then type else sofar

/-- The common type of all exits of a body. -/
def returnTypeRule (resolving : List NodeId) (body : NodeId) : Check σ Ty := do
  ((← code).children body).foldlM (ctx.unifyExits resolving) .unknown

end Context

end ContractLang
