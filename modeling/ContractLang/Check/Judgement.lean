import ContractLang.Check.Basic
import ContractLang.Operation.Spec

/-!
# Judgements

The rules of the checker refer to one another: the type of a call depends on the
return type of a body, which depends on the types of expressions in it. The four
judgements they pass among themselves are data
(`ContractLang.Judgement`), each indexed by the type of its verdict, and a rule is
given a way to have a judgement decided (`ContractLang.Context.judge`). So no
rule is recursive, and what holds of all judgements is shown by one induction.

The judgements about types carry the functions whose return type is being
determined. A call to one of these is left untyped instead of being followed
once more.
-/

namespace ContractLang

/-- A question that the rules of the checker put to one another, whose verdict is an
`α`. -/
inductive Judgement : Type → Type where
  /-- The type of an expression. -/
  | typeOf (resolving : List NodeId) (expr : NodeId) : Judgement Ty
  /-- The one type of the exits of a body. -/
  | returnType (resolving : List NodeId) (body : NodeId) : Judgement Ty
  /-- Every operation called inside an expression is given suitable arguments. -/
  | calls (expr : NodeId) : Judgement Unit
  /-- A statement is in order. -/
  | statement (stmt : NodeId) : Judgement Unit

/-- What the rules of the checker can turn to. -/
structure Context (σ : Type) where
  /-- What is known about operations. -/
  spec : OpSpec
  /-- How lenient the checker is. -/
  config : Config
  /-- Decides a judgement. -/
  judge : {α : Type} → Judgement α → Check σ α

/-- A way to obtain the definition of a function, given the scope and the node of the
call on whose behalf it is wanted, and the name of the function. -/
abbrev BodySource (σ : Type) := ScopeId → NodeId → String → Check σ NodeId

namespace Context

variable {σ : Type} (ctx : Context σ)

/-- The return type of a function, which is unknown while it is being determined. -/
def functionType (resolving : List NodeId) (definition : NodeId) : Check σ Ty :=
  if resolving.contains definition then pure .unknown
  else ctx.judge (.returnType (definition :: resolving) definition)

end Context

end ContractLang
