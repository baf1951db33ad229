import ContractLang.Proofs.Statements.Growth
import ContractLang.Proofs.Statements.Walk
import ContractLang.Proofs.Typing.Course

/-!
# Checking refines

Typing only refines a unit, and so does all else that a check of statements does. So
without a parser no query does more to a unit than to refine it, whether it is answered
or fails, except for the one that qualifies a call with a field
(`ContractLang.Checker.refinesTo_ask`).
-/

namespace ContractLang

open Check

variable {σ α : Type} {base : CompilationUnit}

/-- A unit is refined by giving a descriptor a type. -/
theorem Check.completable_refinesTo (base : CompilationUnit) (scope : ScopeId) (name : String) :
    Completable (fun s : CheckState σ => base.RefinesTo s.code) scope name :=
  fun hs _ htype hscopes => hs.withScopes (ScopeTree.refinesTo_refine hscopes htype)

/-- That a unit is refined survives what a check of statements does to it. -/
theorem Check.survives_refinesTo (base : CompilationUnit) :
    Survives base fun s : CheckState σ => base.RefinesTo s.code where
  refines hs := hs
  resolved {_ _ _ definition _} hs hname hscopes := by
    obtain ⟨t, ht, hrefines⟩ := ScopeTree.exists_resolve hname definition
    cases ht.symm.trans hscopes
    exact hs.withScopes hrefines
  targetTypes hs hform := hs.setTargetTypes hform
  innerType hs hform := hs.setInnerType hform

/-- To refine a unit is an invariant. -/
theorem Check.invariant_refinesTo {ctx : Context σ} (base : CompilationUnit) :
    ctx.Invariant base fun s => base.RefinesTo s.code where
  __ := survives_refinesTo base
  completed _ _ hs := completable_refinesTo base _ _ hs

/-- **Judgements only refine a unit**, at every depth. -/
theorem Supply.refines {supply : Supply σ} {spec : OpSpec} {config : Config}
    (hbase : supply.Bodiless base) (d : Nat) :
    (supply.context spec d config).Keeps fun s => base.RefinesTo s.code :=
  Supply.keeps (fun _ => invariant_refinesTo base)
    (fun d R subject s hs => hs.trans (steady hbase d R subject s hs)) d

/-- A query asks to qualify a call with a field, which changes what was built. -/
def Query.Qualifies : {α : Type} → Query α → Prop
  | _, .resolveField .. => True
  | _, _ => False

/-- Answering a query only refines a unit, without a parser. -/
theorem Checker.keeps_answer (checker : Checker σ) (hparser : checker.parser = none)
    (q : Query α) (hq : ¬q.Qualifies) (base : CompilationUnit) :
    Check.Keeps (fun u : CheckState σ => base.RefinesTo u.code) (checker.answer q) := by
  refine .code fun code => ?_
  have hctx : (checker.context (checker.depth code)).Keeps fun u => base.RefinesTo u.code :=
    Supply.refines (checker.bodiless hparser base) _
  cases q with
  | typeOf x => exact hctx _
  | expression x => exact Context.keeps_checkExpr hctx.expr
  | statements x => exact Context.keeps_checkChildren hctx
  | function x => exact Context.keeps_checkFunction hctx (invariant_refinesTo base)
  | arguments x => exact Context.keeps_checkArguments hctx.expr
  | pairTypes x => exact Context.keeps_multiValue hctx.expr 2
  | quadrupleTypes x => exact Context.keeps_quadrupleTypes hctx.expr
  | resolveField x field => exact absurd trivial hq
  | returnType x => exact hctx _

/-- **The checker only refines.** Without a parser, whatever is asked and whether it is answered
or fails, nothing happens to a unit but that types are found out and functions are
connected with their definitions. -/
theorem Checker.refinesTo_ask (checker : Checker σ) (hparser : checker.parser = none)
    (q : Query α) (hq : ¬q.Qualifies) (s : CheckState σ) :
    s.code.RefinesTo (checker.ask q s).2.code :=
  checker.keeps_answer hparser q hq s.code s (.refl s.code)

/-- The check of the program of a unit with one call, from which nothing is missing. -/
theorem Checker.refinesTo_ask_oneCall :
    let checker : Checker Unit := ⟨Standard.spec, .strict, none⟩
    CompilationUnit.oneCall.RefinesTo
      (checker.ask (.statements 5) ⟨CompilationUnit.oneCall, ()⟩).2.code :=
  Checker.refinesTo_ask _ rfl _ id ⟨CompilationUnit.oneCall, ()⟩

end ContractLang
