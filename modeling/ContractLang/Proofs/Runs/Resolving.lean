import ContractLang.Proofs.Runs.Related
import ContractLang.Proofs.Statements.Depth
import ContractLang.Proofs.Typing.Order

/-!
# The functions being resolved, on a stack

The judgements about types are given the functions whose return type is being determined. A
checker without a parser can as well keep them on one stack, which it changes in place
(`ContractLang.Checker.askStacked`): a function is put on the stack when its body is entered,
and taken off when the body is left, with or without a return type
(`ContractLang.Check.entering`). Each rule then goes by the stack as it finds it.

If a computation leaves the stack as it was, the next one finds the functions that it would
have been given. So the two ways of checking amount to the same
(`ContractLang.Checker.stackContext_corresponds`), where only such judgements are compared
that the rules do pass among themselves for a given stack (`ContractLang.Judgement.At`). The
depth that a unit allows for is enough for one and hence for the other, although calls may
lead back to functions that are on the stack
(`ContractLang.Checker.askStacked_restores`).
-/

namespace ContractLang

open Check

variable {σ α : Type}

/-! ### Checking with a stack -/

/-- The state together with a stack of functions being resolved, the last one first. -/
def CheckState.stacked (s : CheckState σ) (stack : List NodeId) :
    CheckState (σ × List NodeId) :=
  ⟨s.code, (s.notes, stack)⟩

@[simp] theorem CheckState.code_stacked (s : CheckState σ) (stack : List NodeId) :
    (s.stacked stack).code = s.code := rfl

namespace Check

/-- The functions being resolved. -/
def resolving : Check (σ × List NodeId) (List NodeId) :=
  return (← get).notes.2

/-- Changes the stack of functions being resolved. -/
def modifyResolving (f : List NodeId → List NodeId) : Check (σ × List NodeId) Unit :=
  modify fun s => { s with notes := (s.notes.1, f s.notes.2) }

/-- Does something while a function is being resolved. The function is taken off the stack
whether or not there is an answer. -/
def entering (function : NodeId) (action : Check (σ × List NodeId) α) :
    Check (σ × List NodeId) α := do
  modifyResolving (function :: ·)
  let result ← outcome action
  modifyResolving List.tail
  MonadExcept.ofExcept result

end Check

namespace Context

/-- Decides a judgement by the rule for it, given the stack as it is and not the functions that
the judgement names. These only tell a function that has just been called, which is not on the
stack as yet, from a part of a body that has been entered already. -/
def stackRule (ctx : Context (σ × List NodeId)) :
    {α : Type} → Judgement α → Check (σ × List NodeId) α
  | _, .typeOf _ expr => do ctx.typeRule (materialize none) (← resolving) expr
  | _, .returnType functions body => do
    let stack ← resolving
    if functions = body :: stack then
      entering body (do ctx.returnTypeRule (← resolving) body)
    else
      ctx.returnTypeRule stack body
  | _, .calls expr => ctx.callsRule expr
  | _, .statement stmt => ctx.statementRule stmt

end Context

namespace Checker

/-- The context in which the rules apply with a stack, nesting judgements at most `depth`
levels deep. -/
def stackContext (checker : Checker σ) : (depth : Nat) → Context (σ × List NodeId)
  | 0 => ⟨checker.spec, checker.config, fun _ => throw .outOfDepth⟩
  | depth + 1 =>
    ⟨checker.spec, checker.config, fun judgement =>
      (checker.stackContext depth).stackRule judgement⟩

/-- The answer to a query that a checker with a stack gives, and the state with all that was
found out on the way to it. -/
def askStacked (checker : Checker σ) (query : Query α) (state : CheckState (σ × List NodeId)) :
    Except Halt α × CheckState (σ × List NodeId) :=
  ((checker.stackContext (checker.depth state.code)).answer query).exec state

end Checker

/-! ### Judgements for a given stack -/

/-- A judgement that is passed while `stack` holds the functions being resolved. Calls and
statements are checked outside of functions only. -/
def Judgement.At (stack : List NodeId) : {α : Type} → Judgement α → Prop
  | _, .typeOf functions _ => functions = stack
  | _, .returnType functions body => functions = stack ∨ functions = body :: stack
  | _, .calls _ => stack = []
  | _, .statement _ => stack = []

instance Judgement.decidableAt (stack : List NodeId) :
    {α : Type} → (j : Judgement α) → Decidable (j.At stack)
  | _, .typeOf functions _ => inferInstanceAs (Decidable (functions = stack))
  | _, .returnType functions body =>
    inferInstanceAs (Decidable (functions = stack ∨ functions = body :: stack))
  | _, .calls _ => inferInstanceAs (Decidable (stack = []))
  | _, .statement _ => inferInstanceAs (Decidable (stack = []))

namespace Context

variable (ctx : Context σ) {stack : List NodeId} {x : NodeId}

/-- The context in which only judgements for a given stack can be turned to. -/
def pinned (stack : List NodeId) : Context σ :=
  ⟨ctx.spec, ctx.config, fun j => if j.At stack then ctx.judge j else throw .outOfDepth⟩

@[simp] theorem pinned_spec : (ctx.pinned stack).spec = ctx.spec := rfl

@[simp] theorem pinned_config : (ctx.pinned stack).config = ctx.config := rfl

theorem pinned_judge {j : Judgement α} (h : j.At stack) :
    (ctx.pinned stack).judge j = ctx.judge j :=
  if_pos h

@[simp] theorem pinned_typeOf :
    (ctx.pinned stack).judge (.typeOf stack x) = ctx.judge (.typeOf stack x) :=
  ctx.pinned_judge rfl

@[simp] theorem pinned_returnType :
    (ctx.pinned stack).judge (.returnType stack x) = ctx.judge (.returnType stack x) :=
  ctx.pinned_judge (.inl rfl)

@[simp] theorem pinned_returnType_cons :
    (ctx.pinned stack).judge (.returnType (x :: stack) x) =
      ctx.judge (.returnType (x :: stack) x) :=
  ctx.pinned_judge (.inr rfl)

@[simp] theorem pinned_calls : (ctx.pinned []).judge (.calls x) = ctx.judge (.calls x) :=
  ctx.pinned_judge rfl

@[simp] theorem pinned_statement :
    (ctx.pinned []).judge (.statement x) = ctx.judge (.statement x) :=
  ctx.pinned_judge rfl

@[simp] theorem pinned_operandType :
    (ctx.pinned stack).operandType stack x = ctx.operandType stack x := by
  simp only [operandType, pinned_typeOf]

@[simp] theorem pinned_expectCondition :
    (ctx.pinned stack).expectCondition stack x = ctx.expectCondition stack x := by
  simp only [expectCondition, pinned_typeOf]

@[simp] theorem pinned_functionType :
    (ctx.pinned stack).functionType stack x = ctx.functionType stack x := by
  simp only [functionType, pinned_returnType_cons]

theorem pinned_formType (obtain : BodySource σ) (form : Form) :
    (ctx.pinned stack).formType obtain stack x form = ctx.formType obtain stack x form := by
  cases form <;>
    simp only [formType, binaryType, unaryType, choiceType, castType, callType, operationType,
      definedType, pinned_typeOf, pinned_operandType, pinned_expectCondition,
      pinned_functionType, pinned_spec]

/-- The rule for expressions turns to judgements for the stack that it is given. -/
theorem pinned_typeRule (obtain : BodySource σ) :
    (ctx.pinned stack).typeRule obtain stack x = ctx.typeRule obtain stack x := by
  simp only [typeRule, pinned_formType]

theorem pinned_exitType : (ctx.pinned stack).exitType stack x = ctx.exitType stack x := by
  simp only [exitType, pinned_typeOf, pinned_returnType]
  rfl

/-- So does the rule for bodies. -/
theorem pinned_returnTypeRule :
    (ctx.pinned stack).returnTypeRule stack x = ctx.returnTypeRule stack x := by
  have hexits : (ctx.pinned stack).unifyExits stack = ctx.unifyExits stack := by
    funext sofar stmt
    simp only [unifyExits, pinned_exitType]
  simp only [returnTypeRule, hexits]

/-! ### Checks outside of functions -/

@[simp] theorem pinned_checkChildren : (ctx.pinned []).checkChildren x = ctx.checkChildren x := by
  simp only [checkChildren, pinned_statement]

@[simp] theorem pinned_checkExpr : (ctx.pinned []).checkExpr x = ctx.checkExpr x := by
  simp only [checkExpr, pinned_typeOf, pinned_calls]

@[simp] theorem pinned_multiValue (count : Nat) :
    (ctx.pinned []).multiValue x count = ctx.multiValue x count := by
  simp only [multiValue, pinned_typeOf, pinned_spec]

@[simp] theorem pinned_checkArguments :
    (ctx.pinned []).checkArguments x = ctx.checkArguments x := by
  have hfrom : ∀ name position arguments,
      (ctx.pinned []).checkArgumentsFrom x name position arguments =
        ctx.checkArgumentsFrom x name position arguments := by
    intro name position arguments
    induction arguments generalizing position with
    | nil => rfl
    | cons argument rest ih =>
      simp only [checkArgumentsFrom, checkArgument, pinned_typeOf, pinned_spec, ih]
  simp only [checkArguments, hfrom]

@[simp] theorem pinned_checkFunction : (ctx.pinned []).checkFunction x = ctx.checkFunction x := by
  simp only [checkFunction, pinned_checkChildren, pinned_functionType]

theorem pinned_callsRule : (ctx.pinned []).callsRule x = ctx.callsRule x := by
  have hpart : (ctx.pinned []).checkPart = ctx.checkPart := by
    funext part
    simp only [checkPart, pinned_typeOf, pinned_calls]
  simp only [callsRule, hpart, pinned_checkArguments]

theorem pinned_statementRule : (ctx.pinned []).statementRule x = ctx.statementRule x := by
  have hvalues : ∀ targets value,
      (ctx.pinned []).valueTypes targets value = ctx.valueTypes targets value := by
    intro targets value
    cases targets <;> simp only [valueTypes, pairTypes, quadrupleTypes, pinned_typeOf,
      pinned_multiValue]
  have hform : ∀ scope form,
      (ctx.pinned []).checkForm x scope form = ctx.checkForm x scope form := by
    intro scope form
    unfold checkForm
    simp only [checkInnerField, checkTargets, checkGuarded, hvalues, pinned_checkChildren,
      pinned_checkExpr, pinned_checkFunction, pinned_expectCondition, pinned_spec]
  simp only [statementRule, hform]

/-- Outside of functions, queries turn to judgements that are passed there. -/
theorem pinned_answer (q : Query α) : (ctx.pinned []).answer q = ctx.answer q := by
  cases q <;>
    simp only [answer, pairTypes, quadrupleTypes, resolveField, pinned_typeOf,
      pinned_returnType, pinned_checkExpr, pinned_checkChildren, pinned_checkFunction,
      pinned_checkArguments, pinned_multiValue, pinned_spec]

end Context

/-! ### Both ways of checking -/

/-- A state of a checker with a stack is one of a checker without, together with a given
stack. -/
def OnStack (stack : List NodeId) (s : CheckState σ) (t : CheckState (σ × List NodeId)) : Prop :=
  t = s.stacked stack

namespace OnStack

variable {stack : List NodeId} {f : NodeId}

/-- Outcomes that are related by a given stack differ in nothing but that stack. -/
theorem eq {out : Except Halt α × CheckState σ}
    {out' : Except Halt α × CheckState (σ × List NodeId)}
    (h : Related (OnStack stack) out out') : out' = (out.1, out.2.stacked stack) :=
  Prod.ext h.answer.symm h.state

theorem indifferent (stack : List NodeId) : Indifferent (OnStack (σ := σ) stack) where
  code := by
    rintro s _ rfl
    rfl
  recode := by
    rintro s _ c rfl
    rfl

theorem admissible (stack : List NodeId) : Admissible (OnStack (σ := σ) stack) :=
  (indifferent stack).admissible

theorem compatible (stack : List NodeId) : Compatible (Relates (OnStack (σ := σ) stack)) :=
  Relates.compatible (admissible stack)

/-- Without a parser there is no definition to be had, and the functions being resolved have
no part in it. -/
theorem corresponds : BodySource.Corresponds (OnStack (σ := σ) stack)
    (Context.materialize none) (Context.materialize none) :=
  fun _ _ _ s t hst _ => Relates.materialize (indifferent stack) .none s t hst

variable {a : Check σ α}

/-- A rule that goes by the stack finds the functions that it would have been given. -/
theorem resolving {b : List NodeId → Check (σ × List NodeId) α}
    (h : Relates (OnStack stack) a (b stack)) :
    Relates (OnStack stack) a (Check.resolving >>= b) := by
  rintro s _ rfl
  exact h s (s.stacked stack) rfl

/-- **Entering a function leaves the stack as it was**, with or without an answer, if what is
done meanwhile does. -/
theorem entering {b : Check (σ × List NodeId) α} (h : Relates (OnStack (f :: stack)) a b) :
    Relates (OnStack stack) a (entering f b) := by
  rintro s _ rfl
  have hmeanwhile := h s (s.stacked (f :: stack)) rfl
  have hexec : exec (Check.entering f b) (s.stacked stack) =
      exec (modifyResolving List.tail >>= fun _ =>
        MonadExcept.ofExcept (exec b (s.stacked (f :: stack))).1)
        (exec b (s.stacked (f :: stack))).2 := by
    unfold Check.entering
    rw [exec_bind, modifyResolving, exec_modify]
    dsimp only
    rw [exec_bind, exec_outcome]
    rfl
  rw [hexec, ← hmeanwhile.answer, hmeanwhile.state, exec_bind, modifyResolving, exec_modify]
  cases hanswer : (exec a s).1 with
  | ok x => exact ⟨hanswer, rfl⟩
  | error halt => exact ⟨hanswer, rfl⟩

end OnStack

/-- The exits of a body are compared without entering a function if no further one is given. -/
theorem Context.exec_stackRule_returnType (ctx : Context (σ × List NodeId))
    {functions stack : List NodeId} {body : NodeId} (h : functions ≠ body :: stack)
    (s : CheckState σ) :
    exec (ctx.stackRule (.returnType functions body)) (s.stacked stack) =
      exec (ctx.returnTypeRule stack body) (s.stacked stack) := by
  change exec (if functions = body :: stack then _ else ctx.returnTypeRule stack body) _ = _
  rw [if_neg h]

/-- Contexts correspond for a given stack if the judgements that are passed for it do. -/
theorem Context.pinned_corresponds {τ : Type} {S : CheckState σ → CheckState τ → Prop}
    {ctx : Context σ} {ctx' : Context τ} {stack : List NodeId} (hspec : ctx'.spec = ctx.spec)
    (hconfig : ctx'.config = ctx.config)
    (h : ∀ {β : Type} (j : Judgement β), j.At stack → Relates S (ctx.judge j) (ctx'.judge j)) :
    (ctx.pinned stack).Corresponds S (ctx'.pinned stack) := by
  refine ⟨hspec, hconfig, fun j => ?_⟩
  by_cases hj : j.At stack
  · rw [pinned_judge _ hj, pinned_judge _ hj]
    exact h j hj
  · unfold pinned
    dsimp only
    rw [if_neg hj, if_neg hj]
    exact .throw .outOfDepth

namespace Checker

variable (checker : Checker σ) (hparser : checker.parser = none)

include hparser

/-- **Keeping the functions being resolved on a stack changes nothing**: at every depth, and
whatever is on the stack, a judgement that is passed while it holds these functions is decided
as before, and leaves the stack as it was. -/
theorem stackContext_corresponds (d : Nat) (stack : List NodeId) :
    ((checker.context d).pinned stack).Corresponds (OnStack stack)
      ((checker.stackContext d).pinned stack) := by
  induction d generalizing stack with
  | zero => exact Context.pinned_corresponds rfl rfl fun _ _ => .throw .outOfDepth
  | succ d ih =>
    refine Context.pinned_corresponds rfl rfl fun {α} j hj => ?_
    have hjudge : (checker.context (d + 1)).judge j =
        (checker.context d).rule (Context.materialize none) j := by
      change (checker.context d).rule (checker.supply _) j = _
      rw [supply, hparser]
      rfl
    rw [hjudge]
    change Relates _ _ ((checker.stackContext d).stackRule j)
    cases j with
    | typeOf functions expr =>
      obtain rfl : functions = stack := hj
      have htype := (ih functions).typeRule (OnStack.compatible functions)
        ((ih functions).callType (OnStack.admissible functions) OnStack.corresponds functions expr)
      rw [Context.pinned_typeRule, Context.pinned_typeRule] at htype
      exact OnStack.resolving htype
    | returnType functions body =>
      have hbody : ∀ stack, Relates (OnStack stack)
          ((checker.context d).returnTypeRule stack body)
          ((checker.stackContext d).returnTypeRule stack body) := by
        intro stack
        have hreturn := (ih stack).returnTypeRule (OnStack.compatible stack) (R := stack)
          (x := body)
        rwa [Context.pinned_returnTypeRule, Context.pinned_returnTypeRule] at hreturn
      rcases hj with rfl | rfl
      · rintro s _ rfl
        rw [Context.exec_stackRule_returnType _ (List.cons_ne_self body functions).symm]
        exact hbody functions s _ rfl
      -- Here the body is that of a function which the stack lacks as yet.
      · refine OnStack.resolving ?_
        rw [if_pos rfl]
        exact OnStack.entering (OnStack.resolving (hbody (body :: stack)))
    | calls expr =>
      obtain rfl : stack = [] := hj
      have hcalls := (ih []).callsRule (OnStack.compatible []) (x := expr)
      rwa [Context.pinned_callsRule, Context.pinned_callsRule] at hcalls
    | statement stmt =>
      obtain rfl : stack = [] := hj
      have hstmt := (ih []).statementRule (OnStack.compatible []) (x := stmt)
      rwa [Context.pinned_statementRule, Context.pinned_statementRule] at hstmt

/-! ### Queries -/

omit hparser in
/-- What is typed with a stack does not depend on the functions that are given. -/
theorem stackContext_typeOf (d : Nat) (functions functions' : List NodeId) (x : NodeId) :
    (checker.stackContext d).judge (.typeOf functions x) =
      (checker.stackContext d).judge (.typeOf functions' x) := by
  cases d <;> rfl

omit hparser in
/-- Neither is a function entered for which there is no call. -/
theorem exec_stackContext_returnType (d : Nat) (s : CheckState σ) (stack : List NodeId)
    (x : NodeId) :
    ((checker.stackContext d).judge (.returnType [] x)).exec (s.stacked stack) =
      ((checker.stackContext d).judge (.returnType stack x)).exec (s.stacked stack) := by
  cases d with
  | zero => rfl
  | succ d =>
    change exec ((checker.stackContext d).stackRule (.returnType [] x)) (s.stacked stack) =
      exec ((checker.stackContext d).stackRule (.returnType stack x)) (s.stacked stack)
    rw [Context.exec_stackRule_returnType _ (List.cons_ne_nil x stack).symm,
      Context.exec_stackRule_returnType _ (List.cons_ne_self x stack).symm]

end Checker

/-- A query for the type of an expression or of the exits of a body, which can be put while
functions are being resolved. -/
def Query.Infers : {α : Type} → Query α → Prop
  | _, .typeOf _ => True
  | _, .returnType _ => True
  | _, _ => False

namespace Checker

/-- **Recursive programs do not make inference loop.** Whatever is asked about a unit without
cycles in it, however its functions call one another and whether or not they have definitions,
a checker with a stack comes to an end within the depth that the unit allows for, and then the
stack is what it was at the beginning. Outside of functions the answer is that of the checker
itself. -/
theorem askStacked_restores (checker : Checker σ) (hparser : checker.parser = none)
    (q : Query α) (s : CheckState σ) (hcode : s.code.Acyclic) (stack : List NodeId)
    (hstack : q.Infers ∨ stack = []) :
    ∃ r t, checker.askStacked q (s.stacked stack) = (r, t.stacked stack) ∧
      r ≠ .error .outOfDepth ∧ (stack = [] → checker.ask q s = (r, t)) := by
  have hdepth : checker.depth s.code = ownDepth s.code := by
    unfold depth
    rw [hparser]
    rfl
  have hbodiless := checker.bodiless hparser s.code
  have hcorresponds := checker.stackContext_corresponds hparser (checker.depth s.code) stack
  suffices h : ∃ out, Related (OnStack stack) out (checker.askStacked q (s.stacked stack)) ∧
      out.1 ≠ .error .outOfDepth ∧ (stack = [] → checker.ask q s = out) by
    obtain ⟨⟨r, t⟩, hout, hne, hask⟩ := h
    exact ⟨r, t, OnStack.eq hout, hne, hask⟩
  rcases Decidable.em (stack = []) with rfl | hne
  · have hanswer := hcorresponds.answer (OnStack.admissible []) q s (s.stacked []) rfl
    rw [Context.pinned_answer, Context.pinned_answer] at hanswer
    exact ⟨checker.ask q s, hanswer,
      Supply.answer_ne_outOfDepth hbodiless hcode hdepth.ge q s (.refl _), fun _ => rfl⟩
  -- While functions are being resolved, the checker itself is given them.
  · have hroom : (s.code.size + 1) * (s.code.size + 1) ≤ checker.depth s.code := by
      rw [hdepth]
      unfold ownDepth
      nlinarith
    have hvisit : ∀ subject,
        Check.Concludes s.code ((checker.context (checker.depth s.code)).visit stack subject) :=
      Supply.concludes_visit hbodiless hcode hroom stack
    cases q with
    | typeOf x =>
      have hanswer := hcorresponds.judge (.typeOf stack x) s (s.stacked stack) rfl
      rw [Context.pinned_typeOf, Context.pinned_typeOf,
        checker.stackContext_typeOf _ stack []] at hanswer
      exact ⟨_, hanswer, (hvisit (.expr x) s (.refl _)).1, fun h => absurd h hne⟩
    | returnType x =>
      have hanswer := hcorresponds.judge (.returnType stack x) s (s.stacked stack) rfl
      rw [Context.pinned_returnType, Context.pinned_returnType,
        ← checker.exec_stackContext_returnType] at hanswer
      exact ⟨_, hanswer, (hvisit (.body x) s (.refl _)).1, fun h => absurd h hne⟩
    | _ => exact absurd (hstack.resolve_right hne) id

set_option maxRecDepth 2000 in
/-- Of two functions that call each other, the call of the first one is in error, and this is found
while both are on the stack. A call of the second one has no known type while it is on the stack. -/
theorem askStacked_restores_mutualCalls :
    let checker : Checker Unit := ⟨Standard.spec, .strict, none⟩
    let s : CheckState Unit := ⟨mutualCalls, ()⟩
    (∃ (r : Except Halt Ty) (t : CheckState Unit),
      checker.askStacked (.typeOf 13) (s.stacked []) = (r, t.stacked []) ∧
        checker.ask (.typeOf 13) s = (r, t) ∧ r.toOption = none) ∧
    ∃ t : CheckState Unit,
      checker.askStacked (.typeOf 14) (s.stacked [12]) = (.ok .unknown, t.stacked [12]) := by
  intro checker s
  have hcode : s.code.Acyclic :=
    CompilationUnit.acyclic_of_lt (CompilationUnit.link_lt_of_forall (by decide))
  obtain ⟨r, t, hstacked, -, hask⟩ :=
    checker.askStacked_restores rfl (.typeOf 13) s hcode [] (.inr rfl)
  obtain ⟨r', t', hstacked', -, -⟩ :=
    checker.askStacked_restores rfl (.typeOf 14) s hcode [12] (.inl trivial)
  have hr : (checker.ask (.typeOf 13) s).1.toOption = none := rfl
  have hr' : (checker.askStacked (.typeOf 14) (s.stacked [12])).1 = .ok .unknown := rfl
  rw [hask rfl] at hr
  rw [hstacked'] at hr'
  exact ⟨⟨r, t, hstacked, hask rfl, hr⟩, t', hr' ▸ hstacked'⟩

end Checker

end ContractLang
