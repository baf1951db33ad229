import ContractLang.Proofs.Typing.Recall

/-!
# Computations that mirror plain rules

Computations of the checker are compared with answers of typing without a memory in more than one
way, and all that a comparison has to bear with is what the rules are built from: sequences,
handlers of errors, and reading nodes, of which it does not matter what typing has put on record. A
relation between computations and answers that does is a *mirror* (`ContractLang.Typing.Mirrors`).
Then the rules for operators, choices, casts and calls of operations stand in that relation to the
plain rules if the judgements about the parts do.
-/

namespace ContractLang

namespace Typing

open Check

variable {σ α : Type}

/-- A relation between computations of the checker and answers that holds of equal answers and
equal errors, and that sequences, handlers and reading a unit like that of `T` respect. -/
structure Mirrors (T : Typing) (Rel : {α : Type} → Check σ α → Except Halt α → Prop) : Prop where
  pure : ∀ {α : Type} (a : α), Rel (pure a) (.ok a)
  fail : ∀ {α : Type} (error : Error), Rel (fail error : Check σ α) (.error (.fault error))
  bind : ∀ {α β : Type} {action : Check σ α} {r : Except Halt α} {f : α → Check σ β}
    {g : α → Except Halt β}, Rel action r → (∀ a, r = .ok a → Rel (f a) (g a)) →
      Rel (action >>= f) (r >>= g)
  onFault : ∀ {α : Type} {action : Check σ α} {r : Except Halt α} {handler : Error → Check σ α}
    {f : Error → Error}, Rel action r → (∀ e, Rel (handler e) (.error (.fault (f e)))) →
      Rel (action.onFault handler) (mapFault f r)
  node : ∀ {α : Type} {id : NodeId} {f : Node → Check σ α} {r : Except Halt α},
    (∀ type definition, Rel (f { T.code.node id with type, definition }) r) →
      Rel (node id >>= f) r
  textOf : ∀ {α : Type} {id : NodeId} {f : String → Check σ α} {r : Except Halt α},
    Rel (f (T.code.render id)) r → Rel (textOf id >>= f) r

namespace Mirrors

variable {T : Typing} {Rel : {α : Type} → Check σ α → Except Halt α → Prop} (hRel : T.Mirrors Rel)

include hRel

theorem liftExcept (answer : Except Error α) :
    Rel (liftExcept answer : Check σ α) (lift answer) := by
  cases answer with
  | ok a => exact hRel.pure a
  | error e => exact hRel.fail e

theorem rejectIf (bad : Prop) [Decidable bad] {failure : Check σ Unit} {error : Error}
    (h : Rel failure (.error (.fault error))) :
    Rel (Check.rejectIf bad failure) (Typing.rejectIf bad error) := by
  unfold Check.rejectIf Typing.rejectIf
  split
  · exact h
  · exact hRel.pure ()

theorem typeMismatch (id : NodeId) (expected received : Ty) :
    Rel (typeMismatch id expected received : Check σ α)
      (.error (.fault (T.mismatch id expected received))) :=
  hRel.textOf (hRel.fail _)

theorem located {action : Check σ α} {r : Except Halt α} (h : Rel action r)
    (position : Option Position) :
    Rel (located position action) (mapFault (·.orPosition position) r) :=
  hRel.onFault h fun _ => hRel.fail _

/-! ### The rules -/

variable {ctx : Context σ} {v : Verdicts} {R : List NodeId} {x y : NodeId}

theorem operandType (h : Rel (ctx.judge (.typeOf R y)) (v.typeOf R y)) :
    Rel (ctx.operandType R y) (T.operandType v R y) := by
  refine hRel.bind (hRel.onFault h fun e => hRel.textOf (hRel.fail _)) fun type _ => ?_
  exact hRel.bind (hRel.rejectIf _ (hRel.textOf (hRel.fail _))) fun _ _ => hRel.pure type

theorem expectOperand (expr : NodeId) (side : String) (expected received : Ty) :
    Rel (Context.expectOperand expr side expected received : Check σ Unit)
      (Typing.rejectIf (expected.isKnown ∧ expected ≠ received)
        (T.operandMismatch expr side expected received)) :=
  hRel.rejectIf _ (hRel.textOf (hRel.fail _))

theorem expectCondition (h : Rel (ctx.judge (.typeOf R y)) (v.typeOf R y)) :
    Rel (ctx.expectCondition R y) (T.expectCondition v R y) :=
  hRel.bind h fun _ _ => hRel.rejectIf _ (hRel.node fun _ _ => hRel.fail _)

theorem choiceType {cond yes no : NodeId}
    (hcond : Rel (ctx.judge (.typeOf R cond)) (v.typeOf R cond))
    (hyes : Rel (ctx.judge (.typeOf R yes)) (v.typeOf R yes))
    (hno : Rel (ctx.judge (.typeOf R no)) (v.typeOf R no)) :
    Rel (ctx.choiceType R cond yes no) (T.choiceType v R cond yes no) := by
  refine hRel.bind (hRel.expectCondition hcond) fun _ _ => ?_
  refine hRel.bind hyes fun first _ => hRel.bind hno fun second _ => ?_
  exact hRel.bind (hRel.rejectIf _ (hRel.fail _)) fun _ _ => hRel.pure first

theorem castType (target : Ty) (h : Rel (ctx.judge (.typeOf R y)) (v.typeOf R y)) :
    Rel (ctx.castType R target y) (castType v R target y) :=
  hRel.bind h fun _ _ => hRel.bind (hRel.rejectIf _ (hRel.fail _)) fun _ _ => hRel.pure target

variable (hspec : ctx.spec = T.spec)

include hspec

theorem binaryType {lhs rhs : NodeId} (op : String)
    (hlhs : Rel (ctx.judge (.typeOf R lhs)) (v.typeOf R lhs))
    (hrhs : Rel (ctx.judge (.typeOf R rhs)) (v.typeOf R rhs)) :
    Rel (ctx.binaryType R x op lhs rhs) (T.binaryType v R x op lhs rhs) := by
  unfold Context.binaryType
  rw [hspec]
  refine hRel.bind (hRel.liftExcept _) fun result _ => hRel.bind (hRel.liftExcept _) fun left _ =>
    hRel.bind (hRel.liftExcept _) fun right _ => ?_
  refine hRel.bind (hRel.operandType hlhs) fun leftReceived _ => ?_
  refine hRel.bind (hRel.operandType hrhs) fun rightReceived _ => ?_
  refine hRel.bind (hRel.expectOperand x _ _ _) fun _ _ => ?_
  refine hRel.bind (hRel.expectOperand x _ _ _) fun _ _ => ?_
  exact hRel.bind (hRel.rejectIf _ (hRel.typeMismatch _ _ _)) fun _ _ => hRel.pure result

theorem unaryType (op : String) (h : Rel (ctx.judge (.typeOf R y)) (v.typeOf R y)) :
    Rel (ctx.unaryType R x op y) (T.unaryType v R x op y) := by
  unfold Context.unaryType
  rw [hspec]
  refine hRel.bind (hRel.liftExcept _) fun result _ =>
    hRel.bind (hRel.liftExcept _) fun expected _ => ?_
  refine hRel.bind (hRel.operandType h) fun received _ => ?_
  refine hRel.bind (hRel.rejectIf _ (hRel.typeMismatch _ _ _)) fun _ _ => ?_
  exact hRel.bind (hRel.rejectIf _ (hRel.typeMismatch _ _ _)) fun _ _ => hRel.pure result

/-- The type of a call of an operation does not depend on what is on record for the call. -/
theorem operationType (name : String) {type : Ty} {definition : Option NodeId}
    (h : ∀ y ∈ T.code.children x, Rel (ctx.judge (.typeOf R y)) (v.typeOf R y)) :
    Rel (ctx.operationType R { T.code.node x with type, definition } name)
      (T.operationType v R (T.code.node x) name) := by
  unfold Context.operationType Typing.operationType
  rw [hspec]
  refine hRel.bind (hRel.liftExcept _) fun type _ => ?_
  split
  · unfold OpSpec.dependentOn?
    cases hargument :
        (T.spec.dependentArgument? name).bind fun i => (T.code.node x).children[i]? with
    | none => exact hRel.pure Ty.unknown
    | some argument =>
      obtain ⟨i, -, hi⟩ := Option.bind_eq_some_iff.mp hargument
      exact h argument (List.mem_of_getElem? hi)
  · exact hRel.pure type

/-- The rule for a form is mirrored if judgements about the operands are. What is remembered of
the answer, and how names and calls are looked up, is up to the relation that results. -/
theorem formType {obtain : BodySource σ} {Rel' : Check σ Ty → Except Halt Ty → Prop}
    (hplain : ∀ {action r}, Rel action r → Rel' action r)
    (hmemo : (T.code.form x).remembers → (∀ name, T.code.form x ≠ .call name) → ∀ infer,
      Rel infer (T.formType v R x (T.code.form x)) →
        Rel' (memo x infer) (T.formType v R x (T.code.form x)))
    (hname : ∀ name, T.code.form x = .ident name ∨ T.code.form x = .call name →
      Rel' (ctx.formType obtain R x (T.code.form x)) (T.formType v R x (T.code.form x)))
    (hoperand : ∀ y ∈ (T.code.form x).operands, Rel (ctx.judge (.typeOf R y)) (v.typeOf R y)) :
    Rel' (ctx.formType obtain R x (T.code.form x)) (T.formType v R x (T.code.form x)) := by
  -- One case for each form: those that are remembered go through the record, the others do not.
  cases hform : T.code.form x <;> rw [hform] at hmemo hname hoperand <;>
    simp only [Form.operands, List.mem_cons, List.not_mem_nil, or_false, forall_eq_or_imp,
      forall_eq] at hoperand
  case literal type text => exact hplain (hRel.pure type)
  case const name type value => exact hplain (hRel.pure type)
  case ident name => exact hname name (.inl rfl)
  case binary op lhs rhs =>
    exact hmemo rfl (fun _ h => by cases h) _ (hRel.binaryType hspec op hoperand.1 hoperand.2)
  case group value => exact hplain hoperand
  case unary op value =>
    exact hmemo rfl (fun _ h => by cases h) _ (hRel.unaryType hspec op hoperand)
  case choice cond yes no =>
    exact hmemo rfl (fun _ h => by cases h) _ (hRel.choiceType hoperand.1 hoperand.2.1 hoperand.2.2)
  case cast target value => exact hplain (hRel.castType target hoperand)
  case call name => exact hname name (.inr rfl)
  case runtimeField op field indices =>
    refine hmemo rfl (fun _ h => by cases h) _ ?_
    rw [hspec]
    exact hRel.liftExcept _
  case runtimeArg op number =>
    refine hmemo rfl (fun _ h => by cases h) _ ?_
    rw [hspec]
    exact hRel.liftExcept _
  all_goals exact hplain (hRel.fail _)

end Mirrors

end Typing

end ContractLang
