import ContractLang.Proofs.Statements.Walk

/-!
# What typing keeps

An invariant of states that survives when types go on record is kept by the rule for expressions
if it is kept while the operands are typed, and by the rule for calls
(`ContractLang.Context.keeps_typeRule`). In contrast to what walks over statements keep, nothing is
asked of the judgements about other nodes. So an invariant can be one of a certain part of the
program, or one that holds while certain functions are being resolved only.
-/

namespace ContractLang

open Check

variable {σ α : Type} {K : CheckState σ → Prop}

/-- An invariant survives when the type of a node goes on record. -/
def Check.Recordable (K : CheckState σ → Prop) : Prop :=
  ∀ {s : CheckState σ} {id : NodeId} {type : Ty}, K s → type.isKnown →
    K { s with code := s.code.setType id type }

namespace Check.Keeps

theorem onFault {a : Check σ α} {handler : Error → Check σ α} (h : Keeps K a)
    (hhandler : ∀ e, Keeps K (handler e)) : Keeps K (a.onFault handler) := by
  intro s hs
  have hu := h s hs
  rw [exec_onFault]
  generalize exec a s = out at hu
  match out, hu with
  | (.ok x, u), hu => exact hu
  | (.error .outOfDepth, u), hu => exact hu
  | (.error (.fault e), u), hu => exact hhandler e u hu

theorem memo {id : NodeId} {infer : Check σ Ty} (hK : Recordable K) (h : Keeps K infer) :
    Keeps K (memo id infer) := by
  refine node fun node => ?_
  dsimp only
  split
  · exact pure _
  · refine h.bind fun type => Keeps.bind ?_ fun _ => pure _
    unfold Check.record
    split
    · next htype => exact fun s hs => hK hs htype
    · exact pure ()

theorem foldlM {β γ : Type} {f : β → γ → Check σ β} (xs : List γ) (h : ∀ x y, Keeps K (f x y))
    (x : β) : Keeps K (xs.foldlM f x) := by
  induction xs generalizing x with
  | nil => exact pure x
  | cons y ys ih =>
    rw [List.foldlM_cons]
    exact (h x y).bind ih

/-- What a loop keeps, and what it finds out about each element if it gets to its end. -/
theorem of_exec_forM {γ : Type} {f : γ → Check σ Unit} {P : γ → Prop} {xs : List γ}
    {s u : CheckState σ}
    (h : ∀ x ∈ xs, ∀ s u, K s → exec (f x) s = (.ok (), u) → K u ∧ P x) (hs : K s)
    (hexec : exec (xs.forM f) s = (.ok (), u)) : K u ∧ ∀ x ∈ xs, P x := by
  induction xs generalizing s with
  | nil =>
    cases hexec
    exact ⟨hs, nofun⟩
  | cons x xs ih =>
    obtain ⟨_, t, hfirst, hrest⟩ := exec_bind_eq_ok hexec
    obtain ⟨ht, hx⟩ := h x List.mem_cons_self s t hs hfirst
    obtain ⟨hu, hxs⟩ := ih (fun y hy => h y (List.mem_cons_of_mem x hy)) ht hrest
    exact ⟨hu, List.forall_mem_cons.mpr ⟨hx, hxs⟩⟩

end Check.Keeps

namespace Context

variable {ctx : Context σ} {obtain : BodySource σ} {R : List NodeId} {x : NodeId}

/-! ### Expressions -/

theorem keeps_operandType (h : Check.Keeps K (ctx.judge (.typeOf R x))) :
    Check.Keeps K (ctx.operandType R x) := by
  refine (h.onFault fun _ => .textOf fun _ => .fail _).bind fun type => ?_
  exact (Keeps.rejectIf _ (.textOf fun _ => .fail _)).bind fun _ => .pure type

theorem keeps_expectOperand (side : String) (expected received : Ty) :
    Check.Keeps K (expectOperand x side expected received : Check σ Unit) :=
  .rejectIf _ (.textOf fun _ => .fail _)

theorem keeps_expectCondition (h : Check.Keeps K (ctx.judge (.typeOf R x))) :
    Check.Keeps K (ctx.expectCondition R x) :=
  h.bind fun _ => .rejectIf _ (.node fun _ => .fail _)

theorem keeps_identType (scope : ScopeId) (name : String) :
    Check.Keeps K (identType scope name : Check σ Ty) := by
  refine .code fun _ => ?_
  split
  · exact .fail _
  · split
    · exact .fail _
    · exact .pure _

theorem keeps_binaryType (op : String) {lhs rhs : NodeId}
    (hlhs : Check.Keeps K (ctx.judge (.typeOf R lhs)))
    (hrhs : Check.Keeps K (ctx.judge (.typeOf R rhs))) :
    Check.Keeps K (ctx.binaryType R x op lhs rhs) := by
  refine .bind (.liftExcept _) fun result => .bind (.liftExcept _) fun left =>
    .bind (.liftExcept _) fun right => ?_
  refine (keeps_operandType hlhs).bind fun _ => (keeps_operandType hrhs).bind fun _ => ?_
  refine (keeps_expectOperand _ _ _).bind fun _ => (keeps_expectOperand _ _ _).bind fun _ => ?_
  exact (Keeps.rejectIf _ (.typeMismatch _ _ _)).bind fun _ => .pure result

theorem keeps_unaryType (op : String) {value : NodeId}
    (hvalue : Check.Keeps K (ctx.judge (.typeOf R value))) :
    Check.Keeps K (ctx.unaryType R x op value) := by
  refine .bind (.liftExcept _) fun result => .bind (.liftExcept _) fun expected => ?_
  refine (keeps_operandType hvalue).bind fun _ => ?_
  refine (Keeps.rejectIf _ (.typeMismatch _ _ _)).bind fun _ => ?_
  exact (Keeps.rejectIf _ (.typeMismatch _ _ _)).bind fun _ => .pure result

theorem keeps_choiceType {cond yes no : NodeId}
    (hcond : Check.Keeps K (ctx.judge (.typeOf R cond)))
    (hyes : Check.Keeps K (ctx.judge (.typeOf R yes)))
    (hno : Check.Keeps K (ctx.judge (.typeOf R no))) :
    Check.Keeps K (ctx.choiceType R cond yes no) := by
  refine (keeps_expectCondition hcond).bind fun _ => hyes.bind fun first => hno.bind fun _ => ?_
  exact (Keeps.rejectIf _ (.fail _)).bind fun _ => .pure first

theorem keeps_castType (target : Ty) {value : NodeId}
    (hvalue : Check.Keeps K (ctx.judge (.typeOf R value))) :
    Check.Keeps K (ctx.castType R target value) :=
  hvalue.bind fun _ => (Keeps.rejectIf _ (.fail _)).bind fun _ => .pure target

theorem keeps_operationType {call : Node} (name : String)
    (h : ∀ y ∈ call.children, Check.Keeps K (ctx.judge (.typeOf R y))) :
    Check.Keeps K (ctx.operationType R call name) := by
  refine .bind (.liftExcept _) fun type => ?_
  split
  · split
    · next argument hargument =>
      obtain ⟨i, -, hi⟩ := Option.bind_eq_some_iff.mp hargument
      exact h argument (List.mem_of_getElem? hi)
    · exact .pure _
  · exact .pure _

/-- The rule for a form keeps what is kept while the operands of the form are typed, and, if it is
that of calls, by the rule for these. -/
theorem keeps_formType (hK : Recordable K) {form : Form}
    (hparts : ∀ y ∈ form.operands, Check.Keeps K (ctx.judge (.typeOf R y)))
    (hcall : ∀ name, form = .call name → Check.Keeps K (ctx.callType obtain R x name)) :
    Check.Keeps K (ctx.formType obtain R x form) := by
  have hmem : ∀ {y}, y ∈ form.operands → Check.Keeps K (ctx.judge (.typeOf R y)) := hparts _
  cases form with
  | literal | const => exact .pure _
  | ident name => exact .node fun _ => .memo hK (keeps_identType _ name)
  | binary op lhs rhs =>
    exact .memo hK (keeps_binaryType op (hmem (by simp [Form.operands]))
      (hmem (by simp [Form.operands])))
  | group value => exact hmem (by simp [Form.operands])
  | unary op value => exact .memo hK (keeps_unaryType op (hmem (by simp [Form.operands])))
  | choice cond yes no =>
    exact .memo hK (keeps_choiceType (hmem (by simp [Form.operands]))
      (hmem (by simp [Form.operands])) (hmem (by simp [Form.operands])))
  | cast target value => exact keeps_castType target (hmem (by simp [Form.operands]))
  | call name => exact .memo hK (hcall name rfl)
  | runtimeField | runtimeArg => exact .memo hK (.liftExcept _)
  | _ => exact .fail _

/-- **Typing an expression keeps an invariant** if it is kept while the operands are typed, and by
the rule for calls. -/
theorem keeps_typeRule (hK : Recordable K)
    (hparts : ∀ s, K s → ∀ y ∈ (s.code.form x).operands, Check.Keeps K (ctx.judge (.typeOf R y)))
    (hcall : ∀ s name, K s → s.code.form x = .call name →
      Check.Keeps K (ctx.callType obtain R x name)) :
    Check.Keeps K (ctx.typeRule obtain R x) := by
  intro s hs
  unfold typeRule
  rw [exec_bind, exec_node]
  exact Keeps.located (keeps_formType hK (hparts s hs) fun name => hcall s name hs) _ s hs

/-! ### Bodies -/

/-- **Comparing the exits of a body keeps an invariant** if judgements about all nodes do. -/
theorem keeps_returnTypeRule (htype : ∀ y, Check.Keeps K (ctx.judge (.typeOf R y)))
    (hbody : ∀ y, Check.Keeps K (ctx.judge (.returnType R y))) :
    Check.Keeps K (ctx.returnTypeRule R x) := by
  refine .code fun _ => .foldlM _ (fun sofar stmt => ?_) _
  refine Keeps.bind (.code fun _ => ?_) fun type => ?_
  · split
    · exact htype _
    · exact .pure _
    · exact hbody _
    · exact hbody _
    · exact .pure _
  · exact (Keeps.rejectIf _ (.node fun _ => .fail _)).bind fun _ => .pure _

end Context

end ContractLang
