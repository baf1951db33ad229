import ContractLang.Proofs.Statements.Refining

/-!
# Enough depth for statements

Typing needs no more depth than all nodes of a unit once for every function
(`ContractLang.Supply.visit_ne_outOfDepth`). Checking statements adds to this the rank of
the statement: statements lead to their children and to expressions below them, and the
calls inside an expression to its parts, but never back up. So without a parser, the depth
that a unit allows for is enough for every query, however functions call one another
(`ContractLang.Supply.answer_ne_outOfDepth`).
-/

namespace ContractLang

open Check

variable {σ α β : Type} {base : CompilationUnit}

/-- From whatever unit that refines `base`, a computation concludes: it does not run out of depth,
and does no more to the unit than to refine it. -/
def Check.Concludes (base : CompilationUnit) (a : Check σ α) : Prop :=
  ∀ s, base.RefinesTo s.code →
    (exec a s).1 ≠ .error .outOfDepth ∧ base.RefinesTo (exec a s).2.code

namespace Check.Concludes

variable {a : Check σ α}

theorem of_keeps (h : Keeps (fun s => base.RefinesTo s.code) a)
    (hne : ∀ s, (exec a s).1 ≠ .error .outOfDepth) : Concludes base a :=
  fun s hs => ⟨hne s, h s hs⟩

theorem pure (x : α) : Concludes base (pure x : Check σ α) :=
  .of_keeps (.pure x) fun s => by simp

theorem fail (e : Error) : Concludes base (fail e : Check σ α) :=
  .of_keeps (.fail e) fun s => by simp

theorem liftExcept (given : Except Error α) : Concludes base (liftExcept given : Check σ α) := by
  cases given with
  | ok x => exact pure x
  | error e => exact fail e

theorem bind {f : α → Check σ β} (h : Concludes base a) (hf : ∀ x, Concludes base (f x)) :
    Concludes base (a >>= f) := by
  intro s hs
  have hfirst := h s hs
  rw [exec_bind]
  generalize exec a s = out at hfirst
  obtain ⟨r, u⟩ := out
  cases r with
  | ok x => exact hf x u hfirst.2
  | error halt => exact ⟨fun heq => hfirst.1 (by rw [Except.error.inj heq]), hfirst.2⟩

theorem discard (h : Concludes base a) : Concludes base (discard a) := by
  rw [discard_eq_bind]
  exact h.bind fun _ => pure ()

/-- What is read is a unit that refines the first one. -/
theorem code {f : CompilationUnit → Check σ α}
    (h : ∀ c, base.RefinesTo c → Concludes base (f c)) : Concludes base (Check.code >>= f) := by
  intro s hs
  rw [exec_bind, exec_code]
  exact h s.code hs s hs

theorem node {id : NodeId} {f : Node → Check σ α}
    (h : ∀ c : CompilationUnit, base.RefinesTo c → Concludes base (f (c.node id))) :
    Concludes base (Check.node id >>= f) := by
  intro s hs
  rw [exec_bind, exec_node]
  exact h s.code hs s hs

theorem textOf {id : NodeId} {f : String → Check σ α} (h : ∀ text, Concludes base (f text)) :
    Concludes base (Check.textOf id >>= f) := by
  intro s hs
  rw [exec_bind, exec_textOf]
  exact h (s.code.render id) s hs

theorem rejectIf (bad : Prop) [Decidable bad] {failure : Check σ Unit}
    (h : Concludes base failure) : Concludes base (rejectIf bad failure) := by
  unfold Check.rejectIf
  split
  · exact h
  · exact pure ()

theorem located (h : Concludes base a) (position : Option Position) :
    Concludes base (located position a) := by
  intro s hs
  have hinner := h s hs
  refine ⟨?_, by rw [exec_located_snd]; exact hinner.2⟩
  rw [exec_located]
  split
  · simp
  · exact hinner.1

theorem forM {γ : Type} {f : γ → Check σ Unit} {xs : List γ}
    (hf : ∀ x ∈ xs, Concludes base (f x)) : Concludes base (xs.forM f) := by
  induction xs with
  | nil => exact pure ()
  | cons x xs ih =>
    exact (hf x List.mem_cons_self).bind fun _ =>
      ih fun y hy => hf y (List.mem_cons_of_mem x hy)

theorem complete (scope : ScopeId) (name : String) (type : Ty) :
    Concludes base (complete scope name type : Check σ Unit) := by
  refine .of_keeps (.complete (completable_refinesTo base scope name) type) fun s => ?_
  unfold Check.complete
  split
  · rw [exec_changeScopes]
    split <;> simp
  · simp

end Check.Concludes

/-! ### The rules -/

namespace Context

variable {ctx : Context σ} {x : NodeId}

theorem concludes_callName : Check.Concludes base (callName x : Check σ String) := by
  refine .code fun c _ => ?_
  split
  · exact .pure _
  · exact .textOf fun _ => .fail _

/-- Qualifying a call with a field turns to no judgement. It is not a case of
`ContractLang.Check.Concludes`, since it changes what was built. -/
theorem resolveField_ne_outOfDepth (field : String) (s : CheckState σ)
    (hs : base.RefinesTo s.code) : (exec (ctx.resolveField x field) s).1 ≠ .error .outOfDepth := by
  have hname := concludes_callName (x := x) s hs
  unfold resolveField
  rw [exec_bind]
  generalize exec (callName x) s = out at hname
  obtain ⟨r, u⟩ := out
  cases r with
  | error halt => exact fun heq => hname.1 (by rw [Except.error.inj heq])
  | ok name =>
    dsimp only
    rw [exec_bind]
    cases ctx.spec.fieldType name field with
    | error e => simp
    | ok type =>
      rw [exec_liftExcept_ok]
      dsimp only
      rw [exec_bind, exec_modifyCode]
      simp

section Rules

variable (hvisit : ∀ subject, Check.Concludes base (ctx.visit [] subject))

include hvisit

theorem concludes_checkArgumentsFrom (name : String) (position : Nat) (arguments : List NodeId) :
    Check.Concludes base (ctx.checkArgumentsFrom x name position arguments) := by
  induction arguments generalizing position with
  | nil => exact .pure ()
  | cons argument rest ih =>
    refine .bind (.bind (.liftExcept _) fun expected => (hvisit (.expr _)).bind fun received => ?_)
      fun _ => ih (position + 1)
    exact .rejectIf _ (.node fun _ _ => .textOf fun _ => .fail _)

theorem concludes_checkArguments : Check.Concludes base (ctx.checkArguments x) :=
  concludes_callName.bind fun name =>
    .code fun _ _ => concludes_checkArgumentsFrom hvisit name 0 _

theorem concludes_callsRule
    (hcalls : ∀ y, base.Link x y → Check.Concludes base (ctx.judge (.calls y))) :
    Check.Concludes base (ctx.callsRule x) := by
  have hpart : ∀ y, base.Link x y → Check.Concludes base (ctx.checkPart y) := fun y hy =>
    (hvisit (.expr y)).discard.bind fun _ => hcalls y hy
  refine .node fun c hc => ?_
  split
  · next name hform =>
    refine .code fun _ _ => .bind (.forM fun y hy => hpart y (.inr ?_)) fun _ => ?_
    · rw [← hc.children]
      exact hy
    · split
      · exact .pure ()
      · exact concludes_checkArguments hvisit
  · refine .forM fun y hy => hpart y (.inl ?_)
    rw [← hc.form]
    exact hy

theorem concludes_checkExpr (hcalls : Check.Concludes base (ctx.judge (.calls x))) :
    Check.Concludes base (ctx.checkExpr x) :=
  (hvisit (.expr x)).bind fun type => hcalls.bind fun _ => .pure type

theorem concludes_multiValue (count : Nat) : Check.Concludes base (ctx.multiValue x count) := by
  refine concludes_callName.bind fun name => (hvisit (.expr x)).bind fun type =>
    .node fun _ _ => ?_
  refine .bind (.rejectIf _ (.fail _)) fun _ => ?_
  split
  · exact .pure _
  · exact .fail _

theorem concludes_quadrupleTypes : Check.Concludes base (ctx.quadrupleTypes x) :=
  (concludes_multiValue hvisit 4).bind fun _ => .pure _

theorem concludes_valueTypes (targets : Targets) :
    Check.Concludes base (ctx.valueTypes targets x) := by
  cases targets with
  | single => exact (hvisit (.expr x)).bind fun type => .pure _
  | pair => exact concludes_multiValue hvisit 2
  | quadruple => exact concludes_quadrupleTypes hvisit

omit hvisit in
theorem concludes_checkChildren
    (hstmt : ∀ y, base.Link x y → Check.Concludes base (ctx.judge (.statement y))) :
    Check.Concludes base (ctx.checkChildren x) := by
  refine .code fun c hc => .forM fun y hy => hstmt y (.inr ?_)
  rw [← hc.children]
  exact hy

theorem concludes_checkGuarded {cond : NodeId}
    (hcalls : Check.Concludes base (ctx.judge (.calls cond)))
    (hstmt : ∀ y, base.Link x y → Check.Concludes base (ctx.judge (.statement y))) :
    Check.Concludes base (ctx.checkGuarded x cond) := by
  refine (concludes_checkExpr hvisit hcalls).discard.bind fun _ => ?_
  refine .bind ((hvisit (.expr cond)).bind fun received => .rejectIf _ (.node fun _ _ => .fail _))
    fun _ => concludes_checkChildren hstmt

omit hvisit in
theorem concludes_bindTarget (scope : ScopeId) (name : String) (type : Ty) :
    Check.Concludes base (bindTarget x scope name type : Check σ Unit) :=
  .code fun _ _ => .bind (.liftExcept _) fun _ =>
    .bind (.rejectIf _ (.textOf fun _ => .fail _)) fun _ => .complete scope name type

theorem concludes_checkTargets (scope : ScopeId) (targets : Targets) {value : NodeId}
    (hcalls : Check.Concludes base (ctx.judge (.calls value)))
    (hform : 0 < (base.form x).arity) :
    Check.Concludes base (ctx.checkTargets x scope targets value) := by
  refine (concludes_checkExpr hvisit hcalls).discard.bind fun _ =>
    (concludes_valueTypes hvisit targets).bind fun types => ?_
  refine .bind (.forM fun _ _ => concludes_bindTarget _ _ _) fun _ => .of_keeps ?_ fun s => by simp
  exact fun s hs => hs.setTargetTypes hform

omit hvisit in
theorem concludes_bindDefinition (scope : ScopeId) (name : String) :
    Check.Concludes base (bindDefinition scope name x : Check σ Unit) := by
  refine .of_keeps (keeps_bindDefinition (survives_refinesTo base) scope name) fun s => ?_
  unfold bindDefinition
  rw [exec_bind, exec_code]
  dsimp only
  split
  · rw [exec_changeScopes]
    split <;> simp
  · simp

omit hvisit in
theorem concludes_reconcile (name : String) (type : Ty) :
    Check.Concludes base (reconcile x name type : Check σ Unit) := by
  refine .code fun c _ => ?_
  dsimp only
  split
  · exact .pure ()
  · exact .bind (.rejectIf _ (.fail _)) fun _ => .complete _ name type

theorem concludes_checkFunction
    (hstmt : ∀ y, base.Link x y → Check.Concludes base (ctx.judge (.statement y))) :
    Check.Concludes base (ctx.checkFunction x) := by
  refine .node fun c _ => ?_
  split
  · next name _ _ _ =>
    refine (concludes_bindDefinition _ name).bind fun _ =>
      (concludes_checkChildren hstmt).bind fun _ => .code fun _ _ => ?_
    refine .bind (.rejectIf _ (.fail _)) fun _ => (hvisit (.function x)).bind fun type => ?_
    exact (concludes_reconcile name type).bind fun _ => .pure type
  · exact .fail _

theorem concludes_checkInnerField {field : String} {value : NodeId}
    (hcalls : Check.Concludes base (ctx.judge (.calls value)))
    (hform : base.form x = .innerField field value) :
    Check.Concludes base (ctx.checkInnerField x field value) := by
  refine .bind (.liftExcept _) fun expected =>
    (concludes_checkExpr hvisit hcalls).bind fun received => ?_
  refine .bind (.rejectIf _ (.textOf fun _ => .fail _)) fun _ => .of_keeps ?_ fun s => by simp
  exact fun s hs => hs.setInnerType hform

/-- **The check of a statement concludes** if those of the statements in it and of the calls inside
its expressions do. -/
theorem concludes_statementRule
    (hcalls : ∀ y, y = x ∨ base.Link x y → Check.Concludes base (ctx.judge (.calls y)))
    (hstmt : ∀ y, base.Link x y → Check.Concludes base (ctx.judge (.statement y))) :
    Check.Concludes base (ctx.statementRule x) := by
  refine .node fun c hc => ?_
  rw [show (c.node x).form = base.form x from hc.form x]
  refine .located ?_ _
  have hexpr : ∀ y, y ∈ (base.form x).operands →
      Check.Concludes base (Functor.discard (ctx.checkExpr y)) := fun y hy =>
    (concludes_checkExpr hvisit (hcalls y (.inr (.inl hy)))).discard
  have hself : Check.Concludes base (Functor.discard (ctx.checkExpr x)) :=
    (concludes_checkExpr hvisit (hcalls x (.inl rfl))).discard
  cases hform : base.form x <;> rw [hform] at hexpr
  case program | block => exact concludes_checkChildren hstmt
  case function => exact (concludes_checkFunction hvisit hstmt).discard
  case ret value definition =>
    cases value with
    | some value => exact hexpr value List.mem_cons_self
    | none => exact .pure ()
  case breakLoop value =>
    cases value with
    | some value => exact hexpr value List.mem_cons_self
    | none => exact .pure ()
  case abort | innerBegin | innerSubmit | const => exact .pure ()
  case innerField field value =>
    refine concludes_checkInnerField hvisit (hcalls value (.inr (.inl ?_))) hform
    rw [hform]
    exact List.mem_cons_self
  case assign targets value | declare targets value =>
    refine concludes_checkTargets hvisit _ targets (hcalls value (.inr (.inl ?_))) ?_
    · rw [hform]
      exact List.mem_cons_self
    · rw [hform]
      cases targets <;> exact Nat.succ_pos _
  case branch cond | loop cond =>
    refine concludes_checkGuarded hvisit (hcalls cond (.inr (.inl ?_))) hstmt
    rw [hform]
    exact List.mem_cons_self
  all_goals exact hself

end Rules

end Context

/-! ### Judgements and queries -/

namespace Supply

variable {supply : Supply σ} {spec : OpSpec} {config : Config} {d : Nat} {x : NodeId}

variable (hbase : supply.Bodiless base) (hcode : base.Acyclic)

include hbase hcode

/-- Typing concludes where there is depth for all nodes once for every function, whichever
functions are being resolved. -/
theorem concludes_visit (hd : (base.size + 1) * (base.size + 1) ≤ d) (R : List NodeId)
    (subject : Subject) :
    Check.Concludes base ((supply.context spec d config).visit R subject) := by
  intro s hs
  refine ⟨visit_ne_outOfDepth d R subject s (hbase.refinesTo hs) (hs.acyclic_iff.mpr hcode)
    ((Typing.fits_congr hs R d subject).mpr ?_), hs.trans (steady hbase d R subject s hs)⟩
  have hneed : ∀ R y, Typing.need ⟨spec, config, base⟩ R y < d :=
    fun R y => Nat.lt_of_lt_of_le (Typing.need_lt ⟨spec, config, base⟩ R y) hd
  cases subject with
  | expr y => exact hneed R y
  | body b => exact hneed R b
  | function f => exact .inr (hneed (f :: R) f)

/-- The calls inside an expression are checked at a depth greater by its rank. -/
theorem concludes_calls (hd : (base.size + 1) * (base.size + 1) + base.rank x < d) :
    Check.Concludes base ((supply.context spec d config).judge (.calls x)) := by
  induction d generalizing x with
  | zero => exact absurd hd (Nat.not_lt_zero _)
  | succ d ih =>
    refine Context.concludes_callsRule (concludes_visit hbase hcode (by omega) []) fun y hy => ih ?_
    have hrank := CompilationUnit.rank_lt_of_link hcode hy
    omega

/-- So are statements, one level above the expressions in them. -/
theorem concludes_statement (hd : (base.size + 1) * (base.size + 1) + base.rank x + 1 < d) :
    Check.Concludes base ((supply.context spec d config).judge (.statement x)) := by
  induction d generalizing x with
  | zero => exact absurd hd (Nat.not_lt_zero _)
  | succ d ih =>
    refine Context.concludes_statementRule (concludes_visit hbase hcode (by omega) [])
      (fun y hy => concludes_calls hbase hcode ?_) fun y hy => ih ?_
    · rcases hy with rfl | hy
      · omega
      · have hrank := CompilationUnit.rank_lt_of_link hcode hy
        omega
    · have hrank := CompilationUnit.rank_lt_of_link hcode hy
      omega

/-- **Every query concludes** where there is as much depth as a unit allows for. -/
theorem answer_ne_outOfDepth (hd : Checker.ownDepth base ≤ d) (q : Query α) (s : CheckState σ)
    (hs : base.RefinesTo s.code) :
    (exec ((supply.context spec d config).answer q) s).1 ≠ .error .outOfDepth := by
  have hroom : (base.size + 1) * (base.size + 1) + base.size + 1 < d := by
    unfold Checker.ownDepth at hd
    nlinarith
  have hvisit : ∀ subject,
      Check.Concludes base ((supply.context spec d config).visit [] subject) :=
    concludes_visit hbase hcode (by omega) []
  have hcalls : ∀ x, Check.Concludes base ((supply.context spec d config).judge (.calls x)) :=
    fun x => concludes_calls hbase hcode (by have := base.rank_le_size x; omega)
  have hstmt : ∀ x, Check.Concludes base ((supply.context spec d config).judge (.statement x)) :=
    fun x => concludes_statement hbase hcode (by have := base.rank_le_size x; omega)
  cases q with
  | typeOf x => exact (hvisit (.expr x) s hs).1
  | expression x => exact (Context.concludes_checkExpr hvisit (hcalls x) s hs).1
  | statements x => exact (Context.concludes_checkChildren (fun y _ => hstmt y) s hs).1
  | function x => exact (Context.concludes_checkFunction hvisit (fun y _ => hstmt y) s hs).1
  | arguments x => exact (Context.concludes_checkArguments hvisit s hs).1
  | pairTypes x => exact (Context.concludes_multiValue hvisit 2 s hs).1
  | quadrupleTypes x => exact (Context.concludes_quadrupleTypes hvisit s hs).1
  | returnType x => exact (hvisit (.body x) s hs).1
  | resolveField x field => exact Context.resolveField_ne_outOfDepth field s hs

end Supply

end ContractLang
