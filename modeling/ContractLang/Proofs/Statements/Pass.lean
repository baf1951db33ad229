import ContractLang.Proofs.Statements.Decides

/-!
# The statement pass decides well-typedness

Each rule of the statement pass decides one clause of the definition of a well-typed
program, given that the rules it turns to do so. The walk over an expression decides
whether the calls in it are in order (`ContractLang.Typing.decides_calls`), and the pass
over statements whether they are well typed
(`ContractLang.Typing.decides_statement`). So without a parser, and where nothing
remains to be found out about names, the checker accepts exactly the well-typed
programs (`ContractLang.Typing.ask_statements_eq_ok_iff`).
-/

namespace ContractLang

namespace Typing

open Check CompilationUnit Relation

variable {σ : Type} {T : Typing} {x y : NodeId}

/-! ### Expressions, part by part -/

/-- The parts of an expression and its own arguments are in order. -/
def CallsOk (T : Typing) (x : NodeId) : Prop :=
  (∀ y ∈ T.code.parts x, T.ExpressionOk y) ∧ T.ArgumentsOk x

/-- A statement is well typed if it is in order and the statements in it are well typed. -/
theorem statementsOk_iff :
    T.StatementsOk x ↔ T.StatementOk x ∧ ∀ y ∈ T.code.body x, T.StatementsOk y := by
  constructor
  · intro h
    exact ⟨h x .refl, fun y hy z hz => h z (.head hy hz)⟩
  · rintro ⟨hx, hbody⟩ y hy
    rcases ReflTransGen.cases_head hy with rfl | ⟨z, hz, hreach⟩
    · exact hx
    · exact hbody z hz y hreach

/-! ### Several values -/

/-- Once calls of functions have been connected with them, what is not connected is a call of an
operation. -/
theorem Keeps.not_isSome_definition_iff {code : CompilationUnit} {name : String}
    (h : T.Keeps code) (hform : T.code.form x = .call name)
    (hdef : ∀ f, T.code.Calls x f → (code.node x).definition.isSome)
    (hresolved : ∀ binding, T.code.scopes.binding? (T.code.node x).scope name = some binding →
      ∃ f, binding = .resolved f) :
    ¬(code.node x).definition.isSome ↔
      T.code.scopes.binding? (T.code.node x).scope name = none := by
  constructor
  · intro hnot
    cases hname : T.code.scopes.binding? (T.code.node x).scope name with
    | none => rfl
    | some binding =>
      obtain ⟨f, rfl⟩ := hresolved binding hname
      exact absurd (hdef f ⟨name, hform, hname⟩) hnot
  · intro hnone hsome
    rw [h.definition_eq_none hform hnone] at hsome
    cases hsome

section Rules

variable {ctx : Context σ} (hspec : ctx.spec = T.spec)

include hspec

/-- What remains of determining the types of several values once the call has been typed. -/
theorem decides_resultTypes (name : String) (count : Nat) (type : Ty) (isFunction : Bool) :
    T.Decides (show Check σ (List Ty) from do
      Check.rejectIf isFunction (Check.raise (.notMultiValue name))
      match ctx.spec.resultTypes name count with
      | .ok types => return Context.fillUnknown type types
      | .error _ => Check.raise (.notMultiValue name))
      fun types => ¬isFunction ∧ ∃ slots, T.spec.resultTypes name count = .ok slots ∧
        types = Context.fillUnknown type slots := by
  rw [hspec]
  refine (Decides.rejectIf _ (.fail fun _ _ => ⟨_, rfl⟩)).seq fun _ => ?_
  cases T.spec.resultTypes name count with
  | ok slots => exact (Decides.pure _).congr fun types => by simp
  | error e => exact (Decides.fail fun _ _ => ⟨_, rfl⟩).congr fun types => by simp

/-- The types of several values are given for a call of an operation only: typing a call of a
function has connected it with a definition. -/
theorem decides_multiValue
    (htype : T.Decides (ctx.judge (.typeOf [] x)) fun type => T.type x = .ok type)
    (hdef : ∀ s : CheckState σ, T.Keeps s.code → ∀ f, T.code.Calls x f →
      ((exec (ctx.judge (.typeOf [] x)) s).2.code.node x).definition.isSome)
    (hresolved : ∀ name binding, T.code.scopes.binding? (T.code.node x).scope name =
      some binding → ∃ f, binding = .resolved f) (count : Nat) :
    T.Decides (ctx.multiValue x count) (T.GivesValues x count) := by
  have hname : T.Decides (Context.callName x : Check σ String) fun name =>
      T.code.form x = .call name := decides_callName fun _ hc => hc.alike
  refine (hname.bind fun name hform => (?_ : T.Decides _ fun types =>
    ∃ type, T.type x = .ok type ∧
      T.code.scopes.binding? (T.code.node x).scope name = none ∧
      ∃ slots, T.spec.resultTypes name count = .ok slots ∧
        types = Context.fillUnknown type slots)).congr fun types => ?_
  · intro s hs types
    rw [exec_bind]
    have hjudge := htype s hs
    have hdef := hdef s hs
    revert hjudge hdef
    generalize exec (ctx.judge (.typeOf [] x)) s = out
    obtain ⟨r, t⟩ := out
    intro hjudge hdef
    cases r with
    | error halt =>
      refine ⟨⟨nofun, ?_⟩, nofun⟩
      rintro ⟨type, htype, -⟩
      exact nomatch (hjudge type).1.mpr htype
    | ok type =>
      have ht : T.Keeps t.code := (hjudge type).2 rfl
      dsimp only
      rw [exec_bind, exec_node]
      have hrest := decides_resultTypes hspec name count type
        (t.code.node x).definition.isSome t ht types
      refine ⟨hrest.1.trans ?_, hrest.2⟩
      rw [ht.not_isSome_definition_iff hform hdef (hresolved name)]
      constructor
      · exact fun h => ⟨type, (hjudge type).1.mp rfl, h⟩
      · rintro ⟨type', htype', h⟩
        cases (hjudge type').1.mpr htype'
        exact h
  · constructor
    · rintro ⟨name, hform, type, htype, hname, slots, hslots, rfl⟩
      exact ⟨name, type, slots, hform, hname, htype, hslots, rfl⟩
    · rintro ⟨name, type, slots, hform, hname, htype, hslots, rfl⟩
      exact ⟨name, hform, type, htype, hname, slots, hslots, rfl⟩

end Rules

/-! ### Assignments -/

/-- The judgements about expressions and bodies are decided, and typing a call of a function
connects it with a definition. -/
structure JudgementsDecide (T : Typing) (ctx : Context σ) : Prop where
  spec : ctx.spec = T.spec
  typeOf : ∀ x, T.Decides (ctx.judge (.typeOf [] x)) fun type => T.type x = .ok type
  returnType : ∀ f, T.Decides (ctx.judge (.returnType [f] f)) fun type =>
    T.returnType f = .ok type
  calls : ∀ x, T.Decides (ctx.judge (.calls x)) fun _ => T.CallsOk x
  defined : ∀ s, T.Keeps s.code → ∀ x f, T.code.Calls x f →
    ((exec (ctx.judge (.typeOf [] x)) s).2.code.node x).definition.isSome

section Statements

variable {ctx : Context σ} (hctx : T.JudgementsDecide ctx) (hT : T.Ready)

include hctx in
/-- The rule for expressions decides whether an expression is in order, which is to say that the
types found without a memory cohere. -/
theorem decides_expression (x : NodeId) :
    T.Decides (discard (ctx.checkExpr x)) fun _ => T.ExpressionOk x :=
  decides_discard_checkExpr (hctx.typeOf x) fun _ => hctx.calls x

/-- Nothing is left to be completed. -/
theorem decides_complete (hT : T.Ready) {scope : ScopeId} {name : String} {d : Descriptor}
    (hd : T.code.scopes.find? scope name = some d) (type : Ty) :
    T.Decides (complete scope name type : Check σ Unit) fun _ => True := by
  unfold complete
  split
  · intro s hs a
    have hrefine : s.code.scopes.refine scope name type = .ok s.code.scopes := by
      unfold ScopeTree.refine
      rw [ScopeTree.lookup_of_find? ((hs.find? scope name).trans hd)]
      exact if_pos (hT.find?_known hd)
    rw [exec_changeScopes, hrefine]
    exact ⟨⟨fun _ => trivial, fun _ => rfl⟩, fun _ => hs⟩
  · exact (Decides.pure ()).congr fun _ => ⟨fun _ => trivial, fun _ => rfl⟩

theorem decides_bindTarget (hT : T.Ready) (scope : ScopeId) (name : String) (type : Ty) :
    T.Decides (Context.bindTarget x scope name type : Check σ Unit) fun _ =>
      T.TargetOk scope name type := by
  refine .code fun c hc => ?_
  have hlookup : c.scopes.lookup scope name = T.code.scopes.lookup scope name := by
    unfold ScopeTree.lookup
    rw [hc.find?]
  rw [hlookup]
  refine ((Decides.liftExcept _).bind fun d hd => (Decides.rejectIf _
    (.fail fun _ _ => ⟨_, rfl⟩)).seq fun _ =>
      decides_complete hT (ScopeTree.lookup_eq_ok_iff.mp hd) type).congr fun _ => ?_
  unfold TargetOk
  simp only [ScopeTree.lookup_eq_ok_iff, and_true]

include hctx hT

theorem decides_valueTypes (targets : Targets) (value : NodeId) :
    T.Decides (ctx.valueTypes targets value) (T.GivesTargets value targets) := by
  have hvalues := decides_multiValue hctx.spec (hctx.typeOf value)
    (fun s hs => hctx.defined s hs value) fun name binding => hT.binding?_resolved
  cases targets with
  | single name =>
    exact ((hctx.typeOf value).bind fun type _ => Decides.pure [type]).congr fun types => Iff.rfl
  | pair high low => exact hvalues 2
  | quadruple high low remHigh remLow =>
    refine ((hvalues 4).bind fun types _ => Decides.pure types.reverse).congr fun types => ?_
    constructor
    · rintro ⟨types, h, rfl⟩
      simpa [GivesTargets] using h
    · intro h
      exact ⟨types.reverse, h, types.reverse_reverse.symm⟩

/-- The rule for assignments decides whether the value is in order and suits all targets. -/
theorem decides_checkTargets (scope : ScopeId) (targets : Targets) (value : NodeId) :
    T.Decides (ctx.checkTargets x scope targets value) fun _ =>
      T.ExpressionOk value ∧ ∃ types, T.GivesTargets value targets types ∧
        ∀ target ∈ targets.names.zip types, T.TargetOk scope target.1 target.2 := by
  have htargets : T.Decides (ctx.checkTargets x scope targets value) _ :=
    (decides_expression hctx value).seq fun _ =>
      (decides_valueTypes hctx hT targets value).bind fun types _ =>
        (Decides.forM fun target _ => decides_bindTarget hT scope target.1 target.2).seq fun _ =>
          Decides.modifyCode fun c hc => hc.modifyNode x (fun node => ⟨_, _, rfl⟩) fun _ _ => rfl
  refine htargets.congr fun _ => ?_
  simp only [and_true]

omit hT in
/-- The rule for fields of an inner transaction decides whether the value is in order and of
the type of the field. -/
theorem decides_checkInnerField {field : String} {value : NodeId}
    (hform : T.code.form x = .innerField field value) :
    T.Decides (ctx.checkInnerField x field value) fun _ =>
      T.ExpressionOk value ∧ ∃ expected received,
        T.spec.fieldType Context.innerFieldOp field = .ok expected ∧
          T.type value = .ok received ∧ (received.isKnown → received = expected) := by
  unfold Context.checkInnerField
  rw [hctx.spec]
  refine ((Decides.liftExcept _).bind fun expected _ =>
    (decides_checkExpr (hctx.typeOf value) fun _ => hctx.calls value).bind fun received _ =>
      (Decides.rejectIf _ (.fail fun _ _ => ⟨_, rfl⟩)).seq fun _ =>
        Decides.modifyCode fun c hc => hc.modifyNode x (fun node => ⟨_, _, rfl⟩) fun hx => ?_).congr
    fun _ => ?_
  · rw [hform] at hx
    cases hx
  · simp only [and_true, not_and_not_right]
    constructor
    · rintro ⟨expected, hexpected, received, ⟨hreceived, hok⟩, hsame⟩
      exact ⟨hok, expected, received, hexpected, hreceived, hsame⟩
    · rintro ⟨hok, expected, received, hexpected, hreceived, hsame⟩
      exact ⟨expected, hexpected, received, ⟨hreceived, hok⟩, hsame⟩

/-! ### Functions -/

variable {P : NodeId → Prop}

omit hctx hT in
theorem decides_checkChildren
    (h : ∀ y ∈ T.code.children x, T.Decides (ctx.judge (.statement y)) fun _ => P y) :
    T.Decides (ctx.checkChildren x) fun _ => ∀ y ∈ T.code.children x, P y := by
  refine .code fun c hc => ?_
  rw [hc.alike.children]
  exact .forM h

omit hctx in
theorem decides_reconcile (name : String) (type : Ty) :
    T.Decides (Context.reconcile x name type : Check σ Unit) fun _ =>
      ∀ d, T.code.scopes.find? (T.code.node x).scope name = some d → ¬d.type.clashes type := by
  refine .code fun c hc => ?_
  dsimp only
  rw [hc.find?, hc.alike.scope]
  cases hfind : T.code.scopes.find? (T.code.node x).scope name with
  | none => exact (Decides.pure ()).congr fun _ => ⟨fun _ => nofun, fun _ => rfl⟩
  | some d =>
    refine ((Decides.rejectIf _ (.fail fun _ _ => ⟨_, rfl⟩)).seq fun _ =>
      decides_complete hT hfind type).congr fun _ => ?_
    simp only [and_true, Option.some.injEq, forall_eq']

/-- The rule for functions decides whether the statements of the body are in order, every
path through it returns, and the exits agree with each other and the descriptor. -/
theorem decides_checkFunction {name : String} {params : List Param} {inlined : Bool}
    (hform : T.code.form x = .function name params inlined)
    (h : ∀ y ∈ T.code.children x, T.Decides (ctx.judge (.statement y)) fun _ => P y) :
    T.Decides (discard (ctx.checkFunction x)) fun _ =>
      (∀ y ∈ T.code.children x, P y) ∧ T.code.alwaysReturns x ∧
        ∃ type, T.returnType x = .ok type ∧
          ∀ d, T.code.scopes.find? (T.code.node x).scope name = some d →
            ¬d.type.clashes type := by
  have hbind : ∀ scope, T.Decides (Context.bindDefinition scope name x : Check σ Unit)
      fun _ => True := by
    intro scope
    refine .code fun c hc => ?_
    -- All functions are resolved, so that there is nothing to connect.
    rw [hc.alike.binding, if_neg]
    · exact (Decides.pure ()).congr fun _ => ⟨fun _ => trivial, fun _ => rfl⟩
    · intro hname
      obtain ⟨f, hf⟩ := hT.binding?_resolved hname
      cases hf
  have hfunction : T.Decides (ctx.checkFunction x) fun type =>
      (∀ y ∈ T.code.children x, P y) ∧ T.code.alwaysReturns x ∧ T.returnType x = .ok type ∧
        ∀ d, T.code.scopes.find? (T.code.node x).scope name = some d →
          ¬d.type.clashes type := by
    refine .node fun c hc => ?_
    rw [show (c.node x).form = T.code.form x from hc.alike.form x, hform]
    refine ((hbind _).seq fun _ => (decides_checkChildren h).seq fun _ => Decides.code
      fun c' hc' => (?_ : T.Decides _ fun type => T.code.alwaysReturns x ∧
        T.returnType x = .ok type ∧ ∀ d, T.code.scopes.find? (T.code.node x).scope name =
          some d → ¬d.type.clashes type)).congr fun _ => by rw [true_and]
    rw [hc'.alwaysReturns]
    refine ((Decides.rejectIf _ (.fail fun _ _ => ⟨_, rfl⟩)).seq fun _ =>
      (hctx.returnType x).bind fun type _ => (decides_reconcile hT name type).seq fun _ =>
        Decides.pure type).congr fun type => ?_
    simp only [not_not]
    refine and_congr Iff.rfl ⟨?_, fun h => ⟨type, h.1, h.2, rfl⟩⟩
    rintro ⟨type', htype, hclash, rfl⟩
    exact ⟨htype, hclash⟩
  refine hfunction.discard.congr fun _ => ?_
  simp only [exists_and_left]

/-! ### The rule -/

omit hT in
/-- The rule for conditional statements and loops decides whether the condition is in order
and a truth value, and the statements inside are in order. -/
theorem decides_checkGuarded (cond : NodeId)
    (h : ∀ y ∈ T.code.children x, T.Decides (ctx.judge (.statement y)) fun _ => P y) :
    T.Decides (ctx.checkGuarded x cond) fun _ =>
      (T.ExpressionOk cond ∧ T.type cond = .ok .uint64) ∧ ∀ y ∈ T.code.children x, P y := by
  have hcond : T.Decides (ctx.expectCondition [] cond) fun _ => T.type cond = .ok .uint64 := by
    refine ((hctx.typeOf cond).bind fun received _ => Decides.rejectIf _
      (.fail fun _ _ => ⟨_, rfl⟩)).congr fun _ => ?_
    simp only [not_not]
    exact ⟨fun ⟨_, h, heq⟩ => heq ▸ h, fun h => ⟨_, h, rfl⟩⟩
  refine ((decides_expression hctx cond).seq fun _ =>
    hcond.seq fun _ => decides_checkChildren h).congr fun _ => ?_
  rw [and_assoc]

/-- **The rule for statements decides whether a statement is well typed**, if it is decided
for the statements inside it. -/
theorem decides_statementRule
    (h : ∀ y ∈ T.code.body x, T.Decides (ctx.judge (.statement y)) fun _ => T.StatementsOk y) :
    T.Decides (ctx.statementRule x) fun _ => T.StatementsOk x := by
  have hexpr : T.Decides (discard (ctx.checkExpr x)) fun _ => T.ExpressionOk x :=
    decides_expression hctx x
  have htrue : T.Decides (pure () : Check σ Unit) fun _ => True :=
    (Decides.pure ()).congr fun _ => ⟨fun _ => trivial, fun _ => rfl⟩
  refine .node fun c hc => .located ?_ _
  rw [show (c.node x).form = T.code.form x from hc.alike.form x, hc.alike.scope]
  refine Decides.congr (Q := fun _ => T.StatementOk x ∧ ∀ y ∈ T.code.body x, T.StatementsOk y)
    ?_ fun _ => statementsOk_iff.symm
  unfold StatementOk body at *
  unfold Context.checkForm
  -- Most statements have no others inside.
  have hleaf : ∀ {action : Check σ Unit} {p : Prop}, T.Decides action (fun _ => p) →
      T.Decides action fun _ => p ∧ ∀ y ∈ ([] : List NodeId), T.StatementsOk y :=
    fun haction => haction.congr fun _ => ⟨fun hp => ⟨hp, nofun⟩, fun hp => hp.1⟩
  cases hform : T.code.form x <;> rw [hform] at h
  case program | block =>
    exact (decides_checkChildren h).congr fun _ => (true_and _).symm.to_iff
  case function name params inlined =>
    exact (decides_checkFunction hctx hT hform h).congr fun _ => and_comm
  case ret value definition =>
    cases value with
    | none => exact hleaf htrue
    | some value =>
      exact hleaf (decides_expression hctx value)
  case breakLoop value =>
    cases value with
    | none => exact hleaf htrue
    | some value =>
      exact hleaf (decides_expression hctx value)
  case abort | innerBegin | innerSubmit | const => exact hleaf htrue
  case innerField field value => exact hleaf (decides_checkInnerField hctx hform)
  case assign targets value | declare targets value =>
    exact hleaf (decides_checkTargets hctx hT _ targets value)
  case branch cond | loop cond => exact decides_checkGuarded hctx cond h
  all_goals exact hleaf hexpr

end Statements

/-! ### All judgements -/

section Judgements

variable (supply : Supply σ) (hT : T.Ready) {d : Nat}

include hT

/-- With enough depth, typing decides the type of an expression. -/
theorem decides_typeOf (hd : (T.code.size + 1) * (T.code.size + 1) ≤ d) (x : NodeId) :
    T.Decides ((supply.context T.spec d T.config).judge (.typeOf [] x)) fun type =>
      T.type x = .ok type := by
  refine .of_yields hT (r := fun c => { T with code := c }.type x) (fun c hc => ?_)
    (fun c hc => type_ne_outOfDepth (hc.ready hT).acyclic x) fun c hc a => hc.type_eq_ok_iff
  refine yields_type (T := { T with code := c }) supply (hc.ready hT).acyclic
    ((hc.ready hT).settled x) ?_
  -- The unit has changed since the pass began, but has as many nodes.
  have hneed := need_lt { T with code := c } [] x
  rw [hc.size] at hneed
  exact Nat.lt_of_lt_of_le hneed hd

theorem decides_returnType (hd : (T.code.size + 1) * (T.code.size + 1) ≤ d) (f : NodeId) :
    T.Decides ((supply.context T.spec d T.config).judge (.returnType [f] f)) fun type =>
      T.returnType f = .ok type := by
  refine .of_yields hT (r := fun c => { T with code := c }.returnType f) (fun c hc => ?_)
    (fun c hc => returnType_ne_outOfDepth (hc.ready hT).acyclic f)
    fun c hc a => hc.returnType_eq_ok_iff
  refine yields_returnType (T := { T with code := c }) supply (hc.ready hT).acyclic
    ((hc.ready hT).settled_self f) ?_
  have hneed := need_lt { T with code := c } [f] f
  rw [hc.size] at hneed
  exact Nat.lt_of_lt_of_le hneed hd

/-- With enough depth, the walk over an expression decides whether its calls are in order:
ranks drop on the way down. -/
theorem decides_calls (x : NodeId)
    (hd : (T.code.size + 1) * (T.code.size + 1) + T.code.rank x < d) :
    T.Decides ((supply.context T.spec d T.config).judge (.calls x)) fun _ => T.CallsOk x := by
  induction d generalizing x with
  | zero => exact absurd hd (Nat.not_lt_zero _)
  | succ d ih =>
    refine decides_callsRule (Supply.spec_context supply T.spec T.config d) (walkable_keeps x)
      (fun y _ => decides_typeOf supply hT (by omega) y) fun y hy _ => ih y ?_
    have hrank := rank_lt_of_link hT.acyclic (link_of_mem_parts hy)
    omega

theorem judgementsDecide
    (hd : (T.code.size + 1) * (T.code.size + 1) + T.code.size < d) :
    T.JudgementsDecide (supply.context T.spec d T.config) where
  spec := Supply.spec_context supply T.spec T.config d
  typeOf := decides_typeOf supply hT (by omega)
  returnType := decides_returnType supply hT (by omega)
  calls x := by
    have hrank := T.code.rank_le_size x
    exact decides_calls supply hT x (by omega)
  defined s hs x f hcall := by
    have hready := hs.ready hT
    have hneed := need_lt { T with code := s.code } [] x
    rw [hs.size] at hneed
    have hne := (verdicts_answered hready.acyclic d).1 [] x (by omega)
    exact definition_isSome_of_typeOf (T := { T with code := s.code }) supply hready.acyclic
      (hready.settled x) (hs.alike.calls_iff.mpr hcall) hne hs.recalls (hs.linked x f hcall)

/-- **With enough depth, the pass decides whether a statement is well typed.** -/
theorem decides_statement (x : NodeId)
    (hd : (T.code.size + 1) * (T.code.size + 1) + T.code.size + T.code.rank x + 1 < d) :
    T.Decides ((supply.context T.spec d T.config).judge (.statement x)) fun _ =>
      T.StatementsOk x := by
  induction d generalizing x with
  | zero => exact absurd hd (Nat.not_lt_zero _)
  | succ d ih =>
    refine decides_statementRule (judgementsDecide supply hT (by omega)) hT
      fun y hy => ih y ?_
    have hrank := rank_lt_of_link hT.acyclic (link_of_mem_body hy)
    omega

end Judgements

/-- **The checker accepts exactly the well-typed programs** of a unit in which nothing
remains to be found out about names and nothing has been put on record yet. -/
theorem ask_statements_eq_ok_iff (checker : Checker σ) (s : CheckState σ) (program : NodeId)
    (hcode : s.code.Acyclic)
    (hknown : ∀ scope name d, (s.code.scopes.scope scope).get? name = some d → d.type.isKnown)
    (hresolved : ∀ scope name d binding, (s.code.scopes.scope scope).get? name = some d →
      d.binding? = some binding → ∃ f, binding = .resolved f)
    (hnonrecursive : ∀ f, ¬s.code.Recursive f)
    (hfresh : ∀ id, (s.code.form id).remembers →
      ¬(s.code.node id).type.isKnown ∧ (s.code.node id).definition = none) :
    (checker.ask (.statements program) s).1 = .ok () ↔
      (checker.typing s.code).WellTyped program := by
  have hT : (checker.typing s.code).Ready := ⟨hcode, hknown, hresolved, hnonrecursive⟩
  have hdecides : (checker.typing s.code).Decides
      ((checker.context (checker.depth s.code)).checkChildren program) fun _ =>
        (checker.typing s.code).WellTyped program := by
    refine decides_checkChildren fun x _ =>
      decides_statement (T := checker.typing s.code) checker.supply hT x ?_
    have hrank := s.code.rank_le_size x
    -- Typing needs the square, walking over expressions and over statements the size once each.
    have hdepth : (s.code.size + 1) * (s.code.size + 1) + s.code.size + s.code.rank x + 1 <
        Checker.ownDepth s.code := by
      unfold Checker.ownDepth
      nlinarith
    exact Nat.lt_add_right _ hdepth
  exact (hdecides s (keeps_self hfresh) ()).1

/-- The program of a unit with one call and nothing on record. -/
theorem ask_statements_oneCall :
    let checker : Checker Unit := ⟨Standard.spec, .strict, none⟩
    (checker.ask (.statements 5) ⟨oneCall, ()⟩).1 = .ok () ↔
      (checker.typing oneCall).WellTyped 5 := by
  refine ask_statements_eq_ok_iff _ ⟨oneCall, ()⟩ 5 (acyclic_of_lt fun _ _ => OneCall.link_lt)
    (fun scope name d h => ?_) (fun scope name d binding h hbinding => ?_)
    (not_recursive_of_lt fun _ _ => OneCall.leads_lt) fun id _ => OneCall.fresh id
  · rw [OneCall.get?_eq_some h]
    rfl
  · rw [OneCall.get?_eq_some h] at hbinding
    cases hbinding
    exact ⟨2, rfl⟩

end Typing

end ContractLang
