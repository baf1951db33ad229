import ContractLang.Check.Checker
import ContractLang.Check.Effect

/-!
# Relations that the rules respect

Many facts about the checker compare two computations: two runs of the same rules from related
states, or at different depths. All that such a comparison has to bear with is what the rules are
built from, which is sequences, handlers of errors, reading the unit, and a few kinds of entries
in it (`ContractLang.CompilationUnit.Noted`). A relation that does is *compatible*
(`ContractLang.Check.Compatible`). The rules respect every compatible relation: if the judgements
that two contexts offer are related, and so are the types that they find for calls, then all
rules are (`ContractLang.Context.Matches.rule`).
-/

namespace ContractLang

/-- A unit after a single entry of the checker: something is put on record for a node, the
nearest descriptor of a name is given a type, or a function that has been waiting for
its body is connected with a definition. -/
inductive CompilationUnit.Noted (code : CompilationUnit) : CompilationUnit → Prop
  | type (id : NodeId) (type : Ty) : Noted code (code.setType id type)
  | targetTypes (id : NodeId) (types : List Ty) : Noted code (code.setTargetTypes id types)
  | field (id : NodeId) (field : String) : Noted code (code.setField id field)
  | definition (id definition : NodeId) : Noted code (code.setDefinition id definition)
  | completed {scope : ScopeId} {name : String} {type : Ty} {scopes : ScopeTree}
      (h : code.scopes.refine scope name type = .ok scopes) : Noted code (code.withScopes scopes)
  | bound {scope : ScopeId} {name : String} {definition : NodeId} {scopes : ScopeTree}
      (hname : code.scopes.binding? scope name = some .unresolved)
      (h : code.scopes.setBinding scope name (.resolved definition) = .ok scopes) :
      Noted code (code.withScopes scopes)

section

variable {σ τ α β : Type}

namespace Check

/-- A computation changes the unit by `f`, or fails where `f` does, and does nothing else. -/
def Makes (f : CompilationUnit → Except Error CompilationUnit) (a : Check σ Unit) : Prop :=
  ∀ s, exec a s =
    match f s.code with
    | .ok code => (.ok (), { s with code })
    | .error e => (.error (.fault e), s)

theorem makes_modifyCode (f : CompilationUnit → CompilationUnit) :
    Makes (fun c => .ok (f c)) (modifyCode f : Check σ Unit) :=
  fun _ => rfl

theorem makes_changeScopes (f : ScopeTree → Except Error ScopeTree) :
    Makes (fun c => (f c.scopes).map c.withScopes) (changeScopes f : Check σ Unit) := by
  intro s
  rw [exec_changeScopes]
  dsimp only
  cases f s.code.scopes <;> rfl

/-- A relation between computations that holds of equal answers and equal errors, and that
sequences, handlers, reading the unit and making an entry in it respect. -/
structure Compatible (Rel : {α : Type} → Check σ α → Check τ α → Prop) : Prop where
  pure : ∀ {α : Type} (x : α), Rel (pure x : Check σ α) (pure x)
  fail : ∀ {α : Type} (e : Error), Rel (fail e : Check σ α) (fail e)
  bind : ∀ {α β : Type} {a : Check σ α} {b : Check τ α} {f : α → Check σ β} {g : α → Check τ β},
    Rel a b → (∀ x, Rel (f x) (g x)) → Rel (a >>= f) (b >>= g)
  onFault : ∀ {α : Type} {a : Check σ α} {b : Check τ α} {f : Error → Check σ α}
    {g : Error → Check τ α}, Rel a b → (∀ e, Rel (f e) (g e)) → Rel (a.onFault f) (b.onFault g)
  code : Rel (code : Check σ CompilationUnit) code
  entry : ∀ {f : CompilationUnit → Except Error CompilationUnit} {a : Check σ Unit}
    {b : Check τ Unit}, (∀ c c', f c = .ok c' → c' = c ∨ c.Noted c') →
    Makes f a → Makes f b → Rel a b

namespace Compatible

variable {Rel : {α : Type} → Check σ α → Check τ α → Prop} (hRel : Compatible Rel)
variable {a : Check σ α} {b : Check τ α}

include hRel

theorem liftExcept (answer : Except Error α) :
    Rel (liftExcept answer : Check σ α) (Check.liftExcept answer) := by
  cases answer with
  | ok x => exact hRel.pure x
  | error e => exact hRel.fail e

theorem discard (h : Rel a b) : Rel (discard a) (discard b) := by
  rw [discard_eq_bind, discard_eq_bind]
  exact hRel.bind h fun _ => hRel.pure ()

theorem rejectIf (bad : Prop) [Decidable bad] {a : Check σ Unit} {b : Check τ Unit}
    (h : Rel a b) : Rel (rejectIf bad a) (Check.rejectIf bad b) := by
  unfold Check.rejectIf
  split
  · exact h
  · exact hRel.pure ()

theorem located (position : Option Position) (h : Rel a b) :
    Rel (located position a) (Check.located position b) :=
  hRel.onFault h fun _ => hRel.fail _

theorem forM {γ : Type} {f : γ → Check σ Unit} {g : γ → Check τ Unit} (xs : List γ)
    (h : ∀ x, Rel (f x) (g x)) : Rel (xs.forM f) (xs.forM g) := by
  induction xs with
  | nil => exact hRel.pure ()
  | cons x xs ih => exact hRel.bind (h x) fun _ => ih

theorem foldlM {γ : Type} {f : α → γ → Check σ α} {g : α → γ → Check τ α} (xs : List γ)
    (h : ∀ x y, Rel (f x y) (g x y)) (x : α) : Rel (xs.foldlM f x) (xs.foldlM g x) := by
  induction xs generalizing x with
  | nil => exact hRel.pure x
  | cons y ys ih =>
    rw [List.foldlM_cons, List.foldlM_cons]
    exact hRel.bind (h x y) ih

/-! ### Reading and writing -/

theorem node (id : NodeId) : Rel (node id : Check σ Node) (Check.node id) :=
  hRel.bind hRel.code fun _ => hRel.pure _

theorem textOf (id : NodeId) : Rel (textOf id : Check σ String) (Check.textOf id) :=
  hRel.bind hRel.code fun _ => hRel.pure _

theorem typeMismatch (id : NodeId) (expected received : Ty) :
    Rel (typeMismatch id expected received : Check σ α)
      (Check.typeMismatch id expected received) :=
  hRel.bind (hRel.textOf id) fun _ => hRel.fail _

theorem modifyCode {f : CompilationUnit → CompilationUnit}
    (h : ∀ c : CompilationUnit, c.Noted (f c)) :
    Rel (modifyCode f : Check σ Unit) (Check.modifyCode f) := by
  refine hRel.entry (fun c c' hc => .inr ?_) (makes_modifyCode f) (makes_modifyCode f)
  obtain rfl := Except.ok.inj hc
  exact h c

theorem record (id : NodeId) (type : Ty) :
    Rel (record id type : Check σ Unit) (Check.record id type) := by
  unfold Check.record
  split
  · exact hRel.modifyCode fun c => .type id type
  · exact hRel.pure ()

theorem memo {id : NodeId} {a : Check σ Ty} {b : Check τ Ty} (h : Rel a b) :
    Rel (memo id a) (Check.memo id b) := by
  refine hRel.bind (hRel.node id) fun node => ?_
  dsimp only
  split
  · exact hRel.pure node.type
  · exact hRel.bind h fun type => hRel.bind (hRel.record id type) fun _ => hRel.pure type

theorem complete (scope : ScopeId) (name : String) (type : Ty) :
    Rel (complete scope name type : Check σ Unit) (Check.complete scope name type) := by
  unfold Check.complete
  split
  · refine hRel.entry (fun c c' hc => .inr ?_) (makes_changeScopes _) (makes_changeScopes _)
    obtain ⟨scopes, hscopes, rfl⟩ := CompilationUnit.exists_of_map_eq_ok hc
    exact .completed hscopes
  · exact hRel.pure ()

end Compatible

end Check

/-! ### Rules -/

/-- Two contexts in which the rules may turn to related judgements. -/
structure Context.Matches (Rel : {α : Type} → Check σ α → Check τ α → Prop) (ctx : Context σ)
    (ctx' : Context τ) : Prop where
  spec : ctx'.spec = ctx.spec
  config : ctx'.config = ctx.config
  judge : ∀ {α : Type} (j : Judgement α), Rel (ctx.judge j) (ctx'.judge j)

namespace Context.Matches

open Check

variable {Rel : {α : Type} → Check σ α → Check τ α → Prop} (hRel : Compatible Rel)
variable {ctx : Context σ} {ctx' : Context τ} (h : ctx.Matches Rel ctx')
variable {R : List NodeId} {x : NodeId}

include hRel h

theorem operandType : Rel (ctx.operandType R x) (ctx'.operandType R x) := by
  refine hRel.bind (hRel.onFault (h.judge _) fun e => ?_) fun type => ?_
  · exact hRel.bind (hRel.textOf x) fun _ => hRel.fail _
  · refine hRel.bind (hRel.rejectIf _ ?_) fun _ => hRel.pure type
    exact hRel.bind (hRel.textOf x) fun _ => hRel.fail _

omit h in
theorem expectOperand (side : String) (expected received : Ty) :
    Rel (expectOperand x side expected received : Check σ Unit)
      (Context.expectOperand x side expected received) :=
  hRel.rejectIf _ (hRel.bind (hRel.textOf x) fun _ => hRel.fail _)

theorem expectCondition : Rel (ctx.expectCondition R x) (ctx'.expectCondition R x) :=
  hRel.bind (h.judge _) fun _ => hRel.rejectIf _ (hRel.bind (hRel.node x) fun _ => hRel.fail _)

omit h in
theorem identType (scope : ScopeId) (name : String) :
    Rel (identType scope name : Check σ Ty) (Context.identType scope name) := by
  refine hRel.bind hRel.code fun c => ?_
  split
  · exact hRel.fail _
  · split
    · exact hRel.fail _
    · exact hRel.pure _

theorem binaryType (op : String) (lhs rhs : NodeId) :
    Rel (ctx.binaryType R x op lhs rhs) (ctx'.binaryType R x op lhs rhs) := by
  unfold Context.binaryType
  rw [h.spec]
  refine hRel.bind (hRel.liftExcept _) fun result => hRel.bind (hRel.liftExcept _) fun left =>
    hRel.bind (hRel.liftExcept _) fun right => ?_
  refine hRel.bind (h.operandType hRel) fun leftReceived =>
    hRel.bind (h.operandType hRel) fun rightReceived => ?_
  refine hRel.bind (expectOperand hRel _ _ _) fun _ =>
    hRel.bind (expectOperand hRel _ _ _) fun _ => ?_
  exact hRel.bind (hRel.rejectIf _ (hRel.typeMismatch _ _ _)) fun _ => hRel.pure result

theorem unaryType (op : String) (value : NodeId) :
    Rel (ctx.unaryType R x op value) (ctx'.unaryType R x op value) := by
  unfold Context.unaryType
  rw [h.spec]
  refine hRel.bind (hRel.liftExcept _) fun result => hRel.bind (hRel.liftExcept _) fun expected =>
    hRel.bind (h.operandType hRel) fun received => ?_
  refine hRel.bind (hRel.rejectIf _ (hRel.typeMismatch _ _ _)) fun _ => ?_
  exact hRel.bind (hRel.rejectIf _ (hRel.typeMismatch _ _ _)) fun _ => hRel.pure result

theorem choiceType (cond yes no : NodeId) :
    Rel (ctx.choiceType R cond yes no) (ctx'.choiceType R cond yes no) := by
  refine hRel.bind (h.expectCondition hRel) fun _ => hRel.bind (h.judge _) fun first =>
    hRel.bind (h.judge _) fun second => ?_
  exact hRel.bind (hRel.rejectIf _ (hRel.fail _)) fun _ => hRel.pure first

theorem castType (target : Ty) (value : NodeId) :
    Rel (ctx.castType R target value) (ctx'.castType R target value) :=
  hRel.bind (h.judge _) fun _ => hRel.bind (hRel.rejectIf _ (hRel.fail _)) fun _ =>
    hRel.pure target

theorem operationType (call : Node) (name : String) :
    Rel (ctx.operationType R call name) (ctx'.operationType R call name) := by
  unfold Context.operationType
  rw [h.spec]
  refine hRel.bind (hRel.liftExcept _) fun type => ?_
  split
  · split
    · exact h.judge _
    · exact hRel.pure Ty.unknown
  · exact hRel.pure type

theorem functionType (definition : NodeId) :
    Rel (ctx.functionType R definition) (ctx'.functionType R definition) := by
  unfold Context.functionType
  split
  · exact hRel.pure Ty.unknown
  · exact h.judge _

theorem definedType (scope : ScopeId) (name : String) (definition : NodeId) :
    Rel (ctx.definedType R x scope name definition)
      (ctx'.definedType R x scope name definition) := by
  refine hRel.bind (hRel.modifyCode fun c => .definition x definition) fun _ => ?_
  refine hRel.bind (h.functionType hRel definition) fun type => ?_
  exact hRel.bind (hRel.complete scope name type) fun _ => hRel.pure type

variable {obtain : BodySource σ} {obtain' : BodySource τ}

/-- The type of an expression is related if that of calls is, for which definitions have to be
obtained. -/
theorem typeRule
    (hcall : ∀ name, Rel (ctx.callType obtain R x name) (ctx'.callType obtain' R x name)) :
    Rel (ctx.typeRule obtain R x) (ctx'.typeRule obtain' R x) := by
  refine hRel.bind (hRel.node x) fun node => hRel.located _ ?_
  unfold Context.formType
  rw [h.spec]
  split
  · exact hRel.pure _
  · exact hRel.pure _
  · exact hRel.bind (hRel.node x) fun _ => hRel.memo (identType hRel _ _)
  · exact hRel.memo (h.binaryType hRel _ _ _)
  · exact h.judge _
  · exact hRel.memo (h.unaryType hRel _ _)
  · exact hRel.memo (h.choiceType hRel _ _ _)
  · exact h.castType hRel _ _
  · exact hRel.memo (hcall _)
  · exact hRel.memo (hRel.liftExcept _)
  · exact hRel.memo (hRel.liftExcept _)
  · exact hRel.fail _

/-! ### Bodies -/

theorem exitType : Rel (ctx.exitType R x) (ctx'.exitType R x) := by
  refine hRel.bind hRel.code fun c => ?_
  rw [h.config]
  split
  · exact h.judge _
  · exact hRel.pure _
  · exact h.judge _
  · exact h.judge _
  · exact hRel.pure _

theorem returnTypeRule : Rel (ctx.returnTypeRule R x) (ctx'.returnTypeRule R x) := by
  refine hRel.bind hRel.code fun c => hRel.foldlM _ (fun sofar stmt => ?_) Ty.unknown
  refine hRel.bind (h.exitType hRel) fun type => hRel.bind (hRel.rejectIf _ ?_) fun _ =>
    hRel.pure _
  exact hRel.bind (hRel.node stmt) fun _ => hRel.fail _

/-! ### Calls of operations -/

omit h in
theorem callName : Rel (callName x : Check σ String) (Context.callName x) := by
  refine hRel.bind hRel.code fun c => ?_
  split
  · exact hRel.pure _
  · exact hRel.bind (hRel.textOf x) fun _ => hRel.fail _

theorem checkArgument (name : String) (position : Nat) (argument : NodeId) :
    Rel (ctx.checkArgument x name position argument)
      (ctx'.checkArgument x name position argument) := by
  unfold Context.checkArgument
  rw [h.spec]
  refine hRel.bind (hRel.liftExcept _) fun _ => hRel.bind (h.judge _) fun _ => hRel.rejectIf _ ?_
  exact hRel.bind (hRel.node argument) fun _ => hRel.bind (hRel.textOf x) fun _ => hRel.fail _

theorem checkArgumentsFrom (name : String) (position : Nat) (arguments : List NodeId) :
    Rel (ctx.checkArgumentsFrom x name position arguments)
      (ctx'.checkArgumentsFrom x name position arguments) := by
  induction arguments generalizing position with
  | nil => exact hRel.pure ()
  | cons argument rest ih =>
    exact hRel.bind (h.checkArgument hRel name position argument) fun _ => ih (position + 1)

theorem checkArguments : Rel (ctx.checkArguments x) (ctx'.checkArguments x) :=
  hRel.bind (callName hRel) fun name => hRel.bind hRel.code fun _ =>
    h.checkArgumentsFrom hRel name 0 _

theorem checkPart (part : NodeId) : Rel (ctx.checkPart part) (ctx'.checkPart part) :=
  hRel.bind (hRel.discard (h.judge _)) fun _ => h.judge _

theorem callsRule : Rel (ctx.callsRule x) (ctx'.callsRule x) := by
  refine hRel.bind (hRel.node x) fun node => ?_
  split
  · refine hRel.bind hRel.code fun c => hRel.bind (hRel.forM _ (h.checkPart hRel)) fun _ => ?_
    split
    · exact hRel.pure ()
    · exact h.checkArguments hRel
  · exact hRel.forM _ (h.checkPart hRel)

theorem checkExpr : Rel (ctx.checkExpr x) (ctx'.checkExpr x) :=
  hRel.bind (h.judge _) fun type => hRel.bind (h.judge _) fun _ => hRel.pure type

theorem multiValue (count : Nat) : Rel (ctx.multiValue x count) (ctx'.multiValue x count) := by
  refine hRel.bind (callName hRel) fun name => hRel.bind (h.judge _) fun type =>
    hRel.bind (hRel.node x) fun node => hRel.bind (hRel.rejectIf _ (hRel.fail _)) fun _ => ?_
  rw [h.spec]
  split
  · exact hRel.pure _
  · exact hRel.fail _

theorem quadrupleTypes : Rel (ctx.quadrupleTypes x) (ctx'.quadrupleTypes x) :=
  hRel.bind (h.multiValue hRel 4) fun _ => hRel.pure _

/-- Qualifying a call with a field makes two entries. -/
theorem resolveField (field : String) :
    Rel (ctx.resolveField x field) (ctx'.resolveField x field) := by
  unfold Context.resolveField
  rw [h.spec]
  refine hRel.bind (callName hRel) fun name => hRel.bind (hRel.liftExcept _) fun type => ?_
  refine hRel.bind ?_ fun _ => hRel.pure type
  exact hRel.bind (hRel.modifyCode fun c => .field x field) fun _ =>
    hRel.modifyCode fun c => .type x type

/-! ### Statements -/

theorem checkChildren : Rel (ctx.checkChildren x) (ctx'.checkChildren x) :=
  hRel.bind hRel.code fun _ => hRel.forM _ fun _ => h.judge _

omit h in
theorem bindTarget (scope : ScopeId) (name : String) (type : Ty) :
    Rel (bindTarget x scope name type : Check σ Unit) (Context.bindTarget x scope name type) := by
  refine hRel.bind hRel.code fun c => hRel.bind (hRel.liftExcept _) fun descriptor => ?_
  exact hRel.bind (hRel.rejectIf _ (hRel.typeMismatch _ _ _)) fun _ => hRel.complete _ _ _

theorem valueTypes (targets : Targets) (value : NodeId) :
    Rel (ctx.valueTypes targets value) (ctx'.valueTypes targets value) := by
  cases targets with
  | single name => exact hRel.bind (h.judge _) fun _ => hRel.pure _
  | pair high low => exact h.multiValue hRel 2
  | quadruple high low remHigh remLow => exact h.quadrupleTypes hRel

theorem checkTargets (scope : ScopeId) (targets : Targets) (value : NodeId) :
    Rel (ctx.checkTargets x scope targets value) (ctx'.checkTargets x scope targets value) := by
  refine hRel.bind (hRel.discard (h.checkExpr hRel)) fun _ =>
    hRel.bind (h.valueTypes hRel targets value) fun types => ?_
  exact hRel.bind (hRel.forM _ fun _ => bindTarget hRel _ _ _) fun _ =>
    hRel.modifyCode fun c => .targetTypes x types

omit h in
/-- Connecting a function with its definition is an entry, if the function waits for one. -/
theorem bindDefinition (scope : ScopeId) (name : String) :
    Rel (bindDefinition scope name x : Check σ Unit) (Context.bindDefinition scope name x) := by
  have hmakes : ∀ {ρ : Type}, Makes (fun c : CompilationUnit =>
      if c.scopes.binding? scope name = some .unresolved then
        (c.scopes.setBinding scope name (.resolved x)).map c.withScopes
      else .ok c) (Context.bindDefinition scope name x : Check ρ Unit) := by
    intro ρ s
    unfold Context.bindDefinition
    rw [exec_bind, exec_code]
    dsimp only
    split
    · exact makes_changeScopes _ s
    · rfl
  refine hRel.entry (fun c c' hc => ?_) hmakes hmakes
  split at hc
  · next hname =>
    obtain ⟨scopes, hscopes, rfl⟩ := CompilationUnit.exists_of_map_eq_ok hc
    exact .inr (.bound hname hscopes)
  · exact .inl (Except.ok.inj hc).symm

omit h in
theorem reconcile (name : String) (type : Ty) :
    Rel (reconcile x name type : Check σ Unit) (Context.reconcile x name type) := by
  refine hRel.bind hRel.code fun c => ?_
  dsimp only
  split
  · exact hRel.pure ()
  · exact hRel.bind (hRel.rejectIf _ (hRel.fail _)) fun _ => hRel.complete _ _ _

theorem checkFunction : Rel (ctx.checkFunction x) (ctx'.checkFunction x) := by
  refine hRel.bind (hRel.node x) fun node => ?_
  split
  · refine hRel.bind (bindDefinition hRel _ _) fun _ => hRel.bind (h.checkChildren hRel) fun _ =>
      hRel.bind hRel.code fun c => hRel.bind (hRel.rejectIf _ (hRel.fail _)) fun _ => ?_
    refine hRel.bind (h.functionType hRel x) fun type => ?_
    exact hRel.bind (reconcile hRel _ type) fun _ => hRel.pure type
  · exact hRel.fail _

theorem checkInnerField (field : String) (value : NodeId) :
    Rel (ctx.checkInnerField x field value) (ctx'.checkInnerField x field value) := by
  unfold Context.checkInnerField
  rw [h.spec]
  refine hRel.bind (hRel.liftExcept _) fun expected => hRel.bind (h.checkExpr hRel) fun _ => ?_
  exact hRel.bind (hRel.rejectIf _ (hRel.typeMismatch _ _ _)) fun _ =>
    hRel.modifyCode fun c => .type x expected

theorem checkGuarded (cond : NodeId) : Rel (ctx.checkGuarded x cond) (ctx'.checkGuarded x cond) :=
  hRel.bind (hRel.discard (h.checkExpr hRel)) fun _ => hRel.bind (h.expectCondition hRel) fun _ =>
    h.checkChildren hRel

theorem statementRule : Rel (ctx.statementRule x) (ctx'.statementRule x) := by
  refine hRel.bind (hRel.node x) fun node => hRel.located _ ?_
  unfold Context.checkForm
  split
  · exact h.checkChildren hRel
  · exact h.checkChildren hRel
  · exact hRel.discard (h.checkFunction hRel)
  · exact hRel.discard (h.checkExpr hRel)
  · exact hRel.discard (h.checkExpr hRel)
  · exact hRel.pure ()
  · exact hRel.pure ()
  · exact hRel.pure ()
  · exact hRel.pure ()
  · exact hRel.pure ()
  · exact hRel.pure ()
  · exact h.checkInnerField hRel _ _
  · exact h.checkTargets hRel _ _ _
  · exact h.checkTargets hRel _ _ _
  · exact h.checkGuarded hRel _
  · exact h.checkGuarded hRel _
  · exact hRel.discard (h.checkExpr hRel)

/-! ### All of them -/

/-- **The rules respect a compatible relation** if the types of calls do, for which definitions
have to be obtained. -/
theorem rule (hcall : ∀ R x name,
      Rel (ctx.callType obtain R x name) (ctx'.callType obtain' R x name)) (j : Judgement α) :
    Rel (ctx.rule obtain j) (ctx'.rule obtain' j) := by
  cases j with
  | typeOf resolving expr => exact h.typeRule hRel (hcall resolving expr)
  | returnType resolving body => exact h.returnTypeRule hRel
  | calls expr => exact h.callsRule hRel
  | statement stmt => exact h.statementRule hRel

/-- **Answers to queries respect a compatible relation** as far as judgements do. -/
theorem answer (q : Query α) : Rel (ctx.answer q) (ctx'.answer q) := by
  cases q with
  | typeOf expr => exact h.judge _
  | expression expr => exact h.checkExpr hRel
  | statements body => exact h.checkChildren hRel
  | function definition => exact h.checkFunction hRel
  | arguments call => exact h.checkArguments hRel
  | pairTypes call => exact h.multiValue hRel 2
  | quadrupleTypes call => exact h.quadrupleTypes hRel
  | resolveField call field => exact h.resolveField hRel field
  | returnType body => exact h.judge _

end Context.Matches

end

end ContractLang
