import ContractLang.Proofs.Typing.Pursuit

/-!
# Walking over statements

Checking statements does more to a unit than typing expressions: assignments complete the
descriptors of variables, definitions are connected with functions that wait for them,
and statements have the types of what they bind put on record. Whatever survives these
effects (`ContractLang.Context.Invariant`) and the typing of expressions is an invariant of
every check of statements (`ContractLang.Supply.keeps`), whether it succeeds or fails.

A descriptor is completed at a certain moment of a check, when the type of the value that a
statement assigns, or that of what a function returns, has been found out
(`ContractLang.Context.Finds`). An invariant may rest on that.
-/

namespace ContractLang

open Check

variable {σ α β : Type} {base : CompilationUnit} {K : CheckState σ → Prop}

/-! ### Invariants -/

/-- Whether it gives an answer or fails, a computation keeps an invariant of states. -/
def Check.Keeps (K : CheckState σ → Prop) (a : Check σ α) : Prop :=
  ∀ s, K s → K (exec a s).2

/-- An invariant survives, in a state, when the nearest descriptor of a name is given a type. -/
def Check.CompletableAt (K : CheckState σ → Prop) (s : CheckState σ) (scope : ScopeId)
    (name : String) (type : Ty) : Prop :=
  ∀ scopes : ScopeTree, type.isKnown → s.code.scopes.refine scope name type = .ok scopes →
    K { s with code := s.code.withScopes scopes }

/-- An invariant survives whenever the nearest descriptor of a name is given a type. -/
def Check.Completable (K : CheckState σ → Prop) (scope : ScopeId) (name : String) : Prop :=
  ∀ {s : CheckState σ} {type : Ty}, K s → CompletableAt K s scope name type

/-- A statement gives what a name means a type: an assignment or a declaration does so to its
targets, and the definition of a function to its own name. -/
inductive CompilationUnit.GivesType (code : CompilationUnit) (stmt : NodeId) (name : String) : Prop
  | target {targets : Targets} {value : NodeId}
    (hform : code.form stmt = .assign targets value ∨ code.form stmt = .declare targets value)
    (hname : name ∈ targets.names)
  | definition {params : List Param} {inlined : Bool}
    (hform : code.form stmt = .function name params inlined)

/-- The check of a statement has found the type that it gives to what a name means: from an earlier
state it has come to the one in which the type is entered. -/
inductive Context.Finds (ctx : Context σ) (stmt : NodeId) (name : String) (type : Ty)
    (start s : CheckState σ) : Prop
  /-- The types of the value have been found out, and the targets before this one have been given
  theirs. -/
  | target {targets : Targets} {value : NodeId} {types : List Ty} {u : CheckState σ}
    {done rest : List (String × Ty)}
    (hform : s.code.form stmt = .assign targets value ∨ s.code.form stmt = .declare targets value)
    (hvalue : exec (ctx.valueTypes targets value) start = (.ok types, u))
    (hsplit : targets.names.zip types = done ++ (name, type) :: rest)
    (hdone : exec (done.forM fun target =>
      bindTarget stmt (s.code.node stmt).scope target.1 target.2) u = (.ok (), s))
  /-- The return type of the function has been found out. -/
  | definition {params : List Param} {inlined : Bool}
    (hform : s.code.form stmt = .function name params inlined)
    (htype : exec (ctx.functionType [] stmt) start = (.ok type, s))

/-- A property of states with a unit that refines `base`, which survives what a check of statements
does besides typing and giving types to descriptors. -/
structure Check.Survives (base : CompilationUnit) (K : CheckState σ → Prop) : Prop where
  refines : ∀ {s}, K s → base.RefinesTo s.code
  /-- A function that waits for its body is given one. -/
  resolved : ∀ {s scope name definition scopes}, K s →
    s.code.scopes.binding? scope name = some .unresolved →
    s.code.scopes.setBinding scope name (.resolved definition) = .ok scopes →
    K { s with code := s.code.withScopes scopes }
  /-- The types of what a statement binds go on record. -/
  targetTypes : ∀ {s id types}, K s → 0 < (base.form id).arity →
    K { s with code := s.code.setTargetTypes id types }
  /-- The type of a field of an inner transaction goes on record. -/
  innerType : ∀ {s id field value type}, K s → base.form id = .innerField field value →
    K { s with code := s.code.setType id type }

/-- An invariant of states with a unit that refines `base`, which survives all that a check of
statements does besides typing. -/
structure Context.Invariant (ctx : Context σ) (base : CompilationUnit)
    (K : CheckState σ → Prop) : Prop extends Check.Survives base K where
  /-- A descriptor is given a type by a statement. -/
  completed : ∀ {stmt name type start s}, ctx.Finds stmt name type start s → K start → K s →
    CompletableAt K s (s.code.node stmt).scope name type

/-- What is given a type is named in the statement. -/
theorem Context.Finds.givesType {ctx : Context σ} {stmt : NodeId} {name : String} {type : Ty}
    {start s : CheckState σ} (h : ctx.Finds stmt name type start s) :
    s.code.GivesType stmt name := by
  cases h with
  | @target targets _ types _ _ _ hform _ hsplit _ =>
    have hmem : (name, type) ∈ targets.names.zip types :=
      hsplit ▸ List.mem_append_right _ List.mem_cons_self
    exact .target hform (List.of_mem_zip hmem).1
  | definition hform => exact .definition hform

namespace Check.Keeps

variable {a : Check σ α}

theorem after (h : Keeps K a) {s t : CheckState σ} {r : Except Halt α} (hs : K s)
    (hexec : exec a s = (r, t)) : K t := by
  have ht := h s hs
  rwa [hexec] at ht

theorem pure (x : α) : Keeps K (pure x : Check σ α) := fun _ hs => hs

theorem fail (e : Error) : Keeps K (fail e : Check σ α) := fun _ hs => hs

theorem liftExcept (given : Except Error α) : Keeps K (liftExcept given : Check σ α) := by
  cases given with
  | ok x => exact pure x
  | error e => exact fail e

/-- Going on in one way or another, from what a computation has come to. -/
theorem bind_at {f : α → Check σ β} {s : CheckState σ} (h : K (exec a s).2)
    (hf : ∀ x u, exec a s = (.ok x, u) → K u → K (exec (f x) u).2) : K (exec (a >>= f) s).2 := by
  rw [exec_bind]
  rcases hexec : exec a s with ⟨halt | x, u⟩ <;> rw [hexec] at h
  · exact h
  · exact hf x u hexec h

theorem bind {f : α → Check σ β} (h : Keeps K a) (hf : ∀ x, Keeps K (f x)) :
    Keeps K (a >>= f) :=
  fun s hs => bind_at (h s hs) fun x u _ hu => hf x u hu

theorem discard (h : Keeps K a) : Keeps K (discard a) := by
  rw [discard_eq_bind]
  exact h.bind fun _ => pure ()

/-- Looking at the unit keeps every invariant. -/
theorem code {f : CompilationUnit → Check σ α} (h : ∀ c, Keeps K (f c)) :
    Keeps K (Check.code >>= f) := fun s hs => by
  rw [exec_bind, exec_code]
  exact h s.code s hs

theorem node {id : NodeId} {f : Node → Check σ α} (h : ∀ node, Keeps K (f node)) :
    Keeps K (Check.node id >>= f) := fun s hs => by
  rw [exec_bind, exec_node]
  exact h (s.code.node id) s hs

theorem textOf {id : NodeId} {f : String → Check σ α} (h : ∀ text, Keeps K (f text)) :
    Keeps K (Check.textOf id >>= f) := fun s hs => by
  rw [exec_bind, exec_textOf]
  exact h (s.code.render id) s hs

theorem rejectIf (bad : Prop) [Decidable bad] {failure : Check σ Unit} (h : Keeps K failure) :
    Keeps K (rejectIf bad failure) := by
  unfold Check.rejectIf
  split
  · exact h
  · exact pure ()

theorem located (h : Keeps K a) (position : Option Position) :
    Keeps K (located position a) := fun s hs => by
  rw [exec_located_snd]
  exact h s hs

theorem forM {γ : Type} {f : γ → Check σ Unit} {xs : List γ} (hf : ∀ x ∈ xs, Keeps K (f x)) :
    Keeps K (xs.forM f) := by
  induction xs with
  | nil => exact pure ()
  | cons x xs ih =>
    exact (hf x List.mem_cons_self).bind fun _ => ih fun y hy => hf y (List.mem_cons_of_mem x hy)

/-- In a loop, each step may rest on how far the loop has come. -/
theorem forM_at {γ : Type} {f : γ → Check σ Unit} {xs : List γ} {s : CheckState σ} (hs : K s)
    (hf : ∀ done x rest u, xs = done ++ x :: rest → exec (done.forM f) s = (.ok (), u) → K u →
      K (exec (f x) u).2) : K (exec (xs.forM f) s).2 := by
  suffices hrest : ∀ rest done u, xs = done ++ rest → exec (done.forM f) s = (.ok (), u) → K u →
      K (exec (rest.forM f) u).2 from hrest xs [] s rfl rfl hs
  intro rest
  induction rest with
  | nil => exact fun _ _ _ _ hu => hu
  | cons x rest ih =>
    intro done u hsplit hdone hu
    refine bind_at (hf done x rest u hsplit hdone hu) fun _ v hv hKv => ?_
    have hsteps : (done ++ [x]).forM f = done.forM f >>= fun _ => f x >>= fun _ => Pure.pure () :=
      List.forM_append
    refine ih (done ++ [x]) v (by rw [hsplit, List.append_assoc]; rfl) ?_ hKv
    rw [hsteps, exec_bind, hdone]
    dsimp only
    rw [exec_bind, hv]
    rfl

theorem typeMismatch (id : NodeId) (expected received : Ty) :
    Keeps K (typeMismatch id expected received : Check σ α) :=
  textOf fun _ => fail _

theorem complete_at {scope : ScopeId} {name : String} {type : Ty} {s : CheckState σ} (hs : K s)
    (hK : CompletableAt K s scope name type) :
    K (exec (Check.complete scope name type : Check σ Unit) s).2 := by
  unfold Check.complete
  split
  · next htype =>
    rw [exec_changeScopes]
    split
    · next hscopes => exact hK _ htype hscopes
    · exact hs
  · exact hs

theorem complete {scope : ScopeId} {name : String} (hK : Completable K scope name) (type : Ty) :
    Keeps K (complete scope name type : Check σ Unit) :=
  fun _ hs => complete_at hs (hK hs)

/-- What is read is a node of a unit that refines the first one. -/
theorem node_of_refines (hK : Survives base K) {id : NodeId} {f : Node → Check σ α}
    (h : ∀ c : CompilationUnit, base.RefinesTo c → Keeps K (f (c.node id))) :
    Keeps K (Check.node id >>= f) := fun s hs => by
  rw [exec_bind, exec_node]
  exact h s.code (hK.refines hs) s hs

end Check.Keeps

/-! ### The rules -/

namespace Context

variable {ctx : Context σ} {x : NodeId}

/-- Judgements keep an invariant. -/
def Keeps (ctx : Context σ) (K : CheckState σ → Prop) : Prop :=
  ∀ {α : Type} (j : Judgement α), Check.Keeps K (ctx.judge j)

/-- Judgements about expressions keep an invariant. -/
structure KeepsExpr (ctx : Context σ) (K : CheckState σ → Prop) : Prop where
  typeOf : ∀ R x, Check.Keeps K (ctx.judge (.typeOf R x))
  calls : ∀ x, Check.Keeps K (ctx.judge (.calls x))

theorem Keeps.expr (h : ctx.Keeps K) : ctx.KeepsExpr K :=
  ⟨fun _ _ => h _, fun _ => h _⟩

theorem keeps_checkArgumentsFrom (name : String) (position : Nat) {arguments : List NodeId}
    (h : ∀ argument ∈ arguments, Check.Keeps K (ctx.judge (.typeOf [] argument))) :
    Check.Keeps K (ctx.checkArgumentsFrom x name position arguments) := by
  induction arguments generalizing position with
  | nil => exact .pure ()
  | cons argument rest ih =>
    obtain ⟨hfirst, hrest⟩ := List.forall_mem_cons.mp h
    refine .bind (.bind (.liftExcept _) fun expected => hfirst.bind fun received => ?_)
      fun _ => ih (position + 1) hrest
    exact .rejectIf _ (.node fun _ => .textOf fun _ => .fail _)

theorem keeps_callName : Check.Keeps K (callName x : Check σ String) := by
  refine .code fun c => ?_
  split
  · exact .pure _
  · exact .textOf fun _ => .fail _

section Expressions

variable (hctx : ctx.KeepsExpr K)

include hctx

theorem keeps_checkArguments : Check.Keeps K (ctx.checkArguments x) :=
  keeps_callName.bind fun name =>
    .code fun _ => keeps_checkArgumentsFrom name 0 fun _ _ => hctx.typeOf _ _

theorem keeps_callsRule : Check.Keeps K (ctx.callsRule x) := by
  have hpart : ∀ y, Check.Keeps K (ctx.checkPart y) := fun y =>
    (hctx.typeOf _ _).discard.bind fun _ => hctx.calls _
  refine .node fun node => ?_
  split
  · refine .code fun _ => .bind (.forM fun y _ => hpart y) fun _ => ?_
    split
    · exact .pure ()
    · exact keeps_checkArguments hctx
  · exact .forM fun y _ => hpart y

theorem keeps_checkExpr : Check.Keeps K (ctx.checkExpr x) :=
  (hctx.typeOf _ _).bind fun type => (hctx.calls _).bind fun _ => .pure type

theorem keeps_multiValue (count : Nat) : Check.Keeps K (ctx.multiValue x count) := by
  refine keeps_callName.bind fun name => (hctx.typeOf _ _).bind fun type => .node fun node => ?_
  refine .bind (.rejectIf _ (.fail _)) fun _ => ?_
  split
  · exact .pure _
  · exact .fail _

theorem keeps_quadrupleTypes : Check.Keeps K (ctx.quadrupleTypes x) :=
  (keeps_multiValue hctx 4).bind fun _ => .pure _

theorem keeps_valueTypes (targets : Targets) : Check.Keeps K (ctx.valueTypes targets x) := by
  cases targets with
  | single => exact (hctx.typeOf _ _).bind fun type => .pure _
  | pair => exact keeps_multiValue hctx 2
  | quadruple => exact keeps_quadrupleTypes hctx

end Expressions

section Rules

variable (hctx : ctx.Keeps K)

include hctx

theorem keeps_checkChildren : Check.Keeps K (ctx.checkChildren x) :=
  .code fun _ => .forM fun _ _ => hctx _

theorem keeps_functionType (R : List NodeId) : Check.Keeps K (ctx.functionType R x) := by
  unfold functionType
  split
  · exact .pure _
  · exact hctx _

theorem keeps_checkGuarded (cond : NodeId) : Check.Keeps K (ctx.checkGuarded x cond) := by
  refine (keeps_checkExpr hctx.expr).discard.bind fun _ => ?_
  refine .bind ((hctx _).bind fun received => .rejectIf _ (.node fun _ => .fail _)) fun _ => ?_
  exact keeps_checkChildren hctx

omit hctx in
/-- Nothing happens to the unit before a descriptor is completed. -/
theorem keeps_bindTarget_at {scope : ScopeId} {name : String} {type : Ty} {s : CheckState σ}
    (hs : K s) (hK : CompletableAt K s scope name type) :
    K (exec (bindTarget x scope name type : Check σ Unit) s).2 := by
  unfold bindTarget
  rw [exec_bind, exec_code]
  refine Keeps.bind_at (Keeps.liftExcept _ s hs) fun d t hd _ => ?_
  obtain rfl : t = s := (Keeps.liftExcept (K := (· = s)) _).after rfl hd
  refine Keeps.bind_at (Keeps.rejectIf _ (.typeMismatch _ _ _) t hs) fun _ u hu _ => ?_
  obtain rfl : u = t := (Keeps.rejectIf (K := (· = t)) _ (.typeMismatch _ _ _)).after rfl hu
  exact Keeps.complete_at hs hK

omit hctx in
theorem keeps_bindTarget {scope : ScopeId} {name : String} (hK : Completable K scope name)
    (type : Ty) : Check.Keeps K (bindTarget x scope name type : Check σ Unit) :=
  fun _ hs => keeps_bindTarget_at hs (hK hs)

omit hctx in
theorem keeps_reconcile_at {name : String} {type : Ty} {s : CheckState σ} (hs : K s)
    (hK : CompletableAt K s (s.code.node x).scope name type) :
    K (exec (reconcile x name type : Check σ Unit) s).2 := by
  unfold reconcile
  rw [exec_bind, exec_code]
  dsimp only
  split
  · exact hs
  · refine Keeps.bind_at (Keeps.rejectIf _ (.fail _) s hs) fun _ u hu _ => ?_
    obtain rfl : u = s := (Keeps.rejectIf (K := (· = s)) _ (.fail _)).after rfl hu
    exact Keeps.complete_at hs hK

omit hctx in
theorem keeps_reconcile {name : String}
    (hK : ∀ s, K s → Completable K (s.code.node x).scope name) (type : Ty) :
    Check.Keeps K (reconcile x name type : Check σ Unit) :=
  fun s hs => keeps_reconcile_at hs (hK s hs hs)

variable (hK : ctx.Invariant base K)

include hK

theorem keeps_checkTargets {targets : Targets} {value : NodeId}
    (hform : base.form x = .assign targets value ∨ base.form x = .declare targets value) :
    Check.Keeps K (ctx.checkTargets x (base.node x).scope targets value) := by
  refine (keeps_checkExpr hctx.expr).discard.bind fun _ start hstart => ?_
  refine Keeps.bind_at (keeps_valueTypes hctx.expr targets start hstart) fun types u hvalue hu => ?_
  refine Keeps.bind_at (Keeps.forM_at hu fun done target rest s hsplit hdone hs => ?_)
    fun _ s _ hs => hK.targetTypes hs ?_
  · have hcode := hK.refines hs
    rw [← hcode.form] at hform
    rw [← hcode.scope] at hdone ⊢
    exact keeps_bindTarget_at hs (hK.completed (.target hform hvalue hsplit hdone) hstart hs)
  · rcases hform with hform | hform
    · rw [hform]
      cases targets <;> exact Nat.succ_pos _
    · rw [hform]
      cases targets <;> exact Nat.succ_pos _

omit hctx hK in
theorem keeps_bindDefinition (hK : Survives base K) (scope : ScopeId) (name : String) :
    Check.Keeps K (bindDefinition scope name x : Check σ Unit) := by
  intro s hs
  unfold bindDefinition
  rw [exec_bind, exec_code]
  dsimp only
  split
  · next hname =>
    rw [exec_changeScopes]
    split
    · next hscopes => exact hK.resolved hs hname hscopes
    · exact hs
  · exact hs

theorem keeps_checkFunction : Check.Keeps K (ctx.checkFunction x) := by
  refine .node_of_refines hK.toSurvives fun c hc => ?_
  split
  · next name params inlined hform =>
    refine (keeps_bindDefinition hK.toSurvives _ name).bind fun _ =>
      (keeps_checkChildren hctx).bind fun _ => .code fun _ => ?_
    refine .bind (.rejectIf _ (.fail _)) fun _ start hstart => ?_
    refine Keeps.bind_at (keeps_functionType hctx [] start hstart) fun type s htype hs => ?_
    have hform' : s.code.form x = .function name params inlined :=
      ((hK.refines hs).form x).trans ((hc.form x).symm.trans hform)
    refine Keeps.bind_at (keeps_reconcile_at hs ?_) fun _ _ _ => id
    exact hK.completed (.definition hform' htype) hstart hs
  · exact .fail _

theorem keeps_checkInnerField {field : String} {value : NodeId}
    (hform : base.form x = .innerField field value) :
    Check.Keeps K (ctx.checkInnerField x field value) := by
  refine .bind (.liftExcept _) fun expected => (keeps_checkExpr hctx.expr).bind fun received => ?_
  exact .bind (.rejectIf _ (.typeMismatch _ _ _)) fun _ s hs => hK.innerType hs hform

/-- **Checking a statement keeps every invariant.** -/
theorem keeps_statementRule : Check.Keeps K (ctx.statementRule x) := by
  refine .node_of_refines hK.toSurvives fun c hc => ?_
  have hexpr : ∀ y, Check.Keeps K (Functor.discard (ctx.checkExpr y)) := fun y =>
    (keeps_checkExpr hctx.expr).discard
  rw [hc.scope, show (c.node x).form = base.form x from hc.form x]
  refine .located ?_ _
  cases hform : base.form x
  case program | block => exact keeps_checkChildren hctx
  case function => exact (keeps_checkFunction hctx hK).discard
  case ret value definition =>
    cases value with
    | some value => exact hexpr value
    | none => exact .pure ()
  case breakLoop value =>
    cases value with
    | some value => exact hexpr value
    | none => exact .pure ()
  case abort | innerBegin | innerSubmit | const => exact .pure ()
  case innerField field value => exact keeps_checkInnerField hctx hK hform
  case assign targets value => exact keeps_checkTargets hctx hK (.inl hform)
  case declare targets value => exact keeps_checkTargets hctx hK (.inr hform)
  case branch cond | loop cond => exact keeps_checkGuarded hctx cond
  all_goals exact hexpr x

end Rules

end Context

/-- **Judgements about expressions keep whatever typing keeps**, at every depth. -/
theorem Supply.keepsExpr {supply : Supply σ} {spec : OpSpec} {config : Config}
    (htyping : ∀ d R x, Check.Keeps K ((supply.context spec d config).judge (.typeOf R x)))
    (d : Nat) : (supply.context spec d config).KeepsExpr K := by
  induction d with
  | zero => exact ⟨fun _ _ _ hs => hs, fun _ _ hs => hs⟩
  | succ d ih => exact ⟨htyping (d + 1), fun _ => Context.keeps_callsRule ih⟩

/-- **Judgements keep every invariant** that typing keeps, at every depth. -/
theorem Supply.keeps {supply : Supply σ} {spec : OpSpec} {config : Config}
    (hK : ∀ d, (supply.context spec d config).Invariant base K)
    (htyping : ∀ d R subject, Check.Keeps K ((supply.context spec d config).visit R subject))
    (d : Nat) : (supply.context spec d config).Keeps K := by
  induction d with
  | zero => exact fun _ _ hs => hs
  | succ d ih =>
    intro α j
    cases j with
    | typeOf R x => exact htyping (d + 1) R (.expr x)
    | returnType R b => exact htyping (d + 1) R (.body b)
    | calls x => exact Context.keeps_callsRule ih.expr
    | statement x => exact Context.keeps_statementRule ih (hK d)

end ContractLang
