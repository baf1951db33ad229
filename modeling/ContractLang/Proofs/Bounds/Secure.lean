import ContractLang.Check.Effect
import ContractLang.Proofs.Bounds.Guard

/-!
# Guards make no difference

A guarded computation is secure past a unit if it does what it does without a guard, in every
sound state whose unit has all that the first one has, and leaves a sound state
(`ContractLang.Check.Secure`). Sequences of secure computations are secure, and so are reads and
changes of what exists. From this it follows that the rules are secure if they are about nodes
that exist, and the judgements that they turn to are secure (`ContractLang.Guard.secure_rule`).
-/

namespace ContractLang

open Check

section

variable {σ α β : Type}

/-- A state is sound if its unit is intact, and has all that the notes hold on to. -/
structure CheckState.Sound (held : σ → List Place) (s : CheckState σ) : Prop where
  intact : s.code.Intact
  held : s.code.HasAll (held s.notes)

/-- A guard has been harmless: what comes of a state under guard is what comes of it without.
Nothing is gone then, the state is sound again, and `P` holds of the answer if there is one. -/
structure Harmless (held : σ → List Place) (P : α → CompilationUnit → Prop) (s : CheckState σ)
    (out out' : Except Halt α × CheckState σ) : Prop where
  same : out = out'
  lies : s.code.LiesIn out'.2.code
  sound : out'.2.Sound held
  answer : ∀ x, out'.1 = .ok x → P x out'.2.code

/-- A guard is harmless to a computation in all sound states whose unit has what `base` has. -/
def Check.SecureTo (held : σ → List Place) (P : α → CompilationUnit → Prop)
    (base : CompilationUnit) (a b : Check σ α) : Prop :=
  ∀ s, base.LiesIn s.code → s.Sound held → Harmless held P s (exec a s) (exec b s)

/-- A guard is harmless to a computation of whose answer nothing needs to be known. -/
abbrev Check.Secure (held : σ → List Place) (base : CompilationUnit) (a b : Check σ α) : Prop :=
  SecureTo held (fun _ _ => True) base a b

/-- The node that a judgement is about. -/
def Judgement.node : Judgement α → NodeId
  | .typeOf _ x => x
  | .returnType _ x => x
  | .calls x => x
  | .statement x => x

/-- The node that a query is about. -/
def Query.node : Query α → NodeId
  | .typeOf x => x
  | .expression x => x
  | .statements x => x
  | .function x => x
  | .arguments x => x
  | .pairTypes x => x
  | .quadrupleTypes x => x
  | .resolveField x _ => x
  | .returnType x => x

/-- The judgements of a guarded context are secure if they are about nodes that exist. -/
structure Context.Guarded (held : σ → List Place) (ctx ctx' : Context σ) : Prop where
  spec : ctx'.spec = ctx.spec
  config : ctx'.config = ctx.config
  judge : ∀ {α : Type} (j : Judgement α) {base : CompilationUnit}, j.node < base.size →
    Secure held base (ctx.judge j) (ctx'.judge j)

/-- The definitions that are obtained on behalf of calls that exist exist themselves. -/
def BodySource.Guarded (held : σ → List Place) (obtain obtain' : BodySource σ) : Prop :=
  ∀ {base : CompilationUnit} {scope : ScopeId} {call : NodeId} (name : String),
    scope < base.scopes.scopes.size → call < base.size →
      SecureTo held (fun definition c => definition < c.size) base (obtain scope call name)
        (obtain' scope call name)

variable {held : σ → List Place} {base : CompilationUnit} {a b : Check σ α} {g : Guard σ}
  {s : CheckState σ} {x : NodeId} {scope : ScopeId}

theorem Harmless.trans {P : α → CompilationUnit → Prop} {t : CheckState σ}
    {out out' : Except Halt α × CheckState σ} (hlies : s.code.LiesIn t.code)
    (h : Harmless held P t out out') : Harmless held P s out out' :=
  ⟨h.same, hlies.trans h.lies, h.sound, h.answer⟩

/-! ### The effect of looking -/

namespace Guard

theorem exec_look {places : CompilationUnit → List Place} (h : s.code.HasAll (places s.code)) :
    exec (g.look places) s = (.ok s.code, s) := by
  have hnone : ((places s.code).filter fun p => ¬s.code.Has p) = [] :=
    List.filter_eq_nil_iff.mpr fun p hp => by simpa using h p hp
  unfold look
  rw [exec_bind, exec_code]
  dsimp only
  rw [hnone]
  rfl

theorem exec_lookOver (h : s.code.Intact) : exec g.lookOver s = (.ok (), s) := by
  unfold lookOver
  rw [discard_eq_bind, exec_bind, exec_look (CompilationUnit.intact_iff.mp h)]
  rfl

theorem exec_node (hx : x < s.code.size) :
    exec (g.node x) s = (.ok (s.code.node x), s) := by
  unfold node
  rw [exec_bind, exec_look (by simpa using hx)]
  rfl

theorem exec_textOf (hs : s.code.Intact) (hx : x < s.code.size) :
    exec (g.textOf x) s = (.ok (s.code.render x), s) := by
  unfold textOf
  rw [exec_bind, exec_look (by simpa using hs.rendered_lt hx)]
  rfl

theorem exec_scopesFrom (hs : s.code.Intact) (hscope : scope < s.code.scopes.scopes.size) :
    exec (g.scopesFrom scope) s = (.ok s.code.scopes, s) := by
  unfold scopesFrom
  rw [exec_bind, exec_look (by simpa using hs.chain_lt hscope)]
  rfl

end Guard

/-! ### Secure computations -/

namespace Check.SecureTo

variable {P : α → CompilationUnit → Prop} {Q : β → CompilationUnit → Prop}

theorem mono {c : CompilationUnit} (h : SecureTo held P base a b) (hc : base.LiesIn c) :
    SecureTo held P c a b :=
  fun s hs => h s (hc.trans hs)

theorem pure {x : α} (hx : ∀ c, base.LiesIn c → P x c) :
    SecureTo held P base (pure x) (pure x) :=
  fun s hs hsound => ⟨rfl, .refl _, hsound, fun _ heq => Except.ok.inj heq ▸ hx s.code hs⟩

theorem throw (halt : Halt) : SecureTo held P base (throw halt : Check σ α) (throw halt) :=
  fun _ _ hsound => ⟨rfl, .refl _, hsound, nofun⟩

/-- What follows may rest on what is known of the answer. -/
theorem bind {f k : α → Check σ β} (h : SecureTo held P base a b)
    (hf : ∀ x c, base.LiesIn c → P x c → SecureTo held Q c (f x) (k x)) :
    SecureTo held Q base (a >>= f) (b >>= k) := by
  intro s hs hsound
  obtain ⟨heq, hlies, hafter, hanswer⟩ := h s hs hsound
  rw [exec_bind, exec_bind, heq]
  generalize exec b s = out at hlies hafter hanswer
  obtain ⟨r, t⟩ := out
  cases r with
  | error halt => exact ⟨rfl, hlies, hafter, nofun⟩
  | ok x =>
    exact .trans hlies (hf x t.code (hs.trans hlies) (hanswer x rfl) t (.refl _) hafter)

/-- The outcome of a computation is known to be the answer that it gives, or a failure. -/
theorem outcome (h : SecureTo held P base a b) :
    SecureTo held (fun r c => ∀ x, r = .ok x → P x c) base (outcome a) (outcome b) := by
  intro s hs hsound
  obtain ⟨heq, hlies, hafter, hanswer⟩ := h s hs hsound
  rw [exec_outcome, exec_outcome, heq]
  exact ⟨rfl, hlies, hafter, fun _ heq => Except.ok.inj heq ▸ hanswer⟩

end Check.SecureTo

namespace Check.Secure

/-- What changes nothing is secure if the guard makes no difference. -/
theorem of_reads (h : ∀ s : CheckState σ, base.LiesIn s.code → s.code.Intact →
    exec a s = exec b s ∧ (exec b s).2 = s) : Secure held base a b := by
  intro s hs hsound
  obtain ⟨heq, hsame⟩ := h s hs hsound.intact
  exact ⟨heq, hsame.symm ▸ .refl _, hsame.symm ▸ hsound, fun _ _ => trivial⟩

theorem pure (x : α) : Secure held base (pure x) (pure x) :=
  SecureTo.pure fun _ _ => trivial

theorem fail (e : Error) : Secure held base (fail e : Check σ α) (fail e) :=
  SecureTo.throw (.fault e)

theorem liftExcept (given : Except Error α) :
    Secure held base (liftExcept given : Check σ α) (liftExcept given) := by
  cases given with
  | ok x => exact pure x
  | error e => exact fail e

theorem bind {f k : α → Check σ β} (h : Secure held base a b)
    (hf : ∀ x, Secure held base (f x) (k x)) : Secure held base (a >>= f) (b >>= k) :=
  SecureTo.bind h fun x _ hc _ => (hf x).mono hc

theorem discard (h : Secure held base a b) : Secure held base (discard a) (discard b) := by
  rw [discard_eq_bind, discard_eq_bind]
  exact h.bind fun _ => pure ()

theorem rejectIf (bad : Prop) [Decidable bad] {a b : Check σ Unit} (h : Secure held base a b) :
    Secure held base (rejectIf bad a) (rejectIf bad b) := by
  unfold Check.rejectIf
  split
  · exact h
  · exact pure ()

theorem onFault {f k : Error → Check σ α} (h : Secure held base a b)
    (hf : ∀ e, Secure held base (f e) (k e)) :
    Secure held base (a.onFault f) (b.onFault k) := by
  intro s hs hsound
  obtain ⟨heq, hlies, hafter, -⟩ := h s hs hsound
  rw [exec_onFault, exec_onFault, heq]
  generalize exec b s = out at hlies hafter
  match out, hlies, hafter with
  | (.ok x, t), hlies, hafter => exact ⟨rfl, hlies, hafter, fun _ _ => trivial⟩
  | (.error .outOfDepth, t), hlies, hafter => exact ⟨rfl, hlies, hafter, nofun⟩
  | (.error (.fault e), t), hlies, hafter =>
    exact .trans hlies (hf e t (hs.trans hlies) hafter)

theorem located (position : Option Position) (h : Secure held base a b) :
    Secure held base (located position a) (located position b) :=
  h.onFault fun _ => fail _

theorem forM {γ : Type} {f k : γ → Check σ Unit} {xs : List γ}
    (hf : ∀ x ∈ xs, Secure held base (f x) (k x)) : Secure held base (xs.forM f) (xs.forM k) := by
  induction xs with
  | nil => exact pure ()
  | cons x xs ih =>
    exact (hf x List.mem_cons_self).bind fun _ =>
      ih fun y hy => hf y (List.mem_cons_of_mem x hy)

theorem foldlM {γ : Type} {f k : α → γ → Check σ α} {xs : List γ} (x : α)
    (hf : ∀ z, ∀ y ∈ xs, Secure held base (f z y) (k z y)) :
    Secure held base (xs.foldlM f x) (xs.foldlM k x) := by
  induction xs generalizing x with
  | nil => exact pure x
  | cons y ys ih =>
    rw [List.foldlM_cons, List.foldlM_cons]
    exact (hf x y List.mem_cons_self).bind fun z =>
      ih z fun z' w hw => hf z' w (List.mem_cons_of_mem y hw)

/-! ### Reading -/

/-- What follows may rest on all that is there when the unit is looked at. -/
theorem look {places : CompilationUnit → List Place} {f k : CompilationUnit → Check σ α}
    (hplaces : ∀ c, base.LiesIn c → c.Intact → c.HasAll (places c))
    (h : ∀ c, base.LiesIn c → c.Intact → Secure held c (f c) (k c)) :
    Secure held base (g.look places >>= f) (code >>= k) := by
  intro s hs hsound
  rw [exec_bind, exec_bind, Guard.exec_look (hplaces s.code hs hsound.intact), exec_code]
  exact h s.code hs hsound.intact s (.refl _) hsound

theorem nodeOf {f : Node → Check σ α} {k : CompilationUnit → Check σ α} (hx : x < base.size)
    (h : ∀ c, base.LiesIn c → c.Intact → Secure held c (f (c.node x)) (k c)) :
    Secure held base (g.node x >>= f) (code >>= k) := by
  intro s hs hsound
  rw [exec_bind, exec_bind, Guard.exec_node (hs.node_lt hx), exec_code]
  exact h s.code hs hsound.intact s (.refl _) hsound

theorem node {f k : Node → Check σ α} (hx : x < base.size)
    (h : ∀ c, base.LiesIn c → c.Intact → Secure held c (f (c.node x)) (k (c.node x))) :
    Secure held base (g.node x >>= f) (Check.node x >>= k) :=
  nodeOf hx h

theorem textOf {f k : String → Check σ α} (hx : x < base.size)
    (h : ∀ text, Secure held base (f text) (k text)) :
    Secure held base (g.textOf x >>= f) (Check.textOf x >>= k) := by
  refine .bind (.of_reads fun s hs hintact => ?_) h
  rw [Guard.exec_textOf hintact (hs.node_lt hx)]
  exact ⟨rfl, rfl⟩

theorem typeMismatch (hx : x < base.size) (expected received : Ty) :
    Secure held base (g.typeMismatch x expected received : Check σ α)
      (Check.typeMismatch x expected received) :=
  .textOf hx fun _ => .fail _

theorem scopesFrom {f : ScopeTree → Check σ α} {k : CompilationUnit → Check σ α}
    (hscope : scope < base.scopes.scopes.size)
    (h : ∀ c, base.LiesIn c → c.Intact → Secure held c (f c.scopes) (k c)) :
    Secure held base (g.scopesFrom scope >>= f) (code >>= k) := by
  intro s hs hsound
  have hscope' : scope < s.code.scopes.scopes.size := hs.scope_lt hscope
  rw [exec_bind, exec_bind, Guard.exec_scopesFrom hsound.intact hscope', exec_code]
  exact h s.code hs hsound.intact s (.refl _) hsound

/-! ### Writing -/

theorem modifyCode {f : CompilationUnit → CompilationUnit} (hx : x < base.size)
    (hlies : ∀ c : CompilationUnit, c.LiesIn (f c))
    (hf : ∀ c, base.LiesIn c → c.Intact → (f c).Intact) :
    Secure held base (g.modifyCode x f) (Check.modifyCode f) := by
  intro s hs hsound
  have hintact : (f s.code).Intact := hf s.code hs hsound.intact
  have hsame : exec (g.modifyCode x f) s = exec (Check.modifyCode f) s := by
    unfold Guard.modifyCode
    rw [exec_bind, discard_eq_bind, exec_bind, Guard.exec_node (hs.node_lt hx)]
    exact Guard.exec_lookOver (s := { s with code := f s.code }) hintact
  exact ⟨hsame, hlies s.code, ⟨hintact, (hlies s.code).hasAll hsound.held⟩, fun _ _ => trivial⟩

/-- Something may be put on record for a node that exists. -/
theorem note {f : Node → Node} (hx : x < base.size) (hf : ∀ node, (f node).places = node.places) :
    Secure held base (g.modifyCode x fun c => c.modifyNode x f)
      (Check.modifyCode fun c => c.modifyNode x f) :=
  .modifyCode hx (fun c => .modifyNode c x f) fun _ _ hc => hc.note hf

theorem changeScopes {f : ScopeTree → Except Error ScopeTree}
    (hscope : scope < base.scopes.scopes.size)
    (hf : ∀ c : CompilationUnit, base.LiesIn c → c.Intact → ∀ t, f c.scopes = .ok t →
      c.scopes.Revises t ∧ (c.withScopes t).Intact) :
    Secure held base (g.changeScopes scope f) (Check.changeScopes f) := by
  intro s hs hsound
  have hscope' : scope < s.code.scopes.scopes.size := hs.scope_lt hscope
  have hlooked : exec (g.changeScopes scope f) s =
      exec (Check.changeScopes f >>= fun _ => g.lookOver) s := by
    unfold Guard.changeScopes
    rw [exec_bind, discard_eq_bind, exec_bind, Guard.exec_scopesFrom hsound.intact hscope']
    rfl
  rw [hlooked, exec_bind, exec_changeScopes]
  cases hft : f s.code.scopes with
  | error e => exact ⟨rfl, .refl _, hsound, nofun⟩
  | ok t =>
    obtain ⟨hrevises, hintact⟩ := hf s.code hs hsound.intact t hft
    have hlies : s.code.LiesIn (s.code.withScopes t) := .revises hrevises
    exact ⟨Guard.exec_lookOver (s := { s with code := s.code.withScopes t }) hintact, hlies,
      ⟨hintact, hlies.hasAll hsound.held⟩, fun _ _ => trivial⟩

theorem setBinding {name : String} {b : Binding} (hscope : scope < base.scopes.scopes.size)
    (hb : ∀ y ∈ b.node?, y < base.size) :
    Secure held base (g.changeScopes scope fun scopes => scopes.setBinding scope name b)
      (Check.changeScopes fun scopes => scopes.setBinding scope name b) :=
  .changeScopes hscope fun _ hc hintact _ ht =>
    ⟨.setBinding ht, hintact.setBinding (fun y hy => hc.node_lt (hb y hy)) ht⟩

theorem complete (hscope : scope < base.scopes.scopes.size) (name : String) (type : Ty) :
    Secure held base (g.complete scope name type) (Check.complete scope name type) := by
  unfold Guard.complete Check.complete
  split
  · exact .changeScopes hscope fun _ _ hintact _ ht => ⟨.refine ht, hintact.refine ht⟩
  · exact .pure ()

theorem record (hx : x < base.size) (type : Ty) :
    Secure held base (g.record x type) (Check.record x type) := by
  unfold Guard.record Check.record
  split
  · exact .note hx fun _ => rfl
  · exact .pure ()

theorem memo {a b : Check σ Ty} (hx : x < base.size) (h : Secure held base a b) :
    Secure held base (g.memo x a) (Check.memo x b) := by
  refine .node hx fun c hc _ => ?_
  dsimp only
  split
  · exact .pure _
  · exact .bind (h.mono hc) fun type => .bind (.record (hc.node_lt hx) type) fun _ => .pure type

end Check.Secure

/-! ### Rules -/

namespace Guard

open Check.Secure

variable {ctx ctx' : Context σ} (h : ctx.Guarded held ctx') {R : List NodeId}

theorem secure_expectOperand (hx : x < base.size) (side : String) (expected received : Ty) :
    Secure held base (g.expectOperand x side expected received)
      (Context.expectOperand x side expected received) :=
  .rejectIf _ (.textOf hx fun _ => .fail _)

theorem secure_identType (hscope : scope < base.scopes.scopes.size) (name : String) :
    Secure held base (g.identType scope name) (Context.identType scope name) := by
  refine .scopesFrom hscope fun c _ _ => ?_
  cases c.scopes.lookup scope name with
  | error e => exact .fail _
  | ok d =>
    dsimp only
    split
    · exact .fail _
    · exact .pure _

theorem secure_callName (hx : x < base.size) :
    Secure held base (g.callName x) (Context.callName x) := by
  refine .nodeOf hx fun c hc _ => ?_
  have hx' : x < c.size := hc.node_lt hx
  unfold CompilationUnit.form
  cases (c.node x).form with
  | call name => exact .pure name
  | _ => exact .textOf hx' fun _ => .fail _

include h

theorem secure_operandType (hx : x < base.size) :
    Secure held base (g.operandType ctx R x) (ctx'.operandType R x) := by
  refine .bind (.onFault (h.judge _ hx) fun e => .textOf hx fun _ => .fail _) fun type => ?_
  exact .bind (.rejectIf _ (.textOf hx fun _ => .fail _)) fun _ => .pure type

theorem secure_expectCondition (hx : x < base.size) :
    Secure held base (g.expectCondition ctx R x) (ctx'.expectCondition R x) :=
  .bind (h.judge _ hx) fun _ => .rejectIf _ (.node hx fun _ _ _ => .fail _)

theorem secure_binaryType {lhs rhs : NodeId} (hx : x < base.size) (hlhs : lhs < base.size)
    (hrhs : rhs < base.size) (op : String) :
    Secure held base (g.binaryType ctx R x op lhs rhs) (ctx'.binaryType R x op lhs rhs) := by
  unfold Guard.binaryType Context.binaryType
  rw [h.spec]
  refine .bind (.liftExcept _) fun result => .bind (.liftExcept _) fun left =>
    .bind (.liftExcept _) fun right => ?_
  refine .bind (secure_operandType h hlhs) fun leftReceived =>
    .bind (secure_operandType h hrhs) fun rightReceived => ?_
  refine .bind (secure_expectOperand hx _ _ _) fun _ =>
    .bind (secure_expectOperand hx _ _ _) fun _ => ?_
  exact .bind (.rejectIf _ (.typeMismatch hx _ _)) fun _ => .pure result

theorem secure_unaryType {value : NodeId} (hx : x < base.size) (hvalue : value < base.size)
    (op : String) :
    Secure held base (g.unaryType ctx R x op value) (ctx'.unaryType R x op value) := by
  unfold Guard.unaryType Context.unaryType
  rw [h.spec]
  refine .bind (.liftExcept _) fun result => .bind (.liftExcept _) fun expected =>
    .bind (secure_operandType h hvalue) fun received => ?_
  refine .bind (.rejectIf _ (.typeMismatch hx _ _)) fun _ => ?_
  exact .bind (.rejectIf _ (.typeMismatch hx _ _)) fun _ => .pure result

theorem secure_choiceType {cond yes no : NodeId} (hcond : cond < base.size)
    (hyes : yes < base.size) (hno : no < base.size) :
    Secure held base (g.choiceType ctx R cond yes no) (ctx'.choiceType R cond yes no) := by
  refine .bind (secure_expectCondition h hcond) fun _ => .bind (h.judge _ hyes) fun first =>
    .bind (h.judge _ hno) fun second => ?_
  exact .bind (.rejectIf _ (.fail _)) fun _ => .pure first

theorem secure_castType {value : NodeId} (hvalue : value < base.size) (target : Ty) :
    Secure held base (ctx.castType R target value) (ctx'.castType R target value) :=
  .bind (h.judge _ hvalue) fun _ => .bind (.rejectIf _ (.fail _)) fun _ => .pure target

theorem secure_operationType {call : Node} (hcall : ∀ y ∈ call.children, y < base.size)
    (name : String) :
    Secure held base (ctx.operationType R call name) (ctx'.operationType R call name) := by
  unfold Context.operationType
  rw [h.spec]
  refine .bind (.liftExcept _) fun type => ?_
  split
  · split
    · next argument hargument =>
      obtain ⟨i, -, hi⟩ := Option.bind_eq_some_iff.mp hargument
      exact h.judge _ (hcall argument (List.mem_of_getElem? hi))
    · exact .pure _
  · exact .pure type

theorem secure_functionType (hx : x < base.size) :
    Secure held base (ctx.functionType R x) (ctx'.functionType R x) := by
  unfold Context.functionType
  split
  · exact .pure _
  · exact h.judge _ hx

theorem secure_definedType {definition : NodeId} (hx : x < base.size)
    (hscope : scope < base.scopes.scopes.size) (hdefinition : definition < base.size)
    (name : String) : Secure held base (g.definedType ctx R x scope name definition)
      (ctx'.definedType R x scope name definition) := by
  refine .bind (.modifyCode hx (fun c => .modifyNode c x _) fun c hc hintact =>
    hintact.setDefinition (hc.node_lt hdefinition)) fun _ => ?_
  refine .bind (secure_functionType h hdefinition) fun type => ?_
  exact .bind (.complete hscope name type) fun _ => .pure type

/-! ### Calls and expressions -/

section Obtain

variable {obtain obtain' : BodySource σ} (hobtain : BodySource.Guarded held obtain obtain')

include hobtain

theorem secure_callType (hx : x < base.size) (name : String) :
    Secure held base (g.callType ctx obtain R x name) (ctx'.callType obtain' R x name) := by
  refine .node hx fun c hc hintact => ?_
  have hx' : x < c.size := hc.node_lt hx
  have hscope : (c.node x).scope < c.scopes.scopes.size := hintact.scope_lt hx'
  refine .scopesFrom hscope fun c' hc' hintact' => ?_
  have hscope' := hc'.scope_lt hscope
  cases hbinding : c'.scopes.binding? (c.node x).scope name with
  | none =>
    dsimp only
    rw [h.spec]
    split
    · exact secure_operationType h (fun y hy => hc'.node_lt (hintact.child_lt hx' hy)) name
    · exact .fail _
  | some b =>
    cases b with
    | resolved definition =>
      exact secure_definedType h (hc'.node_lt hx') hscope' (hintact'.resolved_lt hbinding) name
    | pending call => exact .pure _
    | unresolved =>
      refine SecureTo.bind (hobtain name hscope' (hc'.node_lt hx')) fun d c'' hc'' hd => ?_
      exact secure_definedType h (hc''.node_lt (hc'.node_lt hx')) (hc''.scope_lt hscope') hd name

theorem secure_typeRule (hx : x < base.size) :
    Secure held base (g.typeRule ctx obtain R x) (ctx'.typeRule obtain' R x) := by
  refine .node hx fun c hc hintact => .located _ ?_
  have hx' : x < c.size := hc.node_lt hx
  have hoperand : ∀ y ∈ (c.node x).form.operands, y < c.size := fun y => hintact.operand_lt hx'
  revert hoperand
  unfold Guard.formType Context.formType
  rw [h.spec]
  cases (c.node x).form with
  | literal type text => exact fun _ => .pure _
  | const name type value => exact fun _ => .pure _
  | ident name =>
    refine fun _ => .node hx' fun c' hc' hintact' => .memo (hc'.node_lt hx') ?_
    exact secure_identType (hintact'.scope_lt (hc'.node_lt hx')) name
  | binary op lhs rhs =>
    exact fun hoperand => .memo hx' (secure_binaryType h hx'
      (hoperand lhs (by simp [Form.operands])) (hoperand rhs (by simp [Form.operands])) op)
  | group value => exact fun hoperand => h.judge _ (hoperand value List.mem_cons_self)
  | unary op value =>
    exact fun hoperand => .memo hx' (secure_unaryType h hx' (hoperand value List.mem_cons_self) op)
  | choice cond yes no =>
    exact fun hoperand => .memo hx' (secure_choiceType h (hoperand cond (by simp [Form.operands]))
      (hoperand yes (by simp [Form.operands])) (hoperand no (by simp [Form.operands])))
  | cast target value =>
    exact fun hoperand => secure_castType h (hoperand value List.mem_cons_self) target
  | call name => exact fun _ => .memo hx' (secure_callType h hobtain hx' name)
  | runtimeField op field indices => exact fun _ => .memo hx' (.liftExcept _)
  | runtimeArg op number => exact fun _ => .memo hx' (.liftExcept _)
  | _ => exact fun _ => .fail _

end Obtain

/-! ### Bodies -/

theorem secure_exitType (hx : x < base.size) :
    Secure held base (g.exitType ctx R x) (ctx'.exitType R x) := by
  refine .nodeOf hx fun c hc hintact => ?_
  have hx' : x < c.size := hc.node_lt hx
  have hoperand : ∀ y ∈ (c.node x).form.operands, y < c.size := fun y => hintact.operand_lt hx'
  revert hoperand
  rw [h.config]
  unfold CompilationUnit.form
  cases (c.node x).form with
  | ret value definition =>
    cases value with
    | none => exact fun _ => .pure _
    | some value => exact fun hoperand => h.judge _ (hoperand value List.mem_cons_self)
  | abort => exact fun _ => .pure _
  | branch cond => exact fun _ => h.judge _ hx'
  | block => exact fun _ => h.judge _ hx'
  | _ => exact fun _ => .pure _

theorem secure_returnTypeRule (hx : x < base.size) :
    Secure held base (g.returnTypeRule ctx R x) (ctx'.returnTypeRule R x) := by
  refine .nodeOf hx fun c hc hintact => .foldlM _ fun sofar stmt hstmt => ?_
  have hlt : stmt < c.size := hintact.child_lt (hc.node_lt hx) hstmt
  refine .bind (secure_exitType h hlt) fun type => .bind (.rejectIf _ ?_) fun _ => .pure _
  exact .node hlt fun _ _ _ => .fail _

/-! ### Calls of operations -/

theorem secure_checkArgument {argument : NodeId} (hx : x < base.size)
    (hargument : argument < base.size) (name : String) (position : Nat) :
    Secure held base (g.checkArgument ctx x name position argument)
      (ctx'.checkArgument x name position argument) := by
  unfold Guard.checkArgument Context.checkArgument
  rw [h.spec]
  refine .bind (.liftExcept _) fun _ => .bind (h.judge _ hargument) fun _ => .rejectIf _ ?_
  exact .node hargument fun c hc _ => .textOf (hc.node_lt hx) fun _ => .fail _

theorem secure_checkArgumentsFrom {arguments : List NodeId} (hx : x < base.size)
    (harguments : ∀ y ∈ arguments, y < base.size) (name : String) (position : Nat) :
    Secure held base (g.checkArgumentsFrom ctx x name position arguments)
      (ctx'.checkArgumentsFrom x name position arguments) := by
  induction arguments generalizing position with
  | nil => exact .pure ()
  | cons argument rest ih =>
    obtain ⟨hargument, hrest⟩ := List.forall_mem_cons.mp harguments
    exact .bind (secure_checkArgument h hx hargument name position) fun _ =>
      ih hrest (position + 1)

theorem secure_checkArguments (hx : x < base.size) :
    Secure held base (g.checkArguments ctx x) (ctx'.checkArguments x) := by
  refine .bind (secure_callName hx) fun name => .nodeOf hx fun c hc hintact => ?_
  have hx' : x < c.size := hc.node_lt hx
  exact secure_checkArgumentsFrom h hx' (fun y => hintact.child_lt hx') name 0

theorem secure_checkPart (hx : x < base.size) :
    Secure held base (ctx.checkPart x) (ctx'.checkPart x) :=
  .bind (.discard (h.judge _ hx)) fun _ => h.judge _ hx

theorem secure_callsRule (hx : x < base.size) :
    Secure held base (g.callsRule ctx x) (ctx'.callsRule x) := by
  refine .node hx fun c hc hintact => ?_
  have hx' : x < c.size := hc.node_lt hx
  have hoperand : ∀ y ∈ (c.node x).form.operands, y < c.size := fun y => hintact.operand_lt hx'
  revert hoperand
  cases (c.node x).form with
  | call name =>
    refine fun _ => .scopesFrom (hintact.scope_lt hx') fun c' hc' _ => ?_
    refine .bind (.forM fun y hy => ?_) fun _ => ?_
    · exact secure_checkPart h (hc'.node_lt (hintact.child_lt hx' hy))
    · split
      · exact .pure ()
      · exact secure_checkArguments h (hc'.node_lt hx')
  | _ => exact fun hoperand => .forM fun y hy => secure_checkPart h (hoperand y hy)

theorem secure_checkExpr (hx : x < base.size) :
    Secure held base (ctx.checkExpr x) (ctx'.checkExpr x) :=
  .bind (h.judge _ hx) fun type => .bind (h.judge _ hx) fun _ => .pure type

theorem secure_multiValue (hx : x < base.size) (count : Nat) :
    Secure held base (g.multiValue ctx x count) (ctx'.multiValue x count) := by
  refine .bind (secure_callName hx) fun name => .bind (h.judge _ hx) fun type =>
    .node hx fun c _ _ => .bind (.rejectIf _ (.fail _)) fun _ => ?_
  rw [h.spec]
  cases ctx.spec.resultTypes name count with
  | ok types => exact .pure _
  | error e => exact .fail _

theorem secure_quadrupleTypes (hx : x < base.size) :
    Secure held base (g.quadrupleTypes ctx x) (ctx'.quadrupleTypes x) :=
  .bind (secure_multiValue h hx 4) fun _ => .pure _

theorem secure_resolveField (hx : x < base.size) (field : String) :
    Secure held base (g.resolveField ctx x field) (ctx'.resolveField x field) := by
  unfold Guard.resolveField Context.resolveField
  rw [h.spec]
  refine .bind (secure_callName hx) fun name => .bind (.liftExcept _) fun type => ?_
  refine .bind (.modifyCode hx (fun c => ?_) fun c _ hintact => ?_) fun _ => .pure type
  · exact (CompilationUnit.LiesIn.modifyNode c x _).trans (.modifyNode _ x _)
  · have hfield : (c.setField x field).Intact := hintact.note fun _ => rfl
    exact hfield.note fun _ => rfl

/-! ### Statements -/

theorem secure_checkChildren (hx : x < base.size) :
    Secure held base (g.checkChildren ctx x) (ctx'.checkChildren x) :=
  .nodeOf hx fun _ hc hintact => .forM fun _ hy =>
    h.judge _ (hintact.child_lt (hc.node_lt hx) hy)

omit h in
theorem secure_bindTarget (hx : x < base.size) (hscope : scope < base.scopes.scopes.size)
    (name : String) (type : Ty) :
    Secure held base (g.bindTarget x scope name type) (Context.bindTarget x scope name type) := by
  refine .scopesFrom hscope fun c hc _ => .bind (.liftExcept _) fun descriptor => ?_
  exact .bind (.rejectIf _ (.typeMismatch (hc.node_lt hx) _ _)) fun _ =>
    .complete (hc.scope_lt hscope) _ _

theorem secure_valueTypes (hx : x < base.size) (targets : Targets) :
    Secure held base (g.valueTypes ctx targets x) (ctx'.valueTypes targets x) := by
  cases targets with
  | single name => exact .bind (h.judge _ hx) fun _ => .pure _
  | pair high low => exact secure_multiValue h hx 2
  | quadruple high low remHigh remLow => exact secure_quadrupleTypes h hx

theorem secure_checkTargets {value : NodeId} (hx : x < base.size)
    (hscope : scope < base.scopes.scopes.size) (hvalue : value < base.size) (targets : Targets) :
    Secure held base (g.checkTargets ctx x scope targets value)
      (ctx'.checkTargets x scope targets value) := by
  refine .bind (.discard (secure_checkExpr h hvalue)) fun _ =>
    .bind (secure_valueTypes h hvalue targets) fun types => ?_
  exact .bind (.forM fun _ _ => secure_bindTarget hx hscope _ _) fun _ => .note hx fun _ => rfl

omit h in
theorem secure_bindDefinition (hx : x < base.size) (hscope : scope < base.scopes.scopes.size)
    (name : String) : Secure held base (g.bindDefinition scope name x)
      (Context.bindDefinition scope name x) := by
  refine .scopesFrom hscope fun c hc _ => ?_
  split
  · exact .setBinding (hc.scope_lt hscope) fun y hy => Option.some.inj hy ▸ hc.node_lt hx
  · exact .pure ()

omit h in
theorem secure_reconcile (hx : x < base.size) (name : String) (type : Ty) :
    Secure held base (g.reconcile x name type) (Context.reconcile x name type) := by
  refine .look (fun c hc hintact => ?_) fun c hc hintact => ?_
  · have hx' : x < c.size := hc.node_lt hx
    simpa using ⟨hx', hintact.chain_lt (hintact.scope_lt hx'), hintact.rendered_lt hx'⟩
  · dsimp only
    cases c.scopes.find? (c.node x).scope name with
    | none => exact .pure ()
    | some descriptor =>
      exact .bind (.rejectIf _ (.fail _)) fun _ =>
        .complete (hintact.scope_lt (hc.node_lt hx)) _ _

theorem secure_checkFunction (hx : x < base.size) :
    Secure held base (g.checkFunction ctx x) (ctx'.checkFunction x) := by
  refine .node hx fun c hc hintact => ?_
  have hx' : x < c.size := hc.node_lt hx
  cases (c.node x).form with
  | function name params inlined =>
    refine .bind (secure_bindDefinition hx' (hintact.scope_lt hx') _) fun _ =>
      .bind (secure_checkChildren h hx') fun _ => .look (fun c' hc' hintact' => ?_)
        fun c' hc' _ => ?_
    · have hx'' : x < c'.size := hc'.node_lt hx'
      simpa using ⟨hx'', hintact'.examined_lt hx''⟩
    · have hx'' : x < c'.size := hc'.node_lt hx'
      refine .bind (.rejectIf _ (.fail _)) fun _ =>
        .bind (secure_functionType h hx'') fun type => ?_
      exact .bind (secure_reconcile hx'' _ type) fun _ => .pure type
  | _ => exact .fail _

theorem secure_checkInnerField {value : NodeId} (hx : x < base.size) (hvalue : value < base.size)
    (field : String) : Secure held base (g.checkInnerField ctx x field value)
      (ctx'.checkInnerField x field value) := by
  unfold Guard.checkInnerField Context.checkInnerField
  rw [h.spec]
  refine .bind (.liftExcept _) fun expected => .bind (secure_checkExpr h hvalue) fun _ => ?_
  exact .bind (.rejectIf _ (.typeMismatch hx _ _)) fun _ => .note hx fun _ => rfl

theorem secure_checkGuarded {cond : NodeId} (hx : x < base.size) (hcond : cond < base.size) :
    Secure held base (g.checkGuarded ctx x cond) (ctx'.checkGuarded x cond) :=
  .bind (.discard (secure_checkExpr h hcond)) fun _ =>
    .bind (secure_expectCondition h hcond) fun _ => secure_checkChildren h hx

theorem secure_statementRule (hx : x < base.size) :
    Secure held base (g.statementRule ctx x) (ctx'.statementRule x) := by
  refine .node hx fun c hc hintact => .located _ ?_
  have hx' : x < c.size := hc.node_lt hx
  have hscope : (c.node x).scope < c.scopes.scopes.size := hintact.scope_lt hx'
  have hoperand : ∀ y ∈ (c.node x).form.operands, y < c.size := fun y => hintact.operand_lt hx'
  revert hoperand
  cases (c.node x).form with
  | program | block => exact fun _ => secure_checkChildren h hx'
  | function name params inlined => exact fun _ => .discard (secure_checkFunction h hx')
  | ret value definition =>
    cases value with
    | none => exact fun _ => .pure ()
    | some value =>
      exact fun hoperand => .discard (secure_checkExpr h (hoperand value List.mem_cons_self))
  | breakLoop value =>
    cases value with
    | none => exact fun _ => .pure ()
    | some value =>
      exact fun hoperand => .discard (secure_checkExpr h (hoperand value List.mem_cons_self))
  | abort | innerBegin | innerSubmit | const => exact fun _ => .pure ()
  | innerField field value =>
    exact fun hoperand => secure_checkInnerField h hx' (hoperand value List.mem_cons_self) field
  | assign targets value | declare targets value =>
    exact fun hoperand =>
      secure_checkTargets h hx' hscope (hoperand value List.mem_cons_self) targets
  | branch cond | loop cond =>
    exact fun hoperand => secure_checkGuarded h hx' (hoperand cond List.mem_cons_self)
  | _ => exact fun _ => .discard (secure_checkExpr h hx')

/-! ### All of them -/

/-- **The rules are secure** for nodes that exist, if the judgements that they turn to are, and
the definitions that they obtain exist. -/
theorem secure_rule {obtain obtain' : BodySource σ}
    (hobtain : BodySource.Guarded held obtain obtain') (j : Judgement α)
    (hj : j.node < base.size) : Secure held base (g.rule ctx obtain j) (ctx'.rule obtain' j) := by
  cases j with
  | typeOf resolving expr => exact secure_typeRule h hobtain hj
  | returnType resolving body => exact secure_returnTypeRule h hj
  | calls expr => exact secure_callsRule h hj
  | statement stmt => exact secure_statementRule h hj

/-- **Answers to queries are secure** if they are about nodes that exist. -/
theorem secure_answer (q : Query α) (hq : q.node < base.size) :
    Secure held base (g.answer ctx q) (ctx'.answer q) := by
  cases q with
  | typeOf expr => exact h.judge _ hq
  | expression expr => exact secure_checkExpr h hq
  | statements body => exact secure_checkChildren h hq
  | function definition => exact secure_checkFunction h hq
  | arguments call => exact secure_checkArguments h hq
  | pairTypes call => exact secure_multiValue h hq 2
  | quadrupleTypes call => exact secure_quadrupleTypes h hq
  | resolveField call field => exact secure_resolveField h hq field
  | returnType body => exact h.judge _ hq

end Guard

end

end ContractLang
