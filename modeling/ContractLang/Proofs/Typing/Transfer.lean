import ContractLang.Proofs.Typing.Plain

/-!
# Carrying a relation through the rules of typing

Much of what is to be said about typing compares two typings: at two depths, with
other functions being resolved, of two units that differ in what is on record. Each
such comparison is a relation between answers that goes well with failing, sequencing
and replacing errors (`ContractLang.Typing.Transfers`), and the rules carry every
relation of that kind from the verdicts they turn to over to their own
(`ContractLang.Typing.Transfers.typeRule`,
`ContractLang.Typing.Transfers.returnTypeRule`).

Errors quote the code, so two units with different texts can only agree up to the
errors. Whether a relation tells errors apart is its parameter `exact`.
-/

namespace ContractLang

/-- Two units that agree on all that typing reads, texts and positions apart. -/
structure CompilationUnit.Alike (code code' : CompilationUnit) : Prop where
  form : ∀ id, code'.form id = code.form id
  scope : ∀ id, (code'.node id).scope = (code.node id).scope
  children : ∀ id, code'.children id = code.children id
  field : ∀ id, (code'.node id).field = (code.node id).field
  binding : ∀ scope name, code'.scopes.binding? scope name = code.scopes.binding? scope name

namespace CompilationUnit.Alike

variable {code code' : CompilationUnit} (h : code.Alike code') {a b : NodeId}

theorem refl (code : CompilationUnit) : code.Alike code :=
  ⟨fun _ => rfl, fun _ => rfl, fun _ => rfl, fun _ => rfl, fun _ _ => rfl⟩

include h

theorem trans {code'' : CompilationUnit} (h' : code'.Alike code'') : code.Alike code'' :=
  ⟨fun id => (h'.form id).trans (h.form id), fun id => (h'.scope id).trans (h.scope id),
    fun id => (h'.children id).trans (h.children id), fun id => (h'.field id).trans (h.field id),
    fun scope name => (h'.binding scope name).trans (h.binding scope name)⟩

theorem link_iff : code'.Link a b ↔ code.Link a b := by
  rw [Link, Link, h.form, h.children]

theorem calls_iff : code'.Calls a b ↔ code.Calls a b := by
  simp only [Calls, h.form, h.scope, h.binding]

theorem isDefinition_iff : code'.IsDefinition a ↔ code.IsDefinition a := by
  simp only [IsDefinition, h.form]

theorem leads_eq : code'.Leads = code.Leads := by
  funext a b
  simp only [Leads, h.link_iff, h.calls_iff, h.isDefinition_iff]

theorem reaches_eq : code'.Reaches = code.Reaches := by
  rw [Reaches, Reaches, h.leads_eq]

theorem recursive_iff : code'.Recursive a ↔ code.Recursive a := by
  simp only [Recursive, ReachesFunction, h.reaches_eq, h.calls_iff]

theorem acyclic_iff : code'.Acyclic ↔ code.Acyclic := by
  have hlink : code'.Link = code.Link := by
    funext a b
    exact propext h.link_iff
  rw [Acyclic, Acyclic, hlink]

end CompilationUnit.Alike

namespace Typing

/-- A relation between answers that the rules of typing carry over, and which
distinguishes between errors if `exact` holds. -/
structure Transfers (exact : Prop)
    (Q : {α : Type} → Except Halt α → Except Halt α → Prop) : Prop where
  ok : ∀ {α : Type} (a : α), Q (.ok a) (.ok a)
  fault : ∀ {α : Type} {e e' : Error}, (exact → e = e') →
    Q (.error (.fault e) : Except Halt α) (.error (.fault e'))
  bind : ∀ {α β : Type} {r r' : Except Halt α} {f f' : α → Except Halt β}, Q r r' →
    (∀ a, r = .ok a → r' = .ok a → Q (f a) (f' a)) → Q (r >>= f) (r' >>= f')
  mapFault : ∀ {α : Type} {r r' : Except Halt α} {f f' : Error → Error}, Q r r' →
    (exact → f = f') → Q (mapFault f r) (mapFault f' r')

namespace Transfers

variable {exact : Prop} {Q : {α : Type} → Except Halt α → Except Halt α → Prop}
variable (hQ : Transfers exact Q)

include hQ

theorem raise {α : Type} {cause cause' : Cause} (h : exact → cause = cause') :
    Q (Typing.raise cause : Except Halt α) (Typing.raise cause') :=
  hQ.fault fun he => by rw [h he]

theorem lift {α : Type} (answer : Except Error α) :
    Q (Typing.lift answer) (Typing.lift answer) := by
  cases answer with
  | ok a => exact hQ.ok a
  | error e => exact hQ.fault fun _ => rfl

theorem rejectIf (bad : Prop) [Decidable bad] {e e' : Error} (h : exact → e = e') :
    Q (Typing.rejectIf bad e) (Typing.rejectIf bad e') := by
  unfold Typing.rejectIf
  split
  · exact hQ.fault h
  · exact hQ.ok ()

/-- A relation is carried along a list. -/
theorem foldlM {β : Type} {f f' : β → NodeId → Except Halt β} {ids : List NodeId}
    (h : ∀ b, ∀ id ∈ ids, Q (f b id) (f' b id)) (b : β) :
    Q (ids.foldlM f b) (ids.foldlM f' b) := by
  induction ids generalizing b with
  | nil => exact hQ.ok b
  | cons id ids ih =>
    rw [List.foldlM_cons, List.foldlM_cons]
    refine hQ.bind (h b id List.mem_cons_self) fun b' _ _ => ?_
    exact ih (fun b id hid => h b id (List.mem_cons_of_mem _ hid)) b'

variable {T : Typing} {code' : CompilationUnit} (hcode : exact → code' = T.code)
variable {v v' : Verdicts} {R R' : List NodeId}

include hcode

theorem operandType {operand : NodeId} (h : Q (v.typeOf R operand) (v'.typeOf R' operand)) :
    Q (T.operandType v R operand) ({ T with code := code' }.operandType v' R' operand) := by
  refine hQ.bind (hQ.mapFault h fun he => ?_) fun type _ _ => ?_
  · rw [hcode he]
  · exact hQ.bind (hQ.rejectIf _ fun he => by rw [hcode he]) fun _ _ _ => hQ.ok type

theorem expectCondition {cond : NodeId} (h : Q (v.typeOf R cond) (v'.typeOf R' cond)) :
    Q (T.expectCondition v R cond) ({ T with code := code' }.expectCondition v' R' cond) :=
  hQ.bind h fun _ _ _ => hQ.rejectIf _ fun he => by rw [hcode he]

theorem binaryType {expr lhs rhs : NodeId} (op : String)
    (hlhs : Q (v.typeOf R lhs) (v'.typeOf R' lhs))
    (hrhs : Q (v.typeOf R rhs) (v'.typeOf R' rhs)) :
    Q (T.binaryType v R expr op lhs rhs)
      ({ T with code := code' }.binaryType v' R' expr op lhs rhs) := by
  refine hQ.bind (hQ.lift _) fun result _ _ => hQ.bind (hQ.lift _) fun left _ _ =>
    hQ.bind (hQ.lift _) fun right _ _ => ?_
  refine hQ.bind (hQ.operandType hcode hlhs) fun leftReceived _ _ => ?_
  refine hQ.bind (hQ.operandType hcode hrhs) fun rightReceived _ _ => ?_
  refine hQ.bind (hQ.rejectIf _ fun he => by rw [hcode he]) fun _ _ _ => ?_
  refine hQ.bind (hQ.rejectIf _ fun he => by rw [hcode he]) fun _ _ _ => ?_
  exact hQ.bind (hQ.rejectIf _ fun he => by rw [hcode he]) fun _ _ _ => hQ.ok result

theorem unaryType {expr value : NodeId} (op : String)
    (h : Q (v.typeOf R value) (v'.typeOf R' value)) :
    Q (T.unaryType v R expr op value)
      ({ T with code := code' }.unaryType v' R' expr op value) := by
  refine hQ.bind (hQ.lift _) fun result _ _ => hQ.bind (hQ.lift _) fun expected _ _ => ?_
  refine hQ.bind (hQ.operandType hcode h) fun received _ _ => ?_
  refine hQ.bind (hQ.rejectIf _ fun he => by rw [hcode he]) fun _ _ _ => ?_
  exact hQ.bind (hQ.rejectIf _ fun he => by rw [hcode he]) fun _ _ _ => hQ.ok result

theorem choiceType {cond yes no : NodeId} (hcond : Q (v.typeOf R cond) (v'.typeOf R' cond))
    (hyes : Q (v.typeOf R yes) (v'.typeOf R' yes))
    (hno : Q (v.typeOf R no) (v'.typeOf R' no)) :
    Q (T.choiceType v R cond yes no)
      ({ T with code := code' }.choiceType v' R' cond yes no) := by
  refine hQ.bind (hQ.expectCondition hcode hcond) fun _ _ _ => ?_
  refine hQ.bind hyes fun first _ _ => hQ.bind hno fun second _ _ => ?_
  exact hQ.bind (hQ.rejectIf _ fun _ => rfl) fun _ _ _ => hQ.ok first

omit hcode in
theorem castType {value : NodeId} (target : Ty)
    (h : Q (v.typeOf R value) (v'.typeOf R' value)) :
    Q (Typing.castType v R target value) (Typing.castType v' R' target value) :=
  hQ.bind h fun _ _ _ => hQ.bind (hQ.rejectIf _ fun _ => rfl) fun _ _ _ => hQ.ok target

variable (halike : T.code.Alike code')

include halike

omit hcode in
theorem operationType {id : NodeId} (name : String)
    (h : ∀ y ∈ T.code.children id, Q (v.typeOf R y) (v'.typeOf R' y)) :
    Q (T.operationType v R (T.code.node id) name)
      ({ T with code := code' }.operationType v' R' (code'.node id) name) := by
  unfold Typing.operationType
  rw [halike.field,
    show (code'.node id).children = (T.code.node id).children from halike.children id]
  refine hQ.bind (hQ.lift _) fun type _ _ => ?_
  split
  · unfold OpSpec.dependentOn?
    -- The type depends on the argument at one position, if there is one.
    cases hargument :
        (T.spec.dependentArgument? name).bind fun i => (T.code.node id).children[i]? with
    | none => exact hQ.ok Ty.unknown
    | some argument =>
      obtain ⟨i, -, hi⟩ := Option.bind_eq_some_iff.mp hargument
      exact h argument (List.mem_of_getElem? hi)
  · exact hQ.ok type

omit hcode in
theorem callType {id : NodeId} {name : String} (hform : T.code.form id = .call name)
    (hlink : ∀ y, T.code.Link id y → Q (v.typeOf R y) (v'.typeOf R' y))
    (hcall : ∀ f, T.code.Calls id f → Q (functionType v R f) (functionType v' R' f)) :
    Q (T.callType v R (T.code.node id) name)
      ({ T with code := code' }.callType v' R' (code'.node id) name) := by
  unfold Typing.callType
  simp only [halike.scope, halike.binding]
  cases hbinding : T.code.scopes.binding? (T.code.node id).scope name with
  | some binding =>
    cases binding with
    | unresolved => exact hQ.raise fun _ => rfl
    | pending call => exact hQ.ok Ty.unknown
    | resolved definition => exact hcall definition ⟨name, hform, hbinding⟩
  | none =>
    dsimp only
    split
    · exact hQ.operationType halike name fun y hy => hlink y (.inr hy)
    · exact hQ.raise fun _ => rfl

/-- **The rule for expressions carries a relation over** from the nodes linked to an
expression and the functions it calls. -/
theorem typeRule {expr : NodeId}
    (hident : ∀ name, T.code.form expr = .ident name →
      Q (T.identType (T.code.node expr).scope name)
        ({ T with code := code' }.identType (T.code.node expr).scope name))
    (hlink : ∀ y, T.code.Link expr y → Q (v.typeOf R y) (v'.typeOf R' y))
    (hcall : ∀ f, T.code.Calls expr f → Q (functionType v R f) (functionType v' R' f)) :
    Q (T.typeRule v R expr) ({ T with code := code' }.typeRule v' R' expr) := by
  refine hQ.mapFault ?_ fun he => by rw [hcode he]
  rw [halike.form]
  have hoperand : ∀ y ∈ (T.code.form expr).operands, Q (v.typeOf R y) (v'.typeOf R' y) :=
    fun y hy => hlink y (.inl hy)
  -- One case for each form: its operands are known, and the relation is carried over from them.
  cases hform : T.code.form expr <;> rw [hform] at hoperand <;>
    simp only [Form.operands, List.mem_cons, List.not_mem_nil, or_false, forall_eq_or_imp,
      forall_eq] at hoperand
  case literal type text => exact hQ.ok type
  case const name type value => exact hQ.ok type
  case ident name =>
    unfold formType
    simpa only [halike.scope] using hident name hform
  case binary op lhs rhs => exact hQ.binaryType hcode op hoperand.1 hoperand.2
  case group value => exact hoperand
  case unary op value => exact hQ.unaryType hcode op hoperand
  case choice cond yes no => exact hQ.choiceType hcode hoperand.1 hoperand.2.1 hoperand.2.2
  case cast target value => exact hQ.castType target hoperand
  case call name => exact hQ.callType halike hform hlink hcall
  case runtimeField op field indices => exact hQ.lift _
  case runtimeArg op number => exact hQ.lift _
  all_goals exact hQ.raise fun _ => rfl

/-- Definitions of functions have no type, whatever the verdicts. -/
theorem typeRule_of_isDefinition {expr : NodeId} (h : T.code.IsDefinition expr) :
    Q (T.typeRule v R expr) ({ T with code := code' }.typeRule v' R' expr) := by
  obtain ⟨name, params, inlined, hform⟩ := h
  refine hQ.mapFault ?_ fun he => by rw [hcode he]
  rw [halike.form, hform]
  exact hQ.raise fun _ => rfl

omit hcode in
/-- A relation holds of what a statement leaves a function with. -/
theorem exitType {stmt : NodeId}
    (hvalue : ∀ value definition, T.code.form stmt = .ret (some value) definition →
      Q (v.typeOf R value) (v'.typeOf R' value))
    (hbody : ¬T.code.IsDefinition stmt → Q (v.returnType R stmt) (v'.returnType R' stmt)) :
    Q (T.exitType v R stmt) ({ T with code := code' }.exitType v' R' stmt) := by
  unfold Typing.exitType
  simp only [halike.form]
  split
  · next value definition hform => exact hvalue value definition hform
  · exact hQ.ok _
  · next cond hform => exact hbody fun ⟨name, params, inlined, h⟩ => by simp [hform] at h
  · next hform => exact hbody fun ⟨name, params, inlined, h⟩ => by simp [hform] at h
  · exact hQ.ok _

/-- **The rule for bodies carries a relation over** from the exits of a body. -/
theorem returnTypeRule {body : NodeId}
    (h : ∀ stmt ∈ T.code.children body,
      Q (T.exitType v R stmt) ({ T with code := code' }.exitType v' R' stmt)) :
    Q (T.returnTypeRule v R body) ({ T with code := code' }.returnTypeRule v' R' body) := by
  unfold Typing.returnTypeRule
  rw [halike.children]
  refine hQ.foldlM (fun sofar stmt hstmt => ?_) Ty.unknown
  refine hQ.bind (h stmt hstmt) fun type _ _ => ?_
  exact hQ.bind (hQ.rejectIf _ fun he => by rw [hcode he]) fun _ _ _ => hQ.ok _

end Transfers

end Typing

end ContractLang
