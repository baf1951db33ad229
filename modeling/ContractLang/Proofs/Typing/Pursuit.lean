import ContractLang.Proofs.Runs.Lifecycle
import ContractLang.Proofs.Typing.Answers
import ContractLang.Proofs.Typing.Inquiry

/-!
# The rules pursue the inquiries

The rule for expressions answers from what is on record, or connects a call with its
function, pursues the inquiry into the expression and puts the answer on record
(`ContractLang.Context.similar_typeRule`); the rule for bodies pursues the inquiry into
the body (`ContractLang.Context.similar_returnTypeRule`). Two ends of a computation are
compared up to the error, because the rules report errors at places and wrap them on the
way, and inquiries do not (`ContractLang.Check.Similar`).

What an inquiry asks for is read off the unit at the beginning, but the rules read the
unit as they go. So the comparison takes it that judgements refine the unit
(`ContractLang.Context.Steady`), and carries along that the unit at hand refines
the one at the beginning (`ContractLang.Check.Like`).
-/

namespace ContractLang

/-- How a computation fails, apart from the error. -/
inductive Failure where
  /-- The program is at fault. -/
  | fault
  /-- The computation is nested too deeply. -/
  | outOfDepth
  deriving DecidableEq

/-- What remains of a failure when its error is left out. -/
def Halt.failure : Halt → Failure
  | .fault _ => .fault
  | .outOfDepth => .outOfDepth

namespace Check

variable {σ α β : Type} {s : CheckState σ} {code : CompilationUnit}

/-- The end of a computation, apart from the error. -/
def ending (r : Except Halt α) : Except Failure α :=
  r.mapError Halt.failure

@[simp] theorem ending_ok (a : α) : ending (.ok a) = .ok a := rfl

@[simp] theorem ending_error (halt : Halt) :
    ending (.error halt : Except Halt α) = .error halt.failure := rfl

theorem ending_eq_ok_iff {r : Except Halt α} {a : α} : ending r = .ok a ↔ r = .ok a := by
  cases r <;> simp

/-- Two computations have ended in the same way, up to the error. -/
structure Similar (out out' : Except Halt α × CheckState σ) : Prop where
  ending : ending out.1 = ending out'.1
  state : out.2 = out'.2

namespace Similar

variable {out out' out'' : Except Halt α × CheckState σ}

theorem refl (out : Except Halt α × CheckState σ) : Similar out out :=
  ⟨rfl, rfl⟩

theorem trans (h : Similar out out') (h' : Similar out' out'') : Similar out out'' :=
  ⟨h.ending.trans h'.ending, h.state.trans h'.state⟩

theorem located (position : Option Position) (action : Check σ α) :
    Similar (exec (located position action) s) (exec action s) := by
  refine ⟨?_, exec_located_snd position action⟩
  rw [exec_located]
  split
  · next h => rw [h]; rfl
  · rfl

/-- Sequences end in the same way if their parts do. -/
theorem bind {a b : Check σ α} {f g : α → Check σ β} (h : Similar (exec a s) (exec b s))
    (hf : ∀ x, (exec a s).1 = .ok x → Similar (exec (f x) (exec a s).2) (exec (g x) (exec a s).2)) :
    Similar (exec (a >>= f) s) (exec (b >>= g) s) := by
  rw [exec_bind, exec_bind]
  generalize exec a s = out at h hf
  generalize exec b s = out' at h
  obtain ⟨r, u⟩ := out
  obtain ⟨r', u'⟩ := out'
  obtain rfl : u = u' := h.state
  have hend := h.ending
  cases r with
  | ok x =>
    cases r' with
    | ok x' =>
      obtain rfl : x = x' := by simpa using hend
      exact hf x rfl
    | error halt => simp at hend
  | error halt =>
    cases r' with
    | ok x' => simp at hend
    | error halt' => exact ⟨by simpa using hend, rfl⟩

end Similar

/-- From a unit that refines `code`, two computations end in the same way, and with a unit that
refines `code`. -/
def Like (code : CompilationUnit) (a b : Check σ α) : Prop :=
  ∀ s, code.RefinesTo s.code →
    Similar (exec a s) (exec b s) ∧ code.RefinesTo (exec a s).2.code

/-- From one state, two computations end in the same way, and with a unit that refines that of
the state. -/
def LikeAt (s : CheckState σ) (a b : Check σ α) : Prop :=
  Similar (exec a s) (exec b s) ∧ s.code.RefinesTo (exec a s).2.code

theorem LikeAt.of_like {a b : Check σ α} (h : Like s.code a b) : LikeAt s a b :=
  h s (.refl _)

/-- A computation fails because of the program, and changes nothing. -/
def Faults (a : Check σ α) : Prop :=
  ∀ s, ∃ e, exec a s = (.error (.fault e), s)

theorem faults_raise (cause : Cause) : Faults (raise cause : Check σ α) := fun _ => ⟨_, rfl⟩

theorem faults_typeMismatch (id : NodeId) (expected received : Ty) :
    Faults (typeMismatch id expected received : Check σ α) := fun _ => ⟨_, rfl⟩

namespace Like

variable {a b : Check σ α} {f g : α → Check σ β}

theorem pure (x : α) : Like code (pure x : Check σ α) (pure x) := fun _ hs =>
  ⟨.refl _, hs⟩

theorem fault (ha : Faults a) (hb : Faults b) : Like code a b := by
  intro s hs
  obtain ⟨e, he⟩ := ha s
  obtain ⟨e', he'⟩ := hb s
  rw [he, he']
  exact ⟨⟨rfl, rfl⟩, hs⟩

theorem bind (h : Like code a b) (hf : ∀ x, Like code (f x) (g x)) :
    Like code (a >>= f) (b >>= g) := by
  intro s hs
  obtain ⟨hsimilar, hu⟩ := h s hs
  refine ⟨hsimilar.bind fun x _ => (hf x _ hu).1, ?_⟩
  rw [exec_bind]
  generalize exec a s = out at hu
  match out with
  | (.ok x, u) => exact (hf x u hu).2
  | (.error halt, u) => exact hu

theorem onFault {handler : Error → Check σ α} (h : Like code a b)
    (hhandler : ∀ e, Faults (handler e)) : Like code (a.onFault handler) b := by
  intro s hs
  obtain ⟨hsimilar, hu⟩ := h s hs
  rw [exec_onFault]
  generalize exec a s = out at hsimilar hu
  match out with
  | (.ok x, u) => exact ⟨hsimilar, hu⟩
  | (.error .outOfDepth, u) => exact ⟨hsimilar, hu⟩
  | (.error (.fault e), u) =>
    obtain ⟨e', he'⟩ := hhandler e u
    dsimp only
    rw [he']
    exact ⟨⟨hsimilar.ending, hsimilar.state⟩, hu⟩

end Like

end Check

namespace Inquiry

open Check

variable {σ α : Type}

/-- Pursues an inquiry, where `visit` answers the questions. -/
def run (visit : Subject → Check σ Ty) : Inquiry → Check σ Ty
  | answer type => pure type
  | fail => throw (.fault (.unplaced (.notAnExpression "")))
  | ask subject next => visit subject >>= fun type => (next type).run visit

theorem faults_fail (visit : Subject → Check σ Ty) : Faults (fail.run visit) := fun _ => ⟨_, rfl⟩

section Like

variable {visit : Subject → Check σ Ty} {code : CompilationUnit}

/-- Going on from what the specification gives. -/
theorem like_consult {given : Except Error α} {f : α → Check σ Ty} {next : α → Inquiry}
    (h : ∀ a, Like code (f a) ((next a).run visit)) :
    Like code (liftExcept given >>= f) ((consult given next).run visit) := by
  cases given with
  | ok a => exact h a
  | error e => exact .fault (fun _ => ⟨_, rfl⟩) (faults_fail visit)

/-- Going on if nothing is bad. -/
theorem like_require {bad ok : Prop} [Decidable bad] [Decidable ok] (hbad : ok ↔ ¬bad)
    {failure : Check σ Unit} (hfailure : Faults failure) {f : Check σ Ty} {next : Inquiry}
    (h : Like code f (next.run visit)) :
    Like code (rejectIf bad failure >>= fun _ => f) ((require ok next).run visit) := by
  unfold require rejectIf
  by_cases hb : bad
  · rw [if_pos hb, if_neg fun hok => hbad.mp hok hb]
    refine .fault (fun s => ?_) (faults_fail visit)
    obtain ⟨e, he⟩ := hfailure s
    exact ⟨e, by rw [exec_bind, he]⟩
  · rw [if_neg hb, if_pos (hbad.mpr hb)]
    exact h

@[simp] theorem run_ask_answer (subject : Subject) :
    (ask subject answer).run visit = visit subject :=
  bind_pure (visit subject)

/-- Asking, in whatever way, and going on from the answer. -/
theorem like_ask {subject : Subject} {a : Check σ Ty} {f : Ty → Check σ Ty} {next : Ty → Inquiry}
    (ha : Like code a (visit subject)) (h : ∀ type, Like code (f type) ((next type).run visit)) :
    Like code (a >>= f) ((ask subject next).run visit) :=
  ha.bind h

end Like

end Inquiry

/-! ### What happens besides the questions -/

namespace ScopeTree

/-- The tree in which a function has been set aside on behalf of a call, and put back. -/
def putBack (tree : ScopeTree) (id : ScopeId) (name : String) (call : NodeId) : ScopeTree :=
  match tree.setBinding id name (.pending call) with
  | .ok aside =>
    match aside.setBinding id name .unresolved with
    | .ok tree => tree
    | .error _ => aside
  | .error _ => tree

/-- The tree in which the nearest descriptor of a name has a type. -/
def completed (tree : ScopeTree) (id : ScopeId) (name : String) (type : Ty) : ScopeTree :=
  match tree.refine id name type with
  | .ok tree => tree
  | .error _ => tree

end ScopeTree

namespace CompilationUnit

variable {code code' : CompilationUnit} {x f : NodeId} {type : Ty}

/-- The unit in which a call has been connected with its function, as it is before its type
is looked for. A function without a body is set aside and put back. -/
def opened (code : CompilationUnit) (x : NodeId) : CompilationUnit :=
  match code.form x with
  | .call name =>
    match code.scopes.binding? (code.node x).scope name with
    | some (.resolved f) => code.setDefinition x f
    | some .unresolved => code.withScopes (code.scopes.putBack (code.node x).scope name x)
    | _ => code
  | _ => code

/-- The unit in which the descriptor of the function called by a call has a type. -/
def informed (code : CompilationUnit) (x : NodeId) (type : Ty) : CompilationUnit :=
  match code.form x with
  | .call name =>
    match code.scopes.binding? (code.node x).scope name with
    | some (.resolved _) =>
      code.withScopes (code.scopes.completed (code.node x).scope name type)
    | _ => code
  | _ => code

/-- The unit in which the type of an expression is on record, if it is known and there is
a place for it. -/
def closed (code : CompilationUnit) (x : NodeId) (type : Ty) : CompilationUnit :=
  if (code.form x).remembers ∧ type.isKnown then (code.informed x type).setType x type
  else code

theorem closed_of_not_isKnown (h : ¬type.isKnown) : code.closed x type = code :=
  if_neg fun hclosed => h hclosed.2

theorem closed_of_not_remembers (h : ¬(code.form x).remembers) : code.closed x type = code :=
  if_neg fun hclosed => h hclosed.1

theorem opened_of_calls (h : code.Calls x f) : code.opened x = code.setDefinition x f := by
  obtain ⟨name, hform, hname⟩ := h
  unfold opened
  rw [hform]
  dsimp only
  rw [hname]

/-- The descriptor of the function called is found, and takes over a type. -/
theorem exists_informed {name : String} (h : code.Calls x f) (hform : code.form x = .call name)
    (htype : type.isKnown) : ∃ t, code.scopes.refine (code.node x).scope name type = .ok t ∧
      code.informed x type = code.withScopes t := by
  obtain ⟨name', hform', hname⟩ := h
  cases hform.symm.trans hform'
  obtain ⟨d, hd, -⟩ := Option.bind_eq_some_iff.mp hname
  obtain ⟨t, ht, -⟩ := ScopeTree.exists_refine hd htype
  refine ⟨t, ht, ?_⟩
  unfold informed ScopeTree.completed
  rw [hform]
  dsimp only
  rw [hname]
  dsimp only
  rw [ht]

/-- A node is no call of a function, or of one that is being resolved. -/
def Idle (code : CompilationUnit) (x : NodeId) : Prop :=
  ∀ name binding, code.form x = .call name →
    code.scopes.binding? (code.node x).scope name = some binding → ∃ call, binding = .pending call

/-- Nothing happens to an idle node before its type is looked for. -/
theorem Idle.opened (h : code.Idle x) : code.opened x = code := by
  unfold CompilationUnit.opened
  split
  · next name hform =>
    split
    · next hname =>
      obtain ⟨call, hcall⟩ := h name _ hform hname
      cases hcall
    · next hname =>
      obtain ⟨call, hcall⟩ := h name _ hform hname
      cases hcall
    · rfl
  · rfl

/-- Nor has it a descriptor to be completed. -/
theorem Idle.informed (h : code.Idle x) : code.informed x type = code := by
  unfold CompilationUnit.informed
  split
  · next name hform =>
    split
    · next hname =>
      obtain ⟨call, hcall⟩ := h name _ hform hname
      cases hcall
    · rfl
  · rfl

namespace RefinesTo

theorem idle (h : code.RefinesTo code') (hx : code.Idle x) : code'.Idle x := by
  intro name binding hform hname
  rw [h.form] at hform
  rw [h.scope] at hname
  cases hold : code.scopes.binding? (code.node x).scope name with
  | none => cases hname.symm.trans (h.scopes.binding?_eq_none hold)
  | some old =>
    obtain ⟨call, rfl⟩ := hx name old hform hold
    cases hname.symm.trans (h.scopes.binding?_eq_some hold nofun)
    exact ⟨call, rfl⟩

theorem opened (h : code.RefinesTo code') (hx : ¬code.IsRecorded x) :
    code.RefinesTo (code'.opened x) := by
  unfold CompilationUnit.opened
  split
  · next name hform =>
    split
    · next f hname => exact h.setDefinition ⟨name, hform, hname⟩ hx
    · next hname =>
      obtain ⟨u, t, hu, ht, hrefines, -⟩ := ScopeTree.exists_setBinding_unresolved hname x
      refine h.withScopes ?_
      unfold ScopeTree.putBack
      simp only [hu, ht]
      exact hrefines
    · exact h
  · exact h

theorem informed (h : code.RefinesTo code') (htype : type.isKnown) :
    code.RefinesTo (code'.informed x type) := by
  unfold CompilationUnit.informed
  split
  · split
    · refine h.withScopes ?_
      unfold ScopeTree.completed
      split
      · next ht => exact ScopeTree.refinesTo_refine ht htype
      · exact .refl _
    · exact h
  · exact h

theorem closed (h : code.RefinesTo code') (hx : ¬code.IsRecorded x) :
    code.RefinesTo (code'.closed x type) := by
  unfold CompilationUnit.closed
  split
  · next hclosed =>
    refine (h.informed hclosed.2).setType ?_ hx hclosed.2
    rw [← h.form]
    exact hclosed.1
  · exact h

end RefinesTo

end CompilationUnit

/-! ### The rules -/

namespace Context

open Check Inquiry

variable {σ : Type} {ctx : Context σ} {R : List NodeId} {x : NodeId} {s : CheckState σ}

/-- Answers a question of an inquiry. -/
def visit (ctx : Context σ) (resolving : List NodeId) : Subject → Check σ Ty
  | .expr id => ctx.judge (.typeOf resolving id)
  | .body id => ctx.judge (.returnType resolving id)
  | .function definition => ctx.functionType resolving definition

/-- What a context goes by, for a unit. -/
def typing (ctx : Context σ) (code : CompilationUnit) : Typing :=
  ⟨ctx.spec, ctx.config, code⟩

/-- From a unit on, questions are answered without doing more to it than to refine it. -/
def Steady (ctx : Context σ) (code : CompilationUnit) : Prop :=
  ∀ R subject (s : CheckState σ), code.RefinesTo s.code →
    s.code.RefinesTo (exec (ctx.visit R subject) s).2.code

/-- Pursues the inquiry into an expression without a type on record. -/
def pursue (ctx : Context σ) (resolving : List NodeId) (expr : NodeId) : Check σ Ty := do
  let code ← code
  modifyCode fun code => code.opened expr
  let type ← ((ctx.typing code).formInquiry expr (code.form expr)).run (ctx.visit resolving)
  modifyCode fun code => code.closed expr type
  return type

/-- The bodies of functions are not to be had in a unit. -/
def Bodiless (obtain : BodySource σ) (code : CompilationUnit) : Prop :=
  ∀ scope name call, code.scopes.binding? scope name = some .unresolved →
    obtain scope call name = materialize none scope call name

section Rules

variable {code : CompilationUnit} (hctx : ctx.Steady code)

include hctx

theorem like_visit (subject : Subject) :
    Like code (ctx.visit R subject) (ctx.visit R subject) := fun s hs =>
  ⟨.refl _, hs.trans (hctx R subject s hs)⟩

theorem like_operand {operand : NodeId} {f : Ty → Check σ Ty} {next : Ty → Inquiry}
    (h : ∀ type, Like code (f type) ((next type).run (ctx.visit R))) :
    Like code (ctx.operandType R operand >>= f)
      ((Inquiry.operand operand next).run (ctx.visit R)) := by
  unfold operandType
  rw [bind_assoc]
  refine like_ask ((like_visit hctx (.expr operand)).onFault fun _ _ => ⟨_, rfl⟩) fun type => ?_
  rw [bind_assoc]
  exact like_require Iff.rfl (fun _ => ⟨_, rfl⟩) (h type)

theorem like_binaryType (op : String) (lhs rhs : NodeId) :
    Like code (ctx.binaryType R x op lhs rhs)
      (((ctx.typing code).binaryInquiry op lhs rhs).run (ctx.visit R)) := by
  refine like_consult fun result => like_consult fun left => like_consult fun right => ?_
  refine like_operand hctx fun leftReceived => like_operand hctx fun rightReceived => ?_
  refine like_require Iff.rfl (fun _ => ⟨_, rfl⟩) ?_
  refine like_require Iff.rfl (fun _ => ⟨_, rfl⟩) ?_
  exact like_require not_not.symm (faults_typeMismatch _ _ _) (.pure result)

theorem like_unaryType (op : String) (value : NodeId) :
    Like code (ctx.unaryType R x op value)
      (((ctx.typing code).unaryInquiry op value).run (ctx.visit R)) := by
  refine like_consult fun result => like_consult fun expected => ?_
  refine like_operand hctx fun received => ?_
  refine like_require Iff.rfl (faults_typeMismatch _ _ _) ?_
  exact like_require not_not.symm (faults_typeMismatch _ _ _) (.pure result)

theorem like_choiceType (cond yes no : NodeId) :
    Like code (ctx.choiceType R cond yes no)
      ((Typing.choiceInquiry cond yes no).run (ctx.visit R)) := by
  unfold choiceType expectCondition
  rw [bind_assoc]
  refine like_ask (like_visit hctx (.expr cond)) fun received => ?_
  refine like_require not_not.symm (fun _ => ⟨_, rfl⟩) ?_
  refine like_ask (like_visit hctx (.expr yes)) fun first => ?_
  refine like_ask (like_visit hctx (.expr no)) fun second => ?_
  exact like_require not_not.symm (faults_raise _) (.pure first)

theorem like_castType (target : Ty) (value : NodeId) :
    Like code (ctx.castType R target value)
      ((Typing.castInquiry target value).run (ctx.visit R)) := by
  refine like_ask (like_visit hctx (.expr value)) fun source => ?_
  exact like_require Iff.rfl (faults_raise _) (.pure target)

theorem like_operationType (call : Node) (name : String) :
    Like code (ctx.operationType R call name)
      (((ctx.typing code).operationInquiry call name).run (ctx.visit R)) := by
  refine like_consult fun type => ?_
  split
  · cases hargument : ctx.spec.dependentOn? name call.children with
    | some argument =>
      have hsame : (ctx.typing code).spec.dependentOn? name call.children = some argument :=
        hargument
      simp only [hsame, run_ask_answer]
      exact like_visit hctx (.expr argument)
    | none =>
      have hsame : (ctx.typing code).spec.dependentOn? name call.children = none := hargument
      simp only [hsame]
      exact .pure _
  · exact .pure type

/-- What a statement leaves a function with is what is asked for, as long as forms stay. -/
theorem like_exitType {stmt : NodeId} {f : Ty → Check σ Ty} {next : Ty → Inquiry}
    (h : ∀ type, Like code (f type) ((next type).run (ctx.visit R))) :
    Like code (ctx.exitType R stmt >>= f)
      (((ctx.typing code).exitInquiry stmt next).run (ctx.visit R)) := by
  intro s hs
  unfold exitType Typing.exitInquiry typing
  rw [bind_assoc, exec_bind, exec_code]
  dsimp only
  rw [hs.form]
  cases hform : code.form stmt
  case ret value definition =>
    cases value with
    | some value => exact like_ask (like_visit hctx (.expr value)) h s hs
    | none => exact h _ s hs
  case branch | block => exact like_ask (like_visit hctx (.body stmt)) h s hs
  all_goals exact h _ s hs

theorem like_unifyExits (sofar : Ty) (stmts : List NodeId) :
    Like code (stmts.foldlM (ctx.unifyExits R) sofar)
      (((ctx.typing code).exitsInquiry sofar stmts).run (ctx.visit R)) := by
  induction stmts generalizing sofar with
  | nil => exact .pure sofar
  | cons stmt rest ih =>
    rw [List.foldlM_cons]
    unfold unifyExits
    rw [bind_assoc]
    refine like_exitType hctx fun type => ?_
    rw [bind_assoc]
    exact like_require (by simp) (fun _ => ⟨_, rfl⟩) (ih _)

omit hctx in
theorem like_liftExcept (given : Except Error Ty) :
    Like code (liftExcept given) ((consult given Inquiry.answer).run (ctx.visit R)) := by
  have h : Like code (liftExcept given >>= pure)
      ((consult given Inquiry.answer).run (ctx.visit R)) := like_consult fun type => .pure type
  rwa [bind_pure] at h

end Rules

section RulesAt

/-- A name is looked up in the unit at hand. -/
theorem likeAt_identType {scope : ScopeId} {name : String} :
    LikeAt s (identType scope name)
      (((ctx.typing s.code).identInquiry scope name).run (ctx.visit R)) := by
  unfold identType Typing.identInquiry ScopeTree.lookup typing LikeAt
  rw [exec_bind, exec_code]
  dsimp only
  cases s.code.scopes.find? scope name with
  | none => exact LikeAt.of_like (.fault (faults_raise _) (faults_fail _))
  | some d =>
    dsimp only
    unfold require
    by_cases htype : d.type = .invalid
    · rw [if_pos htype, if_neg (not_not.mpr htype)]
      exact LikeAt.of_like (.fault (faults_raise _) (faults_fail _))
    · rw [if_neg htype, if_pos htype]
      exact LikeAt.of_like (.pure _)

theorem exec_pursue (R : List NodeId) (x : NodeId) (s : CheckState σ) :
    exec (ctx.pursue R x) s =
      match exec (((ctx.typing s.code).formInquiry x (s.code.form x)).run (ctx.visit R))
        { s with code := s.code.opened x } with
      | (.ok type, u) => (.ok type, { u with code := u.code.closed x type })
      | (.error halt, u) => (.error halt, u) := by
  unfold pursue
  rw [exec_bind, exec_code]
  dsimp only
  rw [exec_bind, exec_modifyCode]
  dsimp only
  rw [exec_bind]
  split
  · next hrun => rw [hrun]; rfl
  · next hrun => rw [hrun]

/-- An idle node without a place for its type is typed as the inquiry into it goes. -/
theorem similar_pursue {a : Check σ Ty} (hidle : s.code.Idle x)
    (hremembers : ¬(s.code.form x).remembers)
    (h : LikeAt s a (((ctx.typing s.code).formInquiry x (s.code.form x)).run (ctx.visit R))) :
    Similar (exec a s) (exec (ctx.pursue R x) s) := by
  obtain ⟨hsimilar, hu⟩ := h
  rw [exec_pursue, hidle.opened]
  refine hsimilar.trans ?_
  rw [hsimilar.state] at hu
  revert hu
  generalize exec (((ctx.typing s.code).formInquiry x (s.code.form x)).run (ctx.visit R)) s = out
  intro hu
  match out with
  | (.ok type, u) =>
    have hplace : ¬(u.code.form x).remembers := by
      rw [hu.form]
      exact hremembers
    dsimp only
    rw [CompilationUnit.closed_of_not_remembers hplace]
    exact .refl _
  | (.error halt, u) => exact .refl _

/-- An idle node with a place for its type has the answer of the inquiry put on record. -/
theorem similar_memo {infer : Check σ Ty} (hidle : s.code.Idle x)
    (hremembers : (s.code.form x).remembers) (hx : ¬s.code.IsRecorded x)
    (h : LikeAt s infer
      (((ctx.typing s.code).formInquiry x (s.code.form x)).run (ctx.visit R))) :
    Similar (exec (memo x infer) s) (exec (ctx.pursue R x) s) := by
  obtain ⟨hsimilar, hu⟩ := h
  rw [exec_pursue, hidle.opened, exec_memo, if_neg fun hknown => hx ⟨hremembers, hknown⟩]
  revert hsimilar hu
  generalize exec (((ctx.typing s.code).formInquiry x (s.code.form x)).run (ctx.visit R)) s = out'
  generalize exec infer s = out
  intro hsimilar hu
  obtain ⟨r, u⟩ := out
  obtain ⟨r', u'⟩ := out'
  obtain rfl : u = u' := hsimilar.state
  have hend := hsimilar.ending
  match r, r' with
  | .ok type, .ok type' =>
    obtain rfl : type = type' := by simpa using hend
    refine ⟨rfl, ?_⟩
    dsimp only at hu ⊢
    unfold CompilationUnit.closed
    rw [hu.form, (hu.idle hidle).informed]
    by_cases htype : type.isKnown <;> simp [hremembers, htype]
  | .error halt, .error halt' => exact ⟨hend, rfl⟩
  | .ok _, .error _ => simp at hend
  | .error _, .ok _ => simp at hend

/-- A function whose body is not to be had is set aside and put back. -/
theorem exec_materialize_none {scope : ScopeId} {name : String}
    (hname : s.code.scopes.binding? scope name = some .unresolved) :
    ∃ e, exec (materialize none scope x name) s = (.error (.fault e),
      { s with code := s.code.withScopes (s.code.scopes.putBack scope name x) }) := by
  obtain ⟨u, t, hu, ht, -, -⟩ := ScopeTree.exists_setBinding_unresolved hname x
  unfold materialize
  rw [exec_bind, exec_changeScopes, hu]
  dsimp only
  rw [exec_bind, exec_outcome, exec_raise]
  dsimp only
  rw [exec_bind, exec_changeScopes]
  have ht' : ({ s with code := s.code.withScopes u } : CheckState σ).code.scopes.setBinding
      scope name .unresolved = .ok t := ht
  unfold ScopeTree.putBack
  simp only [hu, ht, ht']
  exact ⟨_, rfl⟩

variable (hctx : ctx.Steady s.code)

include hctx

/-- **The rule for bodies pursues the inquiry** into the body. -/
theorem likeAt_returnTypeRule (body : NodeId) :
    LikeAt s (ctx.returnTypeRule R body)
      (((ctx.typing s.code).inquiry (.body body)).run (ctx.visit R)) := by
  unfold returnTypeRule LikeAt
  rw [exec_bind, exec_code]
  exact like_unifyExits hctx .unknown _ s (.refl _)

/-- A call of a function is connected with it, and what the function returns goes on record
for the call and its descriptor. -/
theorem similar_definedType {name : String} {f : NodeId} (hform : s.code.form x = .call name)
    (hname : s.code.scopes.binding? (s.code.node x).scope name = some (.resolved f))
    (hx : ¬s.code.IsRecorded x) :
    Similar (exec (memo x (ctx.definedType R x (s.code.node x).scope name f)) s)
      (exec (ctx.pursue R x) s) := by
  have hcalls : s.code.Calls x f := ⟨name, hform, hname⟩
  have hremembers : (s.code.form x).remembers := hcalls.remembers
  have hinquiry : (ctx.typing s.code).formInquiry x (s.code.form x) =
      ask (.function f) Inquiry.answer :=
    Typing.formInquiry_of_calls hcalls
  rw [exec_pursue, CompilationUnit.opened_of_calls hcalls, hinquiry, run_ask_answer, exec_memo,
    if_neg fun hknown => hx ⟨hremembers, hknown⟩]
  unfold definedType
  rw [exec_bind, exec_modifyCode]
  dsimp only
  have hopened : s.code.RefinesTo (s.code.setDefinition x f) := .setDefinition (.refl _) hcalls hx
  have hu : s.code.RefinesTo (exec (ctx.functionType R f)
      { s with code := s.code.setDefinition x f }).2.code :=
    hopened.trans (hctx R (.function f) { s with code := s.code.setDefinition x f } hopened)
  change Similar _ (match exec (ctx.functionType R f) _ with
    | (.ok type, u) => (.ok type, { u with code := u.code.closed x type })
    | (.error halt, u) => (.error halt, u))
  rw [exec_bind]
  revert hu
  generalize exec (ctx.functionType R f) _ = out
  intro hu
  match out with
  | (.error halt, u) => exact .refl _
  | (.ok type, u) =>
    dsimp only at hu ⊢
    rw [exec_bind]
    unfold complete
    by_cases htype : type.isKnown
    · -- The descriptor of the function is found again.
      obtain ⟨t, ht, hinformed⟩ :=
        CompilationUnit.exists_informed (hu.calls hcalls) ((hu.form x).trans hform) htype
      rw [hu.scope] at ht
      rw [if_pos htype, exec_changeScopes, ht]
      unfold CompilationUnit.closed
      rw [if_pos ⟨by rw [hu.form]; exact hremembers, htype⟩, hinformed]
      simp [htype]
      exact .refl _
    · rw [if_neg htype, CompilationUnit.closed_of_not_isKnown htype]
      simp [htype]
      exact .refl _

variable {obtain : BodySource σ}

/-- The rule for calls. -/
theorem similar_callType {name : String} (hform : s.code.form x = .call name)
    (hobtain : Bodiless obtain s.code) (hx : ¬s.code.IsRecorded x) :
    Similar (exec (memo x (ctx.callType obtain R x name)) s) (exec (ctx.pursue R x) s) := by
  have hremembers : (s.code.form x).remembers := by rw [hform]; rfl
  have hknown : ¬(s.code.node x).type.isKnown := fun hknown => hx ⟨hremembers, hknown⟩
  have hinquiry : (ctx.typing s.code).formInquiry x (s.code.form x) =
      (ctx.typing s.code).callInquiry (s.code.node x) name := by
    rw [hform]
    rfl
  -- The rule looks the name up first, in the unit as it is.
  have hrule : ∀ a : Check σ Ty, exec (ctx.callType obtain R x name) s = exec a s →
      exec (memo x (ctx.callType obtain R x name)) s = exec (memo x a) s := by
    intro a ha
    rw [exec_memo, exec_memo, ha]
  have hcall : exec (ctx.callType obtain R x name) s =
      exec (ctx.boundType obtain R x (s.code.node x).scope name (s.code.node x)
        (s.code.scopes.binding? (s.code.node x).scope name)) s :=
    exec_callType obtain name
  have hidle : ∀ {b}, s.code.scopes.binding? (s.code.node x).scope name = b →
      (∀ binding, b = some binding → ∃ call, binding = .pending call) → s.code.Idle x := by
    intro b hb hpending other binding hother hbinding
    cases hform.symm.trans hother
    exact hpending binding (hb.symm.trans hbinding)
  cases hname : s.code.scopes.binding? (s.code.node x).scope name with
  | some binding =>
    rw [hname] at hcall
    cases binding with
    | resolved f =>
      rw [hrule _ hcall]
      exact similar_definedType hctx hform hname hx
    | pending call =>
      rw [hrule _ hcall]
      refine similar_memo (hidle hname fun _ h => ⟨call, (Option.some.inj h).symm⟩) hremembers hx ?_
      rw [hinquiry, Typing.callInquiry_of_pending (T := ctx.typing s.code) hname]
      exact LikeAt.of_like (.pure _)
    | unresolved =>
      obtain ⟨e, he⟩ := exec_materialize_none (x := x) hname
      rw [exec_memo, if_neg hknown, hcall, boundType, hobtain _ _ _ hname, exec_bind, he,
        exec_pursue, hinquiry, Typing.callInquiry_of_unresolved (T := ctx.typing s.code) hname]
      unfold CompilationUnit.opened
      simp only [hform, hname]
      exact ⟨rfl, rfl⟩
  | none =>
    rw [hname] at hcall
    rw [hrule _ hcall]
    refine similar_memo (hidle hname nofun) hremembers hx ?_
    rw [hinquiry, Typing.callInquiry_of_none (T := ctx.typing s.code) hname]
    refine LikeAt.of_like ?_
    unfold boundType
    dsimp only
    by_cases hbuiltin : ctx.spec.isBuiltin name
    · rw [if_pos hbuiltin, require_pos (show (ctx.typing s.code).spec.isBuiltin name from hbuiltin)]
      exact like_operationType hctx _ name
    · rw [if_neg hbuiltin,
        require_neg (show ¬(ctx.typing s.code).spec.isBuiltin name from hbuiltin)]
      exact .fault (faults_raise _) (faults_fail _)

/-- **The rule for expressions pursues the inquiry** into an expression that has no type on
record. -/
theorem similar_typeRule (hobtain : Bodiless obtain s.code) (hx : ¬s.code.IsRecorded x) :
    Similar (exec (ctx.typeRule obtain R x) s) (exec (ctx.pursue R x) s) := by
  unfold typeRule
  rw [exec_bind, exec_node]
  refine (Similar.located _ _).trans ?_
  change Similar (exec (ctx.formType obtain R x (s.code.form x)) s) _
  have hcall : ∀ {form}, s.code.form x = form → (∀ name, form ≠ .call name) → s.code.Idle x := by
    intro form hform hne name binding hname _
    exact absurd (hform.symm.trans hname) (hne name)
  -- Nodes of most forms are idle, and either have a place for their type or not.
  have hplain : ∀ {form} {a : Check σ Ty}, s.code.form x = form → ¬form.remembers →
      LikeAt s a (((ctx.typing s.code).formInquiry x form).run (ctx.visit R)) →
      Similar (exec a s) (exec (ctx.pursue R x) s) := by
    intro form a hform hremembers h
    subst hform
    refine similar_pursue (hcall rfl fun name hname => hremembers ?_) hremembers h
    rw [hname]
    rfl
  have hmemo : ∀ {form} {a : Check σ Ty}, s.code.form x = form → form.remembers →
      (∀ name, form ≠ .call name) →
      LikeAt s a (((ctx.typing s.code).formInquiry x form).run (ctx.visit R)) →
      Similar (exec (memo x a) s) (exec (ctx.pursue R x) s) := by
    intro form a hform hremembers hne h
    subst hform
    exact similar_memo (hcall rfl hne) hremembers hx h
  cases hform : s.code.form x
  case literal type text => exact hplain hform nofun (.of_like (.pure type))
  case const name type value => exact hplain hform nofun (.of_like (.pure type))
  case ident name =>
    refine (hmemo (a := identType (s.code.node x).scope name) hform rfl nofun ?_)
    exact likeAt_identType
  case binary op lhs rhs => exact hmemo hform rfl nofun (.of_like (like_binaryType hctx op lhs rhs))
  case group value =>
    refine hplain hform nofun ?_
    unfold Typing.formInquiry
    rw [run_ask_answer]
    exact .of_like (like_visit hctx (.expr value))
  case unary op value => exact hmemo hform rfl nofun (.of_like (like_unaryType hctx op value))
  case choice cond yes no => exact hmemo hform rfl nofun (.of_like (like_choiceType hctx cond yes no))
  case cast target value => exact hplain hform nofun (.of_like (like_castType hctx target value))
  case call name => exact similar_callType hctx hform hobtain hx
  case runtimeField op field indices =>
    exact hmemo hform rfl nofun (.of_like (like_liftExcept (ctx.spec.fieldType op field)))
  case runtimeArg op number =>
    exact hmemo hform rfl nofun (.of_like (like_liftExcept (ctx.spec.resultType op 0)))
  all_goals exact hplain hform nofun (.of_like (.fault (faults_raise _) (faults_fail _)))

end RulesAt

end Context

end ContractLang
