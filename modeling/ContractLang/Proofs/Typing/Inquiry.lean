import ContractLang.Proofs.Refinement
import ContractLang.Proofs.Typing.Plain

/-!
# Typing as a course of questions

How the type of an expression comes about is data: the rule asks for the types of
other parts of the program, one after another, and what it is told decides on the next
question and in the end on the answer (`ContractLang.Inquiry`). The inquiry into an
expression or a body is read off the unit (`ContractLang.Typing.inquiry`), and the rules
of the checker are the inquiries carried out, up to the errors: nothing happens to the
unit besides the questions but that a call is connected with its function beforehand
(`ContractLang.CompilationUnit.opened`), and that the answer goes on record
afterwards (`ContractLang.CompilationUnit.closed`).

So what is to be said of typing from arbitrary units, where the answers depend on what
has been put on record before, can be said of inquiries, which know of three
kinds of question only. Which questions may come up for the sake of another one is a
matter of the unit alone (`ContractLang.Subject.Raises`).
-/

namespace ContractLang

/-- What a type can be asked for. -/
inductive Subject where
  /-- An expression. -/
  | expr (id : NodeId)
  /-- The exits of a body. -/
  | body (id : NodeId)
  /-- The return value of a function. -/
  | function (definition : NodeId)
  deriving DecidableEq

/-- A course of questions about types that leads to a type. -/
inductive Inquiry where
  /-- The type has been found. -/
  | answer (type : Ty)
  /-- There is no type. -/
  | fail
  /-- The next question, and how to go on from what is answered. -/
  | ask (subject : Subject) (next : Ty → Inquiry)

namespace Inquiry

variable {α : Type}

/-- Goes on if `ok` holds. -/
def require (ok : Prop) [Decidable ok] (next : Inquiry) : Inquiry :=
  if ok then next else fail

theorem require_pos {ok : Prop} [Decidable ok] {next : Inquiry} (h : ok) : require ok next = next :=
  if_pos h

theorem require_neg {ok : Prop} [Decidable ok] {next : Inquiry} (h : ¬ok) : require ok next = fail :=
  if_neg h

/-- Goes on from what the specification gives, if it does. -/
def consult (given : Except Error α) (next : α → Inquiry) : Inquiry :=
  match given with
  | .ok a => next a
  | .error _ => fail

/-- Asks for the type of an operand, which must not be invalid. -/
def operand (id : NodeId) (next : Ty → Inquiry) : Inquiry :=
  ask (.expr id) fun type => require (type ≠ .invalid) (next type)

/-- Something is asked for in the course of an inquiry. -/
inductive Asks : Inquiry → Subject → Prop where
  | head {subject : Subject} {next : Ty → Inquiry} : Asks (ask subject next) subject
  | tail {subject other : Subject} {next : Ty → Inquiry} (type : Ty)
      (h : Asks (next type) other) : Asks (ask subject next) other

section Asks

variable {subject other : Subject} {next : Ty → Inquiry} {q : Inquiry}

@[simp] theorem not_asks_answer (type : Ty) : ¬(answer type).Asks subject := nofun

@[simp] theorem not_asks_fail : ¬fail.Asks subject := nofun

theorem asks_ask_iff :
    (ask subject next).Asks other ↔ other = subject ∨ ∃ type, (next type).Asks other := by
  constructor
  · rintro (_ | ⟨type, h⟩)
    · exact .inl rfl
    · exact .inr ⟨type, h⟩
  · rintro (rfl | ⟨type, h⟩)
    · exact .head
    · exact .tail type h

theorem Asks.of_require {ok : Prop} [Decidable ok] (h : (require ok q).Asks subject) :
    q.Asks subject := by
  unfold require at h
  split at h
  · exact h
  · cases h

theorem Asks.of_consult {given : Except Error α} {next : α → Inquiry}
    (h : (consult given next).Asks subject) : ∃ a, (next a).Asks subject := by
  cases given with
  | ok a => exact ⟨a, h⟩
  | error e => cases h

theorem Asks.of_operand {id : NodeId} (h : (operand id next).Asks subject) :
    subject = .expr id ∨ ∃ type, (next type).Asks subject :=
  (asks_ask_iff.mp h).imp_right fun ⟨type, htype⟩ => ⟨type, htype.of_require⟩

end Asks

end Inquiry

/-! ### Questions that raise others -/

namespace CompilationUnit

/-- What a statement leaves a function with, if it does: the value of a return statement, or what
the statements inside leave it with. -/
def exit? (code : CompilationUnit) (stmt : NodeId) : Option Subject :=
  match code.form stmt with
  | .ret (some value) _ => some (.expr value)
  | .branch _ | .block => some (.body stmt)
  | _ => none

variable {code : CompilationUnit} {stmt : NodeId} {subject : Subject}

theorem cases_of_exit? (h : code.exit? stmt = some subject) : ¬code.IsDefinition stmt ∧
    (subject = .body stmt ∨ ∃ y, subject = .expr y ∧ code.Link stmt y) := by
  have hstmt : ∀ {form}, code.form stmt = form → (∀ name params inlined,
      form ≠ .function name params inlined) → ¬code.IsDefinition stmt := by
    rintro form hform hne ⟨name, params, inlined, h⟩
    exact hne name params inlined (hform.symm.trans h)
  unfold exit? at h
  split at h
  · next value definition hform =>
    cases h
    exact ⟨hstmt hform nofun, .inr ⟨value, rfl, .of_ret hform⟩⟩
  · next cond hform =>
    cases h
    exact ⟨hstmt hform nofun, .inl rfl⟩
  · next hform =>
    cases h
    exact ⟨hstmt hform nofun, .inl rfl⟩
  · cases h

theorem RefinesTo.exit? {code' : CompilationUnit} (h : code.RefinesTo code') (stmt : NodeId) :
    code'.exit? stmt = code.exit? stmt := by
  unfold CompilationUnit.exit?
  rw [h.form]

end CompilationUnit

/-- A question raises others: one about an expression, those about its operands and arguments and
the function that it is a call of; one about a body or a function, those about what its
statements leave it with. -/
inductive Subject.Raises (code : CompilationUnit) : Subject → Subject → Prop where
  | operand {x y : NodeId} (hx : ¬code.IsDefinition x) (hlink : code.Link x y) :
    Raises code (.expr x) (.expr y)
  | callee {x f : NodeId} (hcalls : code.Calls x f) : Raises code (.expr x) (.function f)
  | exit {b stmt : NodeId} {subject : Subject} (hmem : stmt ∈ code.children b)
    (hexit : code.exit? stmt = some subject) : Raises code (.body b) subject
  | value {f stmt : NodeId} {subject : Subject} (hmem : stmt ∈ code.children f)
    (hexit : code.exit? stmt = some subject) : Raises code (.function f) subject

/-- A set of questions contains with each all those that it raises. -/
def CompilationUnit.Encloses (code : CompilationUnit) (M : Subject → Prop) : Prop :=
  ∀ subject other, M subject → subject.Raises code other → M other

/-- What a question raises is raised at every later time. -/
theorem Subject.Raises.refinesTo {code code' : CompilationUnit} {subject other : Subject}
    (h : Raises code subject other) (hcode : code.RefinesTo code') :
    Raises code' subject other := by
  cases h with
  | operand hx hlink =>
    exact .operand (hcode.isDefinition_iff.not.mpr hx) (hcode.link_iff.mpr hlink)
  | callee hcalls => exact .callee (hcode.calls hcalls)
  | exit hmem hexit => exact .exit (hcode.children _ ▸ hmem) ((hcode.exit? _).trans hexit)
  | value hmem hexit => exact .value (hcode.children _ ▸ hmem) ((hcode.exit? _).trans hexit)

namespace Typing

open Inquiry

variable (T : Typing)

/-! ### The inquiry into a part of a program -/

/-- The inquiry into the type of an operator between two operands. -/
def binaryInquiry (op : String) (lhs rhs : NodeId) : Inquiry :=
  consult (T.spec.resultType op 0) fun result =>
  consult (T.spec.argumentType op 0) fun left =>
  consult (T.spec.argumentType op 1) fun right =>
  operand lhs fun leftReceived =>
  operand rhs fun rightReceived =>
  require (¬(left.isKnown ∧ left ≠ leftReceived)) <|
  require (¬(right.isKnown ∧ right ≠ rightReceived)) <|
  require (leftReceived = rightReceived) <|
  answer result

/-- The inquiry into the type of an operator before its operand. -/
def unaryInquiry (op : String) (value : NodeId) : Inquiry :=
  consult (T.spec.resultType op 0) fun result =>
  consult (T.spec.argumentType op 0) fun expected =>
  operand value fun received =>
  require (¬(expected.isKnown ∧ expected ≠ received)) <|
  require (result = received) <|
  answer result

/-- The inquiry into the type of a choice. -/
def choiceInquiry (cond yes no : NodeId) : Inquiry :=
  ask (.expr cond) fun received => require (received = .uint64) <|
  ask (.expr yes) fun first => ask (.expr no) fun second =>
  require (first = second) <|
  answer first

/-- The inquiry into the type of a cast. -/
def castInquiry (target : Ty) (value : NodeId) : Inquiry :=
  ask (.expr value) fun source =>
  require (¬(source ≠ .unknown ∧ source ≠ target)) <|
  answer target

/-- The inquiry into the type of a name. -/
def identInquiry (scope : ScopeId) (name : String) : Inquiry :=
  match T.code.scopes.find? scope name with
  | some descriptor => require (descriptor.type ≠ .invalid) (answer descriptor.type)
  | none => fail

/-- The inquiry into the type of a call of an operation. -/
def operationInquiry (call : Node) (name : String) : Inquiry :=
  consult (T.spec.declaredType name call.field) fun type =>
  if type = .unknown then
    match T.spec.dependentOn? name call.children with
    | some argument => ask (.expr argument) answer
    | none => answer .unknown
  else answer type

/-- The inquiry into the type of a call. -/
def callInquiry (call : Node) (name : String) : Inquiry :=
  match T.code.scopes.binding? call.scope name with
  | some (.resolved definition) => ask (.function definition) answer
  | some (.pending _) => answer .unknown
  | some .unresolved => fail
  | none => require (T.spec.isBuiltin name) (T.operationInquiry call name)

/-- The inquiry into the type of an expression, by its form. -/
def formInquiry (id : NodeId) : Form → Inquiry
  | .literal type _ => answer type
  | .const _ type _ => answer type
  | .ident name => T.identInquiry (T.code.node id).scope name
  | .binary op lhs rhs => T.binaryInquiry op lhs rhs
  | .group value => ask (.expr value) answer
  | .unary op value => T.unaryInquiry op value
  | .choice cond yes no => choiceInquiry cond yes no
  | .cast target value => castInquiry target value
  | .call name => T.callInquiry (T.code.node id) name
  | .runtimeField op field _ => consult (T.spec.fieldType op field) answer
  | .runtimeArg op _ => consult (T.spec.resultType op 0) answer
  | _ => fail

/-- The inquiry into what a statement leaves a function with, continued by `next`. -/
def exitInquiry (stmt : NodeId) (next : Ty → Inquiry) : Inquiry :=
  match T.code.form stmt with
  | .ret (some value) _ => ask (.expr value) next
  | .abort => next (if T.config.typelessAbort then .unknown else .uint64)
  | .branch _ | .block => ask (.body stmt) next
  | _ => next .unknown

/-- The inquiry into the common type of the exits so far and those of more statements. -/
def exitsInquiry : Ty → List NodeId → Inquiry
  | sofar, [] => answer sofar
  | sofar, stmt :: rest =>
    T.exitInquiry stmt fun type => require (¬sofar.clashes type) <|
      exitsInquiry (if type.isKnown then type else sofar) rest

/-- The inquiry into a part of a program. -/
def inquiry : Subject → Inquiry
  | .expr id =>
    if T.code.IsRecorded id then answer (T.code.node id).type
    else T.formInquiry id (T.code.form id)
  | .body id => T.exitsInquiry .unknown (T.code.children id)
  | .function definition => ask (.body definition) answer

section Equations

variable {T} {x f : NodeId} {call : Node} {name : String}

theorem callInquiry_of_resolved
    (h : T.code.scopes.binding? call.scope name = some (.resolved f)) :
    T.callInquiry call name = ask (.function f) answer := by
  unfold callInquiry
  rw [h]

theorem callInquiry_of_pending {c : NodeId}
    (h : T.code.scopes.binding? call.scope name = some (.pending c)) :
    T.callInquiry call name = answer .unknown := by
  unfold callInquiry
  rw [h]

theorem callInquiry_of_unresolved
    (h : T.code.scopes.binding? call.scope name = some .unresolved) :
    T.callInquiry call name = fail := by
  unfold callInquiry
  rw [h]

theorem callInquiry_of_none (h : T.code.scopes.binding? call.scope name = none) :
    T.callInquiry call name = require (T.spec.isBuiltin name) (T.operationInquiry call name) := by
  unfold callInquiry
  rw [h]

/-- A call of a function is typed by asking for what the function returns. -/
theorem formInquiry_of_calls (h : T.code.Calls x f) :
    T.formInquiry x (T.code.form x) = ask (.function f) answer := by
  obtain ⟨name, hform, hname⟩ := h
  rw [hform]
  exact callInquiry_of_resolved hname

theorem inquiry_of_isRecorded (hx : T.code.IsRecorded x) :
    T.inquiry (.expr x) = answer (T.code.node x).type :=
  if_pos hx

theorem inquiry_of_not_isRecorded (hx : ¬T.code.IsRecorded x) :
    T.inquiry (.expr x) = T.formInquiry x (T.code.form x) :=
  if_neg hx

end Equations

/-! ### What is asked for -/

section Asks

variable {T} {x y stmt : NodeId} {subject : Subject} {next : Ty → Inquiry}

/-- Nothing has to be asked for the type of a name. -/
theorem not_asks_identInquiry (scope : ScopeId) (name : String) :
    ¬(T.identInquiry scope name).Asks subject := by
  intro h
  unfold identInquiry at h
  split at h
  · cases h.of_require
  · cases h

theorem eq_of_asks_binaryInquiry {op : String} {lhs rhs : NodeId}
    (h : (T.binaryInquiry op lhs rhs).Asks subject) :
    subject = .expr lhs ∨ subject = .expr rhs := by
  obtain ⟨_, h⟩ := h.of_consult
  obtain ⟨_, h⟩ := h.of_consult
  obtain ⟨_, h⟩ := h.of_consult
  rcases h.of_operand with hlhs | ⟨_, h⟩
  · exact .inl hlhs
  rcases h.of_operand with hrhs | ⟨_, h⟩
  · exact .inr hrhs
  cases h.of_require.of_require.of_require

theorem eq_of_asks_unaryInquiry {op : String} {value : NodeId}
    (h : (T.unaryInquiry op value).Asks subject) : subject = .expr value := by
  obtain ⟨_, h⟩ := h.of_consult
  obtain ⟨_, h⟩ := h.of_consult
  rcases h.of_operand with hvalue | ⟨_, h⟩
  · exact hvalue
  cases h.of_require.of_require

theorem eq_of_asks_choiceInquiry {cond yes no : NodeId}
    (h : (choiceInquiry cond yes no).Asks subject) :
    subject = .expr cond ∨ subject = .expr yes ∨ subject = .expr no := by
  rcases asks_ask_iff.mp h with hcond | ⟨_, h⟩
  · exact .inl hcond
  rcases asks_ask_iff.mp h.of_require with hyes | ⟨_, h⟩
  · exact .inr (.inl hyes)
  rcases asks_ask_iff.mp h with hno | ⟨_, h⟩
  · exact .inr (.inr hno)
  cases h.of_require

theorem eq_of_asks_castInquiry {target : Ty} {value : NodeId}
    (h : (castInquiry target value).Asks subject) : subject = .expr value := by
  rcases asks_ask_iff.mp h with hvalue | ⟨_, h⟩
  · exact hvalue
  cases h.of_require

/-- A call of an operation is typed by one of its arguments if by anything. -/
theorem exists_of_asks_operationInquiry {call : Node} {name : String}
    (h : (T.operationInquiry call name).Asks subject) :
    ∃ argument ∈ call.children, subject = .expr argument := by
  obtain ⟨type, h⟩ := h.of_consult
  split at h
  · split at h
    · next argument hargument =>
      obtain ⟨i, -, hi⟩ := Option.bind_eq_some_iff.mp hargument
      rcases asks_ask_iff.mp h with hsubject | ⟨_, h⟩
      · exact ⟨argument, List.mem_of_getElem? hi, hsubject⟩
      · cases h
    · cases h
  · cases h

theorem cases_of_asks_callInquiry {call : Node} {name : String}
    (h : (T.callInquiry call name).Asks subject) :
    (∃ f, T.code.scopes.binding? call.scope name = some (.resolved f) ∧ subject = .function f) ∨
      ∃ argument ∈ call.children, subject = .expr argument := by
  unfold callInquiry at h
  split at h
  · next f hname =>
    rcases asks_ask_iff.mp h with hsubject | ⟨_, h⟩
    · exact .inl ⟨f, hname, hsubject⟩
    · cases h
  · cases h
  · cases h
  · exact .inr (exists_of_asks_operationInquiry h.of_require)

/-- The inquiry into an expression asks for expressions that it is linked to, and for the
function that it is a call of. -/
theorem asks_formInquiry (h : (T.formInquiry x (T.code.form x)).Asks subject) :
    (∃ y, subject = .expr y ∧ T.code.Link x y) ∨
      ∃ f, subject = .function f ∧ T.code.Calls x f := by
  have hoperand : ∀ y ∈ (T.code.form x).operands, T.code.Link x y := fun y hy => .inl hy
  cases hform : T.code.form x <;> rw [hform] at h hoperand <;>
    simp only [Form.operands, List.mem_cons, List.not_mem_nil, or_false, forall_eq_or_imp,
      forall_eq] at hoperand
  case ident name => exact (not_asks_identInquiry _ _ h).elim
  case binary op lhs rhs =>
    rcases eq_of_asks_binaryInquiry h with rfl | rfl
    · exact .inl ⟨lhs, rfl, hoperand.1⟩
    · exact .inl ⟨rhs, rfl, hoperand.2⟩
  case group value =>
    rcases asks_ask_iff.mp h with rfl | ⟨_, h⟩
    · exact .inl ⟨value, rfl, hoperand⟩
    · cases h
  case unary op value =>
    obtain rfl := eq_of_asks_unaryInquiry h
    exact .inl ⟨value, rfl, hoperand⟩
  case choice cond yes no =>
    rcases eq_of_asks_choiceInquiry h with rfl | rfl | rfl
    · exact .inl ⟨cond, rfl, hoperand.1⟩
    · exact .inl ⟨yes, rfl, hoperand.2.1⟩
    · exact .inl ⟨no, rfl, hoperand.2.2⟩
  case cast target value =>
    obtain rfl := eq_of_asks_castInquiry h
    exact .inl ⟨value, rfl, hoperand⟩
  case call name =>
    rcases cases_of_asks_callInquiry h with ⟨f, hname, rfl⟩ | ⟨argument, hargument, rfl⟩
    · exact .inr ⟨f, rfl, name, hform, hname⟩
    · exact .inl ⟨argument, rfl, .inr hargument⟩
  case runtimeField op field indices =>
    obtain ⟨_, h⟩ := h.of_consult
    cases h
  case runtimeArg op number =>
    obtain ⟨_, h⟩ := h.of_consult
    cases h
  all_goals cases h

/-- The inquiry into the exits of statements asks for these. -/
theorem exit?_of_asks {sofar : Ty} {stmts : List NodeId}
    (h : (T.exitsInquiry sofar stmts).Asks subject) :
    ∃ stmt ∈ stmts, T.code.exit? stmt = some subject := by
  induction stmts generalizing sofar with
  | nil => cases h
  | cons stmt rest ih =>
    have hlater : ∀ type, (require (¬sofar.clashes type)
        (T.exitsInquiry (if type.isKnown then type else sofar) rest)).Asks subject →
        ∃ other ∈ stmt :: rest, T.code.exit? other = some subject := fun type h =>
      (ih h.of_require).imp fun other hother => ⟨List.mem_cons_of_mem _ hother.1, hother.2⟩
    have hask : ∀ other, T.code.exit? stmt = some other → (ask other fun type =>
        require (¬sofar.clashes type)
          (T.exitsInquiry (if type.isKnown then type else sofar) rest)).Asks subject →
        ∃ other ∈ stmt :: rest, T.code.exit? other = some subject := by
      intro other hexit h
      rcases asks_ask_iff.mp h with rfl | ⟨type, h⟩
      · exact ⟨stmt, List.mem_cons_self, hexit⟩
      · exact hlater type h
    unfold exitsInquiry exitInquiry at h
    unfold CompilationUnit.exit? at hask
    cases hform : T.code.form stmt <;> rw [hform] at h hask
    case ret value definition =>
      cases value with
      | some value => exact hask _ rfl h
      | none => exact hlater _ h
    case branch | block => exact hask _ rfl h
    all_goals exact hlater _ h

/-- They are the values of statements and their children. -/
theorem asks_exitsInquiry {sofar : Ty} {stmts : List NodeId}
    (h : (T.exitsInquiry sofar stmts).Asks subject) :
    ∃ stmt ∈ stmts, ¬T.code.IsDefinition stmt ∧
      (subject = .body stmt ∨ ∃ y, subject = .expr y ∧ T.code.Link stmt y) :=
  (exit?_of_asks h).imp fun _ hstmt => ⟨hstmt.1, CompilationUnit.cases_of_exit? hstmt.2⟩

/-- **What is asked for is raised** by what is inquired into. -/
theorem raises_of_asks_form (h : (T.formInquiry x (T.code.form x)).Asks subject) :
    Subject.Raises T.code (.expr x) subject := by
  have hx : ¬T.code.IsDefinition x := by
    rintro ⟨name, params, inlined, hform⟩
    rw [hform] at h
    cases h
  rcases asks_formInquiry h with ⟨y, rfl, hlink⟩ | ⟨f, rfl, hcalls⟩
  · exact .operand hx hlink
  · exact .callee hcalls

end Asks

end Typing

end ContractLang
