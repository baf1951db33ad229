import ContractLang.Operation.Standard
import ContractLang.Proofs.Typing.Compose

/-!
# Where an error comes from

If an expression in which no function is called cannot be typed, then a rule has raised an error
somewhere in it (`ContractLang.Typing.Raises`), and the error that is reported shows where
(`ContractLang.Checker.localised_of_error`). There is a path down to the node in question
(`ContractLang.Typing.Blames`). On the way back up, every operator wraps the error and names the
operand it came from, outermost operator first (`ContractLang.CompilationUnit.causeAlong`), and no
other expression does. The error is reported at the nearest node on the path that has a position
(`ContractLang.CompilationUnit.placeAlong`).

The place is another one where the error has a position of its own, which only an answer of the
specification can have, and an operand of the invalid type is named by the operator, which is
where the error is reported (`ContractLang.Checker.misplaced`).
-/

namespace ContractLang

open Check Relation

/-! ### Paths -/

/-- The form is that of an operator, which names its operands in errors. -/
def Form.isOperator : Form → Bool
  | .binary .. | .unary .. => true
  | _ => false

namespace CompilationUnit

variable (code : CompilationUnit)

/-- The cause that is reported at the beginning of a path for one at its end: every step from an
operator to an operand wraps it once. -/
def causeAlong : (x : NodeId) → (path : List NodeId) → Cause → Cause
  | _, [], cause => cause
  | x, y :: path, cause =>
    if (code.form x).isOperator then
      .invalidOperand (code.render y) (causeAlong y path cause)
    else
      causeAlong y path cause

/-- The position of the nearest node that has one, from the end of a path back to its beginning. -/
def placeAlong (x : NodeId) (path : List NodeId) : Option Position :=
  (x :: path).reverse.findSome? fun y => (code.node y).position

/-- The error that is reported at the beginning of a path for one at its end: the cause is wrapped,
and the place is the nearest one, unless the error has a place already. -/
def errorAlong (x : NodeId) (path : List NodeId) (core : Error) : Error :=
  ⟨code.causeAlong x path core.cause, core.position.or (code.placeAlong x path)⟩

variable {code} {x y : NodeId} {path : List NodeId}

theorem placeAlong_nil : code.placeAlong x [] = (code.node x).position := by
  cases h : (code.node x).position <;> simp [placeAlong, h]

theorem placeAlong_cons :
    code.placeAlong x (y :: path) = (code.placeAlong y path).or (code.node x).position := by
  unfold placeAlong
  rw [List.reverse_cons, List.findSome?_append]
  congr 1
  cases h : (code.node x).position <;> simp [h]

end CompilationUnit

/-- An error is what a specification answers. -/
def OpSpec.Answers (spec : OpSpec) (e : Error) : Prop :=
  (∃ op i, spec.resultType op i = .error e) ∨ (∃ op i, spec.argumentType op i = .error e) ∨
    ∃ op field, spec.fieldType op field = .error e

/-- An error about the type of a call has been the answer to a question about it. -/
theorem OpSpec.answers_of_declaredType {spec : OpSpec} {op : String} {field : Option String}
    {e : Error} (h : spec.declaredType op field = .error e) : spec.Answers e := by
  unfold declaredType at h
  split at h
  · exact .inr (.inr ⟨op, _, h⟩)
  · split at h
    · cases h
    · next hresult =>
      split at h
      · cases h
      · cases h
        exact .inl ⟨op, 0, hresult⟩

namespace Typing

variable {α β : Type} (T : Typing) (types : NodeId → Except Halt Ty)

/-! ### Rules that fail -/

/-- What the rule for a node asks the specification before it turns to the parts. -/
def signature (x : NodeId) : Except Error (List Ty) :=
  match T.code.form x with
  | .binary op _ _ => do
    let result ← T.spec.resultType op 0
    let left ← T.spec.argumentType op 0
    let right ← T.spec.argumentType op 1
    return [result, left, right]
  | .unary op _ => do
    let result ← T.spec.resultType op 0
    let expected ← T.spec.argumentType op 0
    return [result, expected]
  | .call name =>
    if T.spec.isBuiltin name then
      return [← T.spec.declaredType name (T.code.node x).field]
    else
      return []
  | .runtimeField op field _ => return [← T.spec.fieldType op field]
  | .runtimeArg op _ => return [← T.spec.resultType op 0]
  | _ => return []

/-- The parts whose types the type of a node is made of: the operands, or the argument that gives a
call its type. -/
def sources (x : NodeId) : List NodeId :=
  match T.code.form x with
  | .call name => (T.spec.dependentOn? name (T.code.children x)).toList
  | form => form.operands

/-- The rule for a node raises an error itself, given the types of the parts. -/
inductive Raises : NodeId → Error → Prop
  /-- The specification has no answer. -/
  | unspecified {x : NodeId} {e : Error} (h : T.signature x = .error e) : Raises x e
  /-- A name does not stand for a value. -/
  | name {x : NodeId} {name : String} {e : Error} (hform : T.code.form x = .ident name)
    (h : T.identType (T.code.node x).scope name = .error (.fault e)) : Raises x e
  /-- An operand has the invalid type. -/
  | operand {x y : NodeId} (hform : (T.code.form x).isOperator) (hy : y ∈ T.sources x)
    (h : types y = .ok .invalid) : Raises x (T.operandInvalid y)
  /-- The left operand has another type than expected. -/
  | left {x lhs rhs : NodeId} {op : String} {result left right a : Ty}
    (hform : T.code.form x = .binary op lhs rhs)
    (hsignature : T.signature x = .ok [result, left, right]) (hlhs : types lhs = .ok a)
    (h : left.isKnown ∧ left ≠ a) : Raises x (T.operandMismatch x "left" left a)
  /-- The right operand has another type than expected. -/
  | right {x lhs rhs : NodeId} {op : String} {result left right b : Ty}
    (hform : T.code.form x = .binary op lhs rhs)
    (hsignature : T.signature x = .ok [result, left, right]) (hrhs : types rhs = .ok b)
    (h : right.isKnown ∧ right ≠ b) : Raises x (T.operandMismatch x "right" right b)
  /-- The operands have different types. -/
  | operands {x lhs rhs : NodeId} {op : String} {a b : Ty}
    (hform : T.code.form x = .binary op lhs rhs) (hlhs : types lhs = .ok a)
    (hrhs : types rhs = .ok b) (h : a ≠ b) : Raises x (T.mismatch x a b)
  /-- The only operand has another type than expected. -/
  | argument {x y : NodeId} {op : String} {result expected a : Ty}
    (hform : T.code.form x = .unary op y) (hsignature : T.signature x = .ok [result, expected])
    (hy : types y = .ok a) (h : expected.isKnown ∧ expected ≠ a) :
    Raises x (T.mismatch x expected a)
  /-- The only operand has another type than the result. -/
  | result {x y : NodeId} {op : String} {result expected a : Ty}
    (hform : T.code.form x = .unary op y) (hsignature : T.signature x = .ok [result, expected])
    (hy : types y = .ok a) (h : result ≠ a) : Raises x (T.mismatch x result a)
  /-- The values to choose from have different types. -/
  | branches {x cond yes no : NodeId} {a b : Ty} (hform : T.code.form x = .choice cond yes no)
    (hyes : types yes = .ok a) (hno : types no = .ok b) (h : a ≠ b) :
    Raises x (.unplaced (.branchMismatch a.name b.name))
  /-- The value that is cast has a type, which is another one. -/
  | cast {x y : NodeId} {target a : Ty} (hform : T.code.form x = .cast target y)
    (hy : types y = .ok a) (h : a ≠ .unknown ∧ a ≠ target) :
    Raises x (.unplaced (.castFailed a.name target.name))
  /-- What is called is no operation. -/
  | callee {x : NodeId} {name : String} (hform : T.code.form x = .call name)
    (h : ¬T.spec.isBuiltin name) : Raises x (.unplaced (.functionLookupFailed name))
  /-- The node is no expression. -/
  | form {x : NodeId} (h : ¬(T.code.form x).isExpression) :
    Raises x (.unplaced (.notAnExpression (T.code.form x).label))

/-- The type of a node cannot be found because of an error that is raised at the end of a path from
there, along nodes that cannot be typed either. A condition of the wrong type is at fault itself,
and not the choice that depends on it. -/
inductive Blames : (x : NodeId) → (path : List NodeId) → (core : Error) → Prop
  | own {x : NodeId} {core : Error} (h : T.Raises types x core) : Blames x [] core
  | condition {x cond yes no : NodeId} {received : Ty} (hform : T.code.form x = .choice cond yes no)
    (hcond : types cond = .ok received) (h : received ≠ .uint64) :
    Blames x [cond] (.unplaced (.conditionType received.name))
  | part {x y : NodeId} {path : List NodeId} {core : Error} {halt : Halt} (hy : y ∈ T.sources x)
    (hanswer : types y = .error halt) (h : Blames y path core) : Blames x (y :: path) core

variable {T types} {x y : NodeId}

/-! ### Failing -/

/-- A sequence that fails does so in its first part, or after it. -/
theorem bind_eq_error {ε : Type} {r : Except ε α} {f : α → Except ε β} {e : ε}
    (h : (r >>= f) = .error e) : r = .error e ∨ ∃ a, r = .ok a ∧ f a = .error e := by
  cases r with
  | ok a => exact .inr ⟨a, rfl, h⟩
  | error e' =>
    cases h
    exact .inl rfl

/-- A sequence that gives an answer goes through both parts. -/
theorem bind_eq_ok {ε : Type} {r : Except ε α} {f : α → Except ε β} {b : β}
    (h : (r >>= f) = .ok b) : ∃ a, r = .ok a ∧ f a = .ok b := by
  cases r with
  | ok a => exact ⟨a, rfl, h⟩
  | error e => cases h

theorem lift_eq_error {answer : Except Error α} {halt : Halt} (h : lift answer = .error halt) :
    ∃ e, answer = .error e ∧ halt = .fault e := by
  cases answer with
  | ok a => cases h
  | error e => exact ⟨e, rfl, (Except.error.inj h).symm⟩

theorem lift_eq_ok {answer : Except Error α} {a : α} (h : lift answer = .ok a) :
    answer = .ok a := by
  cases answer with
  | ok a' => exact congrArg Except.ok (Except.ok.inj h)
  | error e => cases h

theorem rejectIf_eq_error {bad : Prop} [Decidable bad] {e : Error} {halt : Halt}
    (h : rejectIf bad e = .error halt) : bad ∧ halt = .fault e := by
  unfold rejectIf at h
  split at h
  · next hbad => exact ⟨hbad, (Except.error.inj h).symm⟩
  · cases h

theorem mapFault_eq_ok {f : Error → Error} {r : Except Halt α} {a : α}
    (h : mapFault f r = .ok a) : r = .ok a := by
  match r with
  | .ok a' => exact h
  | .error (.fault e) | .error .outOfDepth => cases h

theorem mapFault_eq_error {f : Error → Error} {r : Except Halt α} {halt : Halt}
    (h : mapFault f r = .error halt) :
    ∃ halt', r = .error halt' ∧ ∀ e, halt' = .fault e → halt = .fault (f e) := by
  match r with
  | .error (.fault e) =>
    refine ⟨_, rfl, fun e' he => ?_⟩
    cases he
    exact (Except.error.inj h).symm
  | .error .outOfDepth => exact ⟨_, rfl, nofun⟩

theorem identType_eq_error {scope : ScopeId} {name : String} {halt : Halt}
    (h : T.identType scope name = .error halt) :
    ∃ reason, halt = .fault (.unplaced (.identLookupFailed name reason)) := by
  unfold identType at h
  split at h
  · exact ⟨_, (Except.error.inj h).symm⟩
  · split at h
    · exact ⟨_, (Except.error.inj h).symm⟩
    · cases h

/-! ### The errors of a rule -/

theorem answers_of_bind {answer : Except Error α} {f : α → Except Error β} {e : Error}
    (h : (answer >>= f) = .error e) (hfirst : answer = .error e → T.spec.Answers e)
    (hnext : ∀ a, f a = .error e → T.spec.Answers e) : T.spec.Answers e :=
  (bind_eq_error h).elim hfirst fun ⟨a, _, ha⟩ => hnext a ha

/-- What keeps the rule for a node from turning to the parts is what the specification answered. -/
theorem answers_of_signature {e : Error} (h : T.signature x = .error e) : T.spec.Answers e := by
  have hresult : ∀ op i, T.spec.resultType op i = .error e → T.spec.Answers e :=
    fun op i h => .inl ⟨op, i, h⟩
  have hargument : ∀ op i, T.spec.argumentType op i = .error e → T.spec.Answers e :=
    fun op i h => .inr (.inl ⟨op, i, h⟩)
  unfold signature at h
  split at h
  · exact answers_of_bind h (hresult _ _) fun _ h => answers_of_bind h (hargument _ _)
      fun _ h => answers_of_bind h (hargument _ _) nofun
  · exact answers_of_bind h (hresult _ _) fun _ h => answers_of_bind h (hargument _ _) nofun
  · split at h
    · exact answers_of_bind h OpSpec.answers_of_declaredType nofun
    · cases h
  · exact answers_of_bind h (fun h => .inr (.inr ⟨_, _, h⟩)) nofun
  · exact answers_of_bind h (hresult _ _) nofun
  · cases h

/-- Only answers of the specification have a position of their own. -/
theorem Raises.position {core : Error} (h : T.Raises types x core) :
    core.position = none ∨ T.spec.Answers core := by
  cases h with
  | unspecified h => exact .inr (answers_of_signature h)
  | name hform h =>
    obtain ⟨reason, hreason⟩ := identType_eq_error h
    cases hreason
    exact .inl rfl
  | _ => exact .inl rfl

theorem Blames.position {path : List NodeId} {core : Error} (h : T.Blames types x path core) :
    core.position = none ∨ T.spec.Answers core := by
  induction h with
  | own h => exact h.position
  | condition => exact .inl rfl
  | part _ _ _ ih => exact ih

variable (T) in
/-- What becomes of the answer about a part: an operator names the operand in an error. -/
def passOn (x y : NodeId) : Except Halt Ty → Except Halt Ty :=
  if (T.code.form x).isOperator then mapFault (T.operandFault y) else id

variable (T types) in
/-- The rule for a node fails, before the error is given a place. -/
inductive Fails (x : NodeId) : Halt → Prop
  | own {core : Error} (h : T.Raises types x core) : Fails x (.fault core)
  | condition {cond yes no : NodeId} {received : Ty} (hform : T.code.form x = .choice cond yes no)
    (hcond : types cond = .ok received) (h : received ≠ .uint64) :
    Fails x (.fault ⟨.conditionType received.name, (T.code.node cond).position⟩)
  | part {y : NodeId} {halt : Halt} (hy : y ∈ T.sources x)
    (h : T.passOn x y (types y) = .error halt) : Fails x halt

section Rules

variable {R : List NodeId} {halt : Halt}

theorem mem_sources_of_mem_operands (hy : y ∈ (T.code.form x).operands) : y ∈ T.sources x := by
  unfold sources
  split
  · next name hform => simp [hform, Form.operands] at hy
  · exact hy

theorem part_of_mem_sources (hy : y ∈ T.sources x) : T.code.Part x y := by
  unfold sources at hy
  split at hy
  · next name hform =>
    rw [Option.mem_toList] at hy
    obtain ⟨i, -, hi⟩ := Option.bind_eq_some_iff.mp hy
    rw [CompilationUnit.Part, CompilationUnit.parts_of_call hform]
    exact List.mem_of_getElem? hi
  · exact CompilationUnit.mem_parts_of_mem_operands hy

/-- A rule fails itself where the specification has no answer. -/
theorem fails_of_lift {answer : Except Error α}
    (hsignature : ∀ e, answer = .error e → T.signature x = .error e)
    (h : lift answer = .error halt) : T.Fails types x halt := by
  obtain ⟨e, he, rfl⟩ := lift_eq_error h
  exact .own (.unspecified (hsignature e he))

/-- An operand that cannot be typed makes an operator fail. -/
theorem fails_of_operandType (hform : (T.code.form x).isOperator)
    (hy : y ∈ (T.code.form x).operands)
    (h : T.operandType (.ofTypes types) R y = .error halt) : T.Fails types x halt := by
  have hsource := mem_sources_of_mem_operands hy
  rcases bind_eq_error h with h | ⟨type, htype, h⟩
  · refine .part hsource ?_
    unfold passOn
    rwa [if_pos hform]
  · rcases bind_eq_error h with h | ⟨_, -, h⟩
    · obtain ⟨rfl, rfl⟩ := rejectIf_eq_error h
      exact .own (.operand hform hsource (mapFault_eq_ok htype))
    · cases h

theorem operandType_eq_ok {a : Ty} (h : T.operandType (.ofTypes types) R y = .ok a) :
    types y = .ok a := by
  obtain ⟨type, htype, h⟩ := bind_eq_ok h
  obtain ⟨_, -, h⟩ := bind_eq_ok h
  cases h
  exact mapFault_eq_ok htype

theorem fails_of_binaryType {op : String} {lhs rhs : NodeId}
    (hform : T.code.form x = .binary op lhs rhs)
    (h : T.binaryType (.ofTypes types) R x op lhs rhs = .error halt) : T.Fails types x halt := by
  have hoperator : (T.code.form x).isOperator := by rw [hform]; rfl
  have hmem : ∀ y, y = lhs ∨ y = rhs → y ∈ (T.code.form x).operands := fun y hy => by
    rw [hform]
    simpa [Form.operands] using hy
  have hsignature : T.signature x = (do
      let result ← T.spec.resultType op 0
      let left ← T.spec.argumentType op 0
      let right ← T.spec.argumentType op 1
      return [result, left, right]) := by
    unfold signature
    rw [hform]
  unfold binaryType at h
  rcases bind_eq_error h with h | ⟨result, hresult, h⟩
  · exact fails_of_lift (fun e he => by rw [hsignature, he]; rfl) h
  rw [lift_eq_ok hresult] at hsignature
  rcases bind_eq_error h with h | ⟨left, hleft, h⟩
  · exact fails_of_lift (fun e he => by rw [hsignature, he]; rfl) h
  rw [lift_eq_ok hleft] at hsignature
  rcases bind_eq_error h with h | ⟨right, hright, h⟩
  · exact fails_of_lift (fun e he => by rw [hsignature, he]; rfl) h
  rw [lift_eq_ok hright] at hsignature
  rcases bind_eq_error h with h | ⟨a, hlhs, h⟩
  · exact fails_of_operandType hoperator (hmem lhs (.inl rfl)) h
  rcases bind_eq_error h with h | ⟨b, hrhs, h⟩
  · exact fails_of_operandType hoperator (hmem rhs (.inr rfl)) h
  have hlhs := operandType_eq_ok hlhs
  have hrhs := operandType_eq_ok hrhs
  rcases bind_eq_error h with h | ⟨_, -, h⟩
  · obtain ⟨hbad, rfl⟩ := rejectIf_eq_error h
    exact .own (.left hform hsignature hlhs hbad)
  rcases bind_eq_error h with h | ⟨_, -, h⟩
  · obtain ⟨hbad, rfl⟩ := rejectIf_eq_error h
    exact .own (.right hform hsignature hrhs hbad)
  rcases bind_eq_error h with h | ⟨_, -, h⟩
  · obtain ⟨hbad, rfl⟩ := rejectIf_eq_error h
    exact .own (.operands hform hlhs hrhs hbad)
  · cases h

theorem fails_of_unaryType {op : String} (hform : T.code.form x = .unary op y)
    (h : T.unaryType (.ofTypes types) R x op y = .error halt) : T.Fails types x halt := by
  have hsignature : T.signature x = (do
      let result ← T.spec.resultType op 0
      let expected ← T.spec.argumentType op 0
      return [result, expected]) := by
    unfold signature
    rw [hform]
  unfold unaryType at h
  rcases bind_eq_error h with h | ⟨result, hresult, h⟩
  · exact fails_of_lift (fun e he => by rw [hsignature, he]; rfl) h
  rw [lift_eq_ok hresult] at hsignature
  rcases bind_eq_error h with h | ⟨expected, hexpected, h⟩
  · exact fails_of_lift (fun e he => by rw [hsignature, he]; rfl) h
  rw [lift_eq_ok hexpected] at hsignature
  rcases bind_eq_error h with h | ⟨a, hy, h⟩
  · refine fails_of_operandType (by rw [hform]; rfl) ?_ h
    rw [hform]
    exact List.mem_singleton_self y
  have hy := operandType_eq_ok hy
  rcases bind_eq_error h with h | ⟨_, -, h⟩
  · obtain ⟨hbad, rfl⟩ := rejectIf_eq_error h
    exact .own (.argument hform hsignature hy hbad)
  rcases bind_eq_error h with h | ⟨_, -, h⟩
  · obtain ⟨hbad, rfl⟩ := rejectIf_eq_error h
    exact .own (.result hform hsignature hy hbad)
  · cases h

/-- An error of a part of an expression that is no operator is the error of the expression. -/
theorem fails_of_part (hform : ¬(T.code.form x).isOperator) (hy : y ∈ T.sources x)
    (h : types y = .error halt) : T.Fails types x halt := by
  refine .part hy ?_
  unfold passOn
  rwa [if_neg hform]

theorem fails_of_choiceType {cond yes no : NodeId} (hform : T.code.form x = .choice cond yes no)
    (h : T.choiceType (.ofTypes types) R cond yes no = .error halt) : T.Fails types x halt := by
  have hpart : ∀ y, y = cond ∨ y = yes ∨ y = no → types y = .error halt → T.Fails types x halt := by
    intro y hy
    refine fails_of_part (by rw [hform]; nofun) (mem_sources_of_mem_operands ?_)
    rw [hform]
    simpa [Form.operands] using hy
  unfold choiceType at h
  rcases bind_eq_error h with h | ⟨_, -, h⟩
  · rcases bind_eq_error h with h | ⟨received, hcond, h⟩
    · exact hpart cond (.inl rfl) h
    · obtain ⟨hbad, rfl⟩ := rejectIf_eq_error h
      exact .condition hform hcond hbad
  rcases bind_eq_error h with h | ⟨a, hyes, h⟩
  · exact hpart yes (.inr (.inl rfl)) h
  rcases bind_eq_error h with h | ⟨b, hno, h⟩
  · exact hpart no (.inr (.inr rfl)) h
  rcases bind_eq_error h with h | ⟨_, -, h⟩
  · obtain ⟨hbad, rfl⟩ := rejectIf_eq_error h
    exact .own (.branches hform hyes hno hbad)
  · cases h

theorem fails_of_castType {target : Ty} (hform : T.code.form x = .cast target y)
    (h : castType (.ofTypes types) R target y = .error halt) : T.Fails types x halt := by
  unfold castType at h
  rcases bind_eq_error h with h | ⟨a, hy, h⟩
  · refine fails_of_part (by rw [hform]; nofun) (mem_sources_of_mem_operands ?_) h
    rw [hform]
    exact List.mem_singleton_self y
  rcases bind_eq_error h with h | ⟨_, -, h⟩
  · obtain ⟨hbad, rfl⟩ := rejectIf_eq_error h
    exact .own (.cast hform hy hbad)
  · cases h

theorem fails_of_callType {name : String} (hform : T.code.form x = .call name)
    (hname : T.code.scopes.binding? (T.code.node x).scope name = none)
    (h : T.callType (.ofTypes types) R (T.code.node x) name = .error halt) :
    T.Fails types x halt := by
  unfold callType at h
  rw [hname] at h
  dsimp only at h
  split at h
  · next hbuiltin =>
    rcases bind_eq_error h with h | ⟨type, htype, h⟩
    · refine fails_of_lift (fun e he => ?_) h
      unfold signature
      rw [hform]
      dsimp only
      rw [if_pos hbuiltin, he]
      rfl
    · split at h
      · split at h
        · next argument hargument =>
          refine fails_of_part (by rw [hform]; nofun) ?_ h
          unfold sources
          rw [hform]
          exact Option.mem_toList.mpr hargument
        · cases h
      · cases h
  · next hbuiltin =>
    cases h
    exact .own (.callee hform hbuiltin)

/-- **A rule that fails raises an error itself, or passes on that of a part.** -/
theorem fails_of_formType
    (hcall : ∀ name, T.code.form x = .call name →
      T.code.scopes.binding? (T.code.node x).scope name = none)
    (h : T.formType (.ofTypes types) R x (T.code.form x) = .error halt) : T.Fails types x halt := by
  have hnone : ¬(T.code.form x).isExpression →
      (raise (.notAnExpression (T.code.form x).label) : Except Halt Ty) = .error halt →
      T.Fails types x halt := by
    intro hx h
    cases h
    exact .own (.form hx)
  -- One case for each form; what is no expression comes last.
  cases hform : T.code.form x <;> rw [hform] at h hnone
  case literal | const => cases h
  case ident name =>
    obtain ⟨reason, rfl⟩ := identType_eq_error h
    exact .own (.name hform h)
  case binary op lhs rhs => exact fails_of_binaryType hform h
  case group value =>
    refine fails_of_part (by rw [hform]; nofun) (mem_sources_of_mem_operands ?_) h
    rw [hform]
    exact List.mem_singleton_self value
  case unary op value => exact fails_of_unaryType hform h
  case choice cond yes no => exact fails_of_choiceType hform h
  case cast target value => exact fails_of_castType hform h
  case call name => exact fails_of_callType hform (hcall name hform) h
  case runtimeField op field indices =>
    refine fails_of_lift (fun e he => ?_) h
    unfold signature
    rw [hform]
    dsimp only
    rw [he]
    rfl
  case runtimeArg op number =>
    refine fails_of_lift (fun e he => ?_) h
    unfold signature
    rw [hform]
    dsimp only
    rw [he]
    rfl
  all_goals exact hnone nofun h

end Rules

/-! ### The way back up -/

theorem passOn_eq_error {r : Except Halt Ty} {halt : Halt} (h : T.passOn x y r = .error halt) :
    ∃ halt', r = .error halt' := by
  unfold passOn at h
  split at h
  · obtain ⟨halt', hr, -⟩ := mapFault_eq_error h
    exact ⟨halt', hr⟩
  · exact ⟨halt, h⟩

/-- What an expression passes on of an error from the end of a path is that error as reported from
one step further up, but for the place. -/
theorem passOn_errorAlong (path : List NodeId) (core : Error) :
    T.passOn x y (.error (.fault (T.code.errorAlong y path core))) =
      .error (.fault ⟨T.code.causeAlong x (y :: path) core.cause,
        (T.code.errorAlong y path core).position⟩) := by
  unfold passOn CompilationUnit.errorAlong
  rw [CompilationUnit.causeAlong]
  split <;> rfl

/-- A rule that fails does so for the error at the end of a path if the parts do. -/
theorem Fails.blames {halt : Halt} (h : T.Fails types x halt)
    (hparts : ∀ y ∈ T.sources x, ∀ halt, types y = .error halt → ∃ path core,
      T.Blames types y path core ∧ halt = .fault (T.code.errorAlong y path core)) :
    ∃ path core e, T.Blames types x path core ∧ halt = .fault e ∧
      e.orPosition (T.code.node x).position = T.code.errorAlong x path core := by
  cases h with
  | own h =>
    refine ⟨[], _, _, .own h, rfl, ?_⟩
    unfold CompilationUnit.errorAlong
    rw [CompilationUnit.placeAlong_nil]
    rfl
  | condition hform hcond h =>
    refine ⟨_, _, _, .condition hform hcond h, rfl, ?_⟩
    unfold CompilationUnit.errorAlong
    rw [CompilationUnit.placeAlong_cons, CompilationUnit.placeAlong_nil,
      CompilationUnit.causeAlong, if_neg (by rw [hform]; nofun)]
    rfl
  | @part y _ hy h =>
    obtain ⟨halt', hanswer⟩ := passOn_eq_error h
    obtain ⟨path, core, hblames, rfl⟩ := hparts y hy halt' hanswer
    rw [hanswer, passOn_errorAlong] at h
    refine ⟨y :: path, core, _, .part hy hanswer hblames, (Except.error.inj h).symm, ?_⟩
    unfold CompilationUnit.errorAlong
    rw [CompilationUnit.placeAlong_cons, ← Option.or_assoc]
    rfl

end Typing

/-! ### Queries -/

namespace Checker

variable {σ : Type} (checker : Checker σ) {s : CheckState σ} {x : NodeId} {halt : Halt}

/-- An expression that cannot be typed reports the error from the end of a path. -/
theorem exists_blames (hcode : s.code.AcyclicFrom x) (hx : s.code.FreeOfFunctions x)
    (h : checker.typeIn s x = .error halt) :
    ∃ path core, (checker.typing s.code).Blames (checker.typeIn s) x path core ∧
      halt = .fault (s.code.errorAlong x path core) := by
  induction hn : s.code.rank x using Nat.strong_induction_on generalizing x halt with
  | h n ih =>
    subst hn
    have hunrecorded : ¬s.code.IsRecorded x := by
      intro hrecorded
      cases (checker.typeIn_of_isRecorded hrecorded).symm.trans h
    have hparts : ∀ y ∈ (checker.typing s.code).sources x, ∀ halt,
        checker.typeIn s y = .error halt → ∃ path core,
          (checker.typing s.code).Blames (checker.typeIn s) y path core ∧
            halt = .fault (s.code.errorAlong y path core) := by
      intro y hy halt hanswer
      have hpart := Typing.part_of_mem_sources hy
      have hlink := CompilationUnit.link_of_mem_parts hpart
      exact ih _ (hcode.rank_lt hlink) (hcode.tail hlink) (hx.of_part hpart) hanswer rfl
    rw [checker.typeIn_eq_typeRule hcode hx hunrecorded] at h
    obtain ⟨halt', hform, hplace⟩ := Typing.mapFault_eq_error h
    obtain ⟨path, core, e, hblames, rfl, he⟩ :=
      (Typing.fails_of_formType (hx x .refl) hform).blames hparts
    refine ⟨path, core, hblames, ?_⟩
    rw [hplace e rfl, he]
    rfl

/-- **Errors are localised.** If an expression in which no function is called cannot be typed, then
there is a path down to a node whose own rule raises an error. What is reported is that error, its
cause wrapped once for each step from an operator to an operand, at the nearest node on the path
that has a position. Only an answer of the specification can have a place of its own. -/
theorem localised_of_error (hcode : s.code.AcyclicFrom x) (hx : s.code.FreeOfFunctions x)
    (h : (checker.ask (.typeOf x) s).1 = .error halt) :
    ∃ path core, (checker.typing s.code).Blames (checker.typeIn s) x path core ∧
      halt = .fault ⟨s.code.causeAlong x path core.cause,
        core.position.or (s.code.placeAlong x path)⟩ ∧
      (core.position = none ∨ checker.spec.Answers core) := by
  obtain ⟨path, core, hblames, hhalt⟩ := checker.exists_blames hcode hx h
  exact ⟨path, core, hblames, hhalt, hblames.position⟩

end Checker

/-- A unit with a sum, one operand of which has a negated name in it that is not declared. -/
def CompilationUnit.nestedFault : CompilationUnit where
  nodes := #[.ofForm 0 (.literal .uint64 "1"), .ofForm 0 (.ident "missing"),
    { Node.ofForm 0 (.unary "!" 1) with position := Position.of? 9 "main.tl" },
    { Node.ofForm 0 (.call "setbit") with children := [2, 0, 0] },
    { Node.ofForm 0 (.group 3) with position := Position.of? 2 "main.tl" },
    .ofForm 0 (.binary "+" 0 4)]
  scopes := .initial "global"

theorem CompilationUnit.freeOfFunctions_nestedFault (x : NodeId) :
    nestedFault.FreeOfFunctions x := by
  intro y _ name hform
  have hlt : y < nestedFault.size := lt_size_of_form (by rw [hform]; nofun)
  have hy : y < 6 := hlt
  match y, hy with
  | 0, _ | 1, _ | 2, _ | 3, _ | 4, _ | 5, _ =>
    cases hform <;> rfl

/-- The sum names two operands around the fault, and is reported at the negation, which stands
nearest to it. -/
theorem Checker.localised_of_error_nestedFault :
    let checker : Checker Unit := ⟨Standard.spec, .strict, none⟩
    let s : CheckState Unit := ⟨.nestedFault, ()⟩
    let error : Error := ⟨.invalidOperand "(setbit(! ident missing, 1, 1))" (.invalidOperand
      "ident missing" (.identLookupFailed "missing" "ident 'missing' not defined")),
      Position.of? 9 "main.tl"⟩
    (checker.ask (.typeOf 5) s).1 = .error (.fault error) ∧
      ∃ path core, (checker.typing s.code).Blames (checker.typeIn s) 5 path core ∧
        .fault error = Halt.fault ⟨s.code.causeAlong 5 path core.cause,
          core.position.or (s.code.placeAlong 5 path)⟩ ∧
        (core.position = none ∨ checker.spec.Answers core) := by
  intro checker s error
  have hask : (checker.ask (.typeOf 5) s).1 = .error (.fault error) := rfl
  have hacyclic : s.code.Acyclic :=
    CompilationUnit.acyclic_of_lt (CompilationUnit.link_lt_of_forall (by decide))
  exact ⟨hask, checker.localised_of_error hacyclic.acyclicFrom
    (CompilationUnit.freeOfFunctions_nestedFault 5) hask⟩

/-- A specification that knows no operation, and says where it looked for it. -/
def OpSpec.placing : OpSpec where
  resultType op _ := .error ⟨.unknownOperation op, Position.of? 7 "ops.tl"⟩
  argumentType op _ := .error ⟨.unknownOperation op, Position.of? 7 "ops.tl"⟩
  fieldType op _ := .error ⟨.unknownOperation op, Position.of? 7 "ops.tl"⟩
  isBuiltin _ := false
  dependentArgument? _ := none

/-- A unit with an argument of the program, and a sum, one operand of which has the invalid type. -/
def CompilationUnit.placedFaults : CompilationUnit where
  nodes := #[{ Node.ofForm 0 (.runtimeArg "arg" "0") with position := Position.of? 2 "main.tl" },
    { Node.ofForm 0 (.literal .invalid "1") with position := Position.of? 3 "main.tl" },
    { Node.ofForm 0 (.binary "+" 1 1) with position := Position.of? 9 "main.tl" }]
  scopes := .initial "global"

/-- **Not every error is reported at the nearest node that has a position.** What the first
specification answers is reported where it says, and not at the end of any path to it. For the
operand of the invalid type, the cause is wrapped as for the step from the sum to the operand,
and yet it is reported at the sum and not at the operand. -/
theorem Checker.misplaced :
    let s : CheckState Unit := ⟨.placedFaults, ()⟩
    let placing : Checker Unit := ⟨.placing, .strict, none⟩
    let standard : Checker Unit := ⟨Standard.spec, .strict, none⟩
    s.code.Acyclic ∧ s.code.FreeOfFunctions 0 ∧ s.code.FreeOfFunctions 2 ∧
    (placing.ask (.typeOf 0) s).1 =
      .error (.fault ⟨.unknownOperation "arg", Position.of? 7 "ops.tl"⟩) ∧
    (∀ path core, (placing.typing s.code).Blames (placing.typeIn s) 0 path core →
      s.code.placeAlong 0 path ≠ Position.of? 7 "ops.tl") ∧
    (standard.ask (.typeOf 2) s).1 = .error (.fault ⟨s.code.causeAlong 2 [1]
      (.typeMismatch "a value" Ty.invalid.name "1"), Position.of? 9 "main.tl"⟩) ∧
    s.code.placeAlong 2 [1] = Position.of? 3 "main.tl" := by
  intro s placing standard
  have hfree : ∀ x, s.code.FreeOfFunctions x := by
    intro x y _ name hform
    have hlt : y < s.code.size := CompilationUnit.lt_size_of_form (by rw [hform]; nofun)
    rcases y with _ | _ | _ | y
    case succ.succ.succ => exact absurd hlt (Nat.not_lt.mpr (Nat.le_add_left 3 y))
    all_goals cases hform
  refine ⟨CompilationUnit.acyclic_of_lt (CompilationUnit.link_lt_of_forall (by decide)), hfree 0,
    hfree 2, rfl, fun path core hblames => ?_, rfl, by decide⟩
  cases hblames with
  | own => decide
  | condition hform => cases hform
  | part hy => cases hy

end ContractLang
