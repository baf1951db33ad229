import ContractLang.Proofs.Typing.Plain

/-!
# Well-typed programs

What the statement pass decides, without reference to how. An expression is in order
(`ContractLang.Typing.ExpressionOk`) if all its parts have a type and no argument of an
operation clashes with the signature; a statement
(`ContractLang.Typing.StatementOk`) if its expressions are and the types that they have
suit the place where they are used. Statements nest inside programs, functions, blocks,
conditional statements and loops, and a well-typed one
(`ContractLang.Typing.WellTyped`) has nothing but well-formed statements inside.

All types are those found without a memory.
-/

namespace ContractLang

namespace CompilationUnit

variable (code : CompilationUnit)

/-- The nodes that make up an expression: the arguments of a call, and the operands of any
other form. -/
def parts (x : NodeId) : List NodeId :=
  match code.form x with
  | .call _ => code.children x
  | form => form.operands

/-- A node is a part of another one. -/
def Part (x y : NodeId) : Prop :=
  y ∈ code.parts x

/-- The statements that make up a statement: the children of programs, functions, blocks,
conditional statements and loops. -/
def body (x : NodeId) : List NodeId :=
  match code.form x with
  | .program | .function .. | .block | .branch _ | .loop _ => code.children x
  | _ => []

/-- A statement stands directly inside another one. -/
def Nested (x y : NodeId) : Prop :=
  y ∈ code.body x

variable {code} {x y : NodeId} {name : String}

theorem parts_of_call (h : code.form x = .call name) : code.parts x = code.children x := by
  unfold parts
  rw [h]

theorem parts_of_not_call (h : ∀ name, code.form x ≠ .call name) :
    code.parts x = (code.form x).operands := by
  unfold parts
  split
  · next name hform => exact absurd hform (h name)
  · rfl

/-- Operands are parts: calls have none. -/
theorem mem_parts_of_mem_operands (h : y ∈ (code.form x).operands) : y ∈ code.parts x := by
  unfold parts
  split
  · next name hform => simp [hform, Form.operands] at h
  · exact h

/-- Parts of an expression are linked to it. -/
theorem link_of_mem_parts (h : y ∈ code.parts x) : code.Link x y := by
  unfold parts at h
  split at h
  · exact .inr h
  · exact .inl h

/-- Statements in another statement are linked to it. -/
theorem link_of_mem_body (h : y ∈ code.body x) : code.Link x y := by
  unfold body at h
  split at h
  all_goals first
    | exact .inr h
    | exact absurd h List.not_mem_nil

end CompilationUnit

namespace Typing

open Relation

variable (T : Typing)

/-! ### Expressions -/

/-- The arguments of an operation are in order: the signature has an entry for each of them,
and none clashes with it. The arguments of a function may be anything. -/
def ArgumentsOk (x : NodeId) : Prop :=
  ∀ name, T.code.form x = .call name →
    T.code.scopes.binding? (T.code.node x).scope name = none →
      ∀ position argument, (T.code.children x)[position]? = some argument →
        ∃ expected received, T.spec.argumentType name position = .ok expected ∧
          T.type argument = .ok received ∧ ¬expected.clashes received

/-- An expression is in order: every node that it is made of has a type, and the arguments
of every operation in it are in order. -/
def ExpressionOk (x : NodeId) : Prop :=
  ∀ y, ReflTransGen T.code.Part x y → (∃ type, T.type y = .ok type) ∧ T.ArgumentsOk y

/-! ### Several values -/

/-- An expression gives several values of the types in `types`: it is a call of an operation
with so many results, the first unknown one of which has the type of the call. -/
def GivesValues (value : NodeId) (count : Nat) (types : List Ty) : Prop :=
  ∃ name type slots, T.code.form value = .call name ∧
    T.code.scopes.binding? (T.code.node value).scope name = none ∧
    T.type value = .ok type ∧ T.spec.resultTypes name count = .ok slots ∧
    types = Context.fillUnknown type slots

/-- An assignment gives its targets values of the types in `types`, in the order of the
targets. The results of a wide division come the other way round. -/
def GivesTargets (value : NodeId) : Targets → List Ty → Prop
  | .single _, types => ∃ type, T.type value = .ok type ∧ types = [type]
  | .pair .., types => T.GivesValues value 2 types
  | .quadruple .., types => T.GivesValues value 4 types.reverse

/-! ### Statements -/

/-- A name that is assigned to is declared, with a type that the value does not clash
with. -/
def TargetOk (scope : ScopeId) (name : String) (type : Ty) : Prop :=
  ∃ d, T.code.scopes.find? scope name = some d ∧ ¬d.type.clashes type

/-- A statement is in order, apart from those inside it. -/
def StatementOk (x : NodeId) : Prop :=
  match T.code.form x with
  | .program | .block => True
  | .function name _ _ =>
    T.code.alwaysReturns x ∧ ∃ type, T.returnType x = .ok type ∧
      ∀ d, T.code.scopes.find? (T.code.node x).scope name = some d → ¬d.type.clashes type
  | .ret (some value) _ | .breakLoop (some value) => T.ExpressionOk value
  | .ret none _ | .breakLoop none => True
  | .abort | .innerBegin | .innerSubmit | .const .. => True
  | .innerField field value =>
    T.ExpressionOk value ∧ ∃ expected received,
      T.spec.fieldType Context.innerFieldOp field = .ok expected ∧
        T.type value = .ok received ∧ (received.isKnown → received = expected)
  | .assign targets value | .declare targets value =>
    T.ExpressionOk value ∧ ∃ types, T.GivesTargets value targets types ∧
      ∀ target ∈ targets.names.zip types, T.TargetOk (T.code.node x).scope target.1 target.2
  | .branch cond | .loop cond => T.ExpressionOk cond ∧ T.type cond = .ok .uint64
  | _ => T.ExpressionOk x

/-- **A statement is well typed**: it and all statements inside it are in order. -/
def StatementsOk (x : NodeId) : Prop :=
  ∀ y, ReflTransGen T.code.Nested x y → T.StatementOk y

/-- **A program is well typed**: all that stands in it is. -/
def WellTyped (program : NodeId) : Prop :=
  ∀ x ∈ T.code.children program, T.StatementsOk x

end Typing

end ContractLang
