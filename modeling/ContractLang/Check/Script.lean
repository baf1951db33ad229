import ContractLang.Check.Judgement

/-!
# Scripts

The body of a function is supplied from outside, by a parser that builds nodes and
may consult the checker while it does. What such a parser does is a *script*: a
sequence of edits and queries, each step depending on the answers to the steps
before (`ContractLang.Script`). Being data, scripts can be quantified over and
restricted, and running one (`ContractLang.Script.run`) is a matter of answering
its queries.

A script sees every error it causes and decides itself how to go on. It can read
the whole state, but can change the unit by edits and queries only.
-/

namespace ContractLang

/-- A question put to the checker, answered by an `α`. -/
inductive Query : Type → Type where
  /-- The type of an expression. -/
  | typeOf (expr : NodeId) : Query Ty
  /-- The type of an expression all of whose calls are in order. -/
  | expression (expr : NodeId) : Query Ty
  /-- The statements of a program or of a block are in order. -/
  | statements (body : NodeId) : Query Unit
  /-- A function is in order; its return type. -/
  | function (definition : NodeId) : Query Ty
  /-- The arguments of a call of an operation are suitable. -/
  | arguments (call : NodeId) : Query Unit
  /-- The types of a value of double width. -/
  | pairTypes (call : NodeId) : Query (List Ty)
  /-- The types of the result of a wide division. -/
  | quadrupleTypes (call : NodeId) : Query (List Ty)
  /-- Qualify a call with a field; its type. -/
  | resolveField (call : NodeId) (field : String) : Query Ty
  /-- The common type of the exits of a body. -/
  | returnType (body : NodeId) : Query Ty

/-- A sequence of edits and queries that ends with an `α`, where `σ` is the type of the
notes it keeps. -/
inductive Script (σ : Type) : Type → Type 1 where
  /-- Nothing more to do. -/
  | done {α : Type} (value : α) : Script σ α
  /-- Carry out an edit. -/
  | edit {α β : Type} (edit : Edit β) (next : Except Error β → Script σ α) : Script σ α
  /-- Put a question to a checker with the given configuration. -/
  | query {α β : Type} (config : Config) (query : Query β)
    (next : Except Error β → Script σ α) : Script σ α
  /-- Look at the state. -/
  | read {α : Type} (next : CheckState σ → Script σ α) : Script σ α
  /-- Replace the notes. -/
  | write {α : Type} (notes : σ) (next : Script σ α) : Script σ α

namespace Script

variable {σ : Type}

/-- One script after the other. -/
def andThen {α β : Type} : Script σ α → (α → Script σ β) → Script σ β
  | done value, f => f value
  | edit e next, f => edit e fun answer => (next answer).andThen f
  | query config q next, f => query config q fun answer => (next answer).andThen f
  | read next, f => read fun state => (next state).andThen f
  | write notes next, f => write notes (next.andThen f)

instance : Monad (Script σ) where
  pure := done
  bind := andThen

/-- Runs a script, whose queries are answered by `answer`. -/
def run {α : Type} (answer : Config → {β : Type} → Query β → Check σ β) :
    Script σ α → Check σ α
  | done value => pure value
  | edit e next => do
    match (← Check.code).apply e with
    | .ok (value, code) =>
      Check.modifyCode fun _ => code
      (next (.ok value)).run answer
    | .error error => (next (.error error)).run answer
  | query config q next => do
    match ← Check.outcome (answer config q) with
    | .ok value => (next (.ok value)).run answer
    | .error (.fault error) => (next (.error error)).run answer
    | .error .outOfDepth => throw .outOfDepth
  | read next => do
    (next (← get)).run answer
  | write notes next => do
    modify fun state => { state with notes }
    next.run answer

/-- Running one script after the other is running the first and then the second. -/
theorem run_andThen (answer : Config → {β : Type} → Query β → Check σ β) {α β : Type}
    (first : Script σ α) (next : α → Script σ β) :
    (first.andThen next).run answer = first.run answer >>= fun a => (next a).run answer := by
  induction first with
  | done value => simp [andThen, run]
  | edit e k ih =>
    simp only [andThen, run, bind_assoc]
    refine bind_congr fun code => ?_
    cases code.apply e with
    | ok r => simp [ih]
    | error e => simp [ih]
  | query config q k ih =>
    simp only [andThen, run, bind_assoc]
    refine bind_congr fun r => ?_
    match r with
    | .ok _ => simp [ih]
    | .error (.fault _) => simp [ih]
    | .error .outOfDepth => simp
  | read k ih => simp [andThen, run, ih]
  | write notes k ih => simp [andThen, run, ih]

end Script

end ContractLang
