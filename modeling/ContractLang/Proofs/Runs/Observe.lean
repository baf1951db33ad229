import ContractLang.Proofs.Runs.Related
import ContractLang.Proofs.Runs.Scripts

/-!
# Observing runs

To say what happens in the course of a run, and not only what it comes to, the notes of
a run are extended by a list of events (`ContractLang.Event`): the beginnings and ends
of the attempts to obtain the body of a function, and what the parser does in between,
each with the unit as it is at that moment. For this, definitions are obtained in a way
that notes the beginnings and ends (`ContractLang.Checker.observedSupply`), and the parser
notes itself what it is asked for, its steps and what it returns
(`ContractLang.BodyParser.traced`), so that this can be compared with what becomes of it.
Everything else is left as it is.

Observing a run does not change it (`ContractLang.Checker.plain_watchAll`).
-/

namespace ContractLang

/-- What the body of a function is wanted for. -/
structure Occasion where
  /-- The scope that the name is looked up from. -/
  scope : ScopeId
  /-- The call on whose behalf the body is obtained. -/
  call : NodeId
  /-- The name of the function. -/
  name : String
  /-- The scope that declares the function. -/
  home : Option ScopeId

/-- What is observed of a run, with the unit at that moment. -/
inductive Event where
  /-- The body of a function is about to be obtained. -/
  | opened (occasion : Occasion) (code : CompilationUnit)
  /-- The parser is asked for the body of a function. -/
  | invoked (scope : ScopeId) (call : NodeId) (name : String) (code : CompilationUnit)
  /-- The script of the parser has changed the unit or has been given an answer. -/
  | step (code : CompilationUnit)
  /-- The parser returns a definition, or an error. -/
  | returned (result : Except Error NodeId) (code : CompilationUnit)
  /-- The body of a function has been obtained, or could not be. -/
  | closed (occasion : Occasion) (outcome : Except Halt NodeId) (code : CompilationUnit)

/-- The unit at the moment of an event. -/
def Event.code : Event → CompilationUnit
  | opened _ code | invoked _ _ _ code | step code | returned _ code | closed _ _ code => code

/-- Notes together with the events of a run so far. -/
abbrev Observed (σ : Type) := σ × List Event

section

variable {σ α : Type}

/-- A state without the events. -/
def CheckState.plain (s : CheckState (Observed σ)) : CheckState σ :=
  ⟨s.code, s.notes.1⟩

@[simp] theorem CheckState.code_plain (s : CheckState (Observed σ)) : s.plain.code = s.code :=
  rfl

/-- A state with no event yet. -/
def CheckState.watched (s : CheckState σ) : CheckState (Observed σ) :=
  ⟨s.code, (s.notes, [])⟩

/-- A state with one more event. -/
def CheckState.mark (s : CheckState (Observed σ)) (event : CompilationUnit → Event) :
    CheckState (Observed σ) :=
  { s with notes := (s.notes.1, s.notes.2 ++ [event s.code]) }

/-- Notes an event. -/
def Check.observe (event : CompilationUnit → Event) : Check (Observed σ) Unit :=
  modify fun s => s.mark event

namespace Script

/-- Notes an event before going on. -/
def mark (next : Script (Observed σ) α) (event : CompilationUnit → Event) :
    Script (Observed σ) α :=
  .read fun s => .write (s.mark event).notes next

/-- The script that notes its steps. -/
def traced {α : Type} : Script σ α → Script (Observed σ) α
  | done value => done value
  | edit e next => edit e fun answer => (next answer).traced.mark .step
  | query config q next => query config q fun answer => (next answer).traced.mark .step
  | read next => read fun s => (next s.plain).traced
  | write notes next => read fun s => write (notes, s.notes.2) next.traced

end Script

/-- The parser that notes what it is asked for, its steps, and what it returns. -/
def BodyParser.traced (parser : BodyParser σ) : BodyParser (Observed σ) where
  parse scope call name :=
    Script.mark ((parser.parse scope call name).traced.andThen fun result =>
      (Script.done result).mark (.returned result)) (.invoked scope call name)
  depth := parser.depth

/-- A request to a checker. -/
structure Request where
  /-- How lenient the checker is to be. -/
  config : Config
  /-- The type of the answer. -/
  {answer : Type}
  /-- What is asked for. -/
  query : Query answer

namespace Checker

variable (checker : Checker σ)

/-- Obtains definitions as the checker does, noting the events. -/
def observedSupply : Supply (Observed σ) := fun answer scope call name => do
  let occasion : Occasion := ⟨scope, call, name, (← Check.code).scopes.declaring? scope name⟩
  Check.observe (.opened occasion)
  let obtained ← Check.outcome <|
    Context.materialize (checker.parser.map fun parser => parser.traced.source answer) scope call
      name
  Check.observe (.closed occasion obtained)
  match obtained with
  | .ok definition => return definition
  | .error halt => throw halt

/-- The state that a request leads to. -/
def perform (s : CheckState σ) (request : Request) : CheckState σ :=
  ((checker.withConfig request.config).ask request.query s).2

/-- The state that a sequence of requests leads to. -/
def performAll (requests : List Request) (s : CheckState σ) : CheckState σ :=
  requests.foldl checker.perform s

/-- The state that an observed request leads to. -/
def watch (s : CheckState (Observed σ)) (request : Request) : CheckState (Observed σ) :=
  (((checker.observedSupply.context checker.spec (checker.depth s.code) request.config).answer
    request.query).exec s).2

/-- The state that an observed sequence of requests leads to. -/
def watchAll (requests : List Request) (s : CheckState (Observed σ)) :
    CheckState (Observed σ) :=
  requests.foldl checker.watch s

end Checker

/-! ### Scripts that note their steps -/

namespace Script

open Check

variable (answer : Config → {β : Type} → Query β → Check (Observed σ) β) {β : Type}
  (s : CheckState (Observed σ))

theorem exec_run_mark (next : Script (Observed σ) α) (event : CompilationUnit → Event) :
    exec ((next.mark event).run answer) s = exec (next.run answer) (s.mark event) := by
  rw [mark, exec_run_read, exec_run_write]
  rfl

theorem exec_run_traced_edit (e : Edit β) (next : Except Error β → Script σ α) :
    exec ((edit e next).traced.run answer) s =
      match s.code.apply e with
      | .ok (value, code) =>
        exec ((next (.ok value)).traced.run answer) (CheckState.mark { s with code } .step)
      | .error error => exec ((next (.error error)).traced.run answer) (s.mark .step) := by
  rw [traced, exec_run_edit]
  cases s.code.apply e with
  | ok r => exact exec_run_mark answer _ _ _
  | error error => exact exec_run_mark answer s _ _

theorem exec_run_traced_query (config : Config) (q : Query β)
    (next : Except Error β → Script σ α) :
    exec ((query config q next).traced.run answer) s =
      match exec (answer config q) s with
      | (.ok value, t) => exec ((next (.ok value)).traced.run answer) (t.mark .step)
      | (.error (.fault error), t) =>
        exec ((next (.error error)).traced.run answer) (t.mark .step)
      | (.error .outOfDepth, t) => (.error .outOfDepth, t) := by
  rw [traced, exec_run_query]
  rcases exec (answer config q) s with ⟨(error | _) | value, t⟩
  · exact exec_run_mark answer t _ _
  · rfl
  · exact exec_run_mark answer t _ _

theorem exec_run_traced_read (next : CheckState σ → Script σ α) :
    exec ((read next).traced.run answer) s = exec ((next s.plain).traced.run answer) s := by
  rw [traced, exec_run_read]

theorem exec_run_traced_write (notes : σ) (next : Script σ α) :
    exec ((write notes next).traced.run answer) s =
      exec (next.traced.run answer) { s with notes := (notes, s.notes.2) } := by
  rw [traced, exec_run_read, exec_run_write]

end Script

open Check in
/-- What noting its invocation and its return makes of a parser: it notes the invocation, runs the
script, and notes what that returns, unless it does not come to an end. -/
theorem BodyParser.exec_source_traced (parser : BodyParser σ)
    (answer : Config → {β : Type} → Query β → Check (Observed σ) β) (scope : ScopeId)
    (call : NodeId) (name : String) (s : CheckState (Observed σ)) :
    exec (parser.traced.source answer scope call name) s =
      match exec ((parser.parse scope call name).traced.run answer)
        (s.mark (.invoked scope call name)) with
      | (.ok result, t) => (result.mapError .fault, t.mark (.returned result))
      | (.error halt, t) => (.error halt, t) := by
  unfold source traced
  rw [exec_bind, Script.exec_run_mark, Script.run_andThen, exec_bind]
  rcases exec ((parser.parse scope call name).traced.run answer)
    (s.mark (.invoked scope call name)) with ⟨halt | result, t⟩
  · rfl
  · dsimp only
    rw [Script.exec_run_mark]
    cases result <;> rfl

/-! ### Observing changes nothing -/

/-- A state is another one without the events. -/
def Plain (s : CheckState (Observed σ)) (t : CheckState σ) : Prop :=
  s.plain = t

namespace Plain

open Check

theorem indifferent : Indifferent (Plain (σ := σ)) where
  code h := congrArg CheckState.code h
  recode := by
    rintro s _ c rfl
    rfl

variable {answer : Config → {β : Type} → Query β → Check (Observed σ) β}
  {answer' : Config → {β : Type} → Query β → Check σ β}

theorem run_mark {script : Script (Observed σ) α} {run' : Check σ α}
    (h : Relates Plain (script.run answer) run') (event : CompilationUnit → Event) :
    Relates Plain ((script.mark event).run answer) run' := by
  rintro s _ rfl
  rw [Script.exec_run_mark]
  exact h _ _ rfl

/-- Noting its steps does not change a script. -/
theorem run_traced (hanswer : ∀ config {β : Type} (q : Query β),
    Relates Plain (answer config q) (answer' config q)) (script : Script σ α) :
    Relates Plain (script.traced.run answer) (script.run answer') := by
  induction script with
  | done value => exact .pure value
  | edit e next ih =>
    rintro s _ rfl
    rw [Script.traced, Script.exec_run_edit, Script.exec_run_edit, s.code_plain]
    cases s.code.apply e with
    | ok r => exact run_mark (ih _) _ _ _ rfl
    | error error => exact run_mark (ih _) _ _ _ rfl
  | query config q next ih =>
    intro s t hst
    rw [Script.traced, Script.exec_run_query, Script.exec_run_query]
    match exec (answer config q) s, exec (answer' config q) t, hanswer config q s t hst with
    | (.ok value, s'), (_, t'), ⟨rfl, hstate⟩ => exact run_mark (ih _) _ s' t' hstate
    | (.error (.fault error), s'), (_, t'), ⟨rfl, hstate⟩ =>
      exact run_mark (ih _) _ s' t' hstate
    | (.error .outOfDepth, s'), (_, t'), ⟨rfl, hstate⟩ => exact ⟨rfl, hstate⟩
  | read next ih =>
    rintro s _ rfl
    rw [Script.traced, Script.exec_run_read, Script.exec_run_read]
    exact ih s.plain s s.plain rfl
  | write notes next ih =>
    rintro s _ rfl
    rw [Script.traced, Script.exec_run_read, Script.exec_run_write, Script.exec_run_write]
    exact ih _ _ rfl

theorem source (hanswer : ∀ config {β : Type} (q : Query β),
    Relates Plain (answer config q) (answer' config q)) (parser : BodyParser σ)
    (scope : ScopeId) (call : NodeId) (name : String) :
    Relates Plain (parser.traced.source answer scope call name)
      (parser.source answer' scope call name) := by
  refine .bind (run_mark ?_ _) fun _ => .liftExcept _
  rw [Script.run_andThen, ← bind_pure ((parser.parse scope call name).run answer')]
  exact (run_traced hanswer _).bind fun result => run_mark (.pure result) _

theorem materialize (hanswer : ∀ config {β : Type} (q : Query β),
    Relates Plain (answer config q) (answer' config q)) (parser : Option (BodyParser σ))
    (scope : ScopeId) (call : NodeId) (name : String) :
    Relates Plain
      (Context.materialize (parser.map fun parser => parser.traced.source answer) scope call name)
      (Context.materialize (parser.map fun parser => parser.source answer') scope call name) := by
  refine .materialize indifferent ?_
  cases parser with
  | none => exact .none
  | some parser => exact .some (source hanswer parser scope call name)

end Plain

namespace Checker

open Check

variable (checker : Checker σ)

/-- What noting its beginning and its end makes of an attempt to obtain a body. -/
theorem exec_observedSupply
    (answer : Config → {β : Type} → Query β → Check (Observed σ) β) (scope : ScopeId)
    (call : NodeId) (name : String) (s : CheckState (Observed σ)) :
    let occasion : Occasion := ⟨scope, call, name, s.code.scopes.declaring? scope name⟩
    let out := exec (Context.materialize
      (checker.parser.map fun parser => parser.traced.source answer) scope call name)
      (s.mark (.opened occasion))
    exec (checker.observedSupply answer scope call name) s =
      (out.1, out.2.mark (.closed occasion out.1)) := by
  intro occasion out
  unfold observedSupply
  rw [exec_bind, exec_code]
  dsimp only
  rw [exec_bind, observe, exec_modify]
  dsimp only
  rw [exec_bind, exec_outcome]
  dsimp only
  rw [exec_bind, observe, exec_modify]
  dsimp only
  change exec (match out.1 with | .ok definition => pure definition | .error halt => throw halt)
    (out.2.mark (.closed occasion out.1)) = _
  cases out.1 <;> rfl

/-- The contexts of an observed run correspond to those of the run itself. -/
theorem observed_corresponds (d : Nat) (config : Config) :
    (checker.observedSupply.context checker.spec d config).Corresponds Plain
      (checker.supply.context checker.spec d config) := by
  refine Supply.corresponds (ι := Unit) (fun _ => Plain.indifferent.admissible) _ _ _
    (fun d hanswer _ scope call name s t hst _ => ?_) d () config
  obtain rfl := hst
  rw [exec_observedSupply]
  -- Noting the beginning and the end changes the notes only.
  have hrelated := Plain.materialize (fun config _ q => hanswer () config q) checker.parser scope
    call name (s.mark (.opened ⟨scope, call, name, s.code.scopes.declaring? scope name⟩))
    s.plain rfl
  exact ⟨hrelated.answer, hrelated.state⟩

/-- **An observed request is answered as if it were not observed.** -/
theorem related_watch (s : CheckState (Observed σ)) (config : Config) (q : Query α) :
    Related Plain
      (exec
        ((checker.observedSupply.context checker.spec (checker.depth s.code) config).answer q) s)
      ((checker.withConfig config).ask q s.plain) :=
  (checker.observed_corresponds (checker.depth s.code) config).answer Plain.indifferent.admissible q s s.plain
    rfl

/-- **Observing a run does not change it.** -/
theorem plain_watchAll (requests : List Request) (s : CheckState (Observed σ)) :
    (checker.watchAll requests s).plain = checker.performAll requests s.plain := by
  induction requests generalizing s with
  | nil => rfl
  | cons request requests ih =>
    have hfirst : (checker.watch s request).plain = checker.perform s.plain request :=
      (checker.related_watch s request.config request.query).state
    change (checker.watchAll requests (checker.watch s request)).plain = _
    rw [ih, hfirst]
    rfl

end Checker

end

end ContractLang
