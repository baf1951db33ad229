import ContractLang.Check.Checker
import ContractLang.Check.Effect
import ContractLang.Operation.Standard

/-!
# The runs of scripts

The steps of a script, one by one, and what can be said of all that are carried out in a
run: a script is restricted to certain edits (`ContractLang.Script.Restricted`) if, in its
run from a given state, it makes no other ones. What is restricted is the run and not the
script as such, because edits depend on the answers to earlier steps.

A property of units that these edits and the answers to queries preserve is preserved by
the run (`ContractLang.Script.invariant`).
-/

namespace ContractLang

section

variable {σ α : Type}

/-! ### The effect of scripts -/

namespace Script

variable (answer : Config → {β : Type} → Query β → Check σ β) {β : Type} (s : CheckState σ)

open Check

theorem exec_run_edit (e : Edit β) (next : Except Error β → Script σ α) :
    exec ((edit e next).run answer) s =
      match s.code.apply e with
      | .ok (value, code) => exec ((next (.ok value)).run answer) { s with code }
      | .error error => exec ((next (.error error)).run answer) s := by
  rw [run, exec_bind, exec_code]
  dsimp only
  cases s.code.apply e with
  | ok r =>
    dsimp only
    rw [exec_bind, exec_modifyCode]
  | error e => rfl

theorem exec_run_query (config : Config) (q : Query β) (next : Except Error β → Script σ α) :
    exec ((query config q next).run answer) s =
      match exec (answer config q) s with
      | (.ok value, t) => exec ((next (.ok value)).run answer) t
      | (.error (.fault error), t) => exec ((next (.error error)).run answer) t
      | (.error .outOfDepth, t) => (.error .outOfDepth, t) := by
  rw [run, exec_bind, exec_outcome]
  dsimp only
  generalize exec (answer config q) s = out
  obtain ⟨r, t⟩ := out
  cases r with
  | ok value => rfl
  | error halt => cases halt <;> rfl

theorem exec_run_read (next : CheckState σ → Script σ α) :
    exec ((read next).run answer) s = exec ((next s).run answer) s := by
  rw [run, exec_bind, exec_get]

theorem exec_run_write (notes : σ) (next : Script σ α) :
    exec ((write notes next).run answer) s = exec (next.run answer) { s with notes } := by
  rw [run, exec_bind, exec_modify]

/-- A script comes to an end unless a question that it puts is not answered for want of depth. -/
theorem eq_outOfDepth_of_exec_run {script : Script σ α} {s t : CheckState σ} {halt : Halt}
    (h : exec (script.run answer) s = (.error halt, t)) : halt = .outOfDepth := by
  induction script generalizing s with
  | done value => cases h
  | edit e next ih =>
    rw [exec_run_edit] at h
    split at h
    · exact ih _ h
    · exact ih _ h
  | query config q next ih =>
    rw [exec_run_query] at h
    split at h
    · exact ih _ h
    · exact ih _ h
    · cases h
      rfl
  | read next ih => exact ih _ ((exec_run_read answer _ _).symm.trans h)
  | write notes next ih => exact ih ((exec_run_write answer _ _ _).symm.trans h)

end Script

/-! ### Restrictions -/

namespace Script

open Check

/-- In the run of a script from a state, only edits that are allowed are carried out. -/
def Restricted {α : Type} (answer : Config → {β : Type} → Query β → Check σ β)
    (allowed : ∀ {β : Type}, Edit β → Prop) : Script σ α → CheckState σ → Prop
  | .done _, _ => True
  | .edit e next, s => allowed e ∧
    match s.code.apply e with
    | .ok (value, code) => (next (.ok value)).Restricted answer allowed { s with code }
    | .error error => (next (.error error)).Restricted answer allowed s
  | .query config q next, s =>
    match (answer config q).exec s with
    | (.ok value, t) => (next (.ok value)).Restricted answer allowed t
    | (.error (.fault error), t) => (next (.error error)).Restricted answer allowed t
    | (.error .outOfDepth, _) => True
  | .read next, s => (next s).Restricted answer allowed s
  | .write notes next, s => next.Restricted answer allowed { s with notes }

/-- **An invariant of a run**: what allowed edits and the answers to queries preserve is
preserved by a restricted script. -/
theorem invariant {answer : Config → {β : Type} → Query β → Check σ β}
    {allowed : ∀ {β : Type}, Edit β → Prop} {I : CompilationUnit → Prop}
    (hedit : ∀ {β : Type} {e : Edit β} {code code' : CompilationUnit} {value : β}, allowed e →
      code.apply e = .ok (value, code') → I code → I code')
    (hanswer : ∀ config {β : Type} (q : Query β) (s : CheckState σ), I s.code →
      I (exec (answer config q) s).2.code)
    (script : Script σ α) {s : CheckState σ} (hallowed : script.Restricted answer allowed s)
    (hs : I s.code) : I (exec (script.run answer) s).2.code := by
  induction script generalizing s with
  | done value => exact hs
  | edit e next ih =>
    rw [Restricted] at hallowed
    obtain ⟨he, hnext⟩ := hallowed
    rw [exec_run_edit]
    cases hedited : s.code.apply e with
    | ok r =>
      rw [hedited] at hnext
      -- The unit that the edit gives is the one that the rest is run from.
      exact ih _ hnext (hedit he hedited hs)
    | error error =>
      rw [hedited] at hnext
      exact ih _ hnext hs
  | query config q next ih =>
    have hafter := hanswer config q s hs
    rw [Restricted] at hallowed
    rw [exec_run_query]
    generalize exec (answer config q) s = out at hafter hallowed
    match out, hafter, hallowed with
    | (.ok value, t), hafter, hallowed => exact ih _ hallowed hafter
    | (.error (.fault error), t), hafter, hallowed => exact ih _ hallowed hafter
    | (.error .outOfDepth, t), hafter, _ => exact hafter
  | read next ih =>
    rw [exec_run_read]
    exact ih s hallowed hs
  | write notes next ih =>
    rw [exec_run_write]
    exact ih hallowed hs

/-- Where every edit is allowed no script is restricted. -/
theorem restricted_of_forall {answer : Config → {β : Type} → Query β → Check σ β}
    {allowed : ∀ {β : Type}, Edit β → Prop} (h : ∀ {β : Type} (e : Edit β), allowed e)
    (script : Script σ α) (s : CheckState σ) : script.Restricted answer allowed s := by
  induction script generalizing s with
  | done value => trivial
  | edit e next ih =>
    rw [Restricted]
    refine ⟨h e, ?_⟩
    split
    · exact ih _ _
    · exact ih _ _
  | query config q next ih =>
    rw [Restricted]
    split
    · exact ih _ _
    · exact ih _ _
    · trivial
  | read next ih => exact ih s s
  | write notes next ih => exact ih _

end Script

/-- The scripts of a checker's parser carry out only edits that are allowed in view of the
state that they are started from, whatever depth is left then. -/
def Checker.Restricted (checker : Checker σ)
    (allowed : CheckState σ → ∀ {β : Type}, Edit β → Prop) : Prop :=
  ∀ parser ∈ checker.parser, ∀ d scope call name s,
    (parser.parse scope call name).Restricted
      (fun config => (checker.supply.context checker.spec d config).answer) (allowed s) s

end

/-! ### A parser -/

/-- A program that consists of a call of a function without a body. -/
def CompilationUnit.unresolvedCall : CompilationUnit where
  nodes := #[.ofForm 0 (.call "f"), { Node.ofForm 0 .program with children := [0] }]
  scopes := ⟨#[{ Scope.fresh "global" none 0 with
    entries := [("f", ⟨"f", .unknown, .func .unresolved⟩)] }], .initial⟩

namespace Checker

/-- A checker whose parser gives functions empty bodies, and adds them to a program. -/
def emptyBodies (program : NodeId) : Checker Unit where
  spec := Standard.spec
  config := .strict
  parser := some {
    parse := fun scope _ name => .edit (.create scope (.function name [] false) []) fun answer =>
      match answer with
      | .ok definition => .edit (.addFunction program definition) fun _ => .done (.ok definition)
      | .error error => .done (.error error)
    depth := 0 }

theorem emptyBodies_restricted (program : NodeId)
    {allowed : CheckState Unit → ∀ {β : Type}, Edit β → Prop}
    (hcreate : ∀ s scope name, allowed s (.create scope (.function name [] false) []))
    (hadd : ∀ s definition, allowed s (.addFunction program definition)) :
    (emptyBodies program).Restricted allowed := by
  rintro parser hparser d scope call name s
  cases hparser
  exact ⟨hcreate s scope name, hadd s _, trivial⟩

end Checker

end ContractLang
