import ContractLang.Proofs.Bounds.Secure
import ContractLang.Proofs.Runs.Deepening
import ContractLang.Proofs.Runs.Lifecycle

/-!
# Nothing is missing

A unit is assembled (`ContractLang.CompilationUnit.Assembled`) if edits and questions to checkers
lead to it that are given nothing but what exists by then. For the parsers of these checkers it
means the same of the edits and questions in their scripts, of the definitions that they end with,
and of the nodes and scopes that they hold on to in their notes
(`ContractLang.Checker.Careful`).

Assembled units are intact. So nothing that a walk over one of them looks at is missing, and nothing
that a checker reads or changes: to keep a guard makes no difference
(`ContractLang.CompilationUnit.Assembled.nothing_missing`).
-/

namespace ContractLang

open Check CompilationUnit

section

variable {σ α : Type}

/-! ### Careful parsers -/

/-- In its run from a state, a script gives to edits and to queries only what exists, notes only
what exists, and ends with what `ends` allows. -/
def Script.Careful (held : σ → List Place) (answer : Config → {β : Type} → Query β → Check σ β)
    (ends : α → CompilationUnit → Prop) : Script σ α → CheckState σ → Prop
  | .done value, s => ends value s.code
  | .edit e next, s => s.code.HasAll e.places ∧
    match s.code.apply e with
    | .ok (value, code) => (next (.ok value)).Careful held answer ends { s with code }
    | .error error => (next (.error error)).Careful held answer ends s
  | .query config q next, s => q.node < s.code.size ∧
    match (answer config q).exec s with
    | (.ok value, t) => (next (.ok value)).Careful held answer ends t
    | (.error (.fault error), t) => (next (.error error)).Careful held answer ends t
    | (.error .outOfDepth, _) => True
  | .read next, s => (next s).Careful held answer ends s
  | .write notes next, s =>
    s.code.HasAll (held notes) ∧ next.Careful held answer ends { s with notes }

/-- Whenever the parser of a checker is asked for a body, on behalf of a call and from a scope
that exist, its script is careful and does not end with a definition that does not exist. -/
def Checker.Careful (checker : Checker σ) (held : σ → List Place) : Prop :=
  ∀ parser ∈ checker.parser, ∀ d scope call name s, s.Sound held →
    scope < s.code.scopes.scopes.size → call < s.code.size →
      (parser.parse scope call name).Careful held
        (fun config => (checker.supply.context checker.spec d config).answer)
        (fun result code => ∀ definition, result = .ok definition → definition < code.size) s

variable {held : σ → List Place} {g : Guard σ} {s : CheckState σ}

/-- An edit of what exists looks at nothing else. -/
theorem CompilationUnit.Intact.lookedAt {code : CompilationUnit} {e : Edit α} (h : code.Intact)
    (he : code.HasAll e.places) : code.HasAll (e.lookedAt code) := by
  refine hasAll_append.mpr ⟨he, ?_⟩
  cases e with
  | update scope name d => exact hasAll_map.mpr (h.chain_lt (he _ List.mem_cons_self))
  | _ => exact hasAll_nil

/-- **A guard is harmless to the run of a careful script** if it is to the answers. -/
theorem Guard.harmless_run {answer answer' : Config → {β : Type} → Query β → Check σ β}
    {ends : α → CompilationUnit → Prop}
    (hanswer : ∀ config {β : Type} (q : Query β) {base : CompilationUnit}, q.node < base.size →
      Secure held base (answer config q) (answer' config q))
    (script : Script σ α) (hsound : s.Sound held) (hcareful : script.Careful held answer' ends s) :
    Harmless held ends s (exec (g.run answer script) s) (exec (script.run answer') s) := by
  induction script generalizing s with
  | done value => exact ⟨rfl, .refl _, hsound, fun _ heq => Except.ok.inj heq ▸ hcareful⟩
  | edit e next ih =>
    rw [Script.Careful] at hcareful
    obtain ⟨hplaces, hnext⟩ := hcareful
    rw [Guard.run, exec_bind, Guard.exec_look (hsound.intact.lookedAt hplaces),
      Script.exec_run_edit]
    dsimp only
    cases hedit : s.code.apply e with
    | error error =>
      rw [hedit] at hnext
      exact ih _ hsound hnext
    | ok r =>
      rw [hedit] at hnext
      have hlies : s.code.LiesIn r.2 := .apply hedit
      have hafter : ({ s with code := r.2 } : CheckState σ).Sound held :=
        ⟨hsound.intact.apply hplaces hedit, hlies.hasAll hsound.held⟩
      have hlooked : exec (Check.modifyCode (fun _ => r.2) >>= fun _ =>
          g.lookOver >>= fun _ => g.run answer (next (.ok r.1))) s =
          exec (g.run answer (next (.ok r.1))) { s with code := r.2 } := by
        rw [exec_bind, exec_modifyCode]
        dsimp only
        rw [exec_bind, Guard.exec_lookOver hafter.intact]
      dsimp only
      rw [hlooked]
      exact .trans hlies (ih _ hafter hnext)
  | query config q next ih =>
    rw [Script.Careful] at hcareful
    obtain ⟨hq, hnext⟩ := hcareful
    obtain ⟨hsame, hlies, hafter, -⟩ := hanswer config q hq s (.refl _) hsound
    rw [Guard.run, exec_bind, exec_outcome, Script.exec_run_query, hsame]
    generalize exec (answer' config q) s = out at hnext hlies hafter
    match out, hnext, hlies, hafter with
    | (.ok value, t), hnext, hlies, hafter => exact .trans hlies (ih _ hafter hnext)
    | (.error (.fault error), t), hnext, hlies, hafter => exact .trans hlies (ih _ hafter hnext)
    | (.error .outOfDepth, t), _, hlies, hafter => exact ⟨rfl, hlies, hafter, nofun⟩
  | read next ih =>
    rw [Guard.run, exec_bind, Script.exec_run_read]
    exact ih s hsound hcareful
  | write notes next ih =>
    obtain ⟨hnotes, hnext⟩ := hcareful
    have hafter : ({ s with notes } : CheckState σ).Sound held := ⟨hsound.intact, hnotes⟩
    rw [Guard.run, exec_bind, exec_modify, Script.exec_run_write]
    exact .trans (t := { s with notes }) (.refl _) (ih hafter hnext)

/-! ### Obtaining definitions -/

/-- **A guard is harmless where a definition is obtained**, if it is to what is done meanwhile. -/
theorem Guard.guarded_materialize {source source' : Option (BodySource σ)}
    (h : BodySource.Guarded held (Context.attempt source) (Context.attempt source')) :
    BodySource.Guarded held (g.materialize source) (Context.materialize source') := by
  intro base scope call name hscope hcall
  have hguarded : g.materialize source scope call name = (do
      g.changeScopes scope fun scopes => scopes.setBinding scope name (.pending call)
      g.settle scope name (← outcome (Context.attempt source scope call name))) := by
    cases source <;> rfl
  rw [hguarded, Context.materialize_eq_attempt]
  refine SecureTo.bind (Secure.setBinding hscope fun y hy => Option.some.inj hy ▸ hcall)
    fun _ c hc _ => .bind (h name (hc.scope_lt hscope) (hc.node_lt hcall)).outcome
      fun obtained c' hc' hobtained => ?_
  have hscope' : scope < c'.scopes.scopes.size := hc'.scope_lt (hc.scope_lt hscope)
  cases obtained with
  | ok definition =>
    have hdefinition : definition < c'.size := hobtained definition rfl
    refine SecureTo.bind (Secure.setBinding hscope' fun y hy => Option.some.inj hy ▸ hdefinition)
      fun _ c'' hc'' _ => .pure fun c hc => hc.node_lt (hc''.node_lt hdefinition)
  | error halt =>
    exact SecureTo.bind (Secure.setBinding hscope' nofun) fun _ _ _ _ => .throw _

variable {checker : Checker σ} {d : Nat} {config : Config}

@[simp] theorem Guard.spec_context : (g.context checker d config).spec = checker.spec := by
  cases d <;> rfl

@[simp] theorem Guard.config_context : (g.context checker d config).config = config := by
  cases d <;> rfl

/-- A guard is harmless while a careful parser is at work, if it is to the answers that the parser
gets. -/
theorem Checker.Careful.attempt (h : checker.Careful held)
    (hcontext : ∀ config, (g.context checker d config).Guarded held
      (checker.supply.context checker.spec d config)) :
    BodySource.Guarded held
      (Context.attempt (checker.parser.map fun parser =>
        g.source parser fun config => g.answer (g.context checker d config)))
      (Context.attempt (checker.parser.map fun parser =>
        parser.source fun config => (checker.supply.context checker.spec d config).answer)) := by
  intro base scope call name hscope hcall
  cases hparser : checker.parser with
  | none => exact SecureTo.throw _
  | some parser =>
    have hrun : SecureTo held
        (fun result c => ∀ definition, result = .ok definition → definition < c.size) base
        (g.run (fun config => g.answer (g.context checker d config))
          (parser.parse scope call name))
        ((parser.parse scope call name).run
          fun config => (checker.supply.context checker.spec d config).answer) :=
      fun s hs hsound => g.harmless_run
        (fun config _ q _ hq => g.secure_answer (hcontext config) q hq) _ hsound
        (h parser hparser d scope call name s hsound (hs.scope_lt hscope) (hs.node_lt hcall))
    refine hrun.bind fun result c hc hresult => ?_
    cases result with
    | ok definition => exact .pure fun c' hc' => hc'.node_lt (hresult definition rfl)
    | error e => exact .throw _

/-- **Contexts are guarded to any depth** if the parser is careful. -/
theorem Checker.Careful.context (h : checker.Careful held) (g : Guard σ) (d : Nat)
    (config : Config) : (g.context checker d config).Guarded held
      (checker.supply.context checker.spec d config) := by
  induction d generalizing config with
  | zero => exact ⟨by simp, by simp, fun _ _ _ => SecureTo.throw _⟩
  | succ d ih =>
    exact ⟨by simp, by simp, fun j _ hj =>
      g.secure_rule (ih config) (g.guarded_materialize (h.attempt ih)) j hj⟩

/-- **A guard is harmless to a careful checker**. -/
theorem Checker.Careful.ask (h : checker.Careful held) (g : Guard σ) (hs : s.Sound held)
    (q : Query α) (hq : q.node < s.code.size) :
    Harmless held (fun _ _ => True) s (g.ask checker q s) (checker.ask q s) :=
  g.secure_answer (h.context g _ _) q hq s (.refl _) hs

end

/-- To make empty bodies is careful, if the program that they are added to exists. -/
theorem Checker.emptyBodies_careful (program : NodeId) :
    (emptyBodies program).Careful fun _ => [.node program] := by
  rintro parser hparser d scope call name s hsound hscope -
  cases hparser
  have hprogram : program < s.code.size := hsound.held _ List.mem_cons_self
  let form := Form.function name [] false
  have hlies : s.code.LiesIn (s.code.create scope form []).1 := .create _ _ _ _
  have hnew : s.code.size < (s.code.create scope form []).1.size := create_lt _ _ _ _
  refine ⟨by simpa [Edit.places, Form.places, Form.operands, Form.noted] using hscope, ?_⟩
  refine ⟨by simpa [Edit.places] using ⟨hlies.node_lt hprogram, hnew⟩, ?_⟩
  rintro _ ⟨⟩
  exact (LiesIn.apply (e := .addFunction program s.code.size) rfl).node_lt hnew

/-! ### Assembled units -/

/-- The unit arises from the initial one by edits and by questions to checkers, whatever comes of
them, that are given nothing but what exists by then. -/
inductive CompilationUnit.Assembled : CompilationUnit → Prop
  | initial : Assembled .initial
  | edit {code : CompilationUnit} {α : Type} {e : Edit α} (h : code.Assembled)
      (he : code.HasAll e.places) : Assembled (code.edited e)
  | ask {σ α : Type} {held : σ → List Place} {checker : Checker σ} {q : Query α}
      {s : CheckState σ} (h : s.code.Assembled) (hheld : s.code.HasAll (held s.notes))
      (hchecker : checker.Careful held) (hq : q.node < s.code.size) :
      Assembled (checker.ask q s).2.code

namespace CompilationUnit

variable {code : CompilationUnit}

theorem intact_initial : initial.Intact where
  node _ hx := absurd hx (Nat.not_lt_zero _)
  scope s hs := by
    obtain rfl : s = 0 := Nat.lt_one_iff.mp hs
    decide

theorem Intact.edited {α : Type} {e : Edit α} (h : code.Intact) (he : code.HasAll e.places) :
    (code.edited e).Intact := by
  unfold CompilationUnit.edited
  split
  · next happly => exact h.apply he happly
  · exact h

namespace Assembled

/-- **Assembled units are intact**. -/
theorem intact (h : code.Assembled) : code.Intact := by
  induction h with
  | initial => exact intact_initial
  | edit _ he ih => exact ih.edited he
  | ask _ hheld hchecker hq ih =>
    exact (hchecker.ask ⟨fun _ => pure ()⟩ ⟨ih, hheld⟩ _ hq).sound.intact

/-- **Nothing is missing from an assembled unit.** All that its nodes and scopes refer to exists.
To show something in it as text, to print a tree, to look a name up or to tell whether a body
always returns, nothing is looked at that does not exist, and the result depends on nothing else;
nor is anything looked at that does not exist to carry out an edit that is given what exists. And
no more is it to answer a question about a node that exists, whatever comes
of it: what a guard does about things that are missing makes no difference, be they among those
read or changed on the way, or among those referred to after a change. -/
theorem nothing_missing (h : code.Assembled) :
    code.Intact ∧ code.Enclosed ∧
      (∀ {α : Type} (e : Edit α), code.HasAll e.places → code.HasAll (e.lookedAt code)) ∧
      ∀ {σ α : Type} (held : σ → List Place) (notes : σ) (checker : Checker σ) (q : Query α)
        (g : Guard σ), code.HasAll (held notes) → checker.Careful held → q.node < code.size →
          g.ask checker q ⟨code, notes⟩ = checker.ask q ⟨code, notes⟩ :=
  ⟨h.intact, h.intact.enclosed, fun _ he => h.intact.lookedAt he,
    fun _ _ _ q g hheld hchecker hq => (hchecker.ask g ⟨h.intact, hheld⟩ q hq).same⟩

/-- A function is declared, called and given its body by a checker. Then it is connected with a
definition that exists, the text of which depends on nothing but itself, and to abort whenever
something is missing does not keep a checker from checking that. -/
theorem nothing_missing_emptyBodies :
    let declared := CompilationUnit.initial.edited (.declareFunc 0 "f" .unknown)
    let program := (declared.edited (.create 0 (.call "f") [])).edited (.create 0 .program [0])
    let code := ((Checker.emptyBodies 1).ask (.statements 1) ⟨program, ()⟩).2.code
    code.Assembled ∧ code.size = 3 ∧ code.scopes.bindingAt 0 "f" = some (.resolved 2) ∧
      code.Intact ∧ code.DependsOn [2] (fun code => code.render 2) ∧
      code.HasAll (Edit.lookedAt code (.remap 0 8)) ∧
      Guard.ask ⟨fun _ => throw .outOfDepth⟩ (Checker.emptyBodies 1) (.function 2) ⟨code, ()⟩ =
        (Checker.emptyBodies 1).ask (.function 2) ⟨code, ()⟩ := by
  intro declared program code
  have hchecker := Checker.emptyBodies_careful 1
  have hprogram : program.Assembled :=
    .edit (.edit (.edit .initial (by decide)) (by decide)) (by decide)
  have hcode : code.Assembled := .ask (s := ⟨program, ()⟩) hprogram (by decide) hchecker (by decide)
  obtain ⟨hintact, henclosed, hedit, hguard⟩ := nothing_missing hcode
  have htext : code.rendered 2 = [2] := by decide
  refine ⟨hcode, by decide, by decide, hintact, htext ▸ henclosed.render 2,
    hedit (.remap 0 8) (by decide), ?_⟩
  exact hguard _ () (Checker.emptyBodies 1) (.function 2) _ (by decide) hchecker (by decide)

/-- To abort does make a difference where something is missing. -/
example :
    let checker := Checker.emptyBodies 1
    (Guard.ask ⟨fun _ => throw .outOfDepth⟩ checker (.function 7) ⟨.initial, ()⟩).1 =
      .error .outOfDepth ∧
    (checker.ask (.function 7) ⟨.initial, ()⟩).1 =
      .error (.fault (.unplaced (.notAnExpression "block"))) :=
  ⟨rfl, rfl⟩

end Assembled

end CompilationUnit

end ContractLang
