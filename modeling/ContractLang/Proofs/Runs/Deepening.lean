import ContractLang.Proofs.Runs.Compatible
import ContractLang.Proofs.Statements.Depth
import ContractLang.Proofs.Typing.Answers

/-!
# More depth than needed

How deeply judgements may nest has nothing to do with what they find. A computation that does not
run out of depth has the same outcome wherever it may nest more deeply
(`ContractLang.Check.Deepens`), and without a parser no computation hides that it ran out of
depth. So the depth that a checker allows for is *ample* for every query about an acyclic unit:
more depth changes nothing (`ContractLang.Checker.ample_of_parser_none`).

A parser states what depth its nodes may need. If it states too little, the depth is not ample.
-/

namespace ContractLang

open Check

variable {σ α : Type}

/-! ### Going deeper -/

/-- Unless a computation runs out of depth, another one has the same outcome. -/
def Check.Deepens {α : Type} (a b : Check σ α) : Prop :=
  ∀ s, (exec a s).1 = .error .outOfDepth ∨ exec b s = exec a s

namespace Check.Deepens

theorem refl (a : Check σ α) : Deepens a a :=
  fun _ => .inr rfl

/-- The rules have the same outcomes with more depth, if judgements have. -/
theorem compatible : Compatible (Deepens (σ := σ)) where
  pure x := .refl _
  fail e := .refl _
  bind := by
    intro α β a b f g h hf s
    rw [exec_bind, exec_bind]
    rcases h s with hout | heq
    · left
      match exec a s, hout with
      | (.error .outOfDepth, t), _ => rfl
    · rw [heq]
      match exec a s with
      | (.ok x, t) => exact hf x t
      | (.error halt, t) => exact .inr rfl
  onFault := by
    intro α a b f g h hf s
    rw [exec_onFault, exec_onFault]
    rcases h s with hout | heq
    · left
      match exec a s, hout with
      | (.error .outOfDepth, t), _ => rfl
    · rw [heq]
      match exec a s with
      | (.ok x, t) => exact .inr rfl
      | (.error .outOfDepth, t) => exact .inr rfl
      | (.error (.fault e), t) => exact hf e t
  code := .refl _
  entry _ ha hb s := .inr ((hb s).trans (ha s).symm)

end Check.Deepens

/-- Where definitions are obtained in the same way, so is the type of a call. -/
theorem Context.Matches.deepens_callType {ctx ctx' : Context σ} (h : ctx.Matches Deepens ctx')
    (obtain : BodySource σ) (R : List NodeId) (x : NodeId) (name : String) :
    Deepens (ctx.callType obtain R x name) (ctx'.callType obtain R x name) := by
  unfold Context.callType
  rw [h.spec]
  refine Deepens.compatible.bind (Deepens.compatible.node x) fun call => ?_
  refine Deepens.compatible.bind Deepens.compatible.code fun code => ?_
  split
  · exact h.definedType Deepens.compatible _ name _
  · exact Deepens.compatible.pure Ty.unknown
  · exact Deepens.compatible.bind (Deepens.refl (obtain _ x name)) fun definition =>
      h.definedType Deepens.compatible _ name definition
  · split
    · exact h.operationType Deepens.compatible call name
    · exact Deepens.compatible.fail _

namespace Supply

variable (spec : OpSpec) {d : Nat} (config : Config)

/-- **Judgements have the same verdicts at a greater depth**, where no query is put while a
definition is obtained. -/
theorem deepens (obtain : BodySource σ) {d' : Nat} (hd : d ≤ d') :
    Context.Matches Deepens (context (fun _ => obtain) spec d config)
      (context (fun _ => obtain) spec d' config) := by
  induction d generalizing d' with
  | zero => exact ⟨by simp, by simp, fun j s => .inl rfl⟩
  | succ d ih =>
    obtain ⟨d', rfl⟩ : ∃ e, d' = e + 1 := ⟨d' - 1, by omega⟩
    have hinner := ih (Nat.le_of_succ_le_succ hd)
    exact ⟨by simp, by simp, fun j =>
      hinner.rule Deepens.compatible (fun R x name => hinner.deepens_callType obtain R x name) j⟩

end Supply

/-! ### Ample depth -/

namespace Checker

/-- The depth that a checker allows for is enough for a query: more changes nothing. -/
def Ample (checker : Checker σ) (q : Query α) (s : CheckState σ) : Prop :=
  ∀ d, checker.depth s.code ≤ d →
    exec ((checker.context d).answer q) s = checker.ask q s

/-- Without a parser, queries are answered alike at a greater depth. -/
theorem deepens_answer (checker : Checker σ) (hparser : checker.parser = none) {d d' : Nat}
    (hd : d ≤ d') (q : Query α) :
    Deepens ((checker.context d).answer q) ((checker.context d').answer q) := by
  have hsupply : checker.supply = fun _ => Context.materialize none := by
    unfold Checker.supply
    rw [hparser]
    rfl
  have hmore := Supply.deepens checker.spec checker.config (Context.materialize (σ := σ) none) hd
  rw [← hsupply] at hmore
  exact hmore.answer Deepens.compatible q

/-- **Without a parser, the depth is ample** for every query about an acyclic unit. -/
theorem ample_of_parser_none (checker : Checker σ) (hparser : checker.parser = none)
    {s : CheckState σ} (hcode : s.code.Acyclic) (q : Query α) : checker.Ample q s := by
  intro d hd
  rw [checker.ask_eq_exec]
  have hout : (exec ((checker.context (checker.depth s.code)).answer q) s).1 ≠
      .error .outOfDepth :=
    Supply.answer_ne_outOfDepth (checker.bodiless hparser s.code) hcode (Nat.le_add_right _ _) q s
      (.refl _)
  exact (checker.deepens_answer hparser hd q s).resolve_left hout

/-- So what is found out at any depth, be it enough for it or just not too little, is what the
checker answers. -/
theorem ask_eq_of_exec (checker : Checker σ) (hparser : checker.parser = none)
    {s t : CheckState σ} (hcode : s.code.Acyclic) {q : Query α} {d : Nat} {r : Except Halt α}
    (h : exec ((checker.context d).answer q) s = (r, t)) (hr : r ≠ .error .outOfDepth) :
    checker.ask q s = (r, t) := by
  have hmore := checker.deepens_answer hparser (Nat.le_max_right (checker.depth s.code) d) q s
  rw [h] at hmore
  rw [← hmore.resolve_left hr]
  exact (checker.ample_of_parser_none hparser hcode q _ (Nat.le_max_left _ d)).symm

end Checker

end ContractLang
