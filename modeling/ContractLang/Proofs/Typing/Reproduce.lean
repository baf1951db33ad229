import ContractLang.Proofs.Typing.Agreement
import ContractLang.Proofs.Typing.Compose

/-!
# Answers that are reproduced

A unit may have types on record that are not those found without a memory, as an edit after
typing leaves them. What the checker answers about such a unit is still of one piece: whatever
it finds out on the way to one answer, it would answer if that were what it is asked for. So once
asked, the checker gives the same answers again, from whatever it has put on record meanwhile, and
at every depth that suffices (`ContractLang.Checker.reproduces`). As before, the functions
called have to be resolved, and none of them recursive.

This is the agreement of typing with a memory and without, with the answers in the place of the
types found without a memory. The depth that suffices for a node is the number of nodes that
evaluation leads to from it.
-/

namespace ContractLang

open Check CompilationUnit Relation

namespace Checker

variable {σ : Type} (checker : Checker σ) (s : CheckState σ)

/-- What is answered about the return type of a body. -/
def returnIn (b : NodeId) : Except Halt Ty :=
  (checker.ask (.returnType b) s).1

/-- The answers, as verdicts: which functions are being resolved does not matter. -/
def verdictsIn : Verdicts :=
  ⟨fun _ => checker.typeIn s, fun _ => checker.returnIn s⟩

/-- Judgements about a node give the answers about it again, from every unit that has learned no
more than answers, at every depth that suffices. -/
structure Reproduces (R : List NodeId) (x : NodeId) : Prop where
  typeOf : ∀ d, s.code.span s.code.Leads x < d →
    (checker.typing s.code).YieldsAs (checker.typeIn s) ((checker.context d).judge (.typeOf R x))
      (checker.typeIn s x)
  returnType : ∀ d, s.code.span s.code.Leads x < d →
    (checker.typing s.code).YieldsAs (checker.typeIn s)
      ((checker.context d).judge (.returnType R x)) (checker.returnIn s x)
  typed : checker.typeIn s x ≠ .error .outOfDepth
  returned : checker.returnIn s x ≠ .error .outOfDepth

/-- The unit that is asked about has learned nothing but answers. -/
theorem recallsAs_typeIn : (checker.typing s.code).RecallsAs (checker.typeIn s) s.code :=
  Typing.recalls_self fun _ hform hknown => checker.typeIn_of_isRecorded ⟨hform, hknown⟩

variable {checker s} {R : List NodeId} {x y f : NodeId}

/-! ### What a node leads to -/

variable (checker) in
/-- Definitions of functions are answered to have no type, at any depth but the lowest one. -/
theorem exists_yields_typeOf_of_isDefinition (hdef : s.code.IsDefinition x) :
    ∃ e, checker.typeIn s x = .error (.fault e) ∧ ∀ d, 0 < d → ∀ R,
      (checker.typing s.code).YieldsAs (checker.typeIn s) ((checker.context d).judge (.typeOf R x))
        (.error (.fault e)) := by
  obtain ⟨e, he⟩ := Typing.exists_typeRule_of_isDefinition (T := checker.typing s.code) hdef
  have hyields : ∀ d, 0 < d → ∀ R, (checker.typing s.code).YieldsAs (checker.typeIn s)
      ((checker.context d).judge (.typeOf R x)) (.error (.fault e)) := by
    intro d hd R
    obtain ⟨d, rfl⟩ := Nat.exists_eq_succ_of_ne_zero (Nat.ne_zero_of_lt hd)
    rw [← he (checker.verdictsIn s) R]
    exact Typing.yields_typeRule_of_isDefinition hdef
  refine ⟨e, ?_, hyields⟩
  obtain ⟨d, -, hask⟩ := checker.exists_size_le_ask_eq s
  unfold typeIn
  rw [hask]
  exact (hyields (d + 1) (Nat.succ_pos d) [] nofun s (checker.recallsAs_typeIn s)).answer

section Leads

variable (hcode : s.code.Descends x) (hx : (checker.typing s.code).Settled R x)
  (hbelow : ∀ R y, TransGen s.code.Leads x y → (checker.typing s.code).Settled R y →
    checker.Reproduces s R y)

include hcode hx hbelow

theorem yields_of_link (hlink : s.code.Link x y) :
    (∀ d, s.code.span s.code.Leads x ≤ d → (checker.typing s.code).YieldsType (checker.typeIn s)
      (checker.context d) (checker.verdictsIn s) R y) ∧
    checker.typeIn s y ≠ .error .outOfDepth := by
  by_cases hdef : s.code.IsDefinition y
  · obtain ⟨e, he, hyields⟩ := checker.exists_yields_typeOf_of_isDefinition hdef
    refine ⟨fun d hd => ?_, he ▸ nofun⟩
    change Typing.YieldsAs _ _ _ (checker.typeIn s y)
    rw [he]
    exact hyields d ((span_pos hlink.lt_size).trans_le hd) R
  · have hlead : s.code.Leads x y := .of_link hlink hdef
    have hy := hbelow R y (.single hlead) (hx.of_leads hlead)
    exact ⟨fun d hd => hy.typeOf d ((hcode.span_lt (.single hlead)).trans_le hd), hy.typed⟩

theorem yields_of_calls (hcall : s.code.Calls x f) :
    (∀ d, s.code.span s.code.Leads x ≤ d → (checker.typing s.code).YieldsAs (checker.typeIn s)
      ((checker.context d).functionType R f) (Typing.functionType (checker.verdictsIn s) R f)) ∧
    Typing.functionType (checker.verdictsIn s) R f ≠ .error .outOfDepth := by
  have hlead : s.code.Leads x f := .of_calls hcall
  have hf := hbelow (f :: R) f (.single hlead) (hx.of_calls hcall)
  refine ⟨fun d hd => Typing.yields_functionType fun _ =>
    hf.returnType d ((hcode.span_lt (.single hlead)).trans_le hd), ?_⟩
  unfold Typing.functionType
  split
  · nofun
  · exact hf.returned

/-- What a statement leaves a function with is reproduced. -/
theorem yields_of_stmt (hstmt : y ∈ s.code.children x) :
    (∀ d, s.code.span s.code.Leads x ≤ d → (checker.typing s.code).YieldsAs (checker.typeIn s)
      ((checker.context d).exitType R y)
      ((checker.typing s.code).exitType (checker.verdictsIn s) R y)) ∧
    (checker.typing s.code).exitType (checker.verdictsIn s) R y ≠ .error .outOfDepth := by
  by_cases hdef : s.code.IsDefinition y
  · obtain ⟨name, params, inlined, hform⟩ := hdef
    have hexit : (checker.typing s.code).exitType (checker.verdictsIn s) R y = .ok .unknown := by
      unfold Typing.exitType
      rw [show (checker.typing s.code).code.form y = _ from hform]
    refine ⟨fun d _ => Typing.yields_exitType (Supply.config_context _ _ _ _) ?_
      fun hnot => absurd ⟨name, params, inlined, hform⟩ hnot, hexit ▸ nofun⟩
    intro value definition hret
    cases hform.symm.trans hret
  · have hlead : s.code.Leads x y := .of_link (.inr hstmt) hdef
    have hlt := hcode.span_lt (.single hlead)
    have hsettled := hx.of_leads hlead
    have hy := hbelow R y (.single hlead) hsettled
    have hvalue : ∀ value definition, s.code.form y = .ret (some value) definition → _ :=
      fun value definition hform => yields_of_link (hcode.of_reaches (.single hlead)) hsettled
        (fun R z hz => hbelow R z (.head hlead hz)) (.of_ret hform)
    refine ⟨fun d hd => Typing.yields_exitType (Supply.config_context _ _ _ _)
      (fun value definition hform => (hvalue value definition hform).1 d (hlt.le.trans hd))
      fun _ => hy.returnType d (hlt.trans_le hd), ?_⟩
    have hanswered : Typing.Answered
        ((checker.typing s.code).exitType (checker.verdictsIn s) R y)
        ((checker.typing s.code).exitType (checker.verdictsIn s) R y) :=
      Typing.transfers_answered.exitType (.refl s.code)
        (fun value definition hform => ⟨rfl, (hvalue value definition hform).2⟩)
        fun _ => ⟨rfl, hy.returned⟩
    exact hanswered.2

/-! ### The rules -/

/-- The plain rule for expressions, applied to the answers, does not run out of depth. -/
theorem typeRule_ne_outOfDepth :
    (checker.typing s.code).typeRule (checker.verdictsIn s) R x ≠ .error .outOfDepth := by
  have hanswered : Typing.Answered
      ((checker.typing s.code).typeRule (checker.verdictsIn s) R x)
      ((checker.typing s.code).typeRule (checker.verdictsIn s) R x) :=
    Typing.transfers_answered.typeRule (fun _ => rfl) (.refl s.code)
      (fun _ _ => ⟨rfl, Typing.identType_ne_outOfDepth _ _ _⟩)
      (fun _ hlink => ⟨rfl, (yields_of_link hcode hx hbelow hlink).2⟩)
      fun _ hcall => ⟨rfl, (yields_of_calls hcode hx hbelow hcall).2⟩
  exact hanswered.2

/-- Unless it is on record, an expression is found to have the type that the plain rule makes of the
answers. -/
theorem learnsAs_typeRule_of_settled {d : Nat} (hd : s.code.span s.code.Leads x ≤ d) :
    (checker.typing s.code).LearnsAs (checker.typeIn s) x
      ((checker.context (d + 1)).judge (.typeOf R x))
      ((checker.typing s.code).typeRule (checker.verdictsIn s) R x) :=
  Typing.learnsAs_typeRule (Supply.spec_context checker.supply _ _ d) hx.names
    (fun name binding hform => hx.resolved x .refl name binding hform)
    (fun _ hlink => (yields_of_link hcode hx hbelow hlink).1 d hd)
    fun _ hcall => (yields_of_calls hcode hx hbelow hcall).1 d hd

/-- **The answer about an expression comes from the answers about what it leads to**, by the
plain rule, unless it is on record. -/
theorem typeIn_eq_typeRule_of_settled (hrecorded : ¬s.code.IsRecorded x) :
    checker.typeIn s x = (checker.typing s.code).typeRule (checker.verdictsIn s) R x := by
  obtain ⟨d, hd, hask⟩ := checker.exists_size_le_ask_eq s
  have hlearns := learnsAs_typeRule_of_settled hcode hx.of_none hbelow
    ((span_le_size _ _ x).trans hd) (typeRule_ne_outOfDepth hcode hx.of_none hbelow) s
    (checker.recallsAs_typeIn s) hrecorded
  calc checker.typeIn s x
      = (checker.typing s.code).typeRule (checker.verdictsIn s) [] x := by
        unfold typeIn
        rw [hask]
        exact hlearns.1
    _ = (checker.typing s.code).typeRule (checker.verdictsIn s) R x := by
        refine Typing.transfers_eq.typeRule (fun _ => rfl) (.refl s.code) (fun _ _ => rfl)
          (fun _ _ => rfl) fun f hf => ?_
        -- No function that is called is being resolved, in either case.
        unfold Typing.functionType
        simp only [List.contains_iff_mem, hx.entered f (.of_calls hf), List.not_mem_nil]
        rfl

theorem yields_typeOf_of_settled {d : Nat} (hd : s.code.span s.code.Leads x ≤ d) :
    (checker.typing s.code).YieldsAs (checker.typeIn s)
      ((checker.context (d + 1)).judge (.typeOf R x)) (checker.typeIn s x) := by
  intro hne t ht
  by_cases hrecorded : t.code.IsRecorded x
  · have hexec : exec ((checker.context (d + 1)).judge (.typeOf R x)) t = _ :=
      (checker.context d).exec_typeRule_of_isRecorded _ R hrecorded
    rw [hexec]
    exact ⟨(ht.sound x hrecorded.1 hrecorded.2).symm, ht, .refl _ _⟩
  -- What is not on record now was not in the beginning.
  · have htype := typeIn_eq_typeRule_of_settled hcode hx hbelow
      fun h => hrecorded (ht.retained x h)
    rw [htype] at hne ⊢
    exact (learnsAs_typeRule_of_settled hcode hx hbelow hd hne t ht hrecorded).2
      fun type h => htype.trans h

/-- The plain rule for bodies does not run out of depth, either. -/
theorem returnTypeRule_ne_outOfDepth :
    (checker.typing s.code).returnTypeRule (checker.verdictsIn s) R x ≠ .error .outOfDepth := by
  have hanswered : Typing.Answered
      ((checker.typing s.code).returnTypeRule (checker.verdictsIn s) R x)
      ((checker.typing s.code).returnTypeRule (checker.verdictsIn s) R x) :=
    Typing.transfers_answered.returnTypeRule (fun _ => rfl) (.refl s.code)
      fun _ hstmt => ⟨rfl, (yields_of_stmt hcode hx hbelow hstmt).2⟩
  exact hanswered.2

/-- The rule for bodies yields what the plain rule makes of the answers. -/
theorem yields_returnTypeRule_of_settled {d : Nat} (hd : s.code.span s.code.Leads x ≤ d) :
    (checker.typing s.code).YieldsAs (checker.typeIn s)
      ((checker.context (d + 1)).judge (.returnType R x))
      ((checker.typing s.code).returnTypeRule (checker.verdictsIn s) R x) :=
  Typing.yields_returnTypeRule fun _ hstmt => (yields_of_stmt hcode hx hbelow hstmt).1 d hd

/-- **The answer about a body comes from the answers about what it leads to.** -/
theorem returnIn_eq_returnTypeRule :
    checker.returnIn s x =
      (checker.typing s.code).returnTypeRule (checker.verdictsIn s) R x := by
  obtain ⟨d, hd, hask⟩ := checker.exists_size_le_ask_eq s
  have hyields := yields_returnTypeRule_of_settled hcode hx.of_none hbelow
    ((span_le_size _ _ x).trans hd)
  unfold returnIn
  rw [hask]
  exact (hyields (returnTypeRule_ne_outOfDepth hcode hx.of_none hbelow) s
    (checker.recallsAs_typeIn s)).answer

end Leads

/-- **The answers are reproduced** about a node whose evaluation does not come back to itself, and
from which only functions are called that are resolved and not recursive. -/
theorem reproduces (hcode : s.code.Descends x) (hx : (checker.typing s.code).Settled R x) :
    checker.Reproduces s R x := by
  induction hn : s.code.span s.code.Leads x using Nat.strong_induction_on generalizing R x with
  | h n ih =>
    subst hn
    have hbelow : ∀ R y, TransGen s.code.Leads x y → (checker.typing s.code).Settled R y →
        checker.Reproduces s R y := fun R y hlead hy =>
      ih _ (hcode.span_lt hlead) (hcode.of_reaches hlead.to_reflTransGen) hy rfl
    refine ⟨fun d hd => ?_, fun d hd => ?_, ?_, ?_⟩
    · obtain ⟨d, rfl⟩ := Nat.exists_eq_succ_of_ne_zero (Nat.ne_zero_of_lt hd)
      exact yields_typeOf_of_settled hcode hx hbelow (Nat.le_of_lt_succ hd)
    · obtain ⟨d, rfl⟩ := Nat.exists_eq_succ_of_ne_zero (Nat.ne_zero_of_lt hd)
      rw [returnIn_eq_returnTypeRule hcode hx hbelow]
      exact yields_returnTypeRule_of_settled hcode hx hbelow (Nat.le_of_lt_succ hd)
    · by_cases hrecorded : s.code.IsRecorded x
      · rw [checker.typeIn_of_isRecorded hrecorded]
        nofun
      · rw [typeIn_eq_typeRule_of_settled hcode hx hbelow hrecorded]
        exact typeRule_ne_outOfDepth hcode hx hbelow
    · rw [returnIn_eq_returnTypeRule hcode hx hbelow]
      exact returnTypeRule_ne_outOfDepth hcode hx hbelow

end Checker

end ContractLang
