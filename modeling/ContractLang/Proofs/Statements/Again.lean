import ContractLang.Proofs.Statements.Repeat

/-!
# Checking a program twice

A program that has been accepted is accepted again, unless a name was used before it had the
type that it has in the end (`ContractLang.Checker.ask_statements_again`). A name comes to have
a type by an assignment or by a call, and what was made of a name without a type before
need not suit that type.

What matters are the names that the types of a statement's own expressions come from, through
operands, arguments and the values that functions return
(`ContractLang.CompilationUnit.ComesTo`), at the time when the check of the statement
begins (`ContractLang.CompilationUnit.FirmAt`). In the course of the check of a program, this is
after the statements before it, and after what is done first for the statements around it
(`ContractLang.Checker.Begins`).
-/

namespace ContractLang

open Check Typing

variable {σ : Type}

/-! ### The expressions of a statement -/

/-- The statements that have others in them. -/
def Form.IsCompound : Form → Prop
  | .program | .function .. | .block | .branch _ | .loop _ => True
  | _ => False

namespace CompilationUnit

/-- The expressions that a statement evaluates, apart from those of the statements in it: its
operands, or the statement itself if it is an expression. -/
def expressions (code : CompilationUnit) (x : NodeId) : List NodeId :=
  if (code.form x).isExpression then [x] else (code.form x).operands

/-- The questions about types that a statement comes to: those about its expressions, and what
these raise. -/
def ComesTo (code : CompilationUnit) (x : NodeId) (subject : Subject) : Prop :=
  ∃ y ∈ code.expressions x, Relation.ReflTransGen (Subject.Raises code) (.expr y) subject

/-- The names that a statement comes to have the types in a tree of scopes that they have in the
unit. -/
def FirmAt (code : CompilationUnit) (x : NodeId) (t : ScopeTree) : Prop :=
  Firm code (fun z => code.ComesTo x (.expr z)) t code.scopes

variable {code code' : CompilationUnit} {x y : NodeId}

theorem encloses_comesTo (code : CompilationUnit) (x : NodeId) : code.Encloses (code.ComesTo x) :=
  fun _ _ ⟨y, hy, hreach⟩ hraises => ⟨y, hy, hreach.tail hraises⟩

theorem RefinesTo.expressions (h : code.RefinesTo code') (x : NodeId) :
    code'.expressions x = code.expressions x := by
  unfold CompilationUnit.expressions
  rw [h.form]

/-- An expression of a statement is this itself, or an operand of it. -/
theorem rank_le_of_mem_expressions (hcode : code.Acyclic) (h : y ∈ code.expressions x) :
    code.rank y ≤ code.rank x := by
  unfold CompilationUnit.expressions at h
  split at h
  · exact (congrArg code.rank (List.mem_singleton.mp h)).le
  · exact (rank_lt_of_link hcode (.inl h)).le

end CompilationUnit

/-! ### Single statements -/

namespace Context

variable {ctx : Context σ} {T : Typing} {start : CompilationUnit} {Q : NodeId → Prop}
  {x : NodeId} {s t : CheckState σ}

section Faithful

variable (h : ctx.Faithful T start Q)

include h

/-- A statement without others in it is checked again if its expressions are. -/
theorem repeats_checkForm (hx : ∀ y ∈ start.expressions x, Q y) (scope : ScopeId)
    (hsimple : ¬(start.form x).IsCompound) :
    Repeats T start (ctx.checkForm x scope (start.form x)) := by
  have hexpr : ∀ {y}, y ∈ start.expressions x → Repeats T start (discard (ctx.checkExpr y)) :=
    fun hy => (repeats_checkExpr h (hx _ hy)).discard
  unfold CompilationUnit.expressions at hx hexpr
  unfold checkForm
  cases hform : start.form x <;> rw [hform] at hx hexpr hsimple
  case program | function | block | branch | loop => exact absurd trivial hsimple
  case ret value definition =>
    cases value with
    | some value => exact hexpr List.mem_cons_self
    | none => exact .pure ()
  case breakLoop value =>
    cases value with
    | some value => exact hexpr List.mem_cons_self
    | none => exact .pure ()
  case abort | innerBegin | innerSubmit | const => exact .pure ()
  case innerField field value => exact repeats_checkInnerField h (hx value List.mem_cons_self) hform
  case assign targets value | declare targets value =>
    refine repeats_checkTargets h targets (hx value List.mem_cons_self) ?_
    rw [hform]
    cases targets <;> exact Nat.succ_pos _
  all_goals exact hexpr List.mem_cons_self

/-- There is an enduring answer for an expression that has been checked. -/
theorem endures_of_checkExpr (hx : Q x) (hs : start.RefinesTo s.code)
    (hexec : exec (discard (ctx.checkExpr x)) s = (.ok (), t)) (ht : t.code.RefinesTo T.code) :
    ∃ a, Endures ⟨T.spec, T.config, t.code⟩ T.code.scopes (.expr x) a := by
  rw [discard_eq_bind] at hexec
  obtain ⟨type, u, hcheck, hpure⟩ := exec_bind_eq_ok hexec
  cases hpure
  obtain ⟨a, v, htype, hcalls⟩ := exec_bind_eq_ok hcheck
  obtain ⟨⟨⟩, w, hcalls, hpure⟩ := exec_bind_eq_ok hcalls
  cases hpure
  have hspared : T.Spared v.code t := (h.spares v.code _).after (.refl _) hcalls
  exact ⟨type, hspared.endures ht.scopes
    (h.endures hx hs htype (hspared.refines.trans ht))⟩

end Faithful

/-- What is done first for a statement with others in it has led from one state to another, in
which the check of those begins. -/
def Enters (ctx : Context σ) (x : NodeId) (s t : CheckState σ) : Prop :=
  match s.code.form x with
  | .program | .block => t = s
  | .branch cond | .loop cond =>
    exec (do discard (ctx.checkExpr cond); ctx.expectCondition [] cond) s = (.ok (), t)
  | .function name _ _ => exec (bindDefinition (s.code.node x).scope name x) s = (.ok (), t)
  | _ => False

section Enters

variable {name : String} {params : List Param} {inlined : Bool} {cond : NodeId}

theorem enters_sequence (hform : s.code.form x = .program ∨ s.code.form x = .block) :
    ctx.Enters x s s := by
  unfold Enters
  rcases hform with hform | hform
  · rw [hform]
  · rw [hform]

theorem enters_guarded (hform : s.code.form x = .branch cond ∨ s.code.form x = .loop cond)
    (h : exec (do discard (ctx.checkExpr cond); ctx.expectCondition [] cond) s = (.ok (), t)) :
    ctx.Enters x s t := by
  unfold Enters
  rcases hform with hform | hform
  · rw [hform]
    exact h
  · rw [hform]
    exact h

theorem enters_function (hform : s.code.form x = .function name params inlined)
    (h : exec (bindDefinition (s.code.node x).scope name x) s = (.ok (), t)) :
    ctx.Enters x s t := by
  unfold Enters
  rw [hform]
  exact h

theorem Enters.isCompound (h : ctx.Enters x s t) : (s.code.form x).IsCompound := by
  unfold Enters at h
  cases hform : s.code.form x
  case program | function | block | branch | loop => trivial
  all_goals
    rw [hform] at h
    exact h.elim

end Enters

end Context

namespace Context

variable {ctx : Context σ} {T : Typing} {x : NodeId} {s t : CheckState σ}

/-- The check of a statement, which has led to a state, is repeated in the end, and answers endure
for what the statement leaves its function with. -/
structure Reaffirms (T : Typing) (x : NodeId) (a : Check σ Unit) (t : CheckState σ) : Prop where
  replays : Replays T.code a ()
  covers : ∀ subject, t.code.exit? x = some subject →
    Covers ⟨T.spec, T.config, t.code⟩ T.code.scopes subject

/-- The same for all statements in another one. -/
structure ReaffirmsBody (ctx : Context σ) (T : Typing) (x : NodeId) (t : CheckState σ) : Prop where
  replays : Replays T.code (ctx.checkChildren x) ()
  covers : Covers ⟨T.spec, T.config, t.code⟩ T.code.scopes (.body x)

/-- **Statements in sequence are reaffirmed** if each of them is, at its place. -/
theorem reaffirmsBody (hctx : ∀ base, ctx.Keeps (T.Spared base))
    (h : exec (ctx.checkChildren x) s = (.ok (), t)) (ht : T.Follows t.code)
    (hchild : ∀ before child after u v, s.code.children x = before ++ child :: after →
      exec (before.forM fun y => ctx.judge (.statement y)) s = (.ok (), u) →
      exec (ctx.judge (.statement child)) u = (.ok (), v) → T.Follows v.code →
      Reaffirms T child (ctx.judge (.statement child)) v) : ctx.ReaffirmsBody T x t := by
  have hst : T.Spared s.code t := (keeps_checkChildren (hctx _)).after (.refl _) h
  have hfinal := hst.refines.trans ht.refines
  have hsplit : ∀ child ∈ s.code.children x, ∃ v : CheckState σ,
      Reaffirms T child (ctx.judge (.statement child)) v ∧ T.Spared v.code t := by
    intro child hmem
    obtain ⟨before, after, u, v, hchildren, hbefore, hchecked, hafter⟩ :=
      exists_of_exec_forM (f := fun y => ctx.judge (.statement y)) h hmem
    have hvt : T.Spared v.code t := (Keeps.forM fun y _ => hctx v.code _).after (.refl _) hafter
    exact ⟨v, hchild before child after u v hchildren hbefore hchecked (hvt.trans ht), hvt⟩
  refine ⟨replays_checkChildren fun child hmem => ?_,
    covers_body fun child hmem subject hexit => ?_⟩
  · obtain ⟨v, hv, -⟩ := hsplit child (hfinal.children x ▸ hmem)
    exact hv.replays
  · obtain ⟨v, hv, hvt⟩ := hsplit child (hst.refines.children x ▸ hmem)
    exact (hv.covers subject (hvt.refines.exit? child ▸ hexit)).spares hvt ht.refines.scopes

/-- A statement without others in it is reaffirmed if questions about its expressions are. -/
theorem reaffirms_simple {Q : NodeId → Prop} (h : ctx.Faithful T s.code Q)
    (hx : ∀ y ∈ s.code.expressions x, Q y) (hsimple : ¬(s.code.form x).IsCompound)
    (hexec : exec (ctx.statementRule x) s = (.ok (), t)) (ht : T.Follows t.code) :
    Reaffirms T x (ctx.statementRule x) t := by
  have hst : T.Spared s.code t :=
    (keeps_statementRule (h.spares _) (invariant_spares _)).after (.refl _) hexec
  have hcheck := exec_checkForm_of_statementRule hexec
  refine ⟨replays_statementRule (hst.refines.trans ht.refines)
    ((repeats_checkForm h hx _ hsimple).replays (.refl _) hcheck ht), fun subject hexit => ?_⟩
  rw [hst.refines.exit?] at hexit
  unfold CompilationUnit.exit? at hexit
  unfold CompilationUnit.expressions at hx
  cases hform : s.code.form x <;> rw [hform] at hexit hx hcheck hsimple
  case ret value definition =>
    cases value with
    | some value =>
      cases hexit
      exact endures_of_checkExpr h (hx value List.mem_cons_self) (.refl _) hcheck ht.refines
    | none => cases hexit
  case branch | block => exact absurd trivial hsimple
  all_goals cases hexit

/-- A condition is repeated before the statements that depend on it. -/
theorem reaffirms_guarded {Q : NodeId → Prop} {cond : NodeId} (h : ctx.Faithful T s.code Q)
    (hx : Q cond) (hform : s.code.form x = .branch cond ∨ s.code.form x = .loop cond)
    (hexec : exec (ctx.checkGuarded x cond) s = (.ok (), t)) (ht : T.Follows t.code)
    (hbody : ∀ u v, ctx.Enters x s u → exec (ctx.checkChildren x) u = (.ok (), v) →
      T.Follows v.code → ctx.ReaffirmsBody T x v) :
    Replays T.code (ctx.checkGuarded x cond) () ∧
      Covers ⟨T.spec, T.config, t.code⟩ T.code.scopes (.body x) := by
  have hguarded : ctx.checkGuarded x cond = (do
      discard (ctx.checkExpr cond)
      ctx.expectCondition [] cond) >>= fun _ => ctx.checkChildren x := by
    simp only [checkGuarded, bind_assoc]
  rw [hguarded] at hexec ⊢
  obtain ⟨⟨⟩, u, hcond, hchildren⟩ := exec_bind_eq_ok hexec
  have hu : T.Follows u.code :=
    ((keeps_checkChildren (h.spares u.code)).after (.refl _) hchildren : T.Spared u.code t).trans ht
  have hrepeats : Repeats T s.code (do
      discard (ctx.checkExpr cond)
      ctx.expectCondition [] cond : Check σ Unit) :=
    (repeats_checkExpr h hx).discard.bind fun _ => repeats_expectCondition h hx
  obtain ⟨hreplays, hcovers⟩ := hbody u t (enters_guarded hform hcond) hchildren ht
  exact ⟨(hrepeats.replays (.refl _) hcond hu).bind hreplays, hcovers⟩

end Context

namespace Supply

variable {supply : Supply σ} {T : Typing} {d : Nat} {x : NodeId} {s t : CheckState σ}

/-- A function is checked again if its statements are, since its return type endures. -/
theorem replays_checkFunction (hsupply : ∀ code, supply.Bodiless code) (hcode : T.code.Acyclic)
    (hd : (T.code.size + 1) * (T.code.size + 1) ≤ d) {type : Ty}
    (h : exec ((supply.context T.spec d T.config).checkFunction x) s = (.ok type, t))
    (ht : T.Follows t.code)
    (hbody : ∀ u v, (supply.context T.spec d T.config).Enters x s u →
      exec ((supply.context T.spec d T.config).checkChildren x) u = (.ok (), v) →
      T.Follows v.code → (supply.context T.spec d T.config).ReaffirmsBody T x v) :
    Replays T.code ((supply.context T.spec d T.config).checkFunction x) type := by
  have hctx : ∀ base, (supply.context T.spec d T.config).Keeps (T.Spared base) :=
    fun base => Supply.spares hsupply base d
  obtain ⟨name, params, inlined, u, v, w, hform, hbound, hchildren, hreturns, htype, hname⟩ :=
    Context.parts_of_checkFunction h
  have hsu : T.Spared s.code u := Context.repeats_bindDefinition.spares_exec (.refl _) hbound
  have huv : T.Spared u.code v := (Context.keeps_checkChildren (hctx _)).after (.refl _) hchildren
  have hvw : T.Spared v.code w := (Context.keeps_functionType (hctx _) []).after (.refl _) htype
  have hwt : T.Spared w.code t := Context.repeats_reconcile.spares_exec (.refl _) hname
  have hw : T.Follows w.code := hwt.trans ht
  have hv : T.Follows v.code := hvw.trans hw
  have hs : s.code.RefinesTo T.code := (hsu.refines.trans huv.refines).trans hv.refines
  obtain ⟨hreplays, hcovers⟩ := hbody u v (Context.enters_function hform hbound) hchildren hv
  -- The answer to the question about the body endures, and is that about the function.
  have hends := Supply.ends_of_exec (R := [x])
    (show exec ((supply.context T.spec d T.config).visit [x] (.body x)) v = _ from htype)
    (hsupply v.code)
  have hendures := hv.endures (.refl _) (hends.endures_body hcovers).2
  refine Context.replays_checkFunction ((hs.form x).trans hform) ?_ hreplays
    (by rwa [hv.refines.alwaysReturns])
    (replays_visit hsupply hendures hcode
      (show T.need [x] x < d from (T.need_lt [x] x).trans_le hd))
    (Context.repeats_reconcile.replays (.refl _) hname ht)
  rw [hs.scope]
  exact Context.repeats_bindDefinition.replays (.refl _) hbound (huv.trans hv)

/-- **A statement is reaffirmed** if the names that it comes to have the types that they have in
the end, and the statements in it are reaffirmed. -/
theorem reaffirms_statementRule (hsupply : ∀ code, supply.Bodiless code) (hcode : T.code.Acyclic)
    (hd : (T.code.size + 1) * (T.code.size + 1) + T.code.rank x < d)
    (hfirm : T.code.FirmAt x s.code.scopes)
    (h : exec ((supply.context T.spec d T.config).statementRule x) s = (.ok (), t))
    (ht : T.Follows t.code)
    (hbody : ∀ u v, (supply.context T.spec d T.config).Enters x s u →
      exec ((supply.context T.spec d T.config).checkChildren x) u = (.ok (), v) →
      T.Follows v.code → (supply.context T.spec d T.config).ReaffirmsBody T x v) :
    Context.Reaffirms T x ((supply.context T.spec d T.config).statementRule x) t := by
  have hctx : ∀ base, (supply.context T.spec d T.config).Keeps (T.Spared base) :=
    fun base => Supply.spares hsupply base d
  have hst : T.Spared s.code t :=
    (Context.keeps_statementRule (hctx _) (invariant_spares _)).after (.refl _) h
  have hs := hst.refines.trans ht.refines
  have hfaithful := Supply.faithful hsupply hcode hs (T.code.encloses_comesTo x) hfirm d
  have hexpressions : ∀ y ∈ s.code.expressions x, T.code.ComesTo x (.expr y) ∧
      (T.code.size + 1) * (T.code.size + 1) + T.code.rank y < d := by
    intro y hy
    rw [← hs.expressions] at hy
    have hrank := CompilationUnit.rank_le_of_mem_expressions hcode hy
    exact ⟨⟨y, hy, .refl⟩, by omega⟩
  by_cases hsimple : (s.code.form x).IsCompound
  swap
  · exact Context.reaffirms_simple hfaithful hexpressions hsimple h ht
  have hcheck := Context.exec_checkForm_of_statementRule h
  suffices hform : Replays T.code ((supply.context T.spec d T.config).checkForm x
      (s.code.node x).scope (s.code.form x)) () ∧ ∀ subject, s.code.exit? x = some subject →
      Covers ⟨T.spec, T.config, t.code⟩ T.code.scopes subject by
    refine ⟨Context.replays_statementRule hs hform.1, fun subject hexit => hform.2 subject ?_⟩
    rwa [hst.refines.exit?] at hexit
  unfold CompilationUnit.exit?
  unfold CompilationUnit.expressions at hexpressions
  cases hform : s.code.form x <;> rw [hform] at hcheck hsimple hexpressions
  case program =>
    exact ⟨(hbody s t (Context.enters_sequence (.inl hform)) hcheck ht).replays, by simp⟩
  case block =>
    obtain ⟨hreplays, hcovers⟩ := hbody s t (Context.enters_sequence (.inr hform)) hcheck ht
    exact ⟨hreplays, fun _ hexit => by cases hexit; exact hcovers⟩
  case function name params inlined =>
    rw [Context.checkForm, discard_eq_bind] at hcheck ⊢
    obtain ⟨type, u, hfunction, hpure⟩ := exec_bind_eq_ok hcheck
    cases hpure
    have hreplays := replays_checkFunction hsupply hcode (by omega) hfunction ht hbody
    exact ⟨hreplays.bind (.pure ()), by simp⟩
  case branch cond =>
    obtain ⟨hreplays, hcovers⟩ := Context.reaffirms_guarded hfaithful
      (hexpressions cond List.mem_cons_self) (.inl hform) hcheck ht hbody
    exact ⟨hreplays, fun _ hexit => by cases hexit; exact hcovers⟩
  case loop cond =>
    exact ⟨(Context.reaffirms_guarded hfaithful (hexpressions cond List.mem_cons_self) (.inr hform)
      hcheck ht hbody).1, by simp⟩
  all_goals exact hsimple.elim

end Supply

/-! ### Programs -/

namespace Checker

variable {checker : Checker σ} {p : NodeId} {s t v : CheckState σ}

/-- In the course of the check of the statements in a node, at some depth and from some state,
that of a statement begins in a state: after those of the statements before it, and what is
done first for the statements around it. -/
inductive Begins (checker : Checker σ) : Nat → NodeId → CheckState σ → NodeId → CheckState σ → Prop
  | child {d : Nat} {body stmt : NodeId} {before after : List NodeId} {s u : CheckState σ}
      (hchildren : s.code.children body = before ++ stmt :: after)
      (hbefore : exec (before.forM fun x => (checker.context d).judge (.statement x)) s =
        (.ok (), u)) : Begins checker d body s stmt u
  | inside {d : Nat} {body outer stmt : NodeId} {s u w t : CheckState σ}
      (houter : Begins checker (d + 1) body s outer u)
      (henters : (checker.context d).Enters outer u w)
      (h : Begins checker d outer w stmt t) : Begins checker (d + 1) body s stmt t

/-- **All statements in a node are reaffirmed** if the names that they come to have the types that
they have in the end, whenever the check of one begins. -/
theorem reaffirmsBody_checkChildren {code : CompilationUnit} (hparser : checker.parser = none)
    (hcode : code.Acyclic) {d : Nat} {x : NodeId}
    (hd : (code.size + 1) * (code.size + 1) + code.rank x < d)
    (h : exec ((checker.context d).checkChildren x) s = (.ok (), t))
    (ht : (checker.typing code).Follows t.code)
    (hfirm : ∀ stmt u, checker.Begins d x s stmt u → code.FirmAt stmt u.code.scopes) :
    (checker.context d).ReaffirmsBody (checker.typing code) x t := by
  have hsupply := checker.bodiless hparser
  induction d generalizing x s t with
  | zero => exact absurd hd (Nat.not_lt_zero _)
  | succ d ih =>
    have hs : s.code.RefinesTo code :=
      ((Context.keeps_checkChildren (Supply.spares hsupply s.code (d + 1))).after (.refl _) h :
        (checker.typing code).Spared s.code t).refines.trans ht.refines
    refine Context.reaffirmsBody (fun base => Supply.spares hsupply base (d + 1)) h ht
      fun before child after u v hchildren hbefore hchecked hv => ?_
    have hbegins : checker.Begins (d + 1) x s child u := .child hchildren hbefore
    have hlink : code.Link x child := .inr (by
      rw [hs.children, hchildren]
      exact List.mem_append_right _ List.mem_cons_self)
    have hrank := CompilationUnit.rank_lt_of_link hcode hlink
    refine Supply.reaffirms_statementRule (T := checker.typing code) hsupply hcode
      (show (code.size + 1) * (code.size + 1) + code.rank child < d by omega)
      (hfirm child u hbegins) hchecked hv fun w w' henters hinside hw' => ?_
    exact ih (by omega) hinside hw' fun stmt t hstmt => hfirm stmt t (.inside hbegins henters hstmt)

/-- **An accepted program is accepted again**, and no descriptor changes any more, if the names that
a statement comes to have the types that they have in the end already when its check begins. -/
theorem ask_statements_again (checker : Checker σ) (hparser : checker.parser = none)
    (hcode : s.code.Acyclic) (h : checker.ask (.statements p) s = (.ok (), v))
    (hnames : ∀ x u, checker.Begins (checker.depth s.code) p s x u →
      v.code.FirmAt x u.code.scopes) :
    ∃ w, checker.ask (.statements p) v = (.ok (), w) ∧ w.code.scopes = v.code.scopes := by
  have hexec : exec ((checker.context (checker.depth s.code)).checkChildren p) s = (.ok (), v) := h
  have hsv : s.code.RefinesTo v.code :=
    ((Context.keeps_checkChildren (Supply.spares (checker.bodiless hparser) s.code _)).after
      (.refl _) hexec : (checker.typing v.code).Spared s.code v).refines
  have hdepth : (v.code.size + 1) * (v.code.size + 1) + v.code.rank p < checker.depth s.code := by
    have hrank := v.code.rank_le_size p
    refine Nat.lt_add_right _ ?_
    unfold ownDepth
    rw [hsv.size] at hrank ⊢
    nlinarith
  have hsame : checker.depth v.code = checker.depth s.code := by
    unfold depth ownDepth
    rw [hsv.size]
  obtain ⟨w, hw, hstill⟩ := (reaffirmsBody_checkChildren hparser (hsv.acyclic_iff.mpr hcode) hdepth
    hexec (.refl _) hnames).replays v (.refl _)
  refine ⟨w, ?_, hstill.scopes⟩
  change exec ((checker.context (checker.depth v.code)).checkChildren p) v = _
  rw [hsame, hw]

/-- Where no statement has others in it, each begins after those before it. -/
theorem Begins.exists_of_simple (hparser : checker.parser = none) {d : Nat} {x : NodeId}
    {u : CheckState σ} (h : checker.Begins d p s x u)
    (hsimple : ∀ child ∈ s.code.children p, ¬(s.code.form child).IsCompound) :
    ∃ before after, s.code.children p = before ++ x :: after ∧
      exec (before.forM fun y => (checker.context d).judge (.statement y)) s = (.ok (), u) := by
  induction h with
  | child hchildren hbefore => exact ⟨_, _, hchildren, hbefore⟩
  | @inside d body outer stmt s u w t houter henters _ ihouter =>
    obtain ⟨before, after, hchildren, hbefore⟩ := ihouter hsimple
    have hsu : (checker.typing s.code).Spared s.code u := (Keeps.forM fun y _ =>
      Supply.spares (checker.bodiless hparser) s.code (d + 1) (.statement y)).after
      (.refl _) hbefore
    have hcompound := henters.isCompound
    rw [hsu.refines.form] at hcompound
    exact absurd hcompound (hsimple outer (hchildren ▸ List.mem_append_right _ List.mem_cons_self))

/-- A program that assigns to a variable, and then the variable to another one. -/
def forwarded : CompilationUnit where
  nodes := #[.ofForm 0 (.literal .uint64 "1"), .ofForm 0 (.assign (.single "x") 0),
    .ofForm 0 (.ident "x"), .ofForm 0 (.assign (.single "y") 2),
    { Node.ofForm 0 .program with children := [1, 3] }]
  scopes := ⟨#[{ Scope.fresh "global" none 0 with
    entries := [("x", ⟨"x", .unknown, .var 0⟩), ("y", ⟨"y", .unknown, .var 1⟩)] }], .initial⟩

/-- The variable has its type before it is used. -/
theorem ask_statements_again_forwarded :
    let checker : Checker Unit := ⟨Standard.spec, .strict, none⟩
    let v := (checker.ask (.statements 4) ⟨forwarded, ()⟩).2
    ∃ w, checker.ask (.statements 4) v = (.ok (), w) ∧ w.code.scopes = v.code.scopes := by
  intro checker v
  refine ask_statements_again checker rfl (s := ⟨forwarded, ()⟩)
    (CompilationUnit.acyclic_of_lt (CompilationUnit.link_lt_of_forall (by decide)))
    (Prod.ext rfl rfl) fun x u hbegins => ?_
  have hsimple : ∀ child ∈ [1, 3], ¬(forwarded.form child).IsCompound := by
    simp only [List.forall_mem_cons]
    exact ⟨id, id, nofun⟩
  obtain ⟨before, after, hchildren, hbefore⟩ := hbegins.exists_of_simple rfl hsimple
  change [1, 3] = before ++ x :: after at hchildren
  have hlinks : ∀ a b, v.code.Link a b → b < a := CompilationUnit.link_lt_of_forall (by decide)
  have hidents : ∀ a < v.code.size, v.code.form a matches .ident _ → a = 2 := by decide
  rintro z ⟨y, hy, hreach⟩ name d d' hform hd hd'
  obtain rfl : z = 2 := hidents z (CompilationUnit.lt_size_of_form (by rw [hform]; nofun))
    (by rw [hform])
  cases hform
  cases before with
  | nil =>
    -- The first statement comes to a literal only.
    cases hchildren
    obtain rfl : y = 0 := List.mem_singleton.mp hy
    obtain heq | ⟨other, hraises, -⟩ := hreach.cases_head
    · cases heq
    · cases hraises with
      | operand hx hlink => exact absurd (hlinks 0 _ hlink) (Nat.not_lt_zero _)
      | callee hcalls => cases hcalls.choose_spec.1
  | cons first rest =>
    -- When the second one begins, the first one has been checked.
    cases rest with
    | nil =>
      cases hchildren
      cases hbefore
      cases hd
      cases hd'
      rfl
    | cons second rest => simp at hchildren

/-- A program is accepted, but not once more. -/
def Recants (checker : Checker Unit) (code : CompilationUnit) (p : NodeId) : Prop :=
  checker.parser = none ∧ code.Acyclic ∧
    ∃ v, checker.ask (.statements p) ⟨code, ()⟩ = (.ok (), v) ∧
      (checker.ask (.statements p) v).1 ≠ .ok ()

/-- A program that takes a variable for bytes, and then assigns a number to it. -/
def patched : CompilationUnit where
  nodes := #[.ofForm 0 (.ident "x"), .ofForm 0 (.cast .bytes 0), .ofForm 0 (.literal .uint64 "1"),
    .ofForm 0 (.assign (.single "x") 2), { Node.ofForm 0 .program with children := [1, 3] }]
  scopes := ⟨#[{ Scope.fresh "global" none 0 with
    entries := [("x", ⟨"x", .unknown, .var 0⟩)] }], .initial⟩

/-- The same with a function that returns the variable. -/
def patchedReturn : CompilationUnit where
  nodes := #[.ofForm 0 (.ident "x"), .ofForm 0 (.ret (some 0) none),
    { Node.ofForm 0 (.function "f" [] false) with children := [1] }, .ofForm 0 (.call "f"),
    .ofForm 0 (.cast .bytes 3), .ofForm 0 (.literal .uint64 "1"),
    .ofForm 0 (.assign (.single "x") 5), { Node.ofForm 0 .program with children := [4, 6, 2] }]
  scopes := ⟨#[{ Scope.fresh "global" none 0 with
    entries := [("x", ⟨"x", .unknown, .var 0⟩), ("f", ⟨"f", .unknown, .func (.resolved 2)⟩)] }],
    .initial⟩

/-- **Programs are not accepted again** where the type of a name is found out after its use, in a
statement or in a function that has been called. -/
theorem recants :
    let checker : Checker Unit := ⟨Standard.spec, .strict, none⟩
    checker.Recants patched 4 ∧ checker.Recants patchedReturn 7 := by
  exact ⟨⟨rfl, CompilationUnit.acyclic_of_lt (CompilationUnit.link_lt_of_forall (by decide)),
      _, Prod.ext rfl rfl, nofun⟩,
    ⟨rfl, CompilationUnit.acyclic_of_lt (CompilationUnit.link_lt_of_forall (by decide)),
      _, Prod.ext rfl rfl, nofun⟩⟩

end Checker

end ContractLang
