import ContractLang.Proofs.Statements.Enduring
import ContractLang.Proofs.Statements.WellTyped

/-!
# Going through a check again

A part of a check that has succeeded is gone through again, in the unit that the whole check
has led to (`ContractLang.Check.Replays`): it succeeds again, with the same answer, and all
that was found out remains as it is. This is the case if the questions about types that were
answered on the way have enduring answers, and it need be shown of single questions and
of the other effects only, since it carries over to sequences, conditions and loops
(`ContractLang.Check.Repeats`).

This file deals with what is done for one statement, apart from the statements in it: the
walk over an expression (`ContractLang.Supply.faithful`) and assignments.
-/

namespace ContractLang

open Check

variable {σ α β : Type}

/-- A unit has become another one, and nothing has been found out meanwhile. -/
structure CompilationUnit.Still (code code' : CompilationUnit) : Prop where
  refines : code.RefinesTo code'
  scopes : code'.scopes = code.scopes
  isRecorded : ∀ x, code'.IsRecorded x → code.IsRecorded x
  definition : ∀ x, (code'.node x).definition = (code.node x).definition

namespace CompilationUnit.Still

variable {code code' : CompilationUnit} {id : NodeId}

theorem refl (code : CompilationUnit) : code.Still code :=
  ⟨.refl code, rfl, fun _ => id, fun _ => rfl⟩

theorem setTargetTypes (h : code.Still code') {types : List Ty} (hform : 0 < (code.form id).arity) :
    code.Still (code'.setTargetTypes id types) where
  refines := h.refines.setTargetTypes hform
  scopes := h.scopes
  isRecorded x hx := h.isRecorded x (isRecorded_setTargetTypes.mp hx)
  definition x := by
    rw [← h.definition]
    exact field_modifyNode Node.definition fun _ => rfl

theorem setInnerType (h : code.Still code') {field : String} {value : NodeId} {type : Ty}
    (hform : code.form id = .innerField field value) : code.Still (code'.setType id type) where
  refines := h.refines.setInnerType hform
  scopes := h.scopes
  isRecorded x hx := h.isRecorded x
    ((isRecorded_setInnerType ((h.refines.form id).trans hform)).mp hx)
  definition x := by
    rw [← h.definition]
    exact field_modifyNode Node.definition fun _ => rfl

end CompilationUnit.Still

/-! ### Replays -/

/-- Wherever nothing has been found out since `code`, a computation gives an answer, and finds
out nothing. -/
def Check.Replays (code : CompilationUnit) (a : Check σ α) (x : α) : Prop :=
  ∀ w : CheckState σ, code.Still w.code → ∃ w', exec a w = (.ok x, w') ∧ code.Still w'.code

namespace Check.Replays

variable {code : CompilationUnit} {a b : Check σ α} {x : α} {y : β} {f : α → Check σ β}

theorem pure (x : α) : Replays code (pure x : Check σ α) x := fun w hw => ⟨w, rfl, hw⟩

theorem bind (h : Replays code a x) (hf : Replays code (f x) y) : Replays code (a >>= f) y := by
  intro w hw
  obtain ⟨w', hexec, hw'⟩ := h w hw
  obtain ⟨w'', hexec', hw''⟩ := hf w' hw'
  exact ⟨w'', by rw [exec_bind, hexec]; exact hexec', hw''⟩

theorem congr (h : Replays code b x) (hexec : ∀ w, code.Still w.code → exec a w = exec b w) :
    Replays code a x := by
  intro w hw
  rw [hexec w hw]
  exact h w hw

theorem located (h : Replays code a x) (position : Option Position) :
    Replays code (located position a) x := by
  intro w hw
  obtain ⟨w', hexec, hw'⟩ := h w hw
  exact ⟨w', by rw [exec_located, hexec], hw'⟩

theorem rejectIf {bad : Prop} [Decidable bad] {failure : Check σ Unit} (h : ¬bad) :
    Replays code (rejectIf bad failure) () := by
  unfold Check.rejectIf
  rw [if_neg h]
  exact pure ()

end Check.Replays

/-! ### Computations that are repeated -/

/-- What endures in `base` does so in the unit of a state, up to the one that is typed. -/
abbrev Typing.Spared (T : Typing) (base : CompilationUnit) (s : CheckState σ) : Prop :=
  base.Spares T.spec T.config T.code.scopes s.code

/-- The unit that is typed comes after another one, and what endures there does so still. -/
abbrev Typing.Follows (T : Typing) (code : CompilationUnit) : Prop :=
  code.Spares T.spec T.config T.code.scopes T.code

/-- From `start` on, a computation that leads towards the unit that is typed in `T` spares what
endures there, and can be gone through again in the end. -/
structure Check.Repeats (T : Typing) (start : CompilationUnit) (a : Check σ α) : Prop where
  spares : ∀ base, start.RefinesTo base → Keeps (T.Spared base) a
  replays : ∀ {s x t}, start.RefinesTo s.code → exec a s = (.ok x, t) → T.Follows t.code →
    Replays T.code a x

namespace Check.Repeats

variable {T : Typing} {start : CompilationUnit} {a b : Check σ α} {s t : CheckState σ}

theorem spares_exec (h : Repeats T start a) (hs : start.RefinesTo s.code) {r : Except Halt α}
    (hexec : exec a s = (r, t)) : T.Spared s.code t :=
  (h.spares s.code hs).after (.refl _) hexec

theorem pure (x : α) : Repeats T start (pure x : Check σ α) where
  spares _ _ := .pure x
  replays _ hexec _ := by
    cases hexec
    exact .pure x

/-- What never succeeds need not be repeated. -/
theorem never (hspares : ∀ base, start.RefinesTo base → Keeps (T.Spared base) a)
    (h : ∀ s, start.RefinesTo s.code → ∀ x t, exec a s ≠ (.ok x, t)) : Repeats T start a :=
  ⟨hspares, fun hs hexec _ => absurd hexec (h _ hs _ _)⟩

theorem fail (e : Error) : Repeats T start (fail e : Check σ α) :=
  .never (fun _ _ => .fail e) fun _ _ _ _ => nofun

theorem liftExcept (given : Except Error α) :
    Repeats T start (liftExcept given : Check σ α) := by
  cases given with
  | ok x => exact .pure x
  | error e => exact .fail e

theorem bind {f : α → Check σ β} (h : Repeats T start a) (hf : ∀ x, Repeats T start (f x)) :
    Repeats T start (a >>= f) where
  spares base hbase := (h.spares base hbase).bind fun x => (hf x).spares base hbase
  replays hs hexec ht := by
    obtain ⟨x, u, hfirst, hrest⟩ := exec_bind_eq_ok hexec
    have hu := hs.trans (h.spares_exec hs hfirst).refines
    exact (h.replays hs hfirst (((hf x).spares_exec hu hrest).trans ht)).bind
      ((hf x).replays hu hrest ht)

theorem discard (h : Repeats T start a) : Repeats T start (discard a) := by
  rw [discard_eq_bind]
  exact h.bind fun _ => .pure ()

theorem forM {γ : Type} {f : γ → Check σ Unit} {xs : List γ}
    (hf : ∀ x ∈ xs, Repeats T start (f x)) : Repeats T start (xs.forM f) := by
  induction xs with
  | nil => exact .pure ()
  | cons x xs ih =>
    exact (hf x List.mem_cons_self).bind fun _ => ih fun y hy => hf y (List.mem_cons_of_mem x hy)

theorem rejectIf (bad : Prop) [Decidable bad] {failure : Check σ Unit}
    (h : ∀ K : CheckState σ → Prop, Keeps K failure)
    (hfails : ∀ s, ∃ halt, (exec failure s).1 = .error halt) :
    Repeats T start (rejectIf bad failure) := by
  unfold Check.rejectIf
  split
  · refine .never (fun _ _ => h _) fun s _ x t hexec => ?_
    obtain ⟨halt, hfails⟩ := hfails s
    rw [hexec] at hfails
    cases hfails
  · exact .pure ()

/-- A computation that reads the unit first is repeated if what it goes on to do is the same in
the end. -/
theorem reading {f : CompilationUnit → Check σ α}
    (hexec : ∀ s : CheckState σ, start.RefinesTo s.code → exec a s = exec (f s.code) s)
    (hspares : ∀ base, start.RefinesTo base → Keeps (T.Spared base) a)
    (hf : ∀ code, start.RefinesTo code → code.RefinesTo T.code → Repeats T start (f code))
    (hsame : ∀ code code', start.RefinesTo code → code.RefinesTo T.code → T.code.Still code' →
      f code' = f code) : Repeats T start a where
  spares := hspares
  replays {s x t} hs h ht := by
    have hst := (hspares s.code hs).after (.refl _) h
    have hfinal := hst.refines.trans ht.refines
    rw [hexec s hs] at h
    refine ((hf _ hs hfinal).replays hs h ht).congr fun w hw => ?_
    rw [hexec w ((hs.trans hfinal).trans hw.refines), hsame _ _ hs hfinal hw]

end Check.Repeats

/-- Whether a call is taken as one of a function remains the same. -/
theorem CompilationUnit.RefinesTo.isSome_definition_or {code code' : CompilationUnit} {x : NodeId}
    {name : String} (h : code.RefinesTo code') (hform : code.form x = .call name) :
    ((code'.node x).definition.isSome ||
      (code'.scopes.binding? (code'.node x).scope name).isSome) =
    ((code.node x).definition.isSome ||
      (code.scopes.binding? (code.node x).scope name).isSome) := by
  rcases h.definition x with heq | ⟨-, f, ⟨name', hform', hname⟩, -⟩
  · rw [heq, h.scope, h.scopes.binding?_isSome]
  · cases hform'.symm.trans ((h.form x).trans hform)
    have hsome : (code.scopes.binding? (code.node x).scope name).isSome := by
      rw [← h.scopes.binding?_isSome, ← h.scope, hname]
      rfl
    rw [hname, hsome, Bool.or_true]
    exact Bool.or_true _

/-- A call that has been typed, and is not connected with a function, never will be. -/
theorem Typing.Endures.definition_eq_none {spec : OpSpec} {config : Config} {names : ScopeTree}
    {code code' : CompilationUnit} {x : NodeId} {a : Ty}
    (h : Endures ⟨spec, config, code⟩ names (.expr x) a) (hcode : code.RefinesTo code')
    (hnone : (code.node x).definition = none) : (code'.node x).definition = none := by
  rcases hcode.definition x with heq | ⟨hunknown, f, hcalls, -⟩
  · exact heq.trans hnone
  · have hnot : ¬code.IsRecorded x := fun hx => hunknown hx.2
    have hsettles := settles_endures ⟨spec, config, code⟩ names
    have hcalls' := calls_of_gives hcode (hsettles.gives_form h hnot) hcalls
    cases hnone.symm.trans (((hsettles _ a h).2 hnot).linked f hcalls')

/-! ### Questions about types -/

namespace Supply

open Typing

variable {supply : Supply σ} {T : Typing} {d : Nat}

/-- **A question with an enduring answer is answered again.** -/
theorem replays_visit (hsupply : ∀ code, supply.Bodiless code) {R : List NodeId}
    {subject : Subject} {a : Ty} (h : T.Endures T.code.scopes subject a) (hcode : T.code.Acyclic)
    (hfits : T.Fits R d subject) :
    Replays T.code ((supply.context T.spec d T.config).visit R subject) a := by
  intro w hw
  have hends : Inquiry.Ends T.spec T.config R _ w _ _ :=
    ends_visit (hsupply w.code) d R subject w (.refl _)
  have hendures : Endures ⟨T.spec, T.config, w.code⟩ T.code.scopes subject a :=
    Endures.refinesTo h hw.refines (by rw [hw.scopes]; exact .refl _) hw.isRecorded
  obtain ⟨hanswer, hstate⟩ := (settles_endures _ _).replay hends nofun
    (Inquiry.gives_ask_answer.mpr hendures)
  have hfits' : Fits ⟨T.spec, T.config, w.code⟩ R d subject :=
    (fits_congr hw.refines R d subject).mpr hfits
  have hne := visit_ne_outOfDepth d R subject w (hsupply w.code)
    (hw.refines.acyclic_iff.mpr hcode) hfits'
  refine ⟨w, Prod.ext (ending_eq_ok_iff.mp (hanswer.resolve_right fun herror => hne ?_)) hstate, hw⟩
  revert herror
  generalize (exec ((supply.context T.spec d T.config).visit R subject) w).1 = r
  match r with
  | .ok _ => nofun
  | .error (.fault _) => nofun
  | .error .outOfDepth => exact fun _ => rfl

end Supply

namespace Context

variable {ctx : Context σ} {T : Typing} {start : CompilationUnit} {Q : NodeId → Prop} {x : NodeId}

/-- In a context, from `start` on, questions about the nodes of a set are answered with what
endures, and what is judged of them is judged again in the end. -/
structure Faithful (ctx : Context σ) (T : Typing) (start : CompilationUnit) (Q : NodeId → Prop) :
    Prop where
  spares : ∀ base, ctx.Keeps (T.Spared base)
  endures : ∀ {x s a t}, Q x → start.RefinesTo s.code →
    exec (ctx.judge (.typeOf [] x)) s = (.ok a, t) → t.code.RefinesTo T.code →
    Typing.Endures ⟨T.spec, T.config, t.code⟩ T.code.scopes (.expr x) a
  typeOf : ∀ {x}, Q x → Repeats T start (ctx.judge (.typeOf [] x))
  calls : ∀ {x}, Q x → Repeats T start (ctx.judge (.calls x))

section Rules

variable (hspares : ∀ base, ctx.Keeps (T.Spared base))
  (htype : ∀ {x}, Q x → Repeats T start (ctx.judge (.typeOf [] x)))

/-- The name that is called at a node of a form. -/
def calledName (x : NodeId) : Form → Check σ String
  | .call name => Pure.pure name
  | _ => do raise (.notMultiValue (← textOf x))

theorem repeats_callName : Repeats T start (callName x : Check σ String) := by
  refine .reading (f := fun code => calledName x (code.form x)) (fun s _ => rfl)
    (fun _ _ => keeps_callName) (fun code _ _ => ?_) fun code code' hcode hfinal hstill => ?_
  · unfold calledName
    split
    · exact .pure _
    · exact .never (fun _ _ => .textOf fun _ => .fail _) fun _ _ _ _ => nofun
  · rw [hstill.refines.form, hfinal.form]

include htype in
theorem repeats_checkArgumentsFrom (name : String) (position : Nat) {arguments : List NodeId}
    (harguments : ∀ y ∈ arguments, Q y) :
    Repeats T start (ctx.checkArgumentsFrom x name position arguments) := by
  induction arguments generalizing position with
  | nil => exact .pure ()
  | cons argument rest ih =>
    refine .bind (.bind (.liftExcept _) fun expected =>
      (htype (harguments argument List.mem_cons_self)).bind fun received => ?_)
      fun _ => ih (position + 1) fun y hy => harguments y (List.mem_cons_of_mem argument hy)
    exact .rejectIf _ (fun _ => .node fun _ => .textOf fun _ => .fail _) fun _ => ⟨_, rfl⟩

include hspares htype in
theorem repeats_checkArguments (hx : ∀ y ∈ start.children x, Q y) :
    Repeats T start (ctx.checkArguments x) := by
  refine repeats_callName.bind fun name => ?_
  refine .reading (f := fun code => ctx.checkArgumentsFrom x name 0 (code.children x))
    (fun s _ => rfl) (fun base _ => .code fun _ =>
      keeps_checkArgumentsFrom name 0 fun _ _ => hspares base _)
    (fun code hcode _ => ?_) fun code code' hcode hfinal hstill => ?_
  · rw [hcode.children]
    exact repeats_checkArgumentsFrom htype name 0 hx
  · rw [hstill.refines.children, hfinal.children]

theorem repeats_checkPart (h : ctx.Faithful T start Q) (hx : Q x) :
    Repeats T start (ctx.checkPart x) :=
  (h.typeOf hx).discard.bind fun _ => h.calls hx

end Rules

section Expressions

variable (h : ctx.Faithful T start Q)

include h

theorem repeats_callsRule (hparts : ∀ y ∈ start.parts x, Q y) :
    Repeats T start (ctx.callsRule x) := by
  have hspares : ∀ base, start.RefinesTo base → Check.Keeps (T.Spared base) (ctx.callsRule x) :=
    fun base _ => keeps_callsRule (Keeps.expr (h.spares base))
  by_cases hcall : ∃ name, start.form x = .call name
  · obtain ⟨name, hform⟩ := hcall
    rw [CompilationUnit.parts_of_call hform] at hparts
    refine .reading (f := fun code => do
      (code.children x).forM ctx.checkPart
      if (code.node x).definition.isSome ||
        (code.scopes.binding? (code.node x).scope name).isSome then pure ()
      else ctx.checkArguments x) (fun s hs => ?_) hspares (fun code hcode _ => ?_)
      fun code code' hcode hfinal hstill => ?_
    · unfold callsRule
      rw [exec_bind, exec_node]
      dsimp only
      rw [show (s.code.node x).form = .call name from (hs.form x).trans hform]
      dsimp only
      rw [exec_bind, exec_code]
      rfl
    · rw [hcode.children]
      refine (Repeats.forM fun y hy => repeats_checkPart h (hparts y hy)).bind fun _ => ?_
      split
      · exact .pure ()
      · exact repeats_checkArguments h.spares h.typeOf hparts
    · have hsame := hfinal.trans hstill.refines
      rw [hsame.children, hsame.isSome_definition_or ((hcode.form x).trans hform)]
  · rw [CompilationUnit.parts_of_not_call (not_exists.mp hcall)] at hparts
    refine .reading (f := fun _ => (start.form x).operands.forM ctx.checkPart) (fun s hs => ?_)
      hspares (fun _ _ _ => .forM fun y hy => repeats_checkPart h (hparts y hy))
      fun _ _ _ _ _ => rfl
    have hform : (s.code.node x).form = start.form x := hs.form x
    unfold callsRule
    rw [exec_bind, exec_node]
    dsimp only
    split
    · next name hname => exact absurd ⟨name, hform.symm.trans hname⟩ hcall
    · rw [hform]

theorem repeats_checkExpr (hx : Q x) : Repeats T start (ctx.checkExpr x) :=
  (h.typeOf hx).bind fun type => (h.calls hx).bind fun _ => .pure type

theorem repeats_expectCondition (hx : Q x) : Repeats T start (ctx.expectCondition [] x) :=
  (h.typeOf hx).bind fun _ => .rejectIf _ (fun _ => .node fun _ => .fail _) fun _ => ⟨_, rfl⟩

/-- Whether a value of double width is one of an operation is the same in the end, since it has
been typed before. -/
theorem repeats_multiValue (hx : Q x) (count : Nat) : Repeats T start (ctx.multiValue x count) := by
  refine repeats_callName.bind fun name => ⟨fun base hbase => ?_, fun {s types t} hs hexec ht => ?_⟩
  · refine ((h.typeOf hx).spares base hbase).bind fun type => .node fun node => ?_
    refine .bind (.rejectIf _ (.fail _)) fun _ => ?_
    split
    · exact .pure _
    · exact .fail _
  · obtain ⟨type, u, htype, hrest⟩ := exec_bind_eq_ok hexec
    rw [exec_bind, exec_node] at hrest
    obtain ⟨hnone, hrest⟩ := exec_rejectIf_bind_eq_ok (by simp) hrest
    cases hresults : ctx.spec.resultTypes name count with
    | error e =>
      simp only [hresults] at hrest
      cases hrest
    | ok slots =>
      simp only [hresults] at hrest
      cases hrest
      refine ((h.typeOf hx).replays hs htype ht).bind
        (Check.Replays.congr (.pure (fillUnknown type slots)) fun w hw => ?_)
      have hendures := h.endures hx hs htype ht.refines
      have hdefinition := hendures.definition_eq_none (ht.refines.trans hw.refines)
        (Option.not_isSome_iff_eq_none.mp hnone)
      rw [exec_bind, exec_node]
      dsimp only
      rw [exec_bind, exec_rejectIf, hdefinition, if_neg nofun]

theorem repeats_valueTypes (targets : Targets) (hx : Q x) :
    Repeats T start (ctx.valueTypes targets x) := by
  cases targets with
  | single => exact (h.typeOf hx).bind fun type => .pure _
  | pair => exact repeats_multiValue h hx 2
  | quadruple => exact (repeats_multiValue h hx 4).bind fun _ => .pure _

end Expressions

end Context

/-- Judgements about the expressions in a set of questions that contains what they raise, in which
names have had the types that they have in the end since `start`, are repeated. -/
theorem Supply.faithful {supply : Supply σ} {T : Typing} {start : CompilationUnit}
    {M : Subject → Prop} (hsupply : ∀ code, supply.Bodiless code) (hcode : T.code.Acyclic)
    (hstart : start.RefinesTo T.code) (hM : T.code.Encloses M)
    (hfirm : Typing.Firm T.code (fun y => M (.expr y)) start.scopes T.code.scopes) (d : Nat) :
    (supply.context T.spec d T.config).Faithful T start fun x =>
      M (.expr x) ∧ (T.code.size + 1) * (T.code.size + 1) + T.code.rank x < d := by
  have hspares : ∀ d base, (supply.context T.spec d T.config).Keeps (T.Spared base) :=
    fun d base => Supply.spares hsupply base d
  have hendures : ∀ {d x s a t}, M (.expr x) → start.RefinesTo s.code →
      exec ((supply.context T.spec d T.config).judge (.typeOf [] x)) s = (.ok a, t) →
      t.code.RefinesTo T.code →
      Typing.Endures ⟨T.spec, T.config, t.code⟩ T.code.scopes (.expr x) a := by
    intro d x s a t hx hs hexec ht
    have hends := ends_of_exec (R := [])
      (show exec ((supply.context T.spec d T.config).visit [] (.expr x)) s = _ from hexec)
      (hsupply s.code)
    exact hends.endures_expr ht hM hx (hfirm.refinesTo hs.scopes (hends.refinesTo.trans ht).scopes)
  induction d with
  | zero =>
    exact ⟨hspares 0, fun hx => absurd hx.2 (Nat.not_lt_zero _),
      fun hx => absurd hx.2 (Nat.not_lt_zero _), fun hx => absurd hx.2 (Nat.not_lt_zero _)⟩
  | succ d ih =>
    refine ⟨hspares (d + 1), fun hx => hendures hx.1, fun {x} hx => ⟨fun base _ => hspares _ base _,
      fun hs hexec ht => ?_⟩, fun {x} hx => ?_⟩
    · have hneed := T.need_lt [] x
      have hfits : T.Fits [] (d + 1) (.expr x) := show T.need [] x < d + 1 by omega
      exact replays_visit hsupply (ht.endures (.refl _) (hendures hx.1 hs hexec ht.refines)) hcode
        hfits
    · refine Context.repeats_callsRule ih fun y hy => ?_
      have hlink : T.code.Link x y :=
        hstart.link_iff.mpr (CompilationUnit.link_of_mem_parts hy)
      have hrank := CompilationUnit.rank_lt_of_link hcode hlink
      refine ⟨hM (.expr x) (.expr y) hx.1 (.operand ?_ hlink), by omega⟩
      -- A definition is no expression, and has no parts.
      rintro ⟨name, params, inlined, hform⟩
      rw [hstart.form] at hform
      unfold CompilationUnit.parts at hy
      rw [hform] at hy
      cases hy

end ContractLang
