import ContractLang.Proofs.Typing.Agreement
import ContractLang.Proofs.Typing.Pursuit

/-!
# The course of typing

What typing does from a given state is a derivation: an inquiry is pursued by
pursuing the inquiries into what it asks for, one after another
(`ContractLang.Inquiry.Ends`). The derivation knows nothing of depths and of errors.
Judgements are decided by it at every depth (`ContractLang.Supply.ends_visit`), so what
is shown for all derivations, by induction on them, holds of the checker.

The first thing to be shown in this way is that typing only refines a unit
(`ContractLang.Inquiry.Ends.refinesTo`), which the comparison of rules and
inquiries relies on one level further up.
-/

namespace ContractLang

open Check

variable {σ : Type}

/-! ### Questions -/

namespace CompilationUnit

/-- The unit in which a question is taken up. -/
def entered (code : CompilationUnit) : Subject → CompilationUnit
  | .expr x => if code.IsRecorded x then code else code.opened x
  | _ => code

/-- The unit in which a question has been answered that was taken up in `start`. -/
def left (code start : CompilationUnit) : Subject → Ty → CompilationUnit
  | .expr x, type => if start.IsRecorded x then code else code.closed x type
  | _, _ => code

variable {code code' : CompilationUnit} {subject : Subject}

theorem refinesTo_entered (code : CompilationUnit) (subject : Subject) :
    code.RefinesTo (code.entered subject) := by
  cases subject with
  | expr x =>
    unfold entered
    dsimp only
    split
    · exact .refl code
    · next hx => exact (RefinesTo.refl code).opened hx
  | body | function => exact .refl code

theorem RefinesTo.left {start : CompilationUnit} (h : start.RefinesTo code) (subject : Subject)
    (type : Ty) : start.RefinesTo (code.left start subject type) := by
  cases subject with
  | expr x =>
    unfold CompilationUnit.left
    dsimp only
    split
    · exact h
    · next hx => exact h.closed hx
  | body | function => exact h

end CompilationUnit

namespace CheckState

/-- The state in which a question is taken up. -/
def entered (s : CheckState σ) (subject : Subject) : CheckState σ :=
  { s with code := s.code.entered subject }

/-- The state in which a question has been answered that was taken up in `start`. -/
def left (s start : CheckState σ) (subject : Subject) (type : Ty) : CheckState σ :=
  { s with code := s.code.left start.code subject type }

section

variable {s start : CheckState σ} {x : NodeId} {type : Ty}

@[simp] theorem entered_body (b : NodeId) : s.entered (.body b) = s := rfl

@[simp] theorem entered_function (f : NodeId) : s.entered (.function f) = s := rfl

@[simp] theorem left_body (b : NodeId) : s.left start (.body b) type = s := rfl

@[simp] theorem left_function (f : NodeId) : s.left start (.function f) type = s := rfl

theorem entered_of_isRecorded (hx : s.code.IsRecorded x) : s.entered (.expr x) = s := by
  unfold entered CompilationUnit.entered
  simp only [if_pos hx]

theorem entered_of_not_isRecorded (hx : ¬s.code.IsRecorded x) :
    s.entered (.expr x) = { s with code := s.code.opened x } := by
  unfold entered CompilationUnit.entered
  simp only [if_neg hx]

theorem left_of_isRecorded (hx : start.code.IsRecorded x) :
    s.left start (.expr x) type = s := by
  unfold left CompilationUnit.left
  simp only [if_pos hx]

theorem left_of_not_isRecorded (hx : ¬start.code.IsRecorded x) :
    s.left start (.expr x) type = { s with code := s.code.closed x type } := by
  unfold left CompilationUnit.left
  simp only [if_neg hx]

end

end CheckState

/-- The functions whose return type is being determined while a question is dealt with. -/
def Subject.resolving (R : List NodeId) : Subject → List NodeId
  | .function f => f :: R
  | _ => R

theorem Subject.mem_resolving {R : List NodeId} {f : NodeId} (subject : Subject) (h : f ∈ R) :
    f ∈ subject.resolving R := by
  cases subject with
  | expr | body => exact h
  | function g => exact List.mem_cons_of_mem g h

/-- The inquiry into a part of a program, where the return types of some functions are being
determined. -/
def Typing.inquiryWithin (T : Typing) (R : List NodeId) : Subject → Inquiry
  | .function f => if f ∈ R then .answer .unknown else T.inquiry (.body f)
  | subject => T.inquiry subject

section

variable {T : Typing} {R : List NodeId} {x f : NodeId}

theorem Typing.inquiryWithin_of_mem (hf : f ∈ R) :
    T.inquiryWithin R (.function f) = .answer .unknown := if_pos hf

theorem Typing.inquiryWithin_of_not_mem (hf : f ∉ R) :
    T.inquiryWithin R (.function f) = T.inquiry (.body f) := if_neg hf

theorem Typing.inquiryWithin_of_isRecorded (hx : T.code.IsRecorded x) :
    T.inquiryWithin R (.expr x) = .answer (T.code.node x).type := if_pos hx

theorem Typing.inquiryWithin_of_not_isRecorded (hx : ¬T.code.IsRecorded x) :
    T.inquiryWithin R (.expr x) = T.formInquiry x (T.code.form x) := if_neg hx

end

namespace Inquiry

/-- Pursued from a state, an inquiry ends in a certain way, and in another state. It may run out
of depth wherever it asks. -/
inductive Ends (spec : OpSpec) (config : Config) :
    List NodeId → Inquiry → CheckState σ → Except Failure Ty → CheckState σ → Prop where
  | answer {R : List NodeId} {type : Ty} {s : CheckState σ} :
    Ends spec config R (answer type) s (.ok type) s
  | fail {R : List NodeId} {s : CheckState σ} :
    Ends spec config R fail s (.error .fault) s
  | depth {R : List NodeId} {subject : Subject} {next : Ty → Inquiry} {s : CheckState σ} :
    Ends spec config R (ask subject next) s (.error .outOfDepth) s
  /-- What is asked for has no answer. -/
  | stop {R : List NodeId} {subject : Subject} {next : Ty → Inquiry} {s u : CheckState σ}
    {failure : Failure}
    (first : Ends spec config (subject.resolving R)
      (Typing.inquiryWithin ⟨spec, config, s.code⟩ R subject) (s.entered subject)
      (.error failure) u) :
    Ends spec config R (ask subject next) s (.error failure) u
  /-- What is asked for has an answer. -/
  | ask {R : List NodeId} {subject : Subject} {next : Ty → Inquiry} {s u v : CheckState σ}
    {type : Ty} {e : Except Failure Ty}
    (first : Ends spec config (subject.resolving R)
      (Typing.inquiryWithin ⟨spec, config, s.code⟩ R subject) (s.entered subject) (.ok type) u)
    (rest : Ends spec config R (next type) (u.left s subject type) e v) :
    Ends spec config R (ask subject next) s e v

namespace Ends

variable {spec : OpSpec} {config : Config} {R : List NodeId} {q : Inquiry}
  {s u v : CheckState σ} {subject : Subject} {next : Ty → Inquiry} {type : Ty}
  {e : Except Failure Ty}

/-- Going on from an answer. -/
theorem after (h : Ends spec config R (.ask subject .answer) s (.ok type) u)
    (hnext : Ends spec config R (next type) u e v) :
    Ends spec config R (.ask subject next) s e v := by
  cases h with
  | ask first rest =>
    cases rest
    exact .ask first hnext

theorem after_error {failure : Failure}
    (h : Ends spec config R (.ask subject .answer) s (.error failure) u) :
    Ends spec config R (.ask subject next) s (.error failure) u := by
  cases h with
  | depth => exact .depth
  | stop first => exact .stop first
  | ask first rest => cases rest

/-- A question is answered by the inquiry into what is asked for. -/
theorem asked (subject : Subject) (h : Ends spec config (subject.resolving R)
    (Typing.inquiryWithin ⟨spec, config, s.code⟩ R subject) (s.entered subject) e u)
    (hok : ∀ type, e = .ok type → u.left s subject type = v)
    (herror : ∀ failure, e = .error failure → u = v) :
    Ends spec config R (.ask subject .answer) s e v := by
  cases e with
  | ok type =>
    refine .ask h ?_
    rw [hok type rfl]
    exact .answer
  | error failure =>
    rw [← herror failure rfl]
    exact .stop h

/-- An inquiry is pursued if its questions are. -/
theorem of_run {visit : Subject → Check σ Ty} {code : CompilationUnit}
    (h : ∀ subject s, code.RefinesTo s.code → code.RefinesTo (exec (visit subject) s).2.code ∧
      Ends spec config R (.ask subject .answer) s (ending (exec (visit subject) s).1)
        (exec (visit subject) s).2)
    (q : Inquiry) (s : CheckState σ) (hs : code.RefinesTo s.code) :
    Ends spec config R q s (ending (exec (q.run visit) s).1) (exec (q.run visit) s).2 := by
  induction q generalizing s with
  | answer type => exact .answer
  | fail => exact .fail
  | ask subject next ih =>
    obtain ⟨hu, hfirst⟩ := h subject s hs
    change Ends spec config R _ s (ending (exec (visit subject >>= fun type =>
      (next type).run visit) s).1) (exec (visit subject >>= fun type => (next type).run visit) s).2
    rw [exec_bind]
    revert hu hfirst
    generalize exec (visit subject) s = out
    intro hu hfirst
    match out with
    | (.ok type, u) => exact hfirst.after (ih type u hu)
    | (.error halt, u) => exact hfirst.after_error

/-- **Typing only refines a unit.** -/
theorem refinesTo (h : Ends spec config R q s e v) : s.code.RefinesTo v.code := by
  induction h with
  | answer | fail | depth => exact .refl _
  | stop first ih => exact (CompilationUnit.refinesTo_entered _ _).trans ih
  | ask first rest ihfirst ihrest =>
    exact (((CompilationUnit.refinesTo_entered _ _).trans ihfirst).left _ _).trans ihrest

end Ends

end Inquiry

/-! ### The judgements -/

/-- The bodies of functions are not to be had in a unit. -/
def Supply.Bodiless (supply : Supply σ) (code : CompilationUnit) : Prop :=
  ∀ answer, Context.Bodiless (supply answer) code

/-- What cannot be had in a unit cannot be had in a refined one either. -/
theorem Supply.Bodiless.refinesTo {supply : Supply σ} {code code' : CompilationUnit}
    (h : supply.Bodiless code) (hcode : code.RefinesTo code') : supply.Bodiless code' := by
  intro answer scope name call hname
  refine h answer scope name call ?_
  obtain ⟨d, hd, hrole⟩ := ScopeTree.exists_of_unresolved hname
  obtain ⟨d₀, hd₀, hrel⟩ := hcode.scopes.exists_of_find? hd
  rw [ScopeTree.binding?_of_find? hd₀, Descriptor.binding?]
  rcases hrel.role with heq | ⟨hold, f, hnew⟩
  · rw [← heq, hrole]
  · cases hrole.symm.trans hnew

theorem Context.Steady.refinesTo {ctx : Context σ} {code code' : CompilationUnit}
    (h : ctx.Steady code) (hcode : code.RefinesTo code') : ctx.Steady code' :=
  fun R subject s hs => h R subject s (hcode.trans hs)

namespace Inquiry.Ends

variable {ctx : Context σ} {R : List NodeId} {s : CheckState σ}

/-- A function that is being resolved has no type yet. -/
theorem cut {spec : OpSpec} {config : Config} {f : NodeId} (hf : f ∈ R) :
    Ends spec config R (.ask (.function f) .answer) s (.ok .unknown) s := by
  have first : Ends spec config (f :: R)
      (Typing.inquiryWithin ⟨spec, config, s.code⟩ R (.function f)) s (.ok .unknown) s := by
    rw [Typing.inquiryWithin_of_mem hf]
    exact .answer
  exact .ask first .answer

/-- Answering a question about an expression is pursuing the inquiry into it. -/
theorem of_typeRule {obtain : BodySource σ} {x : NodeId} (hctx : ctx.Steady s.code)
    (hobtain : Context.Bodiless obtain s.code)
    (h : ∀ q (u : CheckState σ), s.code.RefinesTo u.code → Ends ctx.spec ctx.config R q u
      (ending (exec (q.run (ctx.visit R)) u).1) (exec (q.run (ctx.visit R)) u).2) :
    Ends ctx.spec ctx.config R (.ask (.expr x) .answer) s
      (ending (exec (ctx.typeRule obtain R x) s).1) (exec (ctx.typeRule obtain R x) s).2 := by
  by_cases hx : s.code.IsRecorded x
  · rw [Context.exec_typeRule_of_isRecorded obtain R hx]
    have first : Ends ctx.spec ctx.config R
        (Typing.inquiryWithin ⟨ctx.spec, ctx.config, s.code⟩ R (.expr x)) (s.entered (.expr x))
        (.ok (s.code.node x).type) s := by
      rw [Typing.inquiryWithin_of_isRecorded hx, CheckState.entered_of_isRecorded hx]
      exact .answer
    refine .ask first ?_
    rw [CheckState.left_of_isRecorded hx]
    exact .answer
  · have hsimilar := Context.similar_typeRule (R := R) hctx hobtain hx
    rw [hsimilar.ending, hsimilar.state, Context.exec_pursue]
    have hrun := h ((ctx.typing s.code).formInquiry x (s.code.form x))
      { s with code := s.code.opened x } ((CompilationUnit.RefinesTo.refl _).opened hx)
    have hinquiry : Typing.inquiryWithin ⟨ctx.spec, ctx.config, s.code⟩ R (.expr x) =
        (ctx.typing s.code).formInquiry x (s.code.form x) :=
      Typing.inquiryWithin_of_not_isRecorded hx
    rw [← CheckState.entered_of_not_isRecorded hx, ← hinquiry] at hrun ⊢
    revert hrun
    generalize exec _ (s.entered (.expr x)) = out
    intro hrun
    match out with
    | (.ok type, u) =>
      refine asked (.expr x) hrun (fun type htype => ?_) nofun
      cases htype
      exact CheckState.left_of_not_isRecorded hx
    | (.error halt, u) => exact asked (.expr x) hrun nofun fun _ _ => rfl

/-- Answering a question about a body is pursuing the inquiry into it. -/
theorem of_returnTypeRule (body : NodeId) (hctx : ctx.Steady s.code)
    (h : ∀ q (u : CheckState σ), s.code.RefinesTo u.code → Ends ctx.spec ctx.config R q u
      (ending (exec (q.run (ctx.visit R)) u).1) (exec (q.run (ctx.visit R)) u).2) :
    Ends ctx.spec ctx.config R (Typing.inquiry ⟨ctx.spec, ctx.config, s.code⟩ (.body body)) s
      (ending (exec (ctx.returnTypeRule R body) s).1) (exec (ctx.returnTypeRule R body) s).2 := by
  have hsimilar := (Context.likeAt_returnTypeRule (R := R) hctx body).1
  rw [hsimilar.ending, hsimilar.state]
  exact h _ s (.refl _)

/-- Asking what a function returns is asking for its body, unless it is being resolved. -/
theorem of_functionType {spec : OpSpec} {config : Config} (f : NodeId)
    (h : f ∉ R → Ends spec config R (.ask (.function f) .answer) s
      (ending (exec (ctx.judge (.returnType (f :: R) f)) s).1)
      (exec (ctx.judge (.returnType (f :: R) f)) s).2) :
    Ends spec config R (.ask (.function f) .answer) s
      (ending (exec (ctx.functionType R f) s).1) (exec (ctx.functionType R f) s).2 := by
  unfold Context.functionType
  split
  · next hf => exact .cut (List.contains_iff_mem.mp hf)
  · next hf => exact h fun hmem => hf (List.contains_iff_mem.mpr hmem)

end Inquiry.Ends

namespace Supply

open Inquiry

variable {supply : Supply σ} {spec : OpSpec} {config : Config} {code : CompilationUnit}

/-- **Judgements are decided by the course of typing**, at every depth. -/
theorem ends_visit (hcode : supply.Bodiless code) (d : Nat) (R : List NodeId) (subject : Subject)
    (s : CheckState σ) (hs : code.RefinesTo s.code) :
    Ends spec config R (.ask subject .answer) s
      (ending (exec ((supply.context spec d config).visit R subject) s).1)
      (exec ((supply.context spec d config).visit R subject) s).2 := by
  induction d generalizing R subject s with
  | zero =>
    cases subject with
    | expr | body => exact .depth
    | function f => exact .of_functionType f fun _ => .depth
  | succ d ih =>
    have hctx : (supply.context spec d config).Steady code :=
      fun R subject s hs => (ih R subject s hs).refinesTo
    have hrun : ∀ R q (u : CheckState σ), code.RefinesTo u.code → Ends spec config R q u
        (ending (exec (q.run ((supply.context spec d config).visit R)) u).1)
        (exec (q.run ((supply.context spec d config).visit R)) u).2 := fun R =>
      .of_run fun subject s hs => ⟨hs.trans (hctx R subject s hs), ih R subject s hs⟩
    have hspec := Supply.spec_context supply spec config d
    have hconfig := Supply.config_context supply spec config d
    cases subject with
    | expr x =>
      have h := Ends.of_typeRule (R := R) (x := x) (hctx.refinesTo hs)
        ((hcode.refinesTo hs) fun config => (supply.context spec d config).answer)
        fun q u hu => by
          rw [hspec, hconfig]
          exact hrun R q u (hs.trans hu)
      rw [hspec, hconfig] at h
      exact h
    | body b =>
      have h := Ends.of_returnTypeRule (R := R) b (hctx.refinesTo hs) fun q u hu => by
        rw [hspec, hconfig]
        exact hrun R q u (hs.trans hu)
      rw [hspec, hconfig] at h
      exact h.asked (.body b) (fun _ _ => rfl) fun _ _ => rfl
    | function f =>
      refine .of_functionType f fun hf => Ends.asked (.function f) ?_ (fun _ _ => rfl) fun _ _ => rfl
      have h := Ends.of_returnTypeRule (R := f :: R) f (hctx.refinesTo hs) fun q u hu => by
        rw [hspec, hconfig]
        exact hrun _ q u (hs.trans hu)
      rw [hspec, hconfig] at h
      rw [Typing.inquiryWithin_of_not_mem hf]
      exact h

/-- An answer that has been found is the end of a course of typing. -/
theorem ends_of_exec {d : Nat} {R : List NodeId} {subject : Subject} {s t : CheckState σ} {a : Ty}
    (h : exec ((supply.context spec d config).visit R subject) s = (.ok a, t))
    (hcode : supply.Bodiless s.code) : Ends spec config R (.ask subject .answer) s (.ok a) t := by
  have hends : Ends spec config R (.ask subject .answer) s _ _ :=
    ends_visit hcode d R subject s (.refl _)
  rwa [h] at hends

/-- At every depth, typing only refines a unit. -/
theorem steady (hcode : supply.Bodiless code) (d : Nat) :
    (supply.context spec d config).Steady code :=
  fun R subject s hs => (ends_visit hcode d R subject s hs).refinesTo

end Supply

/-! ### Enough depth -/

namespace Typing

/-- At some depth there is enough room to answer a question. -/
def Fits (T : Typing) (R : List NodeId) (d : Nat) : Subject → Prop
  | .expr x => T.need R x < d
  | .body b => T.need R b < d
  | .function f => f ∈ R ∨ T.need (f :: R) f < d

/-- The room that a question takes depends on the links of a unit only. -/
theorem fits_congr {spec : OpSpec} {config : Config} {code code' : CompilationUnit}
    (h : code.RefinesTo code') (R : List NodeId) (d : Nat) (subject : Subject) :
    Fits ⟨spec, config, code'⟩ R d subject ↔ Fits ⟨spec, config, code⟩ R d subject := by
  have hneed : ∀ R x, need ⟨spec, config, code'⟩ R x = need ⟨spec, config, code⟩ R x := by
    intro R x
    unfold need room CompilationUnit.rank CompilationUnit.span
    rw [h.link_eq, h.size]
  cases subject <;> simp only [Fits, hneed]

/-- What the inquiry into an expression asks for takes less room. -/
theorem fits_of_asks_formInquiry {T : Typing} {R : List NodeId} {d : Nat} {x : NodeId}
    {subject : Subject} (hcode : T.code.Acyclic) (hx : T.need R x < d + 1)
    (h : (T.formInquiry x (T.code.form x)).Asks subject) : T.Fits R d subject := by
  rcases asks_formInquiry h with ⟨y, rfl, hlink⟩ | ⟨f, rfl, hcalls⟩
  · have hlt := need_lt_of_link (R := R) hcode hlink
    exact Nat.lt_of_lt_of_le hlt (Nat.lt_succ_iff.mp hx)
  · by_cases hf : f ∈ R
    · exact .inl hf
    · have hlt := need_cons_lt hcalls hf
      exact .inr (Nat.lt_of_lt_of_le hlt (Nat.lt_succ_iff.mp hx))

theorem fits_of_asks_body {T : Typing} {R : List NodeId} {d : Nat} {b : NodeId}
    {subject : Subject} (hcode : T.code.Acyclic) (hb : T.need R b < d + 1)
    (h : (T.inquiry (.body b)).Asks subject) : T.Fits R d subject := by
  obtain ⟨stmt, hmem, -, rfl | ⟨y, rfl, hlink⟩⟩ := asks_exitsInquiry h
  · have hlt := need_lt_of_link (R := R) hcode (.inr hmem)
    exact Nat.lt_of_lt_of_le hlt (Nat.lt_succ_iff.mp hb)
  · have hlt := need_lt_of_link (R := R) hcode (.inr hmem)
    have hlt' := need_lt_of_link (R := R) hcode hlink
    exact Nat.lt_of_lt_of_le (Nat.lt_trans hlt' hlt) (Nat.lt_succ_iff.mp hb)

end Typing

/-- An inquiry runs out of depth only if one of its questions does. -/
theorem Inquiry.run_ne_outOfDepth {visit : Subject → Check σ Ty} {code : CompilationUnit}
    {q : Inquiry} (h : ∀ subject s, q.Asks subject → code.RefinesTo s.code →
      (exec (visit subject) s).1 ≠ .error .outOfDepth ∧
        code.RefinesTo (exec (visit subject) s).2.code)
    {s : CheckState σ} (hs : code.RefinesTo s.code) :
    (exec (q.run visit) s).1 ≠ .error .outOfDepth := by
  induction q generalizing s with
  | answer type => nofun
  | fail => nofun
  | ask subject next ih =>
    obtain ⟨hfirst, hu⟩ := h subject s .head hs
    change (exec (visit subject >>= fun type => (next type).run visit) s).1 ≠ _
    rw [exec_bind]
    revert hfirst hu
    generalize exec (visit subject) s = out
    intro hfirst hu
    match out with
    | (.ok type, u) => exact ih type (fun other s hother => h other s (.tail type hother)) hu
    | (.error halt, u) => exact hfirst

theorem Check.Similar.ne_outOfDepth {out out' : Except Halt Ty × CheckState σ}
    (h : Similar out out') (hout' : out'.1 ≠ .error .outOfDepth) :
    out.1 ≠ .error .outOfDepth := by
  intro hout
  have hend := h.ending
  rw [hout] at hend
  match hr : out'.1 with
  | .ok type =>
    rw [hr] at hend
    cases hend
  | .error (.fault e) =>
    rw [hr] at hend
    cases hend
  | .error .outOfDepth => exact hout' hr

namespace Context

open Inquiry Typing

variable {ctx : Context σ} {R : List NodeId} {s : CheckState σ} {x b f : NodeId}

/-- The type of an expression is found within the depth at hand if the answers to what is asked
for are. -/
theorem typeRule_ne_outOfDepth {obtain : BodySource σ} (hctx : ctx.Steady s.code)
    (hobtain : Bodiless obtain s.code)
    (hvisit : ∀ subject (u : CheckState σ),
      ((ctx.typing s.code).formInquiry x (s.code.form x)).Asks subject → s.code.RefinesTo u.code →
        (exec (ctx.visit R subject) u).1 ≠ .error .outOfDepth) :
    (exec (ctx.typeRule obtain R x) s).1 ≠ .error .outOfDepth := by
  by_cases hx : s.code.IsRecorded x
  · rw [exec_typeRule_of_isRecorded _ R hx]
    nofun
  · refine (similar_typeRule hctx hobtain hx).ne_outOfDepth ?_
    have hrun : (exec (((ctx.typing s.code).formInquiry x (s.code.form x)).run (ctx.visit R))
        { s with code := s.code.opened x }).1 ≠ .error .outOfDepth :=
      run_ne_outOfDepth
        (fun subject u hasks hu => ⟨hvisit subject u hasks hu, hu.trans (hctx R subject u hu)⟩)
        ((CompilationUnit.RefinesTo.refl _).opened hx)
    rw [exec_pursue]
    revert hrun
    generalize exec _ ({ s with code := s.code.opened x } : CheckState σ) = out
    intro hrun
    match out with
    | (.ok type, u) => nofun
    | (.error halt, u) => exact hrun

/-- So is what the statements of a body leave a function with. -/
theorem returnTypeRule_ne_outOfDepth (hctx : ctx.Steady s.code)
    (hvisit : ∀ subject (u : CheckState σ),
      ((ctx.typing s.code).inquiry (.body b)).Asks subject → s.code.RefinesTo u.code →
        (exec (ctx.visit R subject) u).1 ≠ .error .outOfDepth) :
    (exec (ctx.returnTypeRule R b) s).1 ≠ .error .outOfDepth := by
  refine (likeAt_returnTypeRule (R := R) hctx b).1.ne_outOfDepth ?_
  exact run_ne_outOfDepth
    (fun subject u hasks hu => ⟨hvisit subject u hasks hu, hu.trans (hctx R subject u hu)⟩) (.refl _)

theorem functionType_ne_outOfDepth
    (hbody : f ∉ R →
      (exec (ctx.judge (.returnType (f :: R) f)) s).1 ≠ .error .outOfDepth) :
    (exec (ctx.functionType R f) s).1 ≠ .error .outOfDepth := by
  unfold functionType
  split
  · nofun
  · next hf => exact hbody fun hmem => hf (List.contains_iff_mem.mpr hmem)

end Context

namespace Supply

open Inquiry Typing

variable {supply : Supply σ} {spec : OpSpec} {config : Config}

/-- **Where there is enough depth, typing does not run out of it**, from whatever unit without
cycles it starts. -/
theorem visit_ne_outOfDepth (d : Nat) (R : List NodeId) (subject : Subject) (s : CheckState σ)
    (hbodiless : supply.Bodiless s.code) (hcode : s.code.Acyclic)
    (hfits : Fits ⟨spec, config, s.code⟩ R d subject) :
    (exec ((supply.context spec d config).visit R subject) s).1 ≠ .error .outOfDepth := by
  induction d generalizing R subject s with
  | zero =>
    cases subject with
    | expr | body => exact absurd hfits (Nat.not_lt_zero _)
    | function f =>
      have hf : f ∈ R := hfits.resolve_right (Nat.not_lt_zero _)
      exact Context.functionType_ne_outOfDepth fun hnot => absurd hf hnot
  | succ d ih =>
    have hctx : (supply.context spec d config).Steady s.code := steady hbodiless d
    have htyping : (supply.context spec d config).typing s.code = ⟨spec, config, s.code⟩ := by
      unfold Context.typing
      rw [Supply.spec_context, Supply.config_context]
    have hask : ∀ R subject u, s.code.RefinesTo u.code →
        Fits ⟨spec, config, s.code⟩ R d subject →
        (exec ((supply.context spec d config).visit R subject) u).1 ≠ .error .outOfDepth :=
      fun R subject u hu hfits =>
        ih R subject u (hbodiless.refinesTo hu) (hu.acyclic_iff.mpr hcode)
          ((fits_congr hu R d subject).mpr hfits)
    have hbody : ∀ R b, need ⟨spec, config, s.code⟩ R b < d + 1 →
        (exec ((supply.context spec d config).returnTypeRule R b) s).1 ≠ .error .outOfDepth := by
      intro R b hb
      refine Context.returnTypeRule_ne_outOfDepth hctx fun subject u hasks hu => ?_
      rw [htyping] at hasks
      exact hask R subject u hu (fits_of_asks_body hcode hb hasks)
    cases subject with
    | expr x =>
      refine Context.typeRule_ne_outOfDepth hctx (hbodiless _) fun subject u hasks hu => ?_
      rw [htyping] at hasks
      exact hask R subject u hu (fits_of_asks_formInquiry hcode hfits hasks)
    | body b => exact hbody R b hfits
    | function f =>
      exact Context.functionType_ne_outOfDepth fun hf => hbody (f :: R) f (hfits.resolve_left hf)

end Supply

/-! ### Queries for types -/

namespace Checker

variable {s : CheckState σ}

/-- Without a parser no body is to be had. -/
theorem bodiless {checker : Checker σ} (h : checker.parser = none) (code : CompilationUnit) :
    checker.supply.Bodiless code := by
  intro answer scope name call _
  unfold Checker.supply
  rw [h]
  rfl

/-- Where every function has a body, no body is asked for. -/
theorem bodiless_of_allResolved (checker : Checker σ) {code : CompilationUnit}
    (h : code.scopes.AllResolved) : checker.supply.Bodiless code := by
  intro answer scope name call hname
  obtain ⟨d, hd, hrole⟩ := ScopeTree.exists_of_unresolved hname
  obtain ⟨home, -, hget⟩ := ScopeTree.find?_eq_some_iff.mp hd
  obtain ⟨f, hf⟩ := h home name d hget .unresolved (by rw [Descriptor.binding?, hrole])
  cases hf

theorem ask_typeOf (checker : Checker σ) (x : NodeId) : checker.ask (.typeOf x) s =
    exec ((checker.context (checker.depth s.code)).visit [] (.expr x)) s :=
  checker.ask_eq_exec (.typeOf x) s

/-- A query for a type is answered by the course of typing. -/
theorem ends_ask_typeOf (checker : Checker σ) (hcode : checker.supply.Bodiless s.code)
    (x : NodeId) :
    Inquiry.Ends checker.spec checker.config [] (.ask (.expr x) .answer) s
      (ending (checker.ask (.typeOf x) s).1) (checker.ask (.typeOf x) s).2 := by
  rw [ask_typeOf]
  exact Supply.ends_visit hcode _ [] (.expr x) s (.refl _)

/-- It does not run out of depth. -/
theorem ending_ask_typeOf_ne (checker : Checker σ) (hbodiless : checker.supply.Bodiless s.code)
    (hcode : s.code.Acyclic) (x : NodeId) :
    ending (checker.ask (.typeOf x) s).1 ≠ .error .outOfDepth := by
  have hne : (checker.ask (.typeOf x) s).1 ≠ .error .outOfDepth := by
    rw [ask_typeOf]
    refine Supply.visit_ne_outOfDepth _ [] (.expr x) s hbodiless hcode ?_
    exact Nat.lt_add_right _ (Typing.need_lt_ownDepth ⟨checker.spec, checker.config, s.code⟩ [] x)
  revert hne
  match (checker.ask (.typeOf x) s).1 with
  | .ok type => nofun
  | .error (.fault e) => nofun
  | .error .outOfDepth => exact fun h => absurd rfl h

end Checker

end ContractLang
