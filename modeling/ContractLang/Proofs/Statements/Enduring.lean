import ContractLang.Proofs.Statements.Returns
import ContractLang.Proofs.Statements.Walk

/-!
# Answers that endure

An answer *endures* if some table of settled answers has it
(`ContractLang.Typing.Endures`), and all answers that endure make up one such table. Where names
already have the types that they have in the end, typing an expression gives an answer that
endures (`ContractLang.Inquiry.Ends.endures_expr`), and what endures does so whatever statements
are checked afterwards (`ContractLang.Supply.spares`).

The return type of a function need not be looked into again: it comes from the values that
the function returns. If there are enduring answers for all of these, then it is found
without a trace, and endures itself (`ContractLang.Inquiry.Ends.endures_body`).
-/

namespace ContractLang

open Check Inquiry

variable {σ α : Type} {spec : OpSpec} {config : Config} {names : ScopeTree}

namespace Typing

/-- An answer is settled, together with others, while no function is being resolved. -/
def Endures (T : Typing) (names : ScopeTree) (subject : Subject) (a : Ty) : Prop :=
  ∃ P, T.Settles names [] P ∧ P subject a

variable {T : Typing} {code code' : CompilationUnit} {subject : Subject} {a : Ty} {b : NodeId}

/-- The answers that endure are settled by one another. -/
theorem settles_endures (T : Typing) (names : ScopeTree) :
    T.Settles names [] (T.Endures names) := by
  rintro subject a ⟨P, hP, ha⟩
  exact (hP subject a ha).mono fun _ _ h => ⟨P, hP, h⟩

/-- The answer to a question about a body endures if the answers that it comes from do. -/
theorem endures_body_of_gives (h : (T.inquiry (.body b)).Gives (T.Endures names) a) :
    T.Endures names (.body b) a :=
  ⟨_, (settles_endures T names).insert (show T.Certified names [] _ (.body b) a from h),
    .inr ⟨rfl, rfl⟩⟩

theorem Endures.refinesTo (h : Endures ⟨spec, config, code⟩ names subject a)
    (hcode : code.RefinesTo code') (hnames : code'.scopes.RefinesTo names)
    (hrecorded : ∀ x, code'.IsRecorded x → code.IsRecorded x) :
    Endures ⟨spec, config, code'⟩ names subject a := by
  obtain ⟨P, hP, ha⟩ := h
  exact ⟨P, hP.refinesTo hcode hnames fun x _ _ => hrecorded x, ha⟩

/-- Whatever is typed, answers endure. -/
theorem Endures.of_ends {R : List NodeId} {q : Inquiry} {s v : CheckState σ}
    {e : Except Failure Ty} (h : Endures ⟨spec, config, s.code⟩ names subject a)
    (hends : Inquiry.Ends spec config R q s e v) (hnames : v.code.scopes.RefinesTo names) :
    Endures ⟨spec, config, v.code⟩ names subject a := by
  obtain ⟨P, hP, ha⟩ := h
  exact ⟨P, hP.of_ends hends nofun hnames, ha⟩

end Typing

open Typing

/-! ### What is checked afterwards -/

/-- A unit has been refined, and what endures in it does so still. -/
structure CompilationUnit.Spares (spec : OpSpec) (config : Config) (names : ScopeTree)
    (code code' : CompilationUnit) : Prop where
  refines : code.RefinesTo code'
  endures : code'.scopes.RefinesTo names → ∀ {subject a},
    Endures ⟨spec, config, code⟩ names subject a → Endures ⟨spec, config, code'⟩ names subject a

namespace CompilationUnit.Spares

variable {code code' code'' : CompilationUnit}

theorem refl (code : CompilationUnit) : code.Spares spec config names code :=
  ⟨.refl code, fun _ _ _ => id⟩

theorem trans (h : code.Spares spec config names code')
    (h' : code'.Spares spec config names code'') : code.Spares spec config names code'' :=
  ⟨h.refines.trans h'.refines, fun hnames _ _ hsubject =>
    h'.endures hnames (h.endures (h'.refines.scopes.trans hnames) hsubject)⟩

/-- As long as no type goes on record for an expression. -/
theorem of_isRecorded (h : code.RefinesTo code')
    (hrecorded : ∀ x, code'.IsRecorded x → code.IsRecorded x) :
    code.Spares spec config names code' :=
  ⟨h, fun hnames _ _ hsubject => hsubject.refinesTo h hnames hrecorded⟩

end CompilationUnit.Spares

namespace CompilationUnit

variable {code : CompilationUnit} {id x : NodeId}

theorem isRecorded_setTargetTypes {types : List Ty} :
    (code.setTargetTypes id types).IsRecorded x ↔ code.IsRecorded x := by
  unfold IsRecorded form setTargetTypes
  rw [node_modifyNode]
  split <;> rfl

/-- The type of a field of an inner transaction is not that of an expression. -/
theorem isRecorded_setInnerType {field : String} {value : NodeId} {type : Ty}
    (h : code.form id = .innerField field value) :
    (code.setType id type).IsRecorded x ↔ code.IsRecorded x := by
  unfold IsRecorded form setType
  rw [node_modifyNode]
  split
  · next hx =>
    rw [hx.1]
    have hnot : ¬(code.node id).form.remembers := by
      rw [show (code.node id).form = .innerField field value from h]
      nofun
    exact iff_of_false (fun h => hnot h.1) fun h => hnot h.1
  · rfl

end CompilationUnit

/-- The answers that endure are spared by giving a descriptor a type. -/
theorem Check.completable_spares (base : CompilationUnit) (scope : ScopeId) (name : String) :
    Completable (fun s : CheckState σ => base.Spares spec config names s.code) scope name :=
  fun hs _ htype hscopes => hs.trans <|
    .of_isRecorded ((CompilationUnit.RefinesTo.refl _).withScopes
      (ScopeTree.refinesTo_refine hscopes htype)) fun _ => id

/-- That answers are spared survives what a check of statements does to a unit. -/
theorem Check.survives_spares (base : CompilationUnit) :
    Survives base fun s : CheckState σ => base.Spares spec config names s.code where
  refines hs := hs.refines
  resolved {_ _ _ definition _} hs hname hscopes := by
    obtain ⟨t, ht, hrefines⟩ := ScopeTree.exists_resolve hname definition
    cases ht.symm.trans hscopes
    exact hs.trans (.of_isRecorded ((CompilationUnit.RefinesTo.refl _).withScopes hrefines)
      fun _ => id)
  targetTypes hs hform := hs.trans <|
    .of_isRecorded ((CompilationUnit.RefinesTo.refl _).setTargetTypes
      (by rwa [hs.refines.form])) fun _ => CompilationUnit.isRecorded_setTargetTypes.mp
  innerType hs hform := by
    have hform' := (hs.refines.form _).trans hform
    exact hs.trans (.of_isRecorded ((CompilationUnit.RefinesTo.refl _).setInnerType hform')
      fun _ => (CompilationUnit.isRecorded_setInnerType hform').mp)

/-- To spare the answers that endure is an invariant. -/
theorem Check.invariant_spares {ctx : Context σ} (base : CompilationUnit) :
    ctx.Invariant base fun s => base.Spares spec config names s.code where
  __ := survives_spares base
  completed _ _ hs := completable_spares base _ _ hs

/-- **Whatever is judged, answers endure**, at every depth. -/
theorem Supply.spares {supply : Supply σ} (hsupply : ∀ code, supply.Bodiless code)
    (base : CompilationUnit) (d : Nat) :
    (supply.context spec d config).Keeps fun s => base.Spares spec config names s.code := by
  refine Supply.keeps (fun _ => invariant_spares base) (fun d R subject s hs => ?_) d
  have hends : Ends spec config R _ s _ _ := ends_visit (hsupply s.code) d R subject s (.refl _)
  exact CompilationUnit.Spares.trans hs
    ⟨hends.refinesTo, fun hnames _ _ h => h.of_ends hends hnames⟩

/-! ### Enduring answers -/

namespace Inquiry.Ends

variable {s v : CheckState σ} {code : CompilationUnit} {x f : NodeId} {a : Ty}

/-- **Typing an expression gives an answer that endures**, if the names in the questions that it
raises already have the types that they have in the end. -/
theorem endures_expr (h : Ends spec config [] (.ask (.expr x) .answer) s (.ok a) v)
    (hv : v.code.RefinesTo code) {M : Subject → Prop} (hM : code.Encloses M) (hx : M (.expr x))
    (hfirm : Firm code (fun y => M (.expr y)) s.code.scopes code.scopes) :
    Endures ⟨spec, config, v.code⟩ code.scopes (.expr x) a := by
  have hs : s.code.RefinesTo code := h.refinesTo.trans hv
  obtain ⟨P, hP, hgives⟩ := h.exists_settles (M := M) rfl
    (fun subject other hsubject hraises => hM subject other hsubject (hraises.refinesTo hs))
    (.refl _)
    (fun subject hasks => by
      rcases asks_ask_iff.mp hasks with rfl | ⟨_, hasks⟩
      · exact hx
      · cases hasks)
    (fun y hy name d d' hform hd hd' => hfirm y hy name d d' ((hs.form y).trans hform)
      (by rwa [hs.scope]) (by rwa [hs.scope])) hv.scopes
  refine ⟨P, hP, (gives_ask_answer.mp hgives).resolve_right ?_⟩
  rintro ⟨⟨g, heq⟩, -⟩
  cases heq

end Inquiry.Ends

/-! ### The return types of functions -/

namespace CompilationUnit.RefinesTo

variable {code code' : CompilationUnit} {x y : NodeId}

theorem returns {through : Form → Prop} (h : code.RefinesTo code')
    (hy : code'.Returns through x y) : code.Returns through x y :=
  hy.congr (fun id => (h.form id).symm) fun id => (h.children id).symm

end CompilationUnit.RefinesTo

namespace Typing

/-- There is an enduring answer for each value that is returned in a part of a body. -/
def Covers (T : Typing) (names : ScopeTree) : Subject → Prop
  | .expr y => ∃ a, T.Endures names (.expr y) a
  | .body b => ∀ y, T.code.Returns Form.IsBranching b y → ∃ a, T.Endures names (.expr y) a
  | .function _ => False

variable {T : Typing} {sofar : Ty} {stmts : List NodeId} {subject : Subject} {b stmt : NodeId}

/-- What is covered is so part by part. -/
theorem covers_of_exit? (h : T.Covers names (.body b)) (hmem : stmt ∈ T.code.children b)
    (hexit : T.code.exit? stmt = some subject) : T.Covers names subject := by
  unfold CompilationUnit.exit? at hexit
  cases hform : T.code.form stmt <;> rw [hform] at hexit
  case ret value definition =>
    cases value with
    | some value =>
      cases hexit
      exact h value (.here hmem hform)
    | none => cases hexit
  case branch cond =>
    cases hexit
    exact fun y hy => h y (.inside hmem (by rw [hform]; trivial) hy)
  case block =>
    cases hexit
    exact fun y hy => h y (.inside hmem (by rw [hform]; trivial) hy)
  all_goals cases hexit

/-- What is covered is so after whatever is checked. -/
theorem Covers.spares {code code' : CompilationUnit}
    (h : Covers ⟨spec, config, code⟩ names subject) (hcode : code.Spares spec config names code')
    (hnames : code'.scopes.RefinesTo names) : Covers ⟨spec, config, code'⟩ names subject := by
  cases subject with
  | expr y => exact h.imp fun a => hcode.endures hnames
  | body b => exact fun y hy => (h y (hcode.refines.returns hy)).imp fun a => hcode.endures hnames
  | function f => exact h.elim

/-- A body is covered if its statements are. -/
theorem covers_body (h : ∀ stmt ∈ T.code.children b, ∀ subject,
    T.code.exit? stmt = some subject → T.Covers names subject) : T.Covers names (.body b) := by
  intro y hy
  cases hy with
  | here hmem hform => exact h _ hmem _ (CompilationUnit.exit?_of_ret hform)
  | inside hmem hform hy => exact h _ hmem _ (CompilationUnit.exit?_of_isBranching hform) y hy

end Typing

namespace Inquiry.Ends

variable {s v : CheckState σ} {f : NodeId} {a : Ty} {R : List NodeId} {q : Inquiry}
  {e : Except Failure Ty}

/-- Where all answers endure, asking for them leaves no trace. -/
theorem gives_of_covers (h : Ends spec config R q s e v) (he : e = .ok a)
    (hq : ∀ subject, q.Asks subject → Covers ⟨spec, config, s.code⟩ names subject) :
    v = s ∧ q.Gives (Endures ⟨spec, config, s.code⟩ names) a := by
  induction h generalizing a with
  | answer =>
    cases he
    exact ⟨rfl, rfl⟩
  | fail | depth | stop => cases he
  | @ask R subject next s u v type e first rest ihfirst ihrest =>
    have hrest : u.left s subject type = s → Endures ⟨spec, config, s.code⟩ names subject type →
        v = s ∧ (Inquiry.ask subject next).Gives (Endures ⟨spec, config, s.code⟩ names) a := by
      intro hleft htype
      rw [hleft] at ihrest
      obtain ⟨hv, hgives⟩ := ihrest he fun other hother => hq other (.tail type hother)
      exact ⟨hv, type, htype, hgives⟩
    have hcovered := hq subject .head
    have hsettles := settles_endures ⟨spec, config, s.code⟩ names
    cases subject with
    | expr y =>
      obtain ⟨b, hb⟩ := hcovered
      rw [hsettles.entered_eq hb] at first
      obtain ⟨htype, rfl⟩ := hsettles.replay first nofun (hsettles.gives nofun hb)
      cases htype.resolve_right nofun
      exact hrest (hsettles.left_eq hb) hb
    | body b =>
      obtain ⟨rfl, hgives⟩ := ihfirst rfl fun other hother => by
        obtain ⟨stmt, hmem, hexit⟩ := exit?_of_asks hother
        exact covers_of_exit? hcovered hmem hexit
      exact hrest rfl (endures_body_of_gives hgives)
    | function f => exact hcovered.elim

/-- **The return type of a function endures** if there are enduring answers for all values that it
returns, and is found without a trace. -/
theorem endures_body (h : Ends spec config R (.ask (.body f) .answer) s (.ok a) v)
    (hf : Covers ⟨spec, config, s.code⟩ names (.body f)) :
    v = s ∧ Endures ⟨spec, config, s.code⟩ names (.body f) a := by
  have hasked : ∀ subject, (Inquiry.ask (.body f) .answer).Asks subject →
      Covers ⟨spec, config, s.code⟩ names subject := by
    intro subject hasks
    rcases asks_ask_iff.mp hasks with rfl | ⟨_, hasks⟩
    · exact hf
    · cases hasks
  obtain ⟨hv, hgives⟩ := h.gives_of_covers rfl hasked
  exact ⟨hv, gives_ask_answer.mp hgives⟩

end Inquiry.Ends

end ContractLang
