import ContractLang.Proofs.Typing.Footprint

/-!
# The order of questions

What the checker puts on record while it answers one question is used when it answers the
next. Between two questions about types this makes no difference as long as what both of
them come to is not recursive: there, whatever is on record is what would have been found
out anyway (`ContractLang.Typing.Upholds`), and everywhere else nothing has been put on
record by the other question. So the two courses of typing go side by side
(`ContractLang.Typing.Twin`), and questions can be asked in any order
(`ContractLang.Checker.ask_typeOf_comm`).

It does make a difference among functions that call one another, because a call of a
function that is being resolved is left untyped, and is rejected as an operand
(`ContractLang.Checker.orderMatters`).
-/

namespace ContractLang

open Check

variable {σ : Type}

namespace Typing

/-- How an inquiry goes if nothing is put on record, and no function is left out. -/
inductive Derives (T : Typing) : Inquiry → Option Ty → Prop where
  | answer {type : Ty} : Derives T (.answer type) (some type)
  | fail : Derives T .fail none
  | stop {subject : Subject} {next : Ty → Inquiry} (first : Derives T (T.inquiry subject) none) :
    Derives T (.ask subject next) none
  | ask {subject : Subject} {next : Ty → Inquiry} {type : Ty} {r : Option Ty}
    (first : Derives T (T.inquiry subject) (some type)) (rest : Derives T (next type) r) :
    Derives T (.ask subject next) r

/-- It goes in one way only. -/
theorem Derives.unique {T : Typing} {q : Inquiry} {r r' : Option Ty} (h : T.Derives q r)
    (h' : T.Derives q r') : r = r' := by
  induction h generalizing r' with
  | answer | fail =>
    cases h'
    rfl
  | stop first ih =>
    cases h' with
    | stop => rfl
    | ask first' => cases ih first'
  | ask first rest ihfirst ihrest =>
    cases h' with
    | stop first' => cases ihfirst first'
    | ask first' rest' =>
      cases ihfirst first'
      exact ihrest rest'

/-- A unit has come about by typing, and what it has on record for the nodes in a set is what
is derived for them in the first place. -/
structure Upholds (T : Typing) (B : NodeId → Prop) (code : CompilationUnit) : Prop where
  typesTo : T.code.TypesTo code
  derives : ∀ x, B x → code.IsRecorded x →
    T.Derives (T.inquiry (.expr x)) (some (code.node x).type)

/-- The inquiries into the nodes in a set are the same at every time: the set contains what its
nodes lead to, and no name in it stands for a function. -/
structure Nameless (code : CompilationUnit) (N : NodeId → Prop) : Prop where
  closed : code.Closed N
  ident : ∀ x, N x → ∀ name d, code.form x = .ident name →
    code.scopes.find? (code.node x).scope name = some d → ¬d.isFunc

/-- The answers are the same, too: no function called in the set is recursive. -/
structure Timeless (code : CompilationUnit) (B : NodeId → Prop) : Prop extends
    Nameless code B where
  not_recursive : ∀ x f, B x → code.Calls x f → ¬code.Recursive f

/-- The nodes that each of the functions being resolved leads to. -/
def Above (code : CompilationUnit) (R : List NodeId) (x : NodeId) : Prop :=
  ∀ g ∈ R, code.Reaches g x

section Above

variable {code code' : CompilationUnit} {R : List NodeId} {subject : Subject} {spec : OpSpec}
  {config : Config} {B : NodeId → Prop} {f : NodeId}

theorem closed_above (code : CompilationUnit) (R : List NodeId) : code.Closed (Above code R) :=
  fun _ _ hx hlead g hg => (hx g hg).tail hlead

/-- A question that all functions being resolved lead to is answered by such questions. -/
theorem within_above (hcode : code.TypesTo code') (h : subject.Within code (Above code R)) :
    (inquiryWithin ⟨spec, config, code'⟩ R subject).Within code
      (Above code (subject.resolving R)) := by
  cases subject with
  | expr | body => exact within_inquiryWithin (closed_above code R) hcode h
  | function f =>
    obtain ⟨x, hx, hcall⟩ := h
    by_cases hf : f ∈ R
    · rw [inquiryWithin_of_mem hf]
      exact Inquiry.within_answer _
    · rw [inquiryWithin_of_not_mem hf]
      have habove : Above code (f :: R) f := by
        intro g hg
        rcases List.mem_cons.mp hg with rfl | hg
        · exact .refl
        · exact (hx g hg).tail (.of_calls hcall)
      change (inquiryWithin ⟨spec, config, code'⟩ (f :: R) (.body f)).Within code
        (Above code (f :: R))
      exact within_inquiryWithin (closed_above code _) hcode habove

/-- A definition is no name either. -/
theorem Nameless.ident_of_within {N : NodeId → Prop} {x : NodeId} (hN : Nameless code N)
    (h : (Subject.expr x).Within code N) (name : String) (d : Descriptor)
    (hform : code.form x = .ident name)
    (hd : code.scopes.find? (code.node x).scope name = some d) : ¬d.isFunc := by
  rcases h with hx | ⟨_, _, _, hdef⟩
  · exact hN.ident x hx name d hform hd
  · cases hform.symm.trans hdef

/-- A function that is not recursive is not being resolved when it is called. -/
theorem Timeless.not_mem (hB : Timeless code B) (h : (Subject.function f).Within code B)
    (habove : (Subject.function f).Within code (Above code R)) : f ∉ R := by
  intro hf
  obtain ⟨x, hx, hcall⟩ := h
  obtain ⟨y, hy, hcall'⟩ := habove
  exact hB.not_recursive x f hx hcall ⟨y, hy f hf, hcall'⟩

end Above

/-! ### One course of typing -/

section Upholds

variable {T : Typing} {B : NodeId → Prop} {s u v : CheckState σ} {R : List NodeId}
  {subject : Subject} {q : Inquiry} {e : Except Failure Ty}

/-- What is on record in the first place is what is derived. -/
theorem upholds_self (T : Typing) (B : NodeId → Prop) : T.Upholds B T.code := by
  refine ⟨.refl _, fun x _ hx => ?_⟩
  rw [inquiry_of_isRecorded hx]
  exact .answer

theorem Upholds.entered (h : T.Upholds B s.code) (subject : Subject) :
    T.Upholds B (s.entered subject).code := by
  refine ⟨h.typesTo.trans (CheckState.typesTo_entered s subject), fun x hx hrecorded => ?_⟩
  have htype := CheckState.type_entered s subject x
  have hform := (CheckState.typesTo_entered s subject).refines.form x
  rw [htype]
  refine h.derives x hx ⟨?_, ?_⟩
  · rw [← hform]
    exact hrecorded.1
  · rw [← htype]
    exact hrecorded.2

theorem Upholds.left {type : Ty} (h : T.Upholds B u.code)
    (hcode : T.code.TypesTo (u.left s subject type).code)
    (hnew : ∀ x, subject = .expr x → B x → T.Derives (T.inquiry (.expr x)) (some type)) :
    T.Upholds B (u.left s subject type).code := by
  refine ⟨hcode, fun x hx hrecorded => ?_⟩
  have htype := CheckState.type_left u s subject type x
  split at htype
  · next hput =>
    rw [htype]
    exact hnew x hput.1 hx
  · have hremembers := hrecorded.1
    rw [hcode.refines.form, ← h.typesTo.refines.form] at hremembers
    rw [htype]
    refine h.derives x hx ⟨hremembers, ?_⟩
    rw [← htype]
    exact hrecorded.2

/-- What is found out about a question at some time is derived for it. -/
theorem Upholds.derives_inquiry (hB : Timeless T.code B) (hs : T.Upholds B s.code)
    (h : subject.Within T.code B) (habove : subject.Within T.code (Above T.code R))
    {r : Option Ty} (hr : T.Derives (inquiryWithin ⟨T.spec, T.config, s.code⟩ R subject) r) :
    T.Derives (T.inquiry subject) r := by
  have hcode := hs.typesTo.refines
  have hbody : ∀ b, inquiry ⟨T.spec, T.config, s.code⟩ (.body b) = T.inquiry (.body b) :=
    fun b => inquiry_body_congr hcode b
  cases subject with
  | expr x =>
    by_cases hrecorded : s.code.IsRecorded x
    · rw [inquiryWithin_of_isRecorded hrecorded] at hr
      cases hr
      refine hs.derives x (h.resolve_right fun hdef => hdef.not_remembers ?_) hrecorded
      rw [← hcode.form]
      exact hrecorded.1
    · rw [inquiryWithin_of_not_isRecorded hrecorded,
        formInquiry_congr hs.typesTo (hB.ident_of_within h)] at hr
      rw [inquiry_of_not_isRecorded fun hold => hrecorded (hcode.isRecorded hold)]
      exact hr
  | body b =>
    rw [← hbody]
    exact hr
  | function f =>
    rw [inquiryWithin_of_not_mem (hB.not_mem h habove), hbody] at hr
    cases r with
    | none => exact .stop hr
    | some type => exact .ask hr .answer

/-- **Typing upholds what is derived**, and what it finds out about nodes in the set is derived. -/
theorem upholds_of_ends (hB : Timeless T.code B)
    (h : Inquiry.Ends T.spec T.config R q s e v) (hs : T.Upholds B s.code)
    (hq : q.Within T.code (Above T.code R)) :
    T.Upholds B v.code ∧
      (q.Within T.code B → e ≠ .error .outOfDepth → T.Derives q e.toOption) := by
  induction h with
  | answer => exact ⟨hs, fun _ _ => .answer⟩
  | fail => exact ⟨hs, fun _ _ => .fail⟩
  | depth => exact ⟨hs, fun _ hne => absurd rfl hne⟩
  | @stop R subject next s u failure first ih =>
    obtain ⟨hu, hderives⟩ := ih (hs.entered _) (within_above hs.typesTo hq.head)
    refine ⟨hu, fun hq' hne => .stop ?_⟩
    exact hs.derives_inquiry hB hq'.head hq.head
      (hderives (within_inquiryWithin hB.closed hs.typesTo hq'.head) hne)
  | @ask R subject next s u v type e first rest ihfirst ihrest =>
    obtain ⟨hu, hderives⟩ := ihfirst (hs.entered _) (within_above hs.typesTo hq.head)
    have hfirst : subject.Within T.code B → T.Derives (T.inquiry subject) (some type) :=
      fun hsubject => hs.derives_inquiry hB hsubject hq.head
        (hderives (within_inquiryWithin hB.closed hs.typesTo hsubject) nofun)
    have hleft : T.Upholds B (u.left s subject type).code := by
      refine hu.left (hs.typesTo.trans (CheckState.typesTo_left ?_ _ _)) fun x hx hBx => ?_
      · exact (CheckState.typesTo_entered _ _).trans first.typesTo
      · subst hx
        exact hfirst (.inl hBx)
    obtain ⟨hv, hrest⟩ := ihrest hleft (hq.tail _)
    exact ⟨hv, fun hq' hne => .ask (hfirst hq'.head) (hrest (hq'.tail _) hne)⟩

end Upholds

/-! ### Two courses of typing -/

/-- Two units have come about by typing from the same one. They differ in what is on record for
the nodes in `B`, which is what is derived in both of them, but not for other nodes in `N`. -/
structure Twin (T : Typing) (B N : NodeId → Prop) (code code' : CompilationUnit) : Prop where
  left : T.Upholds B code
  right : T.Upholds B code'
  same : ∀ x, N x → ¬B x → (code.node x).type = (code'.node x).type

section Twin

variable {T : Typing} {B N : NodeId → Prop} {s s' u u' v v' : CheckState σ} {R : List NodeId}
  {subject : Subject} {q : Inquiry} {e e' : Except Failure Ty} {x : NodeId}

/-- Answers that are derived alike are alike. -/
theorem eq_of_toOption_eq (he : e ≠ .error .outOfDepth) (he' : e' ≠ .error .outOfDepth)
    (h : e.toOption = e'.toOption) : e = e' := by
  match e, e' with
  | .ok a, .ok b => exact congrArg Except.ok (Option.some.inj h)
  | .ok a, .error failure => cases h
  | .error failure, .ok b => cases h
  | .error .fault, .error .fault => rfl
  | .error .outOfDepth, _ => exact absurd rfl he
  | _, .error .outOfDepth => exact absurd rfl he'

theorem Twin.entered (h : T.Twin B N s.code s'.code) (subject : Subject) :
    T.Twin B N (s.entered subject).code (s'.entered subject).code := by
  refine ⟨h.left.entered subject, h.right.entered subject, fun x hx hBx => ?_⟩
  rw [CheckState.type_entered, CheckState.type_entered]
  exact h.same x hx hBx

/-- Outside `B` the same nodes have a type on record. -/
theorem Twin.isRecorded_iff (h : T.Twin B N s.code s'.code) (hx : N x) (hBx : ¬B x) :
    s.code.IsRecorded x ↔ s'.code.IsRecorded x := by
  unfold CompilationUnit.IsRecorded
  rw [h.left.typesTo.refines.form, h.right.typesTo.refines.form, h.same x hx hBx]

/-- The inquiry into a question is the same in both units unless an answer is on record. -/
theorem Twin.inquiryWithin_eq (h : T.Twin B N s.code s'.code) (hN : Nameless T.code N)
    (hsubject : subject.Within T.code N)
    (hs : ∀ x, subject = .expr x → ¬s.code.IsRecorded x)
    (hs' : ∀ x, subject = .expr x → ¬s'.code.IsRecorded x) :
    inquiryWithin ⟨T.spec, T.config, s'.code⟩ R subject =
      inquiryWithin ⟨T.spec, T.config, s.code⟩ R subject := by
  have hbody : ∀ b, inquiry ⟨T.spec, T.config, s'.code⟩ (.body b) =
      inquiry ⟨T.spec, T.config, s.code⟩ (.body b) := fun b =>
    (inquiry_body_congr h.right.typesTo.refines b).trans
      (inquiry_body_congr h.left.typesTo.refines b).symm
  cases subject with
  | expr x =>
    have hident := hN.ident_of_within hsubject
    refine (inquiryWithin_of_not_isRecorded (hs' x rfl)).trans (.trans ?_
      (inquiryWithin_of_not_isRecorded (hs x rfl)).symm)
    exact (formInquiry_congr h.right.typesTo hident).trans
      (formInquiry_congr h.left.typesTo hident).symm
  | body b => exact hbody b
  | function f =>
    by_cases hf : f ∈ R
    · rw [inquiryWithin_of_mem hf, inquiryWithin_of_mem hf]
    · rw [inquiryWithin_of_not_mem hf, inquiryWithin_of_not_mem hf]
      exact hbody f

/-- Typing nodes in `B` keeps two units twins, and finds out the same. -/
theorem Twin.of_upholds (hB : Timeless T.code B) (h : T.Twin B N s.code s'.code)
    (hq : q.Within T.code B) (hRq : q.Within T.code (Above T.code R))
    {q' : Inquiry} {R' : List NodeId}
    (hq' : q'.Within T.code B) (hRq' : q'.Within T.code (Above T.code R'))
    (hends : Inquiry.Ends T.spec T.config R q s e u)
    (hends' : Inquiry.Ends T.spec T.config R' q' s' e' u') : T.Twin B N u.code u'.code := by
  refine ⟨(upholds_of_ends hB hends h.left hRq).1, (upholds_of_ends hB hends' h.right hRq').1,
    fun x hx hBx => ?_⟩
  rw [hends.type_eq_of_not_mem hB.closed h.left.typesTo hq hBx,
    hends'.type_eq_of_not_mem hB.closed h.right.typesTo hq' hBx]
  exact h.same x hx hBx

/-- **A question has the same answer in twins**, if the inquiries into it have the same result
where they are the same. -/
theorem Twin.first (hB : Timeless T.code B) (hN : Nameless T.code N)
    (h : T.Twin B N s.code s'.code) (hsubject : subject.Within T.code N)
    (habove : subject.Within T.code (Above T.code R))
    (hends : Inquiry.Ends T.spec T.config (subject.resolving R)
      (inquiryWithin ⟨T.spec, T.config, s.code⟩ R subject) (s.entered subject) e u)
    (hends' : Inquiry.Ends T.spec T.config (subject.resolving R)
      (inquiryWithin ⟨T.spec, T.config, s'.code⟩ R subject) (s'.entered subject) e' u')
    (he : e ≠ .error .outOfDepth) (he' : e' ≠ .error .outOfDepth)
    (ih : inquiryWithin ⟨T.spec, T.config, s'.code⟩ R subject =
      inquiryWithin ⟨T.spec, T.config, s.code⟩ R subject → e = e' ∧ T.Twin B N u.code u'.code) :
    e = e' ∧ T.Twin B N u.code u'.code := by
  by_cases hrecorded : ∃ x, subject = .expr x ∧ (s.code.IsRecorded x ∨ s'.code.IsRecorded x)
  · obtain ⟨x, rfl, hx⟩ := hrecorded
    have hremembers : (T.code.form x).remembers := by
      rcases hx with hx | hx
      · rw [← h.left.typesTo.refines.form]
        exact hx.1
      · rw [← h.right.typesTo.refines.form]
        exact hx.1
    have hNx : N x := hsubject.resolve_right fun hdef => hdef.not_remembers hremembers
    by_cases hBx : B x
    · -- What is on record in one of the two units is derived in the other one.
      have hwithin : (Subject.expr x).Within T.code B := .inl hBx
      have hq : ∀ {code'}, T.code.TypesTo code' →
          (inquiryWithin ⟨T.spec, T.config, code'⟩ R (.expr x)).Within T.code B :=
        fun hcode => within_inquiryWithin hB.closed hcode hwithin
      have hR : ∀ {code'}, T.code.TypesTo code' →
          (inquiryWithin ⟨T.spec, T.config, code'⟩ R (.expr x)).Within T.code (Above T.code R) :=
        fun hcode => within_above hcode habove
      have hcode := h.left.typesTo
      have hcode' := h.right.typesTo
      have hderives := h.left.derives_inquiry hB hwithin habove
        ((upholds_of_ends hB hends (h.left.entered _) (hR hcode)).2 (hq hcode) he)
      have hderives' := h.right.derives_inquiry hB hwithin habove
        ((upholds_of_ends hB hends' (h.right.entered _) (hR hcode')).2 (hq hcode') he')
      exact ⟨eq_of_toOption_eq he he' (hderives.unique hderives'),
        (h.entered _).of_upholds hB (hq hcode) (hR hcode) (hq hcode') (hR hcode') hends hends'⟩
    · have hiff := h.isRecorded_iff hNx hBx
      have hs : s.code.IsRecorded x := hx.elim id hiff.mpr
      have hs' : s'.code.IsRecorded x := hiff.mp hs
      refine ih ((inquiryWithin_of_isRecorded hs').trans (.trans ?_
        (inquiryWithin_of_isRecorded hs).symm))
      rw [h.same x hNx hBx]
  · have hnot : ∀ x, subject = .expr x → ¬(s.code.IsRecorded x ∨ s'.code.IsRecorded x) :=
      fun x hx hrec => hrecorded ⟨x, hx, hrec⟩
    exact ih (h.inquiryWithin_eq hN hsubject (fun x hx hs => hnot x hx (.inl hs))
      fun x hx hs' => hnot x hx (.inr hs'))

/-- Putting the same answer on record in twins. -/
theorem Twin.answered {type : Ty} (hB : Timeless T.code B) (h : T.Twin B N s.code s'.code)
    (hu : T.Twin B N u.code u'.code)
    (habove : subject.Within T.code (Above T.code R))
    (hends : Inquiry.Ends T.spec T.config R (.ask subject .answer) s (.ok type)
      (u.left s subject type))
    (hends' : Inquiry.Ends T.spec T.config R (.ask subject .answer) s' (.ok type)
      (u'.left s' subject type)) :
    T.Twin B N (u.left s subject type).code (u'.left s' subject type).code := by
  have hRq : (Inquiry.ask subject .answer).Within T.code (Above T.code R) :=
    Inquiry.within_ask_answer habove
  refine ⟨(upholds_of_ends hB hends h.left hRq).1, (upholds_of_ends hB hends' h.right hRq).1,
    fun x hx hBx => ?_⟩
  rw [CheckState.type_left, CheckState.type_left, hu.left.typesTo.refines.form,
    hu.right.typesTo.refines.form, hu.same x hx hBx]
  simp only [h.isRecorded_iff hx hBx]

/-- **Two courses of typing from twins go side by side.** -/
theorem Twin.of_ends (hB : Timeless T.code B) (hN : Nameless T.code N)
    (hends : Inquiry.Ends T.spec T.config R q s e v)
    (hends' : Inquiry.Ends T.spec T.config R q s' e' v') (h : T.Twin B N s.code s'.code)
    (hq : q.Within T.code N) (hRq : q.Within T.code (Above T.code R))
    (he : e ≠ .error .outOfDepth) (he' : e' ≠ .error .outOfDepth) :
    e = e' ∧ T.Twin B N v.code v'.code := by
  -- The induction is on the first course, and the second one is taken apart along with it.
  induction hends generalizing s' e' v' with
  | answer | fail =>
    cases hends'
    exact ⟨rfl, h⟩
  | depth => exact absurd rfl he
  | @stop R subject next s u failure first ih =>
    have hfirst : ∀ {r' w'}, Inquiry.Ends T.spec T.config (subject.resolving R)
        (inquiryWithin ⟨T.spec, T.config, s'.code⟩ R subject) (s'.entered subject) r' w' →
        r' ≠ .error .outOfDepth → .error failure = r' ∧ T.Twin B N u.code w'.code :=
      fun first' hr' => h.first hB hN hq.head hRq.head first first' he hr' fun heq =>
        ih (heq ▸ first') (h.entered _) (within_inquiryWithin hN.closed h.left.typesTo hq.head)
          (within_above h.left.typesTo hRq.head) he hr'
    cases hends' with
    | depth => exact absurd rfl he'
    | stop first' => exact hfirst first' he'
    | ask first' rest' => cases (hfirst first' nofun).1
  | @ask R subject next s u v type e first rest ihfirst ihrest =>
    have hfirst : ∀ {r' w'}, Inquiry.Ends T.spec T.config (subject.resolving R)
        (inquiryWithin ⟨T.spec, T.config, s'.code⟩ R subject) (s'.entered subject) r' w' →
        r' ≠ .error .outOfDepth → .ok type = r' ∧ T.Twin B N u.code w'.code :=
      fun first' hr' => h.first hB hN hq.head hRq.head first first' nofun hr' fun heq =>
        ihfirst (heq ▸ first') (h.entered _)
          (within_inquiryWithin hN.closed h.left.typesTo hq.head)
          (within_above h.left.typesTo hRq.head) nofun hr'
    cases hends' with
    | depth => exact absurd rfl he'
    | stop first' => cases (hfirst first' he').1
    | ask first' rest' =>
      obtain ⟨heq, hu⟩ := hfirst first' nofun
      cases heq
      exact ihrest rest' (h.answered hB hu hRq.head (.ask first .answer) (.ask first' .answer))
        (hq.tail _) (hRq.tail _) he he'

end Twin

/-- **What is found out about one node does not depend on whether another one has been typed
before.** -/
theorem ends_congr {T : Typing} {c c' : NodeId} {s v w w' : CheckState σ}
    {e r r' : Except Failure Ty} (hcode : s.code = T.code)
    (hnames : ∀ x, T.code.Reaches c x ∨ T.code.Reaches c' x → ∀ name d,
      T.code.form x = .ident name →
      T.code.scopes.find? (T.code.node x).scope name = some d → ¬d.isFunc)
    (hnonrecursive : ∀ f, T.code.ReachesFunction c f → T.code.ReachesFunction c' f →
      ¬T.code.Recursive f)
    (hfirst : Inquiry.Ends T.spec T.config [] (.ask (.expr c) .answer) s e v)
    (hafter : Inquiry.Ends T.spec T.config [] (.ask (.expr c') .answer) v r w)
    (halone : Inquiry.Ends T.spec T.config [] (.ask (.expr c') .answer) s r' w')
    (hr : r ≠ .error .outOfDepth) (hr' : r' ≠ .error .outOfDepth) : r' = r := by
  have hclosed : ∀ a, T.code.Closed (T.code.Reaches a) := fun a x y hx hlead => hx.tail hlead
  -- The two of them have in common what both come to.
  have hB : Timeless T.code fun x => T.code.Reaches c x ∧ T.code.Reaches c' x := by
    refine ⟨⟨fun x y hx hlead => ⟨hx.1.tail hlead, hx.2.tail hlead⟩, fun x hx =>
      hnames x (.inl hx.1)⟩, fun x f hx hcall => hnonrecursive f ⟨x, hx.1, hcall⟩ ⟨x, hx.2, hcall⟩⟩
  have hwithin : ∀ a, (Inquiry.ask (.expr a) .answer).Within T.code (T.code.Reaches a) :=
    fun a => Inquiry.within_ask_answer (.inl .refl)
  have habove : ∀ a, (Inquiry.ask (.expr a) .answer).Within T.code (Above T.code []) :=
    fun a => Inquiry.within_ask_answer (.inl fun _ hg => nomatch hg)
  have hs : T.Upholds (fun x => T.code.Reaches c x ∧ T.code.Reaches c' x) s.code := by
    rw [hcode]
    exact upholds_self T _
  have htwin : T.Twin (fun x => T.code.Reaches c x ∧ T.code.Reaches c' x)
      (T.code.Reaches c') s.code v.code := by
    refine ⟨hs, (upholds_of_ends hB hfirst hs (habove c)).1, fun x hx hBx => ?_⟩
    refine (hfirst.type_eq_of_not_mem (hclosed c) hs.typesTo (hwithin c) fun hxc => ?_).symm
    exact hBx ⟨hxc, hx⟩
  exact (Twin.of_ends hB ⟨hclosed c', fun x hx => hnames x (.inr hx)⟩ halone hafter htwin
    (hwithin c') (habove c') hr' hr).1

end Typing

/-! ### Queries -/

namespace Checker

/-- **Questions about two nodes can be asked in any order**, in a unit without cycles whose
functions all have bodies, if no function that both nodes come to is recursive and no name
that they come to stands for a function: each of them is given the same type, or none, in
either order. -/
theorem ask_typeOf_comm (checker : Checker σ) (s : CheckState σ) (c c' : NodeId)
    (hcode : s.code.Acyclic) (hresolved : s.code.scopes.AllResolved)
    (hnonrecursive : ∀ f, s.code.ReachesFunction c f → s.code.ReachesFunction c' f →
      ¬s.code.Recursive f)
    (hnames : ∀ x, s.code.Reaches c x ∨ s.code.Reaches c' x → ∀ name d,
      s.code.form x = .ident name →
      s.code.scopes.find? (s.code.node x).scope name = some d → ¬d.isFunc) :
    let first := checker.ask (.typeOf c) s
    let first' := checker.ask (.typeOf c') s
    (ending first.1 = ending (checker.ask (.typeOf c) first'.2).1 ∧
      ending first.1 ≠ .error .outOfDepth) ∧
    (ending first'.1 = ending (checker.ask (.typeOf c') first.2).1 ∧
      ending first'.1 ≠ .error .outOfDepth) := by
  have hbodiless := checker.bodiless_of_allResolved hresolved
  -- Both orders are alike, so one of the two nodes is enough.
  suffices h : ∀ a b, (∀ f, s.code.ReachesFunction a f → s.code.ReachesFunction b f →
      ¬s.code.Recursive f) → (∀ x, s.code.Reaches a x ∨ s.code.Reaches b x → ∀ name d,
      s.code.form x = .ident name →
      s.code.scopes.find? (s.code.node x).scope name = some d → ¬d.isFunc) →
      ending (checker.ask (.typeOf b) s).1 =
        ending (checker.ask (.typeOf b) (checker.ask (.typeOf a) s).2).1 ∧
      ending (checker.ask (.typeOf b) s).1 ≠ .error .outOfDepth from
    ⟨h c' c (fun f hc' hc => hnonrecursive f hc hc') fun x hx => hnames x hx.symm,
      h c c' hnonrecursive hnames⟩
  intro a b hrec hident
  have hfirst := checker.ends_ask_typeOf hbodiless a
  have hbodiless' := hbodiless.refinesTo hfirst.refinesTo
  have hcode' := hfirst.refinesTo.acyclic_iff.mpr hcode
  have halone := checker.ends_ask_typeOf hbodiless b
  have hafter := checker.ends_ask_typeOf hbodiless' b
  have hne := checker.ending_ask_typeOf_ne hbodiless hcode b
  have hne' := checker.ending_ask_typeOf_ne hbodiless' hcode' b
  exact ⟨Typing.ends_congr (T := checker.typing s.code) rfl hident hrec hfirst hafter halone hne'
    hne, hne⟩

/-- A function that returns a literal, another one that returns what the first one does, and
calls of both. -/
def twoCalls : CompilationUnit where
  nodes := #[.ofForm 0 (.literal .uint64 "1"), .ofForm 0 (.ret (some 0) none),
    { Node.ofForm 0 (.function "f" [] false) with children := [1] }, .ofForm 0 (.call "f"),
    .ofForm 0 (.ret (some 3) none),
    { Node.ofForm 0 (.function "g" [] false) with children := [4] }, .ofForm 0 (.call "f"),
    .ofForm 0 (.call "g")]
  scopes := ⟨#[{ Scope.fresh "global" none 0 with
    entries := [("f", ⟨"f", .unknown, .func (.resolved 2)⟩),
      ("g", ⟨"g", .unknown, .func (.resolved 5)⟩)] }], .initial⟩

/-- Both of the calls come to the first function. -/
theorem ask_typeOf_comm_twoCalls :
    let checker : Checker Unit := ⟨Standard.spec, .strict, none⟩
    let first := checker.ask (.typeOf 6) ⟨twoCalls, ()⟩
    let first' := checker.ask (.typeOf 7) ⟨twoCalls, ()⟩
    (ending first.1 = ending (checker.ask (.typeOf 6) first'.2).1 ∧
      ending first.1 ≠ .error .outOfDepth) ∧
    (ending first'.1 = ending (checker.ask (.typeOf 7) first.2).1 ∧
      ending first'.1 ≠ .error .outOfDepth) := by
  have hlinks : ∀ a < twoCalls.size,
      ∀ b ∈ (twoCalls.form a).operands ++ twoCalls.children a, b < a := by decide
  refine ask_typeOf_comm _ ⟨twoCalls, ()⟩ 6 7
    (CompilationUnit.acyclic_of_lt (CompilationUnit.link_lt_of_forall hlinks))
    (ScopeTree.allResolved_of_forall (by decide)) (fun f _ _ => ?_) fun x _ name d hform => ?_
  · exact CompilationUnit.not_recursive_of_lt
      (CompilationUnit.leads_lt_of_forall hlinks (by decide)) f
  · have hidents : ∀ a < twoCalls.size, ¬(twoCalls.form a matches .ident _) := by decide
    have hx : x < twoCalls.size := CompilationUnit.lt_size_of_form (by rw [hform]; nofun)
    exact absurd (by rw [hform]) (hidents x hx)

/-! ### Where the order matters -/

/-- Two calls, in a unit without cycles whose functions all have bodies, are not given the same
types, or none, in either order. -/
def OrderMatters (checker : Checker Unit) (code : CompilationUnit) (c c' : NodeId) : Prop :=
  code.Acyclic ∧ code.scopes.AllResolved ∧ code.isCall c ∧ code.isCall c' ∧
    let first := checker.ask (.typeOf c) ⟨code, ()⟩
    let first' := checker.ask (.typeOf c') ⟨code, ()⟩
    ¬(first.1.toOption = (checker.ask (.typeOf c) first'.2).1.toOption ∧
      (checker.ask (.typeOf c') first.2).1.toOption = first'.1.toOption)

/-- Two functions that call each other: `f` returns a literal or what `g` does, and `g` adds one
to what `f` returns. -/
def mutualCalls : CompilationUnit where
  nodes := #[.ofForm 0 (.literal .uint64 "1"), .ofForm 0 (.literal .uint64 "1"),
    .ofForm 0 (.ret (some 1) none), { Node.ofForm 0 .block with children := [2] },
    { Node.ofForm 0 (.branch 0) with children := [3] }, .ofForm 0 (.call "g"),
    .ofForm 0 (.ret (some 5) none),
    { Node.ofForm 0 (.function "f" [] false) with children := [4, 6] },
    .ofForm 0 (.call "f"), .ofForm 0 (.literal .uint64 "1"), .ofForm 0 (.binary "+" 8 9),
    .ofForm 0 (.ret (some 10) none),
    { Node.ofForm 0 (.function "g" [] false) with children := [11] },
    .ofForm 0 (.call "f"), .ofForm 0 (.call "g")]
  scopes := ⟨#[{ Scope.fresh "global" none 0 with
    entries := [("f", ⟨"f", .unknown, .func (.resolved 7)⟩),
      ("g", ⟨"g", .unknown, .func (.resolved 12)⟩)] }], .initial⟩

/-- A function that returns a literal, or else its own value or that of a variable without a
type. -/
def selfCall : CompilationUnit where
  nodes := #[.ofForm 0 (.literal .uint64 "1"), .ofForm 0 (.literal .uint64 "1"),
    .ofForm 0 (.ret (some 1) none), { Node.ofForm 0 .block with children := [2] },
    { Node.ofForm 0 (.branch 0) with children := [3] }, .ofForm 0 (.literal .uint64 "1"),
    .ofForm 0 (.call "f"), .ofForm 0 (.ident "y"), .ofForm 0 (.choice 5 6 7),
    .ofForm 0 (.ret (some 8) none),
    { Node.ofForm 0 (.function "f" [] false) with children := [4, 9] },
    .ofForm 0 (.call "f")]
  scopes := ⟨#[{ Scope.fresh "global" none 0 with
    entries := [("f", ⟨"f", .unknown, .func (.resolved 10)⟩), ("y", ⟨"y", .unknown, .var 0⟩)] }],
    .initial⟩

/-- A function of no known type, which is used as a value and called. -/
def namedFunction : CompilationUnit where
  nodes := #[.ofForm 0 (.literal .uint64 "1"), .ofForm 0 (.ret (some 0) none),
    { Node.ofForm 0 (.function "f" [] false) with children := [1] }, .ofForm 0 (.ident "f"),
    { Node.ofForm 0 (.call "setbit") with children := [3] }, .ofForm 0 (.call "f")]
  scopes := ⟨#[{ Scope.fresh "global" none 0 with
    entries := [("f", ⟨"f", .unknown, .func (.resolved 2)⟩)] }], .initial⟩

/-- **The order matters** where functions are recursive, be it through one another or on their
own, and where a name stands for a function. -/
theorem orderMatters :
    let checker : Checker Unit := ⟨Standard.spec, .strict, none⟩
    checker.OrderMatters mutualCalls 13 14 ∧ checker.OrderMatters selfCall 6 11 ∧
      checker.OrderMatters namedFunction 4 5 := by
  refine ⟨⟨CompilationUnit.acyclic_of_lt (CompilationUnit.link_lt_of_forall (by decide)),
      ScopeTree.allResolved_of_forall (by decide), rfl, rfl, fun h => ?_⟩,
    ⟨CompilationUnit.acyclic_of_lt (CompilationUnit.link_lt_of_forall (by decide)),
      ScopeTree.allResolved_of_forall (by decide), rfl, rfl, fun h => ?_⟩,
    ⟨CompilationUnit.acyclic_of_lt (CompilationUnit.link_lt_of_forall (by decide)),
      ScopeTree.allResolved_of_forall (by decide), rfl, rfl, fun h => ?_⟩⟩
  · have hfirst : (none : Option Ty) = some .uint64 := h.1
    cases hfirst
  · have hsecond : (none : Option Ty) = some .uint64 := h.2
    cases hsecond
  · have hfirst : some Ty.unknown = some .uint64 := h.1
    cases hfirst

end Checker

end ContractLang
