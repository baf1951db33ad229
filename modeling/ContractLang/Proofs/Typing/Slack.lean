import ContractLang.Proofs.Typing.Settling

/-!
# Answers with slack

The type that a function is found to return goes on record, in calls of it and in its
descriptor. Expressions that had no known type may have one from then on. But the only type
that they can have got is that of the function (`ContractLang.Ty.MayBecome`), since nothing
else has come to be known.

Inquiries are monotone in this respect: if the answers to their questions get the type of
the function in place of none, then so does the result, unless they fail
(`ContractLang.Inquiry.Related`). So a table of settled answers can be kept, with
slack (`ContractLang.Typing.Slackens`): whatever is typed later on, the answers in the table
remain what they are, or become the type of the function
(`ContractLang.Typing.Slackens.of_ends`).
-/

namespace ContractLang

open Check

variable {σ : Type}

/-- Two known types that do not clash are the same. -/
theorem Ty.eq_of_not_clashes {a b : Ty} (ha : a.isKnown) (hb : b.isKnown) (h : ¬a.clashes b) :
    a = b := by
  by_contra hne
  refine h ?_
  rw [clashes, ha, hb]
  exact bne_iff_ne.mpr hne

/-- A type stays as it is, or it is not known and becomes `t`. -/
def Ty.MayBecome (t a b : Ty) : Prop :=
  b = a ∨ ¬a.isKnown ∧ b = t

namespace Ty.MayBecome

variable {t a b c : Ty}

theorem refl (t a : Ty) : MayBecome t a a := .inl rfl

theorem trans (h : MayBecome t a b) (h' : MayBecome t b c) : MayBecome t a c := by
  rcases h with rfl | ⟨ha, rfl⟩
  · exact h'
  · rcases h' with rfl | ⟨-, rfl⟩ <;> exact .inr ⟨ha, rfl⟩

/-- A known type stays as it is. -/
theorem eq_of_isKnown (h : MayBecome t a b) (ha : a.isKnown) : b = a :=
  h.resolve_right fun hnot => hnot.1 ha

/-- What is valid does not become invalid. -/
theorem ne_invalid (h : MayBecome t a b) (ht : t.isKnown) (ha : a ≠ .invalid) : b ≠ .invalid := by
  rcases h with rfl | ⟨-, rfl⟩
  · exact ha
  · rintro rfl
    cases ht

/-- The last known type of two, if that is taken over by the sequel. -/
theorem unify (h : MayBecome t a b) {c d : Ty} (h' : MayBecome t c d) (hclash : ¬b.clashes d) :
    MayBecome t (if c.isKnown then c else a) (if d.isKnown then d else b) := by
  rcases h' with rfl | ⟨hc, rfl⟩
  · by_cases hd : d.isKnown
    · rw [if_pos hd, if_pos hd]
      exact .refl t d
    · rw [if_neg hd, if_neg hd]
      exact h
  · rw [if_neg hc]
    split
    · next hd =>
      rcases h with rfl | ⟨ha, -⟩
      · by_cases hb : b.isKnown
        · exact .inl (eq_of_not_clashes hb hd hclash).symm
        · exact .inr ⟨hb, rfl⟩
      · exact .inr ⟨ha, rfl⟩
    · exact h

end Ty.MayBecome

/-- The one descriptor that is given a type has had none. -/
theorem ScopeTree.mayBecome_of_refine {t t' : ScopeTree} {id id' : ScopeId} {name name' : String}
    {type : Ty} {d d' : Descriptor} (h : t.refine id name type = .ok t')
    (hd : t.find? id' name' = some d) (hd' : t'.find? id' name' = some d') :
    type.MayBecome d.type d'.type := by
  have hrefl : Agree (fun d d' => type.MayBecome d.type d'.type) (t.chain id') t t :=
    .refl (fun d => .refl type d.type) _ t
  suffices hagree : Agree (fun d d' => type.MayBecome d.type d'.type) (t.chain id') t t' by
    have hrel := hagree.find? name'
    rw [hd, hd'] at hrel
    cases hrel with
    | some hrel => exact hrel
  cases hfound : t.find? id name with
  | none =>
    unfold refine lookup at h
    rw [hfound] at h
    cases h
  | some old =>
    obtain ⟨s, hs, hget⟩ := find?_eq_some_iff.mp hfound
    rw [refine_eq_ok hs hget type] at h
    obtain rfl := Except.ok.inj h
    split
    · exact hrefl
    · next hunknown =>
      exact hrefl.replace hget fun d' hd' => hd'.trans (.inr ⟨hunknown, rfl⟩)

namespace Inquiry

variable {α : Type} {t : Ty}

/-- Two inquiries ask for the same, and from answers that become `t` at most they go on to
results that become `t` at most, unless one of them fails. -/
def Related (t : Ty) : Inquiry → Inquiry → Prop
  | answer a, answer b => t.MayBecome a b
  | ask subject next, ask subject' next' =>
    subject = subject' ∧ ∀ a b, t.MayBecome a b → (next a).Related t (next' b)
  | fail, _ | _, fail => True
  | _, _ => False

theorem related_fail_left (t : Ty) (q : Inquiry) : fail.Related t q := by
  cases q <;> trivial

theorem related_fail_right (t : Ty) (q : Inquiry) : q.Related t fail := by
  cases q <;> trivial

theorem related_answer (t a : Ty) : (answer a).Related t (answer a) := .refl t a

/-- Asking for the same. -/
theorem related_ask {subject : Subject} {next next' : Ty → Inquiry}
    (h : ∀ a b, t.MayBecome a b → (next a).Related t (next' b)) :
    (ask subject next).Related t (ask subject next') :=
  ⟨rfl, h⟩

theorem related_require {ok ok' : Prop} [Decidable ok] [Decidable ok'] {q q' : Inquiry}
    (h : ok' → q.Related t q') : (require ok q).Related t (require ok' q') := by
  unfold require
  by_cases hok' : ok'
  · rw [if_pos hok']
    split
    · exact h hok'
    · exact related_fail_left t q'
  · rw [if_neg hok']
    exact related_fail_right t _

theorem related_consult {given : Except Error α} {next : α → Inquiry}
    (h : ∀ a, (next a).Related t (next a)) :
    (consult given next).Related t (consult given next) := by
  cases given with
  | ok a => exact h a
  | error e => exact related_fail_left t _

theorem related_operand {id : NodeId} {next next' : Ty → Inquiry}
    (h : ∀ a b, t.MayBecome a b → (next a).Related t (next' b)) :
    (operand id next).Related t (operand id next') :=
  related_ask fun a b hab => related_require fun _ => h a b hab

theorem related_ask_answer (t : Ty) (subject : Subject) :
    (ask subject answer).Related t (ask subject answer) :=
  related_ask fun _ _ hab => hab

end Inquiry

namespace Typing

open Inquiry

variable {T : Typing} {t : Ty}

/-- **The inquiry into an expression is monotone.** -/
theorem related_formInquiry (T : Typing) (t : Ty) (x : NodeId) (form : Form) :
    (T.formInquiry x form).Related t (T.formInquiry x form) := by
  cases form
  case literal | const => exact related_answer t _
  case ident name =>
    unfold formInquiry identInquiry
    dsimp only
    split
    · exact related_require fun _ => related_answer t _
    · exact related_fail_left t _
  case binary op lhs rhs =>
    refine related_consult fun result => related_consult fun left => related_consult fun right => ?_
    refine related_operand fun _ _ _ => related_operand fun _ _ _ => ?_
    exact related_require fun _ => related_require fun _ => related_require fun _ =>
      related_answer t result
  case group value => exact related_ask_answer t _
  case unary op value =>
    refine related_consult fun result => related_consult fun expected => ?_
    exact related_operand fun _ _ _ => related_require fun _ => related_require fun _ =>
      related_answer t result
  case choice cond yes no =>
    refine related_ask fun _ _ _ => related_require fun _ => ?_
    exact related_ask fun _ _ hab => related_ask fun _ _ _ => related_require fun _ => hab
  case cast target value =>
    exact related_ask fun _ _ _ => related_require fun _ => related_answer t target
  case call name =>
    unfold formInquiry callInquiry
    dsimp only
    split
    · exact related_ask_answer t _
    · exact related_answer t _
    · exact related_fail_left t _
    · refine related_require fun _ => related_consult fun type => ?_
      split
      · split
        · exact related_ask_answer t _
        · exact related_answer t _
      · exact related_answer t type
  case runtimeField | runtimeArg => exact related_consult fun type => related_answer t type
  all_goals exact related_fail_left t _

/-- So is the inquiry into the exits of statements. -/
theorem related_exitsInquiry (stmts : List NodeId) {a b : Ty} (hab : t.MayBecome a b) :
    (T.exitsInquiry a stmts).Related t (T.exitsInquiry b stmts) := by
  induction stmts generalizing a b with
  | nil => exact hab
  | cons stmt rest ih =>
    have hnext : ∀ c d, t.MayBecome c d →
        (require (¬a.clashes c) (T.exitsInquiry (if c.isKnown then c else a) rest)).Related t
          (require (¬b.clashes d) (T.exitsInquiry (if d.isKnown then d else b) rest)) :=
      fun c d hcd => related_require fun hclash => ih (hab.unify hcd hclash)
    unfold exitsInquiry exitInquiry
    split
    · exact related_ask hnext
    · exact hnext _ _ (.refl t _)
    · exact related_ask hnext
    · exact related_ask hnext
    · exact hnext _ _ (.refl t _)

theorem related_inquiry_expr (T : Typing) (t : Ty) (x : NodeId) :
    (T.inquiry (.expr x)).Related t (T.inquiry (.expr x)) := by
  unfold inquiry
  dsimp only
  split
  · exact related_answer t _
  · exact related_formInquiry T t x _

theorem related_inquiry_body (T : Typing) (t : Ty) (b : NodeId) :
    (T.inquiry (.body b)).Related t (T.inquiry (.body b)) :=
  related_exitsInquiry _ (.refl t _)

/-! ### Tables with slack -/

/-- The answers in a table are what they are, or have become the type `t` that a function is known
to return. -/
def Slackens (T : Typing) (t : Ty) (f₀ : NodeId) (P : Subject → Ty → Prop) : Prop :=
  ∀ subject a, P subject a →
    match subject with
    | .expr x => ∃ b, t.MayBecome a b ∧ (T.inquiry (.expr x)).Gives P b
    | .body b => (T.inquiry (.body b)).Gives P a
    | .function f => a = .unknown ∧ (f = f₀ ∨ P (.body f) .unknown)

namespace Slackens

variable {spec : OpSpec} {config : Config} {code code' : CompilationUnit} {f₀ : NodeId}
  {P : Subject → Ty → Prop} {R : List NodeId} {s u v : CheckState σ} {q q' : Inquiry}
  {e : Except Failure Ty} {subject : Subject} {a b : Ty} {x : NodeId}

/-- The names in a table stand for no functions. -/
def Nameless (code : CompilationUnit) (P : Subject → Ty → Prop) : Prop :=
  ∀ x a, P (.expr x) a → ∀ name d, code.form x = .ident name →
    code.scopes.find? (code.node x).scope name = some d → ¬d.isFunc

theorem Nameless.typesTo (h : Nameless code P) (hcode : code.TypesTo code') :
    Nameless code' P := by
  intro x a hx name d hform hd
  rw [hcode.refines.form] at hform
  rw [hcode.refines.scope] at hd
  rw [hcode.completes.find?_eq fun d hd => h x a hx name d hform hd] at hd
  exact h x a hx name d hform hd

/-- **Settled answers that stay in a closed set make a table with slack**, as long as none of the
functions but `f₀` was being resolved. -/
theorem of_settles {names : ScopeTree} {N : NodeId → Prop}
    (h : Settles ⟨spec, config, code⟩ names [f₀] P) (hN : code.Closed N) :
    Slackens ⟨spec, config, code⟩ t f₀ fun subject a => P subject a ∧ subject.Within code N := by
  have hasks : ∀ {subject other}, subject.Within code N →
      (inquiryWithin ⟨spec, config, code⟩ [] subject).Asks other → other.Within code N :=
    fun hwithin hother => within_inquiryWithin hN (.refl code) hwithin _ hother
  rintro (x | b | f) a ⟨hPa, hwithin⟩
  · exact ⟨a, .refl t a, (h _ a hPa).1.of_asks fun other c hother hc => ⟨hc, hasks hwithin hother⟩⟩
  · exact Gives.of_asks (h _ a hPa) fun other c hother hc => ⟨hc, hasks hwithin hother⟩
  · obtain ⟨ha, hf⟩ := h _ a hPa
    obtain ⟨x, hx, hcalls⟩ := hwithin
    exact ⟨ha, hf.imp List.mem_singleton.mp fun hbody => ⟨hbody, hN x f hx (.of_calls hcalls)⟩⟩

/-- The inquiry into an expression leads to what it has led to, or to what this may become if it is
one into a name. -/
theorem exists_gives_form (ht : t.isKnown) (hcode : code.RefinesTo code')
    (h : (formInquiry ⟨spec, config, code⟩ x (code.form x)).Gives P b)
    (hnamed : ∀ name d d', code.form x = .ident name →
      code.scopes.find? (code.node x).scope name = some d →
      code'.scopes.find? (code.node x).scope name = some d' → t.MayBecome d.type d'.type) :
    ∃ b', t.MayBecome b b' ∧ (formInquiry ⟨spec, config, code'⟩ x (code'.form x)).Gives P b' := by
  by_cases hident : ∃ name, code.form x = .ident name
  · obtain ⟨name, hform⟩ := hident
    obtain ⟨d, hd, hvalid, rfl⟩ := exists_of_gives_ident h hform
    obtain ⟨d', hd', -⟩ := hcode.scopes.exists_find? hd
    have hdd' := hnamed name d d' hform hd hd'
    refine ⟨d'.type, hdd', ?_⟩
    dsimp only at hd'
    rw [show code'.form x = .ident name from (hcode.form x).trans hform]
    unfold formInquiry identInquiry
    dsimp only
    rw [hcode.scope, hd']
    dsimp only
    rw [require_pos (hdd'.ne_invalid ht hvalid)]
    rfl
  · refine ⟨b, .refl t b, ?_⟩
    have heq : formInquiry ⟨spec, config, code'⟩ x (code'.form x) =
        formInquiry ⟨spec, config, code⟩ x (code.form x) :=
      formInquiry_eq_of_gives hcode.fixed hcode.scopes h fun name _ hform =>
        absurd ⟨name, hform⟩ hident
    rwa [heq]

/-- **The answers in a table remain right** while a unit is refined, if what goes on record for
them, and the types that names are given, are what they may become. -/
theorem refinesTo (h : Slackens ⟨spec, config, code⟩ t f₀ P) (ht : t.isKnown)
    (hcode : code.RefinesTo code')
    (hrecorded : ∀ x a, P (.expr x) a → code'.IsRecorded x → ¬code.IsRecorded x →
      t.MayBecome a (code'.node x).type)
    (hnamed : ∀ x a, P (.expr x) a → ∀ name d d', code.form x = .ident name →
      code.scopes.find? (code.node x).scope name = some d →
      code'.scopes.find? (code.node x).scope name = some d' → t.MayBecome d.type d'.type) :
    Slackens ⟨spec, config, code'⟩ t f₀ P := by
  rintro (x | b | f) a hPa
  · obtain ⟨b, hab, hgives⟩ := h _ a hPa
    change ∃ b, t.MayBecome a b ∧ (inquiry ⟨spec, config, code'⟩ (.expr x)).Gives P b
    by_cases hx : code.IsRecorded x
    · rw [inquiry_of_isRecorded hx] at hgives
      rw [inquiry_of_isRecorded (hcode.isRecorded hx)]
      exact ⟨b, hab, (hcode.type_eq hx).trans hgives⟩
    rw [inquiry_of_not_isRecorded hx] at hgives
    by_cases hx' : code'.IsRecorded x
    · rw [inquiry_of_isRecorded hx']
      exact ⟨_, hrecorded x a hPa hx' hx, rfl⟩
    · rw [inquiry_of_not_isRecorded hx']
      obtain ⟨b', hbb', hgives'⟩ := exists_gives_form ht hcode hgives (hnamed x a hPa)
      exact ⟨b', hab.trans hbb', hgives'⟩
  · have hbody : (inquiry ⟨spec, config, code⟩ (.body b)).Gives P a := h _ a hPa
    change (inquiry ⟨spec, config, code'⟩ (.body b)).Gives P a
    rwa [inquiry_body_congr hcode]
  · exact h _ a hPa

/-- Typing gives no types to names that stand for no functions. -/
theorem typesTo (h : Slackens ⟨spec, config, code⟩ t f₀ P) (ht : t.isKnown) (hP : Nameless code P)
    (hcode : code.TypesTo code')
    (hrecorded : ∀ x a, P (.expr x) a → code'.IsRecorded x → ¬code.IsRecorded x →
      t.MayBecome a (code'.node x).type) :
    Slackens ⟨spec, config, code'⟩ t f₀ P := by
  refine h.refinesTo ht hcode.refines hrecorded fun x a hPa name d d' hform hd hd' => ?_
  rw [hcode.completes.find?_eq fun d hd => hP x a hPa name d hform hd, hd] at hd'
  cases hd'
  exact .refl t d.type

/-- A name may be given the type `t`. -/
theorem withScopes (h : Slackens ⟨spec, config, code⟩ t f₀ P) (ht : t.isKnown) {id : ScopeId}
    {name : String} {scopes : ScopeTree} (hscopes : code.scopes.refine id name t = .ok scopes) :
    Slackens ⟨spec, config, code.withScopes scopes⟩ t f₀ P :=
  h.refinesTo ht ((CompilationUnit.RefinesTo.refl code).withScopes
    (ScopeTree.refinesTo_refine hscopes ht)) (fun _ _ _ hx hnot => absurd hx hnot)
    fun _ _ _ _ _ _ _ hd hd' => ScopeTree.mayBecome_of_refine hscopes hd hd'

/-- The inquiry into what is in the table is related to one that gives the answer there. -/
theorem exists_related (h : Slackens ⟨spec, config, code⟩ t f₀ P) (hbody : P (.body f₀) t)
    (ht : t.isKnown) (hPa : P subject a) (R : List NodeId) :
    ∃ (q : Inquiry) (c : Ty), q.Related t (inquiryWithin ⟨spec, config, code⟩ R subject) ∧
      q.Gives P c ∧ ∀ b, t.MayBecome c b → t.MayBecome a b := by
  cases subject with
  | expr x =>
    obtain ⟨c, hac, hgives⟩ := h _ a hPa
    exact ⟨_, c, related_inquiry_expr _ t x, hgives, fun b hcb => hac.trans hcb⟩
  | body b => exact ⟨_, a, related_inquiry_body _ t b, h _ a hPa, fun b hab => hab⟩
  | function f =>
    obtain ⟨rfl, hf⟩ := h _ a hPa
    by_cases hmem : f ∈ R
    · rw [inquiryWithin_of_mem hmem]
      exact ⟨_, .unknown, related_answer t _, rfl, fun b hab => hab⟩
    · rw [inquiryWithin_of_not_mem hmem]
      rcases hf with rfl | hf
      · -- The function itself has the type `t` by now.
        refine ⟨_, t, related_inquiry_body _ t f, h _ t hbody, fun b htb => ?_⟩
        exact .inr ⟨nofun, htb.eq_of_isKnown ht⟩
      · exact ⟨_, .unknown, related_inquiry_body _ t f, h _ _ hf, fun b hab => hab⟩

/-- **Whatever is typed, the answers in a table become `t` at most**, and so do the results of
inquiries that they give. -/
theorem of_ends (hends : Inquiry.Ends spec config R q' s e v)
    (h : Slackens ⟨spec, config, s.code⟩ t f₀ P) (hP : Nameless s.code P)
    (hbody : P (.body f₀) t) (ht : t.isKnown) :
    Slackens ⟨spec, config, v.code⟩ t f₀ P ∧
      ∀ (q : Inquiry) (a b : Ty), q.Related t q' → q.Gives P a → e = .ok b → t.MayBecome a b := by
  have hentered : ∀ {s : CheckState σ} (subject : Subject),
      Slackens ⟨spec, config, s.code⟩ t f₀ P → Nameless s.code P →
      Slackens ⟨spec, config, (s.entered subject).code⟩ t f₀ P := fun subject h hP =>
    h.typesTo ht hP (CheckState.typesTo_entered _ subject) fun x a _ hx hnot =>
      absurd (CheckState.isRecorded_entered.mp hx) hnot
  induction hends with
  | @answer R type s =>
    refine ⟨h, fun q a b hq hgives hb => ?_⟩
    cases hb
    match q, hq, hgives with
    | .answer c, hq, rfl => exact hq
    | .fail, _, hgives => exact hgives.elim
  | fail | depth => exact ⟨h, fun _ _ _ _ _ => nofun⟩
  | @stop R subject next s u failure first ih =>
    refine ⟨(ih (hentered subject h hP) ?_).1, fun _ _ _ _ _ => nofun⟩
    exact hP.typesTo (CheckState.typesTo_entered s subject)
  | @ask R subject next s u v type e first rest ihfirst ihrest =>
    have hsu := (CheckState.typesTo_entered s subject).trans first.typesTo
    have hsleft := CheckState.typesTo_left hsu subject type
    obtain ⟨hu, hanswers⟩ := ihfirst (hentered subject h hP)
      (hP.typesTo (CheckState.typesTo_entered s subject))
    -- The answer is what the answers in the table may have become.
    have hanswer : ∀ a, P subject a → t.MayBecome a type := by
      intro a hPa
      obtain ⟨q, c, hq, hgives, hc⟩ := h.exists_related hbody ht hPa R
      exact hc type (hanswers q c type hq hgives rfl)
    have hleft : Slackens ⟨spec, config, (u.left s subject type).code⟩ t f₀ P := by
      refine h.typesTo ht hP hsleft fun x a hPa hx hnot => ?_
      have htype := CheckState.type_left u s subject type x
      split at htype
      · next hput =>
        rw [htype]
        exact hanswer a (hput.1 ▸ hPa)
      · have hxu : u.code.IsRecorded x := by
          refine ⟨?_, htype ▸ hx.2⟩
          rw [hsu.refines.form, ← hsleft.refines.form]
          exact hx.1
        obtain ⟨b, hab, hgives⟩ := hu (.expr x) a hPa
        rw [inquiry_of_isRecorded hxu] at hgives
        obtain rfl : (u.code.node x).type = b := hgives
        rwa [htype]
    obtain ⟨hv, hrest⟩ := ihrest hleft (hP.typesTo hsleft)
    refine ⟨hv, fun q a b hq hgives hb => ?_⟩
    match q, hq, hgives with
    | .fail, _, hgives => exact hgives.elim
    | .ask _ next', ⟨rfl, hnext⟩, ⟨c, hPc, hgives⟩ =>
      exact hrest _ a b (hnext c type (hanswer c hPc)) hgives hb

end Slackens

end Typing

end ContractLang
