import ContractLang.Proofs.Typing.Evidence

/-!
# What typing settles

Whenever typing ends with an answer, the answers that it has come by on the way, and that
are still of use, are settled (`ContractLang.Inquiry.Ends.exists_settles`). The table of
them is put together along the course of typing: a known type is settled by being on
record, and one that is not known by all answers that it has come from.

This would be plain if nodes were typed one after the other. But a node may turn up again
while it is being typed, below a call of a function that contains it. It is typed anew
then, with more functions being resolved, and what is found out about it goes on record
before the first question has been answered. If this is a known type, there is a reason
for it, and so the first question cannot be answered otherwise
(`ContractLang.Typing.Settles.not_evident`).
-/

namespace ContractLang

open Check

variable {σ : Type}

namespace Typing

open Inquiry

/-- The names in a set have the same types in a tree of scopes as in another one. -/
def Firm (code : CompilationUnit) (N : NodeId → Prop) (t names : ScopeTree) : Prop :=
  ∀ x, N x → ∀ name d d', code.form x = .ident name →
    t.find? (code.node x).scope name = some d →
    names.find? (code.node x).scope name = some d' → d'.type = d.type

/-- Names that have the same types in the end have them all the time. -/
theorem Firm.refinesTo {code : CompilationUnit} {N : NodeId → Prop} {t t' names : ScopeTree}
    (h : Firm code N t names) (ht : t.RefinesTo t') (ht' : t'.RefinesTo names) :
    Firm code N t' names := by
  intro x hx name d d' hform hd hd'
  obtain ⟨d₀, hd₀, -⟩ := ht.exists_of_find? hd
  have hsame := eq_of_find?_of_find? ht ht' hd₀ hd fun d'' hd'' => h x hx name d₀ d'' hform hd₀ hd''
  rw [hsame]
  exact h x hx name d₀ d' hform hd₀ hd'

namespace Settles

variable {spec : OpSpec} {config : Config} {code : CompilationUnit} {names : ScopeTree}
  {R : List NodeId} {P : Subject → Ty → Prop} {x f : NodeId} {a : Ty} {subject : Subject}

/-! ### Tables of answers -/

/-- The table with no answer. -/
theorem empty (T : Typing) (names : ScopeTree) (R : List NodeId) :
    T.Settles names R fun _ _ => False := nofun

/-- The table with one more answer. -/
def Insert (P : Subject → Ty → Prop) (subject : Subject) (a : Ty) (subject' : Subject) (a' : Ty) :
    Prop :=
  P subject' a' ∨ subject' = subject ∧ a' = a

/-- An answer that is certified can be added. -/
theorem insert {T : Typing} (h : T.Settles names R P) (hP : T.Certified names R P subject a) :
    T.Settles names R (Insert P subject a) := by
  rintro subject' a' (hP' | ⟨rfl, rfl⟩)
  · exact (h subject' a' hP').mono fun _ _ => .inl
  · exact hP.mono fun _ _ => .inl

/-- A function whose body has no known type need not be taken as being resolved. -/
theorem of_cons {T : Typing} (h : T.Settles names (f :: R) P) (hf : P (.body f) .unknown) :
    T.Settles names R P := by
  rintro (x | b | g) a hP
  · exact h _ a hP
  · exact h _ a hP
  · obtain ⟨ha, hmem | hbody⟩ := h _ a hP
    · rcases List.mem_cons.mp hmem with rfl | hmem
      · exact ⟨ha, .inr hf⟩
      · exact ⟨ha, .inl hmem⟩
    · exact ⟨ha, .inr hbody⟩

/-- That a function being resolved has no type yet is settled on its own. -/
theorem exists_of_mem (T : Typing) (names : ScopeTree) (hf : f ∈ R) :
    ∃ P, T.Settles names R P ∧ P (.function f) .unknown := by
  have hcertified : T.Certified names R (fun _ _ => False) (.function f) .unknown := ⟨rfl, .inl hf⟩
  exact ⟨_, (empty T names R).insert hcertified, .inr ⟨rfl, rfl⟩⟩

/-- That a function has no known type is settled by its body. -/
theorem exists_of_body {T : Typing} (h : T.Settles names (f :: R) P)
    (hbody : (T.inquiry (.body f)).Gives P .unknown) :
    ∃ P', T.Settles names R P' ∧ P' (.function f) .unknown := by
  have hcertified : T.Certified names (f :: R) P (.body f) .unknown := hbody
  have hsettled := (h.insert hcertified).of_cons (.inr ⟨rfl, rfl⟩)
  have hfunction : T.Certified names R (Insert P (.body f) .unknown) (.function f) .unknown :=
    ⟨rfl, .inr (.inr ⟨rfl, rfl⟩)⟩
  exact ⟨_, hsettled.insert hfunction, .inr ⟨rfl, rfl⟩⟩

end Settles

/-! ### Functions with a known type -/

/-- An answer is in a table, or it is a known type of a function. Such a type is not kept in
tables, since it goes on record for the call that asks for it. -/
def Known (P : Subject → Ty → Prop) (subject : Subject) (a : Ty) : Prop :=
  P subject a ∨ (∃ f, subject = .function f) ∧ a.isKnown

section Known

variable {T : Typing} {P : Subject → Ty → Prop} {x b : NodeId} {a : Ty}

/-- Known types of functions are of use for calls with something to be put on record only. -/
theorem gives_form_of_known (h : (T.formInquiry x (T.code.form x)).Gives (Known P) a)
    (ha : (T.code.form x).remembers → ¬a.isKnown) :
    (T.formInquiry x (T.code.form x)).Gives P a := by
  by_cases hcalls : ∃ f, T.code.Calls x f
  · obtain ⟨f, hcalls⟩ := hcalls
    rw [formInquiry_of_calls hcalls, gives_ask_answer] at h ⊢
    exact h.resolve_right fun hknown => ha hcalls.remembers hknown.2
  · refine h.of_asks fun subject c hasks hc => hc.resolve_right ?_
    rintro ⟨⟨f, rfl⟩, -⟩
    rcases asks_formInquiry hasks with ⟨y, heq, -⟩ | ⟨g, -, hcalls'⟩
    · cases heq
    · exact hcalls ⟨g, hcalls'⟩

/-- They are of no use for a body. -/
theorem gives_body_of_known (h : (T.inquiry (.body b)).Gives (Known P) a) :
    (T.inquiry (.body b)).Gives P a := by
  refine h.of_asks fun subject c hasks hc => hc.resolve_right ?_
  rintro ⟨⟨f, rfl⟩, -⟩
  obtain ⟨stmt, -, -, heq | ⟨y, heq, -⟩⟩ := asks_exitsInquiry hasks <;> cases heq

/-- The inquiry into what a statement leaves a function with gets an answer if it asks for one. -/
theorem gives_exit {stmt : NodeId} {next : Ty → Inquiry} (h : (T.exitInquiry stmt next).Gives P a) :
    ∃ c, (next c).Gives P a ∧ ∀ subject, T.code.exit? stmt = some subject → P subject c := by
  have hask : ∀ subject, (ask subject next).Gives P a →
      ∃ c, (next c).Gives P a ∧ ∀ other, some subject = some other → P other c := by
    rintro subject ⟨c, hc, hnext⟩
    refine ⟨c, hnext, fun other hother => ?_⟩
    cases hother
    exact hc
  unfold exitInquiry at h
  unfold CompilationUnit.exit?
  cases hform : T.code.form stmt <;> rw [hform] at h
  case ret value definition =>
    cases value with
    | some value => exact hask _ h
    | none => exact ⟨_, h, nofun⟩
  case branch | block => exact hask _ h
  all_goals exact ⟨_, h, nofun⟩

/-- The exits of a body have a known type, or the unknown one. -/
theorem isKnown_of_gives_body (h : (T.inquiry (.body b)).Gives P a) (ha : a ≠ .unknown) :
    a.isKnown := by
  -- The induction is on the statements that are left; the type so far is like the one in the end.
  suffices hexits : ∀ stmts sofar, (T.exitsInquiry sofar stmts).Gives P a →
      (sofar ≠ .unknown → sofar.isKnown) → a.isKnown from hexits _ _ h (absurd rfl)
  intro stmts
  induction stmts with
  | nil =>
    intro sofar h hsofar
    obtain rfl : sofar = a := h
    exact hsofar ha
  | cons stmt rest ih =>
    intro sofar h hsofar
    obtain ⟨type, h, -⟩ := gives_exit h
    refine ih _ h.of_require.2 ?_
    split
    · next hknown => exact fun _ => hknown
    · exact hsofar

end Known

end Typing

/-! ### The table of settled answers -/

namespace Inquiry.Ends

open Typing

variable {spec : OpSpec} {config : Config} {R : List NodeId} {q : Inquiry} {s u v : CheckState σ}
  {e : Except Failure Ty} {subject : Subject} {type a : Ty} {x : NodeId}
  {code₀ : CompilationUnit} {M : Subject → Prop} {names : ScopeTree} {P : Subject → Ty → Prop}

/-- A name in the set has the type in the end that the inquiry into it leads to. -/
theorem type_eq_of_firm (hcode : code₀.TypesTo s.code) (hx : M (.expr x))
    (hfirm : Firm code₀ (fun x => M (.expr x)) s.code.scopes names)
    (hgives : (formInquiry ⟨spec, config, s.code⟩ x (s.code.form x)).Gives P type) (name : String)
    (d' : Descriptor) (hform : s.code.form x = .ident name)
    (hd' : names.find? (s.code.node x).scope name = some d') : d'.type = type := by
  obtain ⟨d, hd, -, rfl⟩ := exists_of_gives_ident hgives hform
  rw [hcode.refines.form] at hform
  dsimp only at hd
  rw [hcode.refines.scope] at hd hd'
  exact hfirm x hx name d d' hform hd hd'

/-- **Nothing goes on record for an expression while it is found to have no known type**, even if
it turns up again. -/
theorem not_isRecorded_of_unknown
    (first : Ends spec config R (formInquiry ⟨spec, config, s.code⟩ x (s.code.form x))
      (s.entered (.expr x)) (.ok type) u) (hx : ¬s.code.IsRecorded x) (htype : ¬type.isKnown)
    (hP : Settles ⟨spec, config, u.code⟩ names R P)
    (hgives : (formInquiry ⟨spec, config, u.code⟩ x (u.code.form x)).Gives (Known P) type) :
    ¬u.code.IsRecorded x := by
  intro hrecorded
  have hentered := CheckState.typesTo_entered s (.expr x)
  have hu := hentered.trans first.typesTo
  have haccounts := (first.accounts hentered.refines
    fun y hy hnot => absurd (CheckState.isRecorded_entered.mp hy) hnot).1
  -- What has gone on record has a reason, which holds for the answer just as well.
  generalize hT : (u.code.node x).type = T at *
  have hevident := haccounts x hrecorded hx
  rw [hT] at hevident
  have hknown : T.isKnown := hT ▸ hrecorded.2
  cases hevident with
  | stored _ hlasts =>
    rcases hlasts with hold | ⟨f, hcalls⟩
    · exact hx hold
    · have hcalls' := hu.calls_iff.mp hcalls
      rw [formInquiry_of_calls hcalls'] at first
      have hsame := first.type_eq_of_call (hentered.calls_iff.mpr hcalls')
      rw [CheckState.type_entered] at hsame
      refine hx ⟨?_, ?_⟩
      · rw [← hu.refines.form]
        exact hrecorded.1
      · rw [← hsame]
        exact hrecorded.2
  | constant _ hdetermined => exact htype (hdetermined _ _ hgives ▸ hknown)
  | passed _ hpasses hy =>
    refine hP.not_evident ((hpasses _ _ hgives).resolve_right ?_) htype hknown hy
    rintro ⟨⟨f, heq⟩, -⟩
    cases heq

/-- An expression that is on record has a settled answer. -/
theorem certified_of_isRecorded {T : Typing} (hx : T.code.IsRecorded x) :
    T.Certified names R P (.expr x) (T.code.node x).type := by
  refine ⟨?_, fun hnot => absurd hx hnot⟩
  rw [inquiry_of_isRecorded hx]
  rfl

/-- An expression that has nothing put on record has a settled answer, coming from those that the
inquiry into it has come by. -/
theorem certified_of_unrecorded (hcode : code₀.TypesTo s.code)
    (first : Ends spec config R (formInquiry ⟨spec, config, s.code⟩ x (s.code.form x))
      (s.entered (.expr x)) (.ok type) u) (hx : ¬s.code.IsRecorded x)
    (hsubject : M (.expr x)) (hfirm : Firm code₀ (fun x => M (.expr x)) s.code.scopes names)
    (hnames : u.code.scopes.RefinesTo names) (hP : Settles ⟨spec, config, u.code⟩ names R P)
    (hgives : (formInquiry ⟨spec, config, s.code⟩ x (s.code.form x)).Gives (Known P) type)
    (hput : (s.code.form x).remembers → ¬type.isKnown) :
    Certified ⟨spec, config, u.code⟩ names R P (.expr x) type := by
  have hentered := CheckState.typesTo_entered s (.expr x)
  have hu := hentered.trans first.typesTo
  have hlast := type_eq_of_firm hcode hsubject hfirm hgives
  have heq := formInquiry_eq_of_named hu.refines hnames hgives hlast
  have hform := hu.refines.form x
  have hput' : (u.code.form x).remembers → ¬type.isKnown := by rwa [hform]
  have hnot : ¬u.code.IsRecorded x := by
    intro hrecorded
    refine first.not_isRecorded_of_unknown hx (hput' hrecorded.1) hP ?_ hrecorded
    rwa [heq]
  refine ⟨?_, fun _ => ⟨hput', fun f hcalls => ?_, fun name d hname hd => ?_⟩⟩
  · rw [inquiry_of_not_isRecorded hnot, heq]
    exact gives_form_of_known hgives hput
  · -- The call has been connected with the function when it was taken up.
    dsimp only at hcalls ⊢
    have hcalls' := hu.calls_iff.mp hcalls
    have hdefinition : ((s.entered (.expr x)).code.node x).definition = some f := by
      rw [CheckState.entered_of_not_isRecorded hx]
      dsimp only
      rw [CompilationUnit.opened_of_calls hcalls', CompilationUnit.setDefinition,
        CompilationUnit.node_modifyNode, if_pos ⟨rfl, hcalls'.lt_size⟩]
    exact first.refinesTo.definition_eq_some hcalls hdefinition
  · dsimp only at hname hd
    rw [hform] at hname
    rw [hu.refines.scope] at hd
    exact hlast name d hname hd

/-- What is on record is settled on its own. -/
theorem exists_settles_of_isRecorded (T : Typing) (names : ScopeTree) (R : List NodeId)
    (hx : T.code.IsRecorded x) (htype : (T.code.node x).type = type) :
    ∃ P', T.Settles names R P' ∧ P' (.expr x) type := by
  subst htype
  exact ⟨_, (Settles.empty T names R).insert (certified_of_isRecorded hx), .inr ⟨rfl, rfl⟩⟩

/-- The answer to a question about an expression is settled: by what goes on record, or together
with the answers that it comes from. -/
theorem exists_settles_left_expr (hcode : code₀.TypesTo s.code)
    (first : Ends spec config R (inquiryWithin ⟨spec, config, s.code⟩ R (.expr x))
      (s.entered (.expr x)) (.ok type) u)
    (hsubject : M (.expr x)) (hfirm : Firm code₀ (fun x => M (.expr x)) s.code.scopes names)
    (hnames : u.code.scopes.RefinesTo names) (hP : Settles ⟨spec, config, u.code⟩ names R P)
    (hgives : (inquiryWithin ⟨spec, config, s.code⟩ R (.expr x)).Gives (Known P) type) :
    ∃ P', Settles ⟨spec, config, (u.left s (.expr x) type).code⟩ names R P' ∧
      P' (.expr x) type := by
  have hu := (CheckState.typesTo_entered s (.expr x)).trans first.typesTo
  have hleft := (CheckState.typesTo_left hu (.expr x) type).refines
  by_cases hx : s.code.IsRecorded x
  · rw [inquiryWithin_of_isRecorded hx] at hgives
    exact exists_settles_of_isRecorded _ names R (hleft.isRecorded hx)
      ((hleft.type_eq hx).trans hgives)
  · rw [inquiryWithin_of_not_isRecorded hx] at hgives first
    by_cases hput : (s.code.form x).remembers ∧ type.isKnown
    · have htype := CheckState.type_left u s (.expr x) type x
      rw [if_pos ⟨rfl, hx, by rw [hu.refines.form]; exact hput.1, hput.2⟩] at htype
      refine exists_settles_of_isRecorded _ names R ⟨?_, ?_⟩ htype
      · rw [hleft.form]
        exact hput.1
      · rw [htype]
        exact hput.2
    · have hsame : u.left s (.expr x) type = u := by
        rw [CheckState.left_of_not_isRecorded hx, CompilationUnit.closed,
          if_neg fun h => hput ⟨by rw [← hu.refines.form]; exact h.1, h.2⟩]
      rw [hsame]
      exact ⟨_, hP.insert (certified_of_unrecorded hcode first hx hsubject hfirm hnames hP hgives
        fun hremembers hknown => hput ⟨hremembers, hknown⟩), .inr ⟨rfl, rfl⟩⟩

/-- **The answer to a question is settled** together with those that the inquiry into it has come
by. -/
theorem exists_settles_left (hcode : code₀.TypesTo s.code)
    (first : Ends spec config (subject.resolving R)
      (inquiryWithin ⟨spec, config, s.code⟩ R subject) (s.entered subject) (.ok type) u)
    (hsubject : M subject) (hfirm : Firm code₀ (fun x => M (.expr x)) s.code.scopes names)
    (hnames : u.code.scopes.RefinesTo names)
    (hP : Settles ⟨spec, config, u.code⟩ names (subject.resolving R) P)
    (hgives : (inquiryWithin ⟨spec, config, s.code⟩ R subject).Gives (Known P) type) :
    ∃ P', Settles ⟨spec, config, (u.left s subject type).code⟩ names R P' ∧
      Known P' subject type := by
  have hu := (CheckState.typesTo_entered s subject).trans first.typesTo
  -- The inquiry into a body is the same in the end, and so are the answers that it comes from.
  have hbody : ∀ b, (inquiry ⟨spec, config, s.code⟩ (.body b)).Gives (Known P) type →
      (inquiry ⟨spec, config, u.code⟩ (.body b)).Gives P type := by
    intro b h
    rw [inquiry_body_congr hu.refines]
    exact gives_body_of_known h
  cases subject with
  | expr x =>
    obtain ⟨P', hP', hx⟩ :=
      exists_settles_left_expr hcode first hsubject hfirm hnames hP hgives
    exact ⟨P', hP', .inl hx⟩
  | body b =>
    have hcertified : Certified ⟨spec, config, u.code⟩ names R P (.body b) type := hbody b hgives
    exact ⟨_, hP.insert hcertified, .inl (.inr ⟨rfl, rfl⟩)⟩
  | function f =>
    by_cases hknown : type.isKnown
    · exact ⟨_, Settles.empty _ names R, .inr ⟨⟨f, rfl⟩, hknown⟩⟩
    by_cases hf : f ∈ R
    · rw [inquiryWithin_of_mem hf] at hgives
      obtain rfl : Ty.unknown = type := hgives
      obtain ⟨P', hP', hf'⟩ := Settles.exists_of_mem ⟨spec, config, u.code⟩ names hf
      exact ⟨P', hP', .inl hf'⟩
    · rw [inquiryWithin_of_not_mem hf] at hgives
      obtain rfl : type = .unknown := by
        by_contra htype
        exact hknown (isKnown_of_gives_body hgives htype)
      obtain ⟨P', hP', hf'⟩ := Settles.exists_of_body hP (hbody f hgives)
      exact ⟨P', hP', .inl hf'⟩

/-- **Typing settles its answers**: whenever it ends with one, there is a table of settled answers
from which the inquiry leads to it. -/
theorem exists_settles (h : Ends spec config R q s e v) (he : e = .ok a) (hM : code₀.Encloses M)
    (hcode : code₀.TypesTo s.code) (hq : ∀ subject, q.Asks subject → M subject)
    (hfirm : Firm code₀ (fun x => M (.expr x)) s.code.scopes names)
    (hnames : v.code.scopes.RefinesTo names) :
    ∃ P, Settles ⟨spec, config, v.code⟩ names R P ∧ q.Gives (Known P) a := by
  induction h generalizing a with
  | @answer R type s =>
    cases he
    exact ⟨_, Settles.empty _ names R, rfl⟩
  | fail | depth | stop => cases he
  | @ask R subject next s u v type e first rest ihfirst ihrest =>
    have hentered := CheckState.typesTo_entered s subject
    have hleft := CheckState.typesTo_left (hentered.trans first.typesTo) subject type
    have hu : u.code.scopes.RefinesTo names :=
      ((CheckState.scopes_left u s subject type).trans rest.refinesTo.scopes).trans hnames
    obtain ⟨P, hP, hgives⟩ := ihfirst rfl (hcode.trans hentered)
      (fun other hother => hM _ _ (hq _ .head) (raises_of_asks hcode hother))
      (hfirm.refinesTo hentered.refines.scopes (first.refinesTo.scopes.trans hu)) hu
    obtain ⟨P', hP', hanswer⟩ := exists_settles_left hcode first (hq _ .head) hfirm hu hP hgives
    obtain ⟨P'', hP'', hrest⟩ := ihrest he (hcode.trans hleft)
      (fun other hother => hq other (.tail type hother))
      (hfirm.refinesTo hleft.refines.scopes (rest.refinesTo.scopes.trans hnames)) hnames
    -- The answers that are settled by then stay so while the inquiry goes on.
    have hlasts := hP'.of_ends rest (fun f hf => hf) hnames
    refine ⟨_, hlasts.union hP'', type, ?_, hrest.mono fun _ _ hc => hc.imp_left .inr⟩
    exact hanswer.imp_left .inl

end Inquiry.Ends

/-! ### Asking twice -/

namespace Checker

open Inquiry Typing

variable {s : CheckState σ} {x : NodeId} {t : Ty}

/-- The answer to a question about a type is settled afterwards, if the names that it comes to do
not stand for functions. -/
theorem exists_settles_of_ask (checker : Checker σ) (hbodiless : checker.supply.Bodiless s.code)
    (hnames : ∀ y, s.code.Reaches x y → ∀ name d, s.code.form y = .ident name →
      s.code.scopes.find? (s.code.node y).scope name = some d → ¬d.isFunc)
    (h : (checker.ask (.typeOf x) s).1 = .ok t) :
    ∃ P, Settles (checker.typing (checker.ask (.typeOf x) s).2.code)
      (checker.ask (.typeOf x) s).2.code.scopes [] P ∧ P (.expr x) t := by
  have hends := checker.ends_ask_typeOf hbodiless x
  rw [h] at hends
  have hclosed : s.code.Closed (s.code.Reaches x) := fun _ _ hy hlead => hy.tail hlead
  -- A name that stands for no function keeps its descriptor.
  have hfirm : Firm s.code (fun y => Subject.Within s.code (s.code.Reaches x) (.expr y))
      s.code.scopes (checker.ask (.typeOf x) s).2.code.scopes := by
    intro y hy name d d' hform hd hd'
    have hreach : s.code.Reaches x y := hy.resolve_right fun ⟨_, _, _, hdefinition⟩ => by
      cases hform.symm.trans hdefinition
    rw [hends.typesTo.completes.find?_eq (hnames y hreach name · hform), hd] at hd'
    rw [Option.some.inj hd']
  obtain ⟨P, hP, hgives⟩ := hends.exists_settles rfl hclosed.encloses (.refl _)
    (within_ask_answer (.inl .refl)) hfirm (.refl _)
  refine ⟨P, hP, (gives_ask_answer.mp hgives).resolve_right ?_⟩
  rintro ⟨⟨f, heq⟩, -⟩
  cases heq

/-- **Asking for a type twice is the same as asking once**, whatever functions call one another: in
a unit without cycles whose functions all have bodies, if no name that the question comes to
stands for a function, an answer is given again, known or not, and the second question changes
nothing. -/
theorem ask_typeOf_twice (checker : Checker σ) (hcode : s.code.Acyclic)
    (hresolved : s.code.scopes.AllResolved)
    (hnames : ∀ y, s.code.Reaches x y → ∀ name d, s.code.form y = .ident name →
      s.code.scopes.find? (s.code.node y).scope name = some d → ¬d.isFunc)
    (h : (checker.ask (.typeOf x) s).1 = .ok t) :
    checker.ask (.typeOf x) (checker.ask (.typeOf x) s).2 =
      (.ok t, (checker.ask (.typeOf x) s).2) := by
  have hbodiless := checker.bodiless_of_allResolved hresolved
  have hrefines := (checker.ends_ask_typeOf hbodiless x).refinesTo
  obtain ⟨P, hP, hanswer⟩ := checker.exists_settles_of_ask hbodiless hnames h
  have hbodiless' := hbodiless.refinesTo hrefines
  have hne := checker.ending_ask_typeOf_ne hbodiless' (hrefines.acyclic_iff.mpr hcode) x
  obtain ⟨hagain, hstate⟩ := hP.replay (checker.ends_ask_typeOf hbodiless' x) (fun _ hf => hf)
    (gives_ask_answer.mpr hanswer)
  exact Prod.ext (ending_eq_ok_iff.mp (hagain.resolve_right hne)) hstate

/-- Two functions that return each other's values or their own, depending on a call of a third
one, and a call of the first. -/
def mutualChoice : CompilationUnit where
  nodes := #[.ofForm 0 (.literal .uint64 "1"), .ofForm 0 (.ret (some 0) none),
    { Node.ofForm 0 (.function "h" [] false) with children := [1] },
    .ofForm 0 (.call "h"), .ofForm 0 (.call "g"), .ofForm 0 (.call "f"),
    .ofForm 0 (.choice 3 4 5), .ofForm 0 (.ret (some 6) none),
    { Node.ofForm 0 (.function "f" [] false) with children := [7] },
    .ofForm 0 (.call "h"), .ofForm 0 (.call "f"), .ofForm 0 (.call "g"),
    .ofForm 0 (.choice 9 10 11), .ofForm 0 (.ret (some 12) none),
    { Node.ofForm 0 (.function "g" [] false) with children := [13] }, .ofForm 0 (.call "f")]
  scopes := ⟨#[{ Scope.fresh "global" none 0 with
    entries := [("f", ⟨"f", .unknown, .func (.resolved 8)⟩),
      ("g", ⟨"g", .unknown, .func (.resolved 14)⟩),
      ("h", ⟨"h", .unknown, .func (.resolved 2)⟩)] }], .initial⟩

set_option maxRecDepth 2000 in
/-- The call has no known type, but in finding this out the type of the third function has gone on
record in the bodies of both. -/
theorem ask_typeOf_twice_mutualChoice :
    let checker : Checker Unit := ⟨Standard.spec, .strict, none⟩
    let s := (checker.ask (.typeOf 15) ⟨mutualChoice, ()⟩).2
    (s.code.node 3).type = .uint64 ∧ (s.code.node 9).type = .uint64 ∧
      checker.ask (.typeOf 15) s = (.ok .unknown, s) := by
  refine ⟨rfl, rfl, ask_typeOf_twice _
    (CompilationUnit.acyclic_of_lt (CompilationUnit.link_lt_of_forall (by decide)))
    (ScopeTree.allResolved_of_forall (by decide)) (fun y _ name d hform => ?_) rfl⟩
  have hidents : ∀ a < mutualChoice.size, ¬(mutualChoice.form a matches .ident _) := by decide
  have hy : y < mutualChoice.size := CompilationUnit.lt_size_of_form (by rw [hform]; simp)
  exact absurd (by rw [hform]) (hidents y hy)

end Checker

end ContractLang
