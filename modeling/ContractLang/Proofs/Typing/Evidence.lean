import ContractLang.Proofs.Typing.Settled

/-!
# Reasons for types

The types that are found out about an expression at different times can differ, if other
functions are being resolved: a call of such a function is left untyped. But a known type
has a reason that does not depend on that (`ContractLang.Typing.Evident`). It is on record
for a call, or the form of the expression determines it, or it is passed on from another
expression that has it for a reason. There is a reason for all types that typing puts on
record, and for those that it answers with (`ContractLang.Inquiry.Ends.accounts`).

What makes reasons last is that nothing goes on record for a call while the function called is
being resolved (`ContractLang.Inquiry.Ends.type_eq_of_calls`).
-/

namespace ContractLang

open Check

variable {σ : Type}

/-! ### Calls of functions that are being resolved -/

namespace Inquiry.Ends

variable {spec : OpSpec} {config : Config} {R : List NodeId} {q : Inquiry} {s u v : CheckState σ}
  {e : Except Failure Ty} {x f : NodeId} {type : Ty}

/-- A function that is being resolved has no type yet, and asking for it changes nothing. -/
theorem of_cut (h : Ends spec config R (.ask (.function f) .answer) s (.ok type) u)
    (hf : f ∈ R) : type = .unknown ∧ u = s := by
  cases h with
  | ask first rest =>
    rw [Typing.inquiryWithin_of_mem hf] at first
    cases first
    cases rest
    exact ⟨rfl, rfl⟩

/-- **Nothing goes on record for a call while the function called is being resolved.** -/
theorem type_eq_of_calls (h : Ends spec config R q s e v) (hf : f ∈ R)
    (hcalls : s.code.Calls x f) : (v.code.node x).type = (s.code.node x).type := by
  induction h with
  | answer | fail | depth => rfl
  | @stop R subject next s u failure first ih =>
    have hcalls' := (CheckState.typesTo_entered s subject).calls_iff.mpr hcalls
    rw [ih (subject.mem_resolving hf) hcalls', CheckState.type_entered]
  | @ask R subject next s u v type e first rest ihfirst ihrest =>
    have hentered := CheckState.typesTo_entered s subject
    have hleft := CheckState.typesTo_left (hentered.trans first.typesTo) subject type
    have hput : ¬(subject = .expr x ∧ ¬s.code.IsRecorded x ∧ (u.code.form x).remembers ∧
        type.isKnown) := by
      -- The answer to the call itself is that there is no type yet.
      rintro ⟨rfl, hx, -, hknown⟩
      rw [Typing.inquiryWithin_of_not_isRecorded hx, Typing.formInquiry_of_calls hcalls] at first
      obtain ⟨rfl, -⟩ := first.of_cut hf
      cases hknown
    rw [ihrest hf (hleft.calls_iff.mpr hcalls), CheckState.type_left, if_neg hput,
      ihfirst (subject.mem_resolving hf) (hentered.calls_iff.mpr hcalls), CheckState.type_entered]

/-- In particular, nothing goes on record for a call while it is being typed. -/
theorem type_eq_of_call (h : Ends spec config R (.ask (.function f) .answer) s e v)
    (hcalls : s.code.Calls x f) : (v.code.node x).type = (s.code.node x).type := by
  by_cases hf : f ∈ R
  · exact h.type_eq_of_calls hf hcalls
  · cases h with
    | depth => rfl
    | stop first => exact first.type_eq_of_calls List.mem_cons_self hcalls
    | ask first rest =>
      cases rest
      exact first.type_eq_of_calls List.mem_cons_self hcalls

end Inquiry.Ends

/-! ### Reasons for a type -/

namespace Inquiry

variable {α : Type} {q : Inquiry} {type : Ty}

/-- However questions are answered, an inquiry leads to one type only. -/
def Determined (type : Ty) (q : Inquiry) : Prop :=
  ∀ P a, q.Gives P a → a = type

theorem determined_answer (type : Ty) : (answer type).Determined type := fun _ _ h => h.symm

theorem Determined.require {ok : Prop} [Decidable ok] (h : q.Determined type) :
    (require ok q).Determined type := fun P a hq => h P a hq.of_require.2

theorem Determined.ask {subject : Subject} {next : Ty → Inquiry}
    (h : ∀ t, (next t).Determined type) : (ask subject next).Determined type :=
  fun P a ⟨t, _, hnext⟩ => h t P a hnext

theorem Determined.operand {id : NodeId} {next : Ty → Inquiry}
    (h : ∀ t, (next t).Determined type) : (operand id next).Determined type :=
  .ask fun t => (h t).require

theorem determined_consult {given : Except Error α} {a : α} {next : α → Inquiry}
    (hgiven : given = .ok a) (h : (next a).Determined type) :
    (consult given next).Determined type := by
  rw [hgiven]
  exact h

/-- An inquiry explains a type: it leads to no other one, or it passes on what it is told about
one expression. -/
def Explains (type : Ty) (q : Inquiry) : Prop :=
  q.Determined type ∨ ∃ y, ∀ P a, q.Gives P a → P (.expr y) a

theorem Explains.require {ok : Prop} [Decidable ok] (h : q.Explains type) :
    (require ok q).Explains type :=
  h.imp .require fun ⟨y, hy⟩ => ⟨y, fun P a hq => hy P a hq.of_require.2⟩

theorem explains_ask_answer (y : NodeId) : (ask (.expr y) answer).Explains type :=
  .inr ⟨y, fun _ _ => gives_ask_answer.mp⟩

end Inquiry

namespace Typing

open Inquiry

/-! ### What inquiries into expressions explain -/

section Explains

variable {T : Typing} {P : Subject → Ty → Prop} {a : Ty} {x : NodeId}

theorem determined_identInquiry {scope : ScopeId} {name : String}
    (h : (T.identInquiry scope name).Gives P a) : (T.identInquiry scope name).Determined a := by
  unfold identInquiry at h ⊢
  split at h
  · next descriptor =>
    obtain ⟨-, rfl⟩ := h.of_require
    exact (determined_answer _).require
  · exact h.elim

theorem determined_binaryInquiry {op : String} {lhs rhs : NodeId}
    (h : (T.binaryInquiry op lhs rhs).Gives P a) :
    (T.binaryInquiry op lhs rhs).Determined a := by
  obtain ⟨result, hresult, h⟩ := h.of_consult
  obtain ⟨left, hleft, h⟩ := h.of_consult
  obtain ⟨right, hright, h⟩ := h.of_consult
  obtain ⟨_, -, h⟩ := h
  obtain ⟨_, -, h⟩ := h.of_require.2
  obtain rfl : result = a := h.of_require.2.of_require.2.of_require.2.of_require.2
  exact determined_consult hresult (determined_consult hleft (determined_consult hright
    (.operand fun _ => .operand fun _ => (determined_answer _).require.require.require)))

theorem determined_unaryInquiry {op : String} {value : NodeId}
    (h : (T.unaryInquiry op value).Gives P a) : (T.unaryInquiry op value).Determined a := by
  obtain ⟨result, hresult, h⟩ := h.of_consult
  obtain ⟨expected, hexpected, h⟩ := h.of_consult
  obtain ⟨_, -, h⟩ := h
  obtain rfl : result = a := h.of_require.2.of_require.2.of_require.2
  exact determined_consult hresult (determined_consult hexpected
    (.operand fun _ => (determined_answer _).require.require))

theorem determined_castInquiry (target : Ty) (value : NodeId) :
    (castInquiry target value).Determined target :=
  .ask fun _ => (determined_answer _).require

/-- A choice has the type of what it yields if the condition holds. -/
theorem explains_choiceInquiry (cond yes no : NodeId) :
    (choiceInquiry cond yes no).Explains a := by
  refine .inr ⟨yes, fun P a h => ?_⟩
  obtain ⟨_, -, h⟩ := h
  obtain ⟨first, hfirst, h⟩ := h.of_require.2
  obtain ⟨_, -, h⟩ := h
  obtain rfl : first = a := h.of_require.2
  exact hfirst

theorem explains_operationInquiry {call : Node} {name : String}
    (h : (T.operationInquiry call name).Gives P a) (ha : a.isKnown) :
    (T.operationInquiry call name).Explains a := by
  unfold operationInquiry at h ⊢
  obtain ⟨type, htype, h⟩ := h.of_consult
  rw [htype]
  unfold consult
  dsimp only
  split at h
  · next hunknown =>
    rw [if_pos hunknown]
    split at h
    · exact explains_ask_answer _
    · cases h
      cases ha
  · next hknown =>
    rw [if_neg hknown]
    cases h
    exact .inl (determined_answer _)

theorem explains_callInquiry {call : Node} {name : String}
    (h : (T.callInquiry call name).Gives P a) (ha : a.isKnown)
    (hname : ∀ f, T.code.scopes.binding? call.scope name ≠ some (.resolved f)) :
    (T.callInquiry call name).Explains a := by
  unfold callInquiry at h ⊢
  split at h
  · next f hf => exact (hname f hf).elim
  · cases h
    cases ha
  · exact h.elim
  · exact (explains_operationInquiry h.of_require.2 ha).require

/-- **The inquiry into an expression explains the known types that it leads to**, unless the
expression is a call of a function. -/
theorem explains_formInquiry (h : (T.formInquiry x (T.code.form x)).Gives P a) (ha : a.isKnown)
    (hcalls : ∀ f, ¬T.code.Calls x f) : (T.formInquiry x (T.code.form x)).Explains a := by
  cases hform : T.code.form x <;> rw [hform] at h
  case literal type text | const name type value =>
    cases h
    exact .inl (determined_answer _)
  case ident name => exact .inl (determined_identInquiry h)
  case binary op lhs rhs => exact .inl (determined_binaryInquiry h)
  case group value => exact explains_ask_answer value
  case unary op value => exact .inl (determined_unaryInquiry h)
  case choice cond yes no => exact explains_choiceInquiry cond yes no
  case cast target value =>
    obtain ⟨_, -, hanswer⟩ := h
    obtain rfl : target = a := hanswer.of_require.2
    exact .inl (determined_castInquiry target value)
  case call name =>
    exact explains_callInquiry h ha fun f hname => hcalls f ⟨name, hform, hname⟩
  case runtimeField op field indices =>
    obtain ⟨type, htype, h⟩ := h.of_consult
    cases h
    exact .inl (determined_consult htype (determined_answer _))
  case runtimeArg op number =>
    obtain ⟨type, htype, h⟩ := h.of_consult
    cases h
    exact .inl (determined_consult htype (determined_answer _))
  all_goals exact h.elim

end Explains

/-! ### Reasons that last -/

/-- A type has a reason that lasts: it is on record, and has been so from the beginning (in
`code₀`) or is that of a call of a function; or else the inquiry into the expression leads to
it in any case, or passes it on from another expression. -/
inductive Evident (spec : OpSpec) (config : Config) (code₀ code : CompilationUnit) :
    NodeId → Ty → Prop where
  | stored {x : NodeId} (h : code.IsRecorded x)
    (hlasts : code₀.IsRecorded x ∨ ∃ f, code.Calls x f) :
    Evident spec config code₀ code x (code.node x).type
  | constant {x : NodeId} {type : Ty}
    (hpossible : (formInquiry ⟨spec, config, code⟩ x (code.form x)).Gives (fun _ _ => True) type)
    (h : (formInquiry ⟨spec, config, code⟩ x (code.form x)).Determined type) :
    Evident spec config code₀ code x type
  | passed {x y : NodeId} {type : Ty}
    (hpossible : (formInquiry ⟨spec, config, code⟩ x (code.form x)).Gives (fun _ _ => True) type)
    (h : ∀ P a, (formInquiry ⟨spec, config, code⟩ x (code.form x)).Gives P a → P (.expr y) a)
    (hy : Evident spec config code₀ code y type) : Evident spec config code₀ code x type

section Evident

variable {spec : OpSpec} {config : Config} {code₀ code code' : CompilationUnit} {x : NodeId}
  {a : Ty} {P : Subject → Ty → Prop}

/-- An inquiry that can lead to a known type stays the same while a unit is refined. -/
theorem formInquiry_eq_of_isKnown (hfixed : ∀ id, (code'.node id).fixed = (code.node id).fixed)
    (hscopes : code.scopes.RefinesTo code'.scopes)
    (h : (formInquiry ⟨spec, config, code⟩ x (code.form x)).Gives P a) (ha : a.isKnown) :
    formInquiry ⟨spec, config, code'⟩ x (code'.form x) =
      formInquiry ⟨spec, config, code⟩ x (code.form x) := by
  refine formInquiry_eq_of_gives hfixed hscopes h fun name d' hform hd' => ?_
  obtain ⟨d, hd, -, htype⟩ := exists_of_gives_ident h hform
  obtain ⟨d'', hd'', hrel⟩ := hscopes.exists_find? hd
  cases hd'.symm.trans hd''
  rw [hrel.type_eq (htype ▸ ha), htype]

/-- Reasons last while a unit is refined, if that leaves what is on record for calls alone. -/
theorem Evident.mono (h : Evident spec config code₀ code x a) (ha : a.isKnown)
    (hfixed : ∀ id, (code'.node id).fixed = (code.node id).fixed)
    (hscopes : code.scopes.RefinesTo code'.scopes)
    (hstored : ∀ x, code.IsRecorded x → (code₀.IsRecorded x ∨ ∃ f, code.Calls x f) →
      (code'.node x).type = (code.node x).type) : Evident spec config code₀ code' x a := by
  have hforms : ∀ y, code'.form y = code.form y := fun y =>
    Node.congr_fixed Node.form (fun _ => rfl) (hfixed y)
  induction h with
  | @stored x hx hlasts =>
    rw [← hstored x hx hlasts]
    refine .stored ⟨?_, ?_⟩ (hlasts.imp_right fun ⟨f, name, hform, hname⟩ => ⟨f, name, ?_, ?_⟩)
    · rw [hforms]
      exact hx.1
    · rw [hstored x hx hlasts]
      exact hx.2
    · rw [hforms, hform]
    · have hscope : (code'.node x).scope = (code.node x).scope :=
        Node.congr_fixed Node.scope (fun _ => rfl) (hfixed x)
      rw [hscope]
      exact hscopes.binding?_eq_some hname nofun
  | constant hpossible h =>
    have heq := formInquiry_eq_of_isKnown hfixed hscopes hpossible ha
    refine .constant ?_ ?_ <;> rw [heq]
    · exact hpossible
    · exact h
  | passed hpossible h hy ih =>
    have heq := formInquiry_eq_of_isKnown hfixed hscopes hpossible ha
    refine .passed ?_ ?_ (ih ha) <;> rw [heq]
    · exact hpossible
    · exact h

theorem Evident.refinesTo (h : Evident spec config code₀ code x a) (ha : a.isKnown)
    (hcode : code.RefinesTo code') : Evident spec config code₀ code' x a :=
  h.mono ha hcode.fixed hcode.scopes fun _ hx _ => hcode.type_eq hx

/-- **The inquiry into an expression leads to known types for a reason**, if it does so from types
that have one. -/
theorem evident_of_gives
    (h : (formInquiry ⟨spec, config, code⟩ x (code.form x)).Gives P a) (ha : a.isKnown)
    (hP : ∀ y b, P (.expr y) b → b.isKnown → Evident spec config code₀ code y b)
    (hcall : ∀ f, code.Calls x f → code.IsRecorded x ∧ (code.node x).type = a) :
    Evident spec config code₀ code x a := by
  by_cases hcalls : ∃ f, code.Calls x f
  · obtain ⟨f, hf⟩ := hcalls
    obtain ⟨hx, rfl⟩ := hcall f hf
    exact .stored hx (.inr ⟨f, hf⟩)
  · have hpossible :
        (formInquiry ⟨spec, config, code⟩ x (code.form x)).Gives (fun _ _ => True) a :=
      h.mono fun _ _ _ => trivial
    rcases explains_formInquiry h ha (not_exists.mp hcalls) with hdetermined | ⟨y, hpasses⟩
    · exact .constant hpossible hdetermined
    · exact .passed hpossible hpasses (hP y a (hpasses P a h) ha)

/-- There is a reason for all that has been put on record since the beginning. -/
def Accounts (spec : OpSpec) (config : Config) (code₀ code : CompilationUnit) : Prop :=
  ∀ x, code.IsRecorded x → ¬code₀.IsRecorded x →
    Evident spec config code₀ code x (code.node x).type

/-- An expression without a known type among settled answers has no reason for one. -/
theorem Settles.not_evident {names : ScopeTree} {R : List NodeId} {type : Ty}
    (h : Settles ⟨spec, config, code⟩ names R P) (hx : P (.expr x) a) (ha : ¬a.isKnown)
    (htype : type.isKnown) : ¬Evident spec config code₀ code x type := by
  intro hevident
  have hnot : ∀ y, P (.expr y) a → ¬code.IsRecorded y := by
    intro y hy hrecorded
    have heq : (code.node y).type = a := h.eq_of_isRecorded hy hrecorded
    exact ha (heq ▸ hrecorded.2)
  induction hevident with
  | stored hrecorded _ => exact hnot _ hx hrecorded
  | constant _ hdetermined =>
    have heq := hdetermined P a (h.gives_form hx (hnot _ hx))
    exact ha (heq ▸ htype)
  | passed _ hpasses _ ih => exact ih (hpasses P a (h.gives_form hx (hnot _ hx))) htype

end Evident

end Typing

namespace Inquiry.Ends

open Typing

variable {spec : OpSpec} {config : Config} {R : List NodeId} {q : Inquiry} {s u v : CheckState σ}
  {e : Except Failure Ty} {x : NodeId} {subject : Subject} {type a : Ty}
  {code₀ : CompilationUnit}

/-- The known types of expressions in a table of answers have reasons. -/
def Reasoned (spec : OpSpec) (config : Config) (code₀ code : CompilationUnit) (subject : Subject)
    (type : Ty) : Prop :=
  ∀ x, subject = .expr x → type.isKnown → Evident spec config code₀ code x type

/-- Putting the answer to a question on record leaves the reasons for other types in place. -/
theorem evident_left {y : NodeId} (hcode : code₀.RefinesTo s.code)
    (first : Ends spec config (subject.resolving R)
      (inquiryWithin ⟨spec, config, s.code⟩ R subject) (s.entered subject) (.ok type) u)
    (h : Evident spec config code₀ u.code y a) (ha : a.isKnown) :
    Evident spec config code₀ (u.left s subject type).code y a := by
  have hu := (CheckState.typesTo_entered s subject).trans first.typesTo
  have hleft := CheckState.typesTo_left hu subject type
  refine h.mono ha (fun id => (hleft.refines.fixed id).trans (hu.refines.fixed id).symm)
    (CheckState.scopes_left u s subject type) fun z hz hlasts => ?_
  rw [CheckState.type_left, if_neg]
  -- Neither has it been on record from the beginning, nor is it a call.
  rintro ⟨rfl, hs, -⟩
  rcases hlasts with hold | ⟨f, hcalls⟩
  · exact hs (hcode.isRecorded hold)
  · have hcalls' := hu.calls_iff.mp hcalls
    rw [inquiryWithin_of_not_isRecorded hs, formInquiry_of_calls hcalls'] at first
    have htype := first.type_eq_of_call
      ((CheckState.typesTo_entered s (.expr z)).calls_iff.mpr hcalls')
    rw [CheckState.type_entered] at htype
    refine hs ⟨?_, ?_⟩
    · rw [← hu.refines.form]
      exact hz.1
    · rw [← htype]
      exact hz.2

/-- The answer to a question has a reason. -/
theorem reasoned_left (hcode : code₀.RefinesTo s.code) (hs : Accounts spec config code₀ s.code)
    (first : Ends spec config (subject.resolving R)
      (inquiryWithin ⟨spec, config, s.code⟩ R subject) (s.entered subject) (.ok type) u)
    (h : (inquiryWithin ⟨spec, config, s.code⟩ R subject).Gives
      (Reasoned spec config code₀ u.code) type) :
    Reasoned spec config code₀ (u.left s subject type).code subject type := by
  rintro x rfl hknown
  have hu := (CheckState.typesTo_entered s (.expr x)).trans first.typesTo
  have hleft := (CheckState.typesTo_left hu (.expr x) type).refines
  by_cases hx : s.code.IsRecorded x
  · rw [inquiryWithin_of_isRecorded hx] at h
    obtain rfl : (s.code.node x).type = type := h
    by_cases hold : code₀.IsRecorded x
    · have hstored : Evident spec config code₀ (u.left s (.expr x) (s.code.node x).type).code x _ :=
        .stored (hleft.isRecorded hx) (.inl hold)
      rw [hleft.type_eq hx] at hstored
      exact hstored
    · exact (hs x hx hold).refinesTo hknown hleft
  · rw [inquiryWithin_of_not_isRecorded hx] at h
    have heq := formInquiry_eq_of_isKnown hleft.fixed hleft.scopes h hknown
    rw [← heq] at h
    refine evident_of_gives h hknown (fun y b hy hb => evident_left hcode first (hy y rfl hb) hb)
      fun f hcalls => ?_
    -- The type of the call has been put on record.
    have hform : (s.code.form x).remembers := by
      rw [← hleft.form]
      exact hcalls.remembers
    have htype := CheckState.type_left u s (.expr x) type x
    rw [if_pos ⟨rfl, hx, by rw [hu.refines.form]; exact hform, hknown⟩] at htype
    refine ⟨⟨?_, ?_⟩, htype⟩
    · rw [hleft.form]
      exact hform
    · rw [htype]
      exact hknown

/-- **There is a reason for all that typing puts on record**, and for its answers. -/
theorem accounts (h : Ends spec config R q s e v) (hcode : code₀.RefinesTo s.code)
    (hs : Accounts spec config code₀ s.code) :
    Accounts spec config code₀ v.code ∧
      ∀ a, e = .ok a → q.Gives (Reasoned spec config code₀ v.code) a := by
  have hentered : ∀ {s : CheckState σ} (subject : Subject), Accounts spec config code₀ s.code →
      Accounts spec config code₀ (s.entered subject).code := by
    intro s subject hs x hx hnot
    rw [CheckState.type_entered]
    have hx' := CheckState.isRecorded_entered.mp hx
    exact (hs x hx' hnot).refinesTo hx'.2 (CompilationUnit.refinesTo_entered _ _)
  induction h with
  | answer =>
    refine ⟨hs, fun a ha => ?_⟩
    cases ha
    rfl
  | fail | depth => exact ⟨hs, nofun⟩
  | @stop R subject next s u failure first ih =>
    exact ⟨(ih (hcode.trans (CompilationUnit.refinesTo_entered _ _)) (hentered _ hs)).1, nofun⟩
  | @ask R subject next s u v type e first rest ihfirst ihrest =>
    obtain ⟨hu, hgives⟩ :=
      ihfirst (hcode.trans (CompilationUnit.refinesTo_entered _ _)) (hentered _ hs)
    have hcode' := (CheckState.typesTo_left ((CheckState.typesTo_entered s subject).trans
      first.typesTo) subject type).refines
    have hreasoned := reasoned_left hcode hs first (hgives type rfl)
    have hleft : Accounts spec config code₀ (u.left s subject type).code := by
      intro x hx hnot
      have htype := CheckState.type_left u s subject type x
      split at htype
      · next hput =>
        rw [htype]
        exact hreasoned x hput.1 hput.2.2.2
      · rw [htype]
        have hform : (u.left s subject type).code.form x = u.code.form x :=
          (hcode'.form x).trans (((CheckState.typesTo_entered s subject).trans
            first.typesTo).refines.form x).symm
        have hx' : u.code.IsRecorded x :=
          ⟨by rw [← hform]; exact hx.1, by rw [← htype]; exact hx.2⟩
        exact evident_left hcode first (hu x hx' hnot) hx'.2
    obtain ⟨hv, hrest⟩ := ihrest (hcode.trans hcode') hleft
    refine ⟨hv, fun a ha => ⟨type, fun x hx hknown => ?_, hrest a ha⟩⟩
    exact (hreasoned x hx hknown).refinesTo hknown rest.refinesTo

end Inquiry.Ends

end ContractLang
