import ContractLang.Proofs.Typing.Course

/-!
# What typing touches

Typing puts types on record for the expressions that it comes to, and for no others
(`ContractLang.Inquiry.Ends.type_eq_of_not_mem`). In the scopes it gives types to functions
that are called (`ContractLang.Inquiry.Ends.completes`); what a name is bound to, and the
type of a name that stands for no function, stays as it is. So the inquiry into an
expression that has nothing on record is the same at every time
(`ContractLang.Typing.formInquiry_congr`).

What an inquiry comes to is bounded by sets of nodes that contain with each node all
those that it leads to (`ContractLang.Subject.Within`).
-/

namespace ContractLang

open Check

variable {σ : Type}

/-! ### Scopes -/

namespace Descriptor.Completes

variable {d d' d'' : Descriptor}

theorem refl (d : Descriptor) : d.Completes d := ⟨rfl, rfl, .inl rfl⟩

theorem isFunc (h : d.Completes d') : d'.isFunc = d.isFunc := by
  unfold Descriptor.isFunc Descriptor.binding?
  rw [h.role]

theorem trans (h : d.Completes d') (h' : d'.Completes d'') : d.Completes d'' where
  name := h'.name.trans h.name
  role := h'.role.trans h.role
  type := by
    rcases h.type with heq | hfunc
    · have htype' := h'.type
      rw [heq, h.isFunc] at htype'
      exact htype'
    · exact .inr hfunc

/-- A name that stands for no function keeps its descriptor. -/
theorem eq_of_not_isFunc (h : d.Completes d') (hd : ¬d.isFunc) : d' = d := by
  have htype := h.type.resolve_right fun hfunc => hd hfunc.1
  obtain ⟨hname, hrole, -⟩ := h
  cases d
  cases d'
  dsimp only at hname hrole htype
  rw [hname, hrole, htype]

end Descriptor.Completes

/-- A tree of scopes has become another one by giving types to functions. -/
def ScopeTree.Completes (t t' : ScopeTree) : Prop :=
  ∀ ids, Agree Descriptor.Completes ids t t'

namespace ScopeTree

variable {t t' t'' : ScopeTree} {id : ScopeId} {name : String} {d : Descriptor}

namespace Completes

theorem refl (t : ScopeTree) : t.Completes t := fun ids => .refl .refl ids t

theorem trans (h : t.Completes t') (h' : t'.Completes t'') : t.Completes t'' := fun ids =>
  ⟨fun s hs => ((h' ids).parent s hs).trans ((h ids).parent s hs), fun s hs name =>
    rel_trans (fun hd hd' => hd.trans hd') ((h ids).get? s hs name) ((h' ids).get? s hs name)⟩

/-- The same is bound to a name. -/
theorem binding? (h : t.Completes t') (id : ScopeId) (name : String) :
    t'.binding? id name = t.binding? id name := by
  have hrel := (h (t.chain id)).find? name
  unfold ScopeTree.binding?
  revert hrel
  generalize t.find? id name = o, t'.find? id name = o'
  rintro (hd | _)
  · simp only [Option.bind_some, Descriptor.binding?, hd.role]
  · rfl

/-- The same is found for a name that stands for no function. -/
theorem find?_eq (h : t.Completes t') (hd : ∀ d, t.find? id name = some d → ¬d.isFunc) :
    t'.find? id name = t.find? id name := by
  have hrel := (h (t.chain id)).find? name
  revert hrel hd
  generalize t.find? id name = o, t'.find? id name = o'
  rintro hd (hrel | _)
  · rw [hrel.eq_of_not_isFunc (hd _ rfl)]
  · rfl

end Completes

theorem completes_putBack (h : t.binding? id name = some .unresolved) (call : NodeId) :
    t.Completes (t.putBack id name call) := by
  obtain ⟨u, t', hu, ht', hrefines, hget⟩ := exists_setBinding_unresolved h call
  have heq : t.putBack id name call = t' := by
    unfold putBack
    simp only [hu, ht']
  rw [heq]
  refine fun ids => ⟨fun s _ => (hrefines.scope s).parent, fun s _ other => ?_⟩
  rw [hget]
  exact (Completes.refl t ids).get? s ‹_› other

theorem completes_completed {f : NodeId} (h : t.binding? id name = some (.resolved f))
    (type : Ty) : t.Completes (t.completed id name type) := by
  obtain ⟨d, hd, hbinding⟩ := Option.bind_eq_some_iff.mp h
  obtain ⟨s, hs, hget⟩ := find?_eq_some_iff.mp hd
  unfold completed
  rw [refine_eq_ok hs hget type]
  dsimp only
  split
  · exact .refl t
  · next hunknown =>
    refine fun ids => (Completes.refl t ids).replace hget fun d' hd' => ?_
    refine hd'.trans ⟨rfl, rfl, .inr ⟨?_, hunknown⟩⟩
    unfold Descriptor.isFunc
    rw [hbinding]
    rfl

end ScopeTree

/-! ### Questions -/

namespace CompilationUnit

variable {code : CompilationUnit} {x y : NodeId} {type : Ty}

/-- Connecting a call with its function is all that happens to nodes before an expression is dealt
with. -/
theorem field_opened {α : Type} (g : Node → α)
    (hg : ∀ node definition, g { node with definition } = g node) (code : CompilationUnit)
    (x y : NodeId) : g ((code.opened x).node y) = g (code.node y) := by
  unfold opened
  split
  · split
    · exact field_modifyNode g fun _ => hg _ _
    · rfl
    · rfl
  · rfl

theorem type_opened (code : CompilationUnit) (x y : NodeId) :
    ((code.opened x).node y).type = (code.node y).type :=
  field_opened Node.type (fun _ _ => rfl) code x y

theorem nodes_informed (code : CompilationUnit) (x : NodeId) (type : Ty) :
    (code.informed x type).nodes = code.nodes := by
  unfold informed
  split
  · split <;> rfl
  · rfl

theorem node_informed (code : CompilationUnit) (x y : NodeId) (type : Ty) :
    (code.informed x type).node y = code.node y := by
  unfold node
  rw [nodes_informed]

theorem type_closed_of_ne (h : y ≠ x) : ((code.closed x type).node y).type = (code.node y).type := by
  unfold closed
  split
  · unfold setType
    rw [node_modifyNode, if_neg fun hy => h hy.1, node_informed]
  · rfl

theorem lt_size_of_remembers (h : (code.form x).remembers) : x < code.size := by
  refine lt_size_of_form fun hform => ?_
  rw [hform] at h
  cases h

/-- A known type goes on record. -/
theorem type_closed_self (h : (code.form x).remembers) (htype : type.isKnown) :
    ((code.closed x type).node x).type = type := by
  have hx : x < (code.informed x type).size := by
    unfold size
    rw [nodes_informed]
    exact lt_size_of_remembers h
  unfold closed
  rw [if_pos ⟨h, htype⟩, setType, node_modifyNode, if_pos ⟨rfl, hx⟩]

theorem completes_opened (code : CompilationUnit) (x : NodeId) :
    code.scopes.Completes (code.opened x).scopes := by
  unfold opened
  split
  · split
    · exact .refl _
    · next hname => exact ScopeTree.completes_putBack hname x
    · exact .refl _
  · exact .refl _

theorem completes_closed (code : CompilationUnit) (x : NodeId) (type : Ty) :
    code.scopes.Completes (code.closed x type).scopes := by
  unfold closed
  split
  · change code.scopes.Completes (code.informed x type).scopes
    unfold informed
    split
    · split
      · next hname => exact ScopeTree.completes_completed hname type
      · exact .refl _
    · exact .refl _
  · exact .refl _

end CompilationUnit

namespace CheckState

variable {s start : CheckState σ} {subject : Subject} {y : NodeId} {type : Ty}

theorem type_entered (s : CheckState σ) (subject : Subject) (y : NodeId) :
    ((s.entered subject).code.node y).type = (s.code.node y).type := by
  cases subject with
  | expr x =>
    by_cases hx : s.code.IsRecorded x
    · rw [entered_of_isRecorded hx]
    · rw [entered_of_not_isRecorded hx]
      exact CompilationUnit.type_opened s.code x y
  | body | function => rfl

/-- **An answer goes on record for the expression that was asked about**, if it is known and there
is a place for it, and nothing else does. -/
theorem type_left (s start : CheckState σ) (subject : Subject) (type : Ty) (y : NodeId) :
    ((s.left start subject type).code.node y).type =
      if subject = .expr y ∧ ¬start.code.IsRecorded y ∧ (s.code.form y).remembers ∧ type.isKnown
      then type else (s.code.node y).type := by
  cases subject with
  | expr x =>
    by_cases hx : start.code.IsRecorded x
    · rw [left_of_isRecorded hx, if_neg]
      rintro ⟨heq, hy, -⟩
      cases heq
      exact hy hx
    · rw [left_of_not_isRecorded hx]
      by_cases hy : y = x
      · subst hy
        by_cases hclosed : (s.code.form y).remembers ∧ type.isKnown
        · rw [if_pos ⟨rfl, hx, hclosed⟩]
          exact CompilationUnit.type_closed_self hclosed.1 hclosed.2
        · rw [if_neg fun h => hclosed h.2.2]
          dsimp only
          rw [CompilationUnit.closed, if_neg hclosed]
      · rw [if_neg fun h => hy (Subject.expr.inj h.1).symm]
        exact CompilationUnit.type_closed_of_ne hy
  | body | function =>
    rw [if_neg fun h => nomatch h.1]
    rfl

theorem completes_entered (s : CheckState σ) (subject : Subject) :
    s.code.scopes.Completes (s.entered subject).code.scopes := by
  cases subject with
  | expr x =>
    by_cases hx : s.code.IsRecorded x
    · rw [entered_of_isRecorded hx]
      exact .refl _
    · rw [entered_of_not_isRecorded hx]
      exact CompilationUnit.completes_opened s.code x
  | body | function => exact .refl _

theorem completes_left (s start : CheckState σ) (subject : Subject) (type : Ty) :
    s.code.scopes.Completes (s.left start subject type).code.scopes := by
  cases subject with
  | expr x =>
    by_cases hx : start.code.IsRecorded x
    · rw [left_of_isRecorded hx]
      exact .refl _
    · rw [left_of_not_isRecorded hx]
      exact CompilationUnit.completes_closed s.code x type
  | body | function => exact .refl _

end CheckState

/-! ### What typing does to a unit -/

/-- A unit has become another one by typing expressions. -/
structure CompilationUnit.TypesTo (code code' : CompilationUnit) : Prop where
  refines : code.RefinesTo code'
  completes : code.scopes.Completes code'.scopes

namespace CompilationUnit.TypesTo

variable {code code' code'' : CompilationUnit} {x y f : NodeId}

theorem refl (code : CompilationUnit) : code.TypesTo code :=
  ⟨.refl code, .refl _⟩

theorem trans (h : code.TypesTo code') (h' : code'.TypesTo code'') : code.TypesTo code'' :=
  ⟨h.refines.trans h'.refines, h.completes.trans h'.completes⟩

theorem calls_iff (h : code.TypesTo code') : code'.Calls x f ↔ code.Calls x f := by
  unfold Calls
  simp only [h.refines.form, h.refines.scope, h.completes.binding?]

theorem leads_iff (h : code.TypesTo code') : code'.Leads x y ↔ code.Leads x y := by
  unfold Leads
  rw [h.refines.link_iff, h.refines.isDefinition_iff, h.calls_iff]

end CompilationUnit.TypesTo

namespace CheckState

variable {s u : CheckState σ} {subject : Subject}

theorem typesTo_entered (s : CheckState σ) (subject : Subject) :
    s.code.TypesTo (s.entered subject).code :=
  ⟨CompilationUnit.refinesTo_entered _ _, completes_entered s subject⟩

/-- Taking up a question puts nothing on record. -/
theorem isRecorded_entered {y : NodeId} :
    (s.entered subject).code.IsRecorded y ↔ s.code.IsRecorded y := by
  unfold CompilationUnit.IsRecorded
  rw [type_entered, (typesTo_entered s subject).refines.form]

theorem scopes_left (u s : CheckState σ) (subject : Subject) (type : Ty) :
    u.code.scopes.RefinesTo (u.left s subject type).code.scopes := by
  cases subject with
  | expr x =>
    by_cases hx : s.code.IsRecorded x
    · rw [left_of_isRecorded hx]
      exact .refl _
    · rw [left_of_not_isRecorded hx]
      dsimp only
      unfold CompilationUnit.closed
      split
      · next hclosed => exact ((CompilationUnit.RefinesTo.refl u.code).informed hclosed.2).scopes
      · exact .refl _
  | body | function => exact .refl _

theorem typesTo_left (h : s.code.TypesTo u.code) (subject : Subject) (type : Ty) :
    s.code.TypesTo (u.left s subject type).code :=
  ⟨h.refines.left subject type, h.completes.trans (completes_left u s subject type)⟩

end CheckState

/-- **Typing refines a unit, and gives types to functions only.** -/
theorem Inquiry.Ends.typesTo {spec : OpSpec} {config : Config} {R : List NodeId} {q : Inquiry}
    {s v : CheckState σ} {e : Except Failure Ty} (h : Ends spec config R q s e v) :
    s.code.TypesTo v.code := by
  refine ⟨h.refinesTo, ?_⟩
  induction h with
  | answer | fail | depth => exact .refl _
  | stop first ih => exact (CheckState.completes_entered _ _).trans ih
  | ask first rest ihfirst ihrest =>
    exact (((CheckState.completes_entered _ _).trans ihfirst).trans
      (CheckState.completes_left _ _ _ _)).trans ihrest

/-! ### The same inquiries at every time -/

namespace Typing

variable {spec : OpSpec} {config : Config} {code code' : CompilationUnit} {x : NodeId}

/-- **The inquiry into an expression is the same at every time**, unless it is a name that stands
for a function. -/
theorem formInquiry_congr (h : code.TypesTo code') (hident : ∀ name d,
    code.form x = .ident name → code.scopes.find? (code.node x).scope name = some d → ¬d.isFunc) :
    formInquiry ⟨spec, config, code'⟩ x (code'.form x) =
      formInquiry ⟨spec, config, code⟩ x (code.form x) := by
  rw [h.refines.form]
  cases hform : code.form x
  case ident name =>
    unfold formInquiry identInquiry
    dsimp only
    rw [h.refines.scope, h.completes.find?_eq fun d hd => hident name d hform hd]
  case call name =>
    have hfield := h.refines.field x
    have hchildren : (code'.node x).children = (code.node x).children := h.refines.children x
    unfold formInquiry callInquiry operationInquiry
    dsimp only
    rw [h.refines.scope, h.completes.binding?, hfield, hchildren]
  all_goals rfl

/-- So is the inquiry into a body. -/
theorem inquiry_body_congr (h : code.RefinesTo code') (b : NodeId) :
    inquiry ⟨spec, config, code'⟩ (.body b) = inquiry ⟨spec, config, code⟩ (.body b) := by
  have hexit : ∀ stmt next, exitInquiry ⟨spec, config, code'⟩ stmt next =
      exitInquiry ⟨spec, config, code⟩ stmt next := by
    intro stmt next
    unfold exitInquiry
    dsimp only
    rw [h.form]
  have hexits : ∀ stmts sofar, exitsInquiry ⟨spec, config, code'⟩ sofar stmts =
      exitsInquiry ⟨spec, config, code⟩ sofar stmts := by
    intro stmts
    induction stmts with
    | nil => exact fun _ => rfl
    | cons stmt rest ih =>
      intro sofar
      unfold exitsInquiry
      simp only [hexit, ih]
  unfold inquiry
  dsimp only
  rw [h.children]
  exact hexits _ _

end Typing

/-! ### What an inquiry comes to -/

/-- A set of nodes contains with each node all those that it leads to. -/
def CompilationUnit.Closed (code : CompilationUnit) (N : NodeId → Prop) : Prop :=
  ∀ x y, N x → code.Leads x y → N y

/-- A question concerns nodes in a set. A definition is no expression, so nothing follows from
asking for its type. -/
def Subject.Within (code : CompilationUnit) (N : NodeId → Prop) : Subject → Prop
  | .expr x => N x ∨ code.IsDefinition x
  | .body b => N b
  | .function f => ∃ x, N x ∧ code.Calls x f

/-- An inquiry stays in a set of nodes. -/
def Inquiry.Within (code : CompilationUnit) (N : NodeId → Prop) (q : Inquiry) : Prop :=
  ∀ subject, q.Asks subject → subject.Within code N

section Within

variable {code code' : CompilationUnit} {N N' : NodeId → Prop} {subject : Subject} {q : Inquiry}
  {next : Ty → Inquiry} {R : List NodeId} {spec : OpSpec} {config : Config}

namespace Inquiry

theorem Within.head (h : (ask subject next).Within code N) : subject.Within code N :=
  h subject .head

theorem Within.tail (h : (ask subject next).Within code N) (type : Ty) :
    (next type).Within code N := fun other hother => h other (.tail type hother)

theorem within_answer (type : Ty) : (answer type).Within code N := nofun

theorem within_ask_answer (h : subject.Within code N) : (ask subject answer).Within code N := by
  intro other hother
  rcases asks_ask_iff.mp hother with rfl | ⟨type, hother⟩
  · exact h
  · cases hother

end Inquiry

open Inquiry

/-- What a statement leaves a body in a closed set with is in the set, too. -/
theorem CompilationUnit.Closed.within_of_exit? (hN : code.Closed N) {b stmt : NodeId} (hb : N b)
    (hmem : stmt ∈ code.children b) (hexit : code.exit? stmt = some subject) :
    subject.Within code N := by
  obtain ⟨hstmt, h⟩ := CompilationUnit.cases_of_exit? hexit
  have hN' : N stmt := hN b stmt hb (.of_link (.inr hmem) hstmt)
  rcases h with rfl | ⟨y, rfl, hlink⟩
  · exact hN'
  · by_cases hy : code.IsDefinition y
    · exact .inr hy
    · exact .inl (hN stmt y hN' (.of_link hlink hy))

/-- Questions about nodes in a closed set raise such questions only. -/
theorem CompilationUnit.Closed.encloses (hN : code.Closed N) :
    code.Encloses (Subject.Within code N) := by
  intro subject other h hraises
  cases hraises with
  | @operand x y hx hlink =>
    by_cases hy : code.IsDefinition y
    · exact .inr hy
    · exact .inl (hN x y (h.resolve_right hx) (.of_link hlink hy))
  | @callee x f hcalls =>
    refine ⟨x, h.resolve_right ?_, hcalls⟩
    rintro ⟨_, _, _, hdefinition⟩
    obtain ⟨name, hform, -⟩ := hcalls
    cases hform.symm.trans hdefinition
  | exit hmem hexit => exact hN.within_of_exit? h hmem hexit
  | @value f stmt _ hmem hexit =>
    obtain ⟨x, hx, hcalls⟩ := h
    exact hN.within_of_exit? (hN x f hx (.of_calls hcalls)) hmem hexit

/-- The same is raised at every time. -/
theorem Subject.raises_iff (h : code.TypesTo code') {other : Subject} :
    Raises code' subject other ↔ Raises code subject other := by
  refine ⟨fun hraises => ?_, fun hraises => hraises.refinesTo h.refines⟩
  have hrefines := h.refines
  cases hraises with
  | operand hx hlink =>
    exact .operand (hrefines.isDefinition_iff.not.mp hx) (hrefines.link_iff.mp hlink)
  | callee hcalls => exact .callee (h.calls_iff.mp hcalls)
  | exit hmem hexit =>
    exact .exit (hrefines.children _ ▸ hmem) ((hrefines.exit? _).symm.trans hexit)
  | value hmem hexit =>
    exact .value (hrefines.children _ ▸ hmem) ((hrefines.exit? _).symm.trans hexit)

/-- **Answering a question asks those that it raises**, at every time. -/
theorem Typing.raises_of_asks (hcode : code.TypesTo code') {other : Subject}
    (h : (Typing.inquiryWithin ⟨spec, config, code'⟩ R subject).Asks other) :
    Subject.Raises code subject other := by
  refine (Subject.raises_iff hcode).mp ?_
  cases subject with
  | expr x =>
    by_cases hx : code'.IsRecorded x
    · rw [Typing.inquiryWithin_of_isRecorded hx] at h
      cases h
    · rw [Typing.inquiryWithin_of_not_isRecorded hx] at h
      exact Typing.raises_of_asks_form h
  | body b =>
    obtain ⟨stmt, hmem, hexit⟩ := Typing.exit?_of_asks h
    exact .exit hmem hexit
  | function f =>
    by_cases hf : f ∈ R
    · rw [Typing.inquiryWithin_of_mem hf] at h
      cases h
    · rw [Typing.inquiryWithin_of_not_mem hf] at h
      obtain ⟨stmt, hmem, hexit⟩ := Typing.exit?_of_asks h
      exact .value hmem hexit

/-- So answering a question about nodes in a closed set stays there. -/
theorem Typing.within_inquiryWithin (hN : code.Closed N) (hcode : code.TypesTo code')
    (h : subject.Within code N) :
    (Typing.inquiryWithin ⟨spec, config, code'⟩ R subject).Within code N :=
  fun _ hother => hN.encloses _ _ h (Typing.raises_of_asks hcode hother)

/-- Nothing goes on record for a definition. -/
theorem CompilationUnit.IsDefinition.not_remembers {x : NodeId} (h : code.IsDefinition x) :
    ¬(code.form x).remembers := by
  obtain ⟨name, params, inlined, hform⟩ := h
  rw [hform]
  nofun

/-- **Typing puts nothing on record for nodes that it does not come to.** -/
theorem Inquiry.Ends.type_eq_of_not_mem {s v : CheckState σ} {e : Except Failure Ty} {y : NodeId}
    (h : Ends spec config R q s e v) (hN : code.Closed N) (hs : code.TypesTo s.code)
    (hq : q.Within code N) (hy : ¬N y) : (v.code.node y).type = (s.code.node y).type := by
  induction h with
  | answer | fail | depth => rfl
  | stop first ih =>
    rw [ih (hs.trans (CheckState.typesTo_entered _ _))
      (Typing.within_inquiryWithin hN hs hq.head), CheckState.type_entered]
  | @ask _ subject _ s u v type _ first rest ihfirst ihrest =>
    have hu : s.code.TypesTo u.code := (CheckState.typesTo_entered _ _).trans first.typesTo
    have hplace : ¬(subject = .expr y ∧ ¬s.code.IsRecorded y ∧ (u.code.form y).remembers ∧
        type.isKnown) := by
      rintro ⟨rfl, -, hremembers, -⟩
      rw [(hs.trans hu).refines.form] at hremembers
      exact (hq.head.resolve_left hy).not_remembers hremembers
    rw [ihrest (hs.trans (CheckState.typesTo_left hu _ _)) (hq.tail _), CheckState.type_left,
      if_neg hplace, ihfirst (hs.trans (CheckState.typesTo_entered _ _))
        (Typing.within_inquiryWithin hN hs hq.head), CheckState.type_entered]

end Within

end ContractLang
