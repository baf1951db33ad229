import ContractLang.Proofs.Typing.Footprint

/-!
# Answers that stay

An expression that is typed with a known type has it on record afterwards, so asking for it
again gives the same answer. One of no known type has nothing on record, and asking for it
again repeats the whole inquiry. That this gives the same answer, too, is what a
table of *settled* answers certifies (`ContractLang.Typing.Settles`): each answer in it is
given by the inquiry into what was asked for, from the other answers in the table.

Typing an expression with a settled answer gives that answer and leaves no trace
(`ContractLang.Typing.Settles.replay`), even if more functions are being resolved than
before, and answers that are settled stay so whatever else is typed
(`ContractLang.Typing.Settles.of_ends`).

The one thing that unsettles an answer is that a name comes to have a type. So
settledness refers to the types that names have in the end, in a tree of scopes that
is fixed beforehand.
-/

namespace ContractLang

open Check

variable {σ : Type}

namespace Inquiry

/-- If questions are answered as in `P`, an inquiry may lead to a type. -/
def Gives (P : Subject → Ty → Prop) : Inquiry → Ty → Prop
  | answer type, result => type = result
  | fail, _ => False
  | ask subject next, result => ∃ type, P subject type ∧ (next type).Gives P result

section Gives

variable {α : Type} {P P' : Subject → Ty → Prop} {q : Inquiry} {subject : Subject}
  {next : Ty → Inquiry} {type result : Ty}

@[simp] theorem gives_answer : (answer type).Gives P result ↔ type = result := Iff.rfl

@[simp] theorem not_gives_fail : ¬fail.Gives P result := id

theorem gives_ask : (ask subject next).Gives P result ↔
    ∃ type, P subject type ∧ (next type).Gives P result := Iff.rfl

@[simp] theorem gives_ask_answer : (ask subject answer).Gives P result ↔ P subject result := by
  simp [gives_ask]

/-- Only the answers to what an inquiry asks for matter. -/
theorem Gives.of_asks (h : q.Gives P result)
    (hP : ∀ subject type, q.Asks subject → P subject type → P' subject type) :
    q.Gives P' result := by
  induction q with
  | answer type => exact h
  | fail => exact h
  | ask subject next ih =>
    obtain ⟨type, htype, hnext⟩ := h
    exact ⟨type, hP _ _ .head htype,
      ih type hnext fun other type' hother => hP other type' (.tail type hother)⟩

theorem Gives.mono (h : q.Gives P result)
    (hP : ∀ subject type, P subject type → P' subject type) : q.Gives P' result :=
  h.of_asks fun subject type _ => hP subject type

theorem Gives.of_require {ok : Prop} [Decidable ok] (h : (require ok q).Gives P result) :
    ok ∧ q.Gives P result := by
  unfold require at h
  split at h
  · next hok => exact ⟨hok, h⟩
  · exact h.elim

theorem Gives.of_consult {given : Except Error α} {next : α → Inquiry}
    (h : (consult given next).Gives P result) : ∃ a, given = .ok a ∧ (next a).Gives P result := by
  cases given with
  | ok a => exact ⟨a, rfl, h⟩
  | error e => exact h.elim

end Gives

end Inquiry

namespace CompilationUnit

variable {code code' : CompilationUnit} {x f : NodeId}

/-- Nodes that are the same are not changed by putting the same on record. -/
theorem setDefinition_self (h : (code.node x).definition = some f) :
    code.setDefinition x f = code := by
  have hnodes : (code.setDefinition x f).nodes = code.nodes := by
    have hsize : (code.setDefinition x f).size = code.size := size_modifyNode
    refine Array.ext hsize fun i hi hi' => ?_
    have hnode : (code.setDefinition x f).node i = code.node i := by
      unfold setDefinition
      rw [node_modifyNode]
      split
      · next hix =>
        rw [hix.1]
        cases hnode : code.node x
        rw [hnode] at h
        dsimp only at h
        rw [h]
      · rfl
    unfold node at hnode
    simpa [Array.getD, hi, hi'] using hnode
  unfold setDefinition modifyNode at hnodes ⊢
  dsimp only at hnodes
  rw [hnodes]

end CompilationUnit

namespace Typing

open Inquiry

/-- Typing an expression with nothing on record leaves no trace if it gives a certain answer, and
nothing that it depends on will change. -/
structure Traceless (T : Typing) (names : ScopeTree) (x : NodeId) (a : Ty) : Prop where
  /-- Nothing goes on record. -/
  unknown : (T.code.form x).remembers → ¬a.isKnown
  /-- A call of a function is connected with it already. -/
  linked : ∀ f, T.code.Calls x f → (T.code.node x).definition = some f
  /-- A name has the type that it has in the end. -/
  named : ∀ name d, T.code.form x = .ident name →
    names.find? (T.code.node x).scope name = some d → d.type = a

/-- The answer to a question stays, while certain functions are being resolved, if names have the
types in the end that they have in `names`, and questions are answered as in `P`: it is what the
inquiry gives, and it leaves no trace. A function has no known type: either it is being
resolved, or its body has none. -/
def Certified (T : Typing) (names : ScopeTree) (R : List NodeId) (P : Subject → Ty → Prop) :
    Subject → Ty → Prop
  | .expr x, a =>
    (T.inquiry (.expr x)).Gives P a ∧ (¬T.code.IsRecorded x → T.Traceless names x a)
  | .body b, a => (T.inquiry (.body b)).Gives P a
  | .function f, a => a = .unknown ∧ (f ∈ R ∨ P (.body f) .unknown)

/-- The answers in a table are settled in a unit: each of them stays because the others do. -/
def Settles (T : Typing) (names : ScopeTree) (R : List NodeId) (P : Subject → Ty → Prop) : Prop :=
  ∀ subject a, P subject a → T.Certified names R P subject a

section Settles

variable {spec : OpSpec} {config : Config} {code code' : CompilationUnit} {names : ScopeTree}
  {R R' : List NodeId} {P P' : Subject → Ty → Prop} {x : NodeId} {a : Ty} {subject : Subject}

/-- The inquiry into a name leads to the type that it has. -/
theorem exists_of_gives_ident {T : Typing} {name : String}
    (h : (T.formInquiry x (T.code.form x)).Gives P a) (hform : T.code.form x = .ident name) :
    ∃ d, T.code.scopes.find? (T.code.node x).scope name = some d ∧ d.type ≠ .invalid ∧
      d.type = a := by
  rw [hform] at h
  unfold formInquiry identInquiry at h
  dsimp only at h
  split at h
  · next d hd => exact ⟨d, hd, h.of_require⟩
  · exact h.elim

/-- There is no answer to a call of a function that has no body. -/
theorem binding?_ne_of_gives {T : Typing} {name : String}
    (h : (T.formInquiry x (T.code.form x)).Gives P a) (hform : T.code.form x = .call name) :
    T.code.scopes.binding? (T.code.node x).scope name ≠ some .unresolved := by
  intro hname
  rw [hform] at h
  change (T.callInquiry (T.code.node x) name).Gives P a at h
  rw [callInquiry_of_unresolved hname] at h
  exact h

/-- The inquiry into an expression stays the same while a unit is refined, unless it is one into a
name whose type is found out, or a call of a function that has no body yet. -/
theorem formInquiry_eq_of_gives (hfixed : ∀ id, (code'.node id).fixed = (code.node id).fixed)
    (hscopes : code.scopes.RefinesTo code'.scopes)
    (h : (formInquiry ⟨spec, config, code⟩ x (code.form x)).Gives P a)
    (hident : ∀ name d, code.form x = .ident name →
      code'.scopes.find? (code.node x).scope name = some d → d.type = a) :
    formInquiry ⟨spec, config, code'⟩ x (code'.form x) =
      formInquiry ⟨spec, config, code⟩ x (code.form x) := by
  have hform' : code'.form x = code.form x :=
    Node.congr_fixed Node.form (fun _ => rfl) (hfixed x)
  have hscope : (code'.node x).scope = (code.node x).scope :=
    Node.congr_fixed Node.scope (fun _ => rfl) (hfixed x)
  rw [hform']
  cases hform : code.form x
  case ident name =>
    obtain ⟨d, hd, -, htype⟩ := exists_of_gives_ident h hform
    dsimp only at hd
    obtain ⟨d', hd', -⟩ := hscopes.exists_find? hd
    unfold formInquiry identInquiry
    dsimp only
    rw [hscope, hd, hd']
    dsimp only
    rw [hident name d' hform hd', htype]
  case call name =>
    have hwaits := binding?_ne_of_gives h hform
    have hfield : (code'.node x).field = (code.node x).field :=
      Node.congr_fixed Node.field (fun _ => rfl) (hfixed x)
    have hchildren : (code'.node x).children = (code.node x).children :=
      Node.congr_fixed Node.children (fun _ => rfl) (hfixed x)
    unfold formInquiry callInquiry operationInquiry
    dsimp only at hwaits ⊢
    rw [hscope, hfield, hchildren]
    cases hname : code.scopes.binding? (code.node x).scope name with
    | none => rw [hscopes.binding?_eq_none hname]
    | some binding =>
      rw [hscopes.binding?_eq_some hname fun hbinding => hwaits (hbinding ▸ hname)]
  all_goals rfl

/-- A call that has an answer is not one of a function that has no body yet. -/
theorem calls_of_gives {f : NodeId} (hcode : code.RefinesTo code')
    (h : (formInquiry ⟨spec, config, code⟩ x (code.form x)).Gives P a) (hcalls : code'.Calls x f) :
    code.Calls x f := by
  obtain ⟨name, hform, hname⟩ := hcalls
  rw [hcode.form] at hform
  rw [hcode.scope] at hname
  have hwaits := binding?_ne_of_gives h hform
  refine ⟨name, hform, ?_⟩
  cases hold : code.scopes.binding? (code.node x).scope name with
  | none => cases hname.symm.trans (hcode.scopes.binding?_eq_none hold)
  | some binding =>
    rw [← hname]
    exact (hcode.scopes.binding?_eq_some hold fun hbinding => hwaits (hbinding ▸ hold)).symm

/-- A name with a type in the end has had none, or the same. -/
theorem eq_of_find?_of_find? {t t' : ScopeTree} (h : t.RefinesTo t') (ht : t'.RefinesTo names)
    {id : ScopeId} {name : String} {d d' : Descriptor} (hd : t.find? id name = some d)
    (hd' : t'.find? id name = some d')
    (hnames : ∀ d'', names.find? id name = some d'' → d''.type = d.type) : d'.type = d.type := by
  obtain ⟨e, he, hde⟩ := h.exists_find? hd
  cases he.symm.trans hd'
  obtain ⟨d'', hd'', hd'd''⟩ := ht.exists_find? hd'
  rcases hde.type with heq | ⟨hold, hnew⟩
  · exact heq
  · have htype := hd'd''.type_eq hnew
    rw [hnames d'' hd''] at htype
    rw [htype]

/-- So the inquiry into a name stays the same if it leads to the type that the name has in the
end. -/
theorem formInquiry_eq_of_named (hcode : code.RefinesTo code')
    (hnames : code'.scopes.RefinesTo names)
    (h : (formInquiry ⟨spec, config, code⟩ x (code.form x)).Gives P a)
    (hnamed : ∀ name d, code.form x = .ident name →
      names.find? (code.node x).scope name = some d → d.type = a) :
    formInquiry ⟨spec, config, code'⟩ x (code'.form x) =
      formInquiry ⟨spec, config, code⟩ x (code.form x) := by
  refine formInquiry_eq_of_gives hcode.fixed hcode.scopes h fun name d' hform hd' => ?_
  obtain ⟨d, hd, -, htype⟩ := exists_of_gives_ident h hform
  rw [← htype]
  refine eq_of_find?_of_find? hcode.scopes hnames hd hd' fun d'' hd'' => ?_
  rw [htype]
  exact hnamed name d'' hform hd''

/-- Typing that leaves no trace goes on to leave none while a unit is refined. -/
theorem Traceless.refinesTo (h : Traceless ⟨spec, config, code⟩ names x a)
    (hcode : code.RefinesTo code')
    (hgives : (formInquiry ⟨spec, config, code⟩ x (code.form x)).Gives P a) :
    Traceless ⟨spec, config, code'⟩ names x a where
  unknown hremembers := h.unknown (by rwa [← hcode.form])
  linked f hcalls := hcode.definition_eq_some hcalls (h.linked f (calls_of_gives hcode hgives hcalls))
  named name d hform hd := by
    dsimp only at hform hd
    rw [hcode.form] at hform
    rw [hcode.scope] at hd
    exact h.named name d hform hd

/-- What is certified by some answers is certified by more of them. -/
theorem Certified.mono {T : Typing} (h : T.Certified names R P subject a)
    (hP : ∀ subject a, P subject a → P' subject a) : T.Certified names R P' subject a := by
  cases subject with
  | expr x => exact ⟨h.1.mono hP, h.2⟩
  | body b => exact Gives.mono h hP
  | function f => exact ⟨h.1, h.2.imp_right (hP _ _)⟩

namespace Settles

/-- Two tables of settled answers make one. -/
theorem union {T : Typing} (h : T.Settles names R P) (h' : T.Settles names R P') :
    T.Settles names R fun subject a => P subject a ∨ P' subject a := by
  rintro subject a (hP | hP')
  · exact (h subject a hP).mono fun _ _ => .inl
  · exact (h' subject a hP').mono fun _ _ => .inr

/-- A settled answer for an expression with nothing on record comes from the inquiry by its form. -/
theorem gives_form {T : Typing} (h : T.Settles names R P) (hx : P (.expr x) a)
    (hnot : ¬T.code.IsRecorded x) : (T.formInquiry x (T.code.form x)).Gives P a := by
  have hgives := (h _ a hx).1
  rwa [inquiry_of_not_isRecorded hnot] at hgives

/-- Otherwise it is the type on record. -/
theorem eq_of_isRecorded {T : Typing} (h : T.Settles names R P) (hx : P (.expr x) a)
    (hrecorded : T.code.IsRecorded x) : (T.code.node x).type = a := by
  have hgives := (h _ a hx).1
  rwa [inquiry_of_isRecorded hrecorded] at hgives

/-- **Settled answers stay settled** while a unit is refined, unless something is put on record for
one of them. -/
theorem refinesTo (h : Settles ⟨spec, config, code⟩ names R P) (hcode : code.RefinesTo code')
    (hnames : code'.scopes.RefinesTo names)
    (hrecorded : ∀ x a, P (.expr x) a → code'.IsRecorded x → code.IsRecorded x) :
    Settles ⟨spec, config, code'⟩ names R P := by
  rintro (x | b | f) a hP
  · by_cases hx : code'.IsRecorded x
    · -- What is on record was on record before.
      have hx₀ := hrecorded x a hP hx
      refine ⟨?_, fun hnot => absurd hx hnot⟩
      rw [inquiry_of_isRecorded hx]
      exact (hcode.type_eq hx₀).trans (h.eq_of_isRecorded hP hx₀)
    · have hx₀ : ¬code.IsRecorded x := fun hx₀ => hx (hcode.isRecorded hx₀)
      have hgives := h.gives_form hP hx₀
      have htraceless := (h _ a hP).2 hx₀
      refine ⟨?_, fun _ => htraceless.refinesTo hcode hgives⟩
      rw [inquiry_of_not_isRecorded hx,
        formInquiry_eq_of_named hcode hnames hgives htraceless.named]
      exact hgives
  · have hbody : (inquiry ⟨spec, config, code⟩ (.body b)).Gives P a := h _ a hP
    change (inquiry ⟨spec, config, code'⟩ (.body b)).Gives P a
    rwa [inquiry_body_congr hcode]
  · exact h _ a hP

/-! ### Asking again -/

variable {s u v : CheckState σ} {q : Inquiry} {e : Except Failure Ty}

/-- The inquiry into what has a settled answer gives it. -/
theorem gives (h : Settles ⟨spec, config, code⟩ names R P) (hR : ∀ f ∈ R, f ∈ R')
    (hP : P subject a) : (inquiryWithin ⟨spec, config, code⟩ R' subject).Gives P a := by
  cases subject with
  | expr x => exact (h _ a hP).1
  | body b => exact h _ a hP
  | function f =>
    obtain ⟨rfl, hf⟩ := h _ a hP
    by_cases hmem : f ∈ R'
    · rw [inquiryWithin_of_mem hmem]
      rfl
    · rw [inquiryWithin_of_not_mem hmem]
      exact h _ .unknown (hf.resolve_left fun hf => hmem (hR f hf))

theorem entered_eq (h : Settles ⟨spec, config, s.code⟩ names R P) (hP : P subject a) :
    s.entered subject = s := by
  cases subject with
  | body | function => rfl
  | expr x =>
    by_cases hx : s.code.IsRecorded x
    · exact CheckState.entered_of_isRecorded hx
    · have hgives := h.gives_form hP hx
      rw [CheckState.entered_of_not_isRecorded hx]
      have hopened : s.code.opened x = s.code := by
        unfold CompilationUnit.opened
        split
        · next name hform =>
          split
          · next f hname =>
            exact CompilationUnit.setDefinition_self (((h _ a hP).2 hx).linked f ⟨name, hform, hname⟩)
          · next hname => exact (binding?_ne_of_gives hgives hform hname).elim
          · rfl
        · rfl
      rw [hopened]

theorem left_eq (h : Settles ⟨spec, config, s.code⟩ names R P) (hP : P subject a) :
    s.left s subject a = s := by
  cases subject with
  | body | function => rfl
  | expr x =>
    by_cases hx : s.code.IsRecorded x
    · exact CheckState.left_of_isRecorded hx
    · rw [CheckState.left_of_not_isRecorded hx]
      have hclosed : s.code.closed x a = s.code :=
        if_neg fun hclosed => ((h _ a hP).2 hx).unknown hclosed.1 hclosed.2
      rw [hclosed]

/-- **Asking again gives the settled answer**, and changes nothing. -/
theorem replay (h : Settles ⟨spec, config, s.code⟩ names R P)
    (hends : Inquiry.Ends spec config R' q s e v) (hR : ∀ f ∈ R, f ∈ R') (hq : q.Gives P a) :
    (e = .ok a ∨ e = .error .outOfDepth) ∧ v = s := by
  induction hends generalizing a with
  | answer =>
    cases hq
    exact ⟨.inl rfl, rfl⟩
  | fail => exact hq.elim
  | depth => exact ⟨.inr rfl, rfl⟩
  | @stop R' subject next s u failure first ih =>
    obtain ⟨b, hb, -⟩ := hq
    have hentered := h.entered_eq hb
    rw [hentered] at ih
    have hR' : ∀ f ∈ R, f ∈ subject.resolving R' := fun f hf => subject.mem_resolving (hR f hf)
    obtain ⟨hfailure, hu⟩ := ih h hR' (h.gives hR hb)
    exact ⟨.inr (hfailure.resolve_left nofun), hu⟩
  | @ask R' subject next s u v type e first rest ihfirst ihrest =>
    obtain ⟨b, hb, hnext⟩ := hq
    have hentered := h.entered_eq hb
    rw [hentered] at ihfirst
    have hR' : ∀ f ∈ R, f ∈ subject.resolving R' := fun f hf => subject.mem_resolving (hR f hf)
    obtain ⟨htype, rfl⟩ := ihfirst h hR' (h.gives hR hb)
    cases htype.resolve_right nofun
    have hleft := h.left_eq hb
    rw [hleft] at ihrest
    exact ihrest h hR hnext

/-! ### Asking for something else -/

theorem entered (h : Settles ⟨spec, config, s.code⟩ names R P) (subject : Subject)
    (hnames : (s.entered subject).code.scopes.RefinesTo names) :
    Settles ⟨spec, config, (s.entered subject).code⟩ names R P :=
  h.refinesTo (CompilationUnit.refinesTo_entered _ _) hnames
    fun _ _ _ => CheckState.isRecorded_entered.mp

/-- Whatever is typed, nothing is put on record for what has a settled answer. -/
theorem isRecorded_of_ends (h : Settles ⟨spec, config, s.code⟩ names R P)
    (hends : Inquiry.Ends spec config R' q s e v) (hR : ∀ f ∈ R, f ∈ R')
    (hnames : v.code.scopes.RefinesTo names) (hx : P (.expr x) a) (hv : v.code.IsRecorded x) :
    s.code.IsRecorded x := by
  induction hends generalizing x a with
  | answer | fail | depth => exact hv
  | @stop R' subject next s u failure first ih =>
    have hentered := (h.entered subject (first.refinesTo.scopes.trans hnames))
    exact CheckState.isRecorded_entered.mp (ih hentered
      (fun f hf => subject.mem_resolving (hR f hf)) hnames hx hv)
  | @ask R' subject next s u v type e first rest ihfirst ihrest =>
    have hcode : s.code.RefinesTo (u.left s subject type).code :=
      (CheckState.typesTo_left ((CheckState.typesTo_entered _ _).trans first.typesTo) _ _).refines
    have hu : u.code.scopes.RefinesTo names :=
      ((CheckState.scopes_left u s subject type).trans rest.refinesTo.scopes).trans hnames
    have hentered := h.entered subject (first.refinesTo.scopes.trans hu)
    have hfirst : ∀ y b, P (.expr y) b → (u.left s subject type).code.IsRecorded y →
        s.code.IsRecorded y := by
      intro y b hy hleft
      have htype := CheckState.type_left u s subject type y
      split at htype
      · next hput =>
        -- Had it a settled answer, this would be the answer, and it would not go on record.
        obtain ⟨rfl, hs, hremembers, hknown⟩ := hput
        rw [h.entered_eq hy] at first
        obtain ⟨heq, rfl⟩ := h.replay first hR (h.gives hR hy)
        cases heq.resolve_right nofun
        exact absurd hknown (((h _ type hy).2 hs).unknown hremembers)
      · refine CheckState.isRecorded_entered.mp (ihfirst hentered
          (fun f hf => subject.mem_resolving (hR f hf)) hu hy ⟨?_, ?_⟩)
        · rw [first.refinesTo.form, (CheckState.typesTo_entered s subject).refines.form,
            ← hcode.form]
          exact hleft.1
        · rw [← htype]
          exact hleft.2
    refine hfirst x a hx (ihrest ?_ hR hnames hx hv)
    exact h.refinesTo hcode (rest.refinesTo.scopes.trans hnames) hfirst

/-- **Settled answers stay settled** whatever is typed. -/
theorem of_ends (h : Settles ⟨spec, config, s.code⟩ names R P)
    (hends : Inquiry.Ends spec config R' q s e v) (hR : ∀ f ∈ R, f ∈ R')
    (hnames : v.code.scopes.RefinesTo names) : Settles ⟨spec, config, v.code⟩ names R P :=
  h.refinesTo hends.refinesTo hnames fun _ _ hx hv => h.isRecorded_of_ends hends hR hnames hx hv

end Settles

end Settles

end Typing

end ContractLang
