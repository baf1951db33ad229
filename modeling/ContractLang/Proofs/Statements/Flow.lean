import ContractLang.Proofs.Scope.Retain
import ContractLang.Proofs.Statements.Refining

/-!
# Where types flow

Types are entered in descriptors from two sides: a call of a function, and its definition, give
the function a type; an assignment and a declaration do so to their targets. Each of them finds
the descriptor by its name, from its own scope. A flow of types
(`ContractLang.CheckState.Flow`) is a sequence of such entries, each in a descriptor that had
no known type, with functions being connected with their definitions in between. It goes from
state to state, so that every entry can be traced to the check that has found out its type
(`ContractLang.TypeEntry.Found`).

Without a parser, whatever is asked leads to a flow of types, in which every change of a type has
its entry, and nothing more is entered by calls than in functions
(`ContractLang.Checker.flow_ask`). Assignments and definitions do not look at what kind of thing
they enter a type in: that is as the name means to them in the beginning, so that a function is
given the type of a value that is assigned to its name, and a variable the return type of a
function by its name (`ContractLang.Checker.flow_astray`).
-/

namespace ContractLang

open Check

/-- A type that is entered in a descriptor. -/
structure TypeEntry where
  /-- The statement or the call that gives the type. -/
  giver : NodeId
  /-- The name that it is given to. -/
  name : String
  /-- The scope in which the name is declared. -/
  home : ScopeId
  /-- The descriptor as it was found. -/
  found : Descriptor
  /-- The type. -/
  type : Ty

/-- A descriptor is one that nodes of a form are to give types to: a variable, if they are
assignments or declarations, and a function, if they are calls or definitions. -/
def Descriptor.Suits (d : Descriptor) : Form → Prop
  | .assign .. | .declare .. => ∃ slot, d.role = .var slot
  | _ => d.isFunc

/-- Things of the same kind are suitable alike. -/
theorem Descriptor.SameKind.suits_iff {d d' : Descriptor} (h : d.SameKind d') (form : Form) :
    d'.Suits form ↔ d.Suits form := by
  unfold SameKind at h
  unfold Suits isFunc binding?
  split <;> cases hd : d.role <;> cases hd' : d'.role <;> simp_all [Role.sameKind]

/-- Connecting a function with its definition leaves all types as they are. -/
theorem ScopeTree.exists_get?_of_setBinding {t t' : ScopeTree} {id s : ScopeId} {name n : String}
    {b : Binding} {d' : Descriptor} (h : t.setBinding id name b = .ok t')
    (hd' : (t'.scope s).get? n = some d') :
    ∃ d, (t.scope s).get? n = some d ∧ d'.type = d.type := by
  unfold setBinding at h
  split at h
  · next d hlookup =>
    obtain ⟨home, old, hhome, hold, -, rfl⟩ := exists_of_update h
    obtain ⟨home', hhome', hd⟩ := find?_eq_some_iff.mp (lookup_eq_ok_iff.mp hlookup)
    cases hhome.symm.trans hhome'
    rw [get?_modifyScope_replace] at hd'
    split at hd'
    · next hplace =>
      obtain ⟨rfl, rfl⟩ := hplace
      rw [hd] at hd'
      cases hd'
      exact ⟨d, hd, rfl⟩
    · exact ⟨d', hd', rfl⟩
  · cases h

/-- Two units have the same nodes, as far as their forms and scopes go. -/
structure CompilationUnit.WrittenAlike (code code' : CompilationUnit) : Prop where
  form : ∀ id, code'.form id = code.form id
  scope : ∀ id, (code'.node id).scope = (code.node id).scope

namespace CompilationUnit.WrittenAlike

variable {code code' code'' : CompilationUnit}

theorem refl (code : CompilationUnit) : code.WrittenAlike code :=
  ⟨fun _ => rfl, fun _ => rfl⟩

theorem trans (h : code.WrittenAlike code') (h' : code'.WrittenAlike code'') :
    code.WrittenAlike code'' :=
  ⟨fun id => (h'.form id).trans (h.form id), fun id => (h'.scope id).trans (h.scope id)⟩

theorem modifyNode {id : NodeId} {g : Node → Node} (hform : ∀ node, (g node).form = node.form)
    (hscope : ∀ node, (g node).scope = node.scope) :
    code.WrittenAlike (code.modifyNode id g) where
  form _ := field_modifyNode Node.form hform
  scope _ := field_modifyNode Node.scope hscope

theorem givesType (h : code.WrittenAlike code') {stmt : NodeId} {name : String}
    (hgives : code'.GivesType stmt name) : code.GivesType stmt name := by
  rcases hgives with ⟨hform, hname⟩ | hform
  · rw [h.form] at hform
    exact .target hform hname
  · exact .definition ((h.form _).symm.trans hform)

end CompilationUnit.WrittenAlike

section

variable {σ : Type}

/-- The type of an entry has been found out, by the check of a statement for what that gives a type,
or by typing a call of the function that is given it: from an earlier state this has come to the
one in which the type is entered. The contexts are those that the checker makes use of. -/
inductive TypeEntry.Found (contexts : Context σ → Prop) (e : TypeEntry) (start s : CheckState σ) :
    Prop
  | statement {ctx : Context σ} (hctx : contexts ctx)
    (hfinds : ctx.Finds e.giver e.name e.type start s)
  | call {ctx : Context σ} {resolving : List NodeId} (hctx : contexts ctx)
    (hform : s.code.form e.giver = .call e.name) (hfunc : e.found.isFunc)
    (hends : Inquiry.Ends ctx.spec ctx.config resolving
      ((ctx.typing start.code).inquiry (.expr e.giver)) (start.entered (.expr e.giver))
      (.ok e.type) s)

namespace CheckState

/-- The state in which the type of an entry has been entered in the descriptor that was found. -/
def enter (s : CheckState σ) (e : TypeEntry) : CheckState σ :=
  let scopes := s.code.scopes.modifyScope e.home fun scope =>
    scope.replace e.name { e.found with type := e.type }
  { s with code := s.code.withScopes scopes }

/-- A flow of types has led from one state to another. -/
inductive Flow (contexts : Context σ → Prop) (first : CheckState σ) :
    List TypeEntry → CheckState σ → Prop
  /-- Nothing has happened. -/
  | start : Flow contexts first [] first
  /-- Something is put on record, and the scopes stay as they are. -/
  | noted {entries : List TypeEntry} {s t : CheckState σ} (h : Flow contexts first entries s)
    (hscopes : t.code.scopes = s.code.scopes) (halike : s.code.WrittenAlike t.code) :
    Flow contexts first entries t
  /-- A function is connected with its definition, or set aside. -/
  | bound {entries : List TypeEntry} {s : CheckState σ} {scopes : ScopeTree} {id : ScopeId}
    {name : String} {b : Binding} (h : Flow contexts first entries s)
    (hb : s.code.scopes.setBinding id name b = .ok scopes) :
    Flow contexts first entries { s with code := s.code.withScopes scopes }
  /-- A type that has been found out is entered in the nearest descriptor of a name. -/
  | entered {earlier entries : List TypeEntry} {start s : CheckState σ} {e : TypeEntry}
    (hstart : Flow contexts first earlier start) (h : Flow contexts first entries s)
    (htype : e.Found contexts start s)
    (hhome : s.code.scopes.declaring? (s.code.node e.giver).scope e.name = some e.home)
    (hfound : (s.code.scopes.scope e.home).get? e.name = some e.found)
    (hunknown : ¬e.found.type.isKnown) (hknown : e.type.isKnown) :
    Flow contexts first (entries ++ [e]) (s.enter e)

/-- Some flow of types has led from one state to another. -/
def Flows (contexts : Context σ → Prop) (first s : CheckState σ) : Prop :=
  ∃ entries, Flow contexts first entries s

variable {contexts : Context σ → Prop} {first s t : CheckState σ} {entries : List TypeEntry}
  {e : TypeEntry}

theorem get?_enter {home : ScopeId} {n : String} : ((s.enter e).code.scopes.scope home).get? n =
    if home = e.home ∧ n = e.name then
      ((s.code.scopes.scope home).get? n).map fun _ => { e.found with type := e.type }
    else (s.code.scopes.scope home).get? n :=
  ScopeTree.get?_modifyScope_replace

namespace Flow

/-- Nothing is written in the course of a flow. -/
theorem writtenAlike (h : Flow contexts first entries s) : first.code.WrittenAlike s.code := by
  induction h with
  | start => exact .refl _
  | noted _ _ halike ih => exact ih.trans halike
  | bound _ _ ih | entered _ _ _ _ _ _ _ _ ih => exact ⟨ih.form, ih.scope⟩

/-- **A flow of types declares nothing**, and what is declared stays of its kind. -/
theorem revises (h : Flow contexts first entries s) :
    first.code.scopes.Revises s.code.scopes := by
  induction h with
  | start => exact .refl _
  | noted _ hscopes _ ih => rwa [hscopes]
  | bound _ hb ih => exact ih.trans (.setBinding hb)
  | entered _ _ _ _ hfound _ _ _ ih =>
    exact ih.trans (.modifyScope (.replace hfound (Role.sameKind_self _)))

/-- **Every change of a type has its entry**, in the descriptor that has changed. -/
theorem exists_entry (h : Flow contexts first entries t) {s : ScopeId} {n : String}
    {d d' : Descriptor} (hd : (first.code.scopes.scope s).get? n = some d)
    (hd' : (t.code.scopes.scope s).get? n = some d') (hne : d'.type ≠ d.type) :
    ∃ e ∈ entries, e.home = s ∧ e.name = n ∧ e.type = d'.type := by
  induction h generalizing d' with
  | start =>
    cases hd.symm.trans hd'
    exact absurd rfl hne
  | noted _ hscopes _ ih =>
    rw [hscopes] at hd'
    exact ih hd' hne
  | bound _ hb ih =>
    obtain ⟨old, hold, htype⟩ := ScopeTree.exists_get?_of_setBinding hb hd'
    rw [htype] at hne ⊢
    exact ih hold hne
  | @entered _ _ _ _ e _ _ _ _ hfound _ _ _ ih =>
    rw [get?_enter] at hd'
    split at hd'
    · next hplace =>
      obtain ⟨rfl, rfl⟩ := hplace
      rw [hfound] at hd'
      cases hd'
      exact ⟨e, List.mem_append_right _ List.mem_cons_self, rfl, rfl, rfl⟩
    · obtain ⟨e', he', hplace⟩ := ih hd' hne
      exact ⟨e', List.mem_append_left _ he', hplace⟩

/-- **Every entry is made in a state of the flow**, by the check that has found out its type. -/
theorem exists_moment (h : Flow contexts first entries t) (he : e ∈ entries) :
    ∃ before s, Flow contexts first before s ∧ (∃ start, e.Found contexts start s) ∧
      s.code.scopes.declaring? (s.code.node e.giver).scope e.name = some e.home ∧
      (s.code.scopes.scope e.home).get? e.name = some e.found ∧
      ¬e.found.type.isKnown ∧ e.type.isKnown := by
  induction h with
  | start => cases he
  | noted _ _ _ ih | bound _ _ ih => exact ih he
  | entered _ h htype hhome hfound hunknown hknown _ ih =>
    rcases List.mem_append.mp he with he | he
    · exact ih he
    · obtain rfl := List.mem_singleton.mp he
      exact ⟨_, _, h, ⟨_, htype⟩, hhome, hfound, hunknown, hknown⟩

/-- What is found is of the kind that the name means to the giver in the beginning. -/
theorem exists_sameKind (h : Flow contexts first entries t) (he : e ∈ entries) :
    ∃ d, first.code.scopes.find? (first.code.node e.giver).scope e.name = some d ∧
      d.SameKind e.found := by
  obtain ⟨before, s, hs, -, hhome, hfound, -⟩ := h.exists_moment he
  have hrel := hs.revises.find? (s.code.node e.giver).scope e.name
  rw [ScopeTree.find?_eq_some_iff.mpr ⟨_, hhome, hfound⟩, hs.writtenAlike.scope] at hrel
  revert hrel
  generalize first.code.scopes.find? _ e.name = o
  rintro (hkind | _)
  exact ⟨_, rfl, hkind⟩

/-- A type is entered by a statement, in what it gives a type, or by a call, in a function. -/
theorem gives (h : Flow contexts first entries t) (he : e ∈ entries) :
    first.code.GivesType e.giver e.name ∨
      first.code.form e.giver = .call e.name ∧ e.found.isFunc := by
  obtain ⟨before, s, hs, ⟨start, hfound⟩, -⟩ := h.exists_moment he
  cases hfound with
  | statement _ hfinds => exact .inl (hs.writtenAlike.givesType hfinds.givesType)
  | call _ hform hfunc => exact .inr ⟨(hs.writtenAlike.form _).symm.trans hform, hfunc⟩

/-- **Calls enter types in functions only.** -/
theorem suits_of_isCall (h : Flow contexts first entries t) (he : e ∈ entries)
    (hcall : first.code.isCall e.giver) : e.found.Suits (first.code.form e.giver) := by
  unfold CompilationUnit.isCall at hcall
  rcases h.gives he with (⟨hform | hform, -⟩ | hform) | ⟨hform, hfunc⟩
  · simp [hform] at hcall
  · simp [hform] at hcall
  · simp [hform] at hcall
  · rw [hform]
    exact hfunc

end Flow

namespace Flows

variable {base : CompilationUnit} {giver x : NodeId} {name : String} {type : Ty}

theorem setBinding {id : ScopeId} {b : Binding} {scopes : ScopeTree} (h : Flows contexts first s)
    (hb : s.code.scopes.setBinding id name b = .ok scopes) :
    Flows contexts first { s with code := s.code.withScopes scopes } :=
  h.imp fun _ hflow => hflow.bound hb

/-- What is put on record at a node is no entry. -/
theorem modifyNode (h : Flows contexts first s) (id : NodeId) {g : Node → Node}
    (hform : ∀ node, (g node).form = node.form) (hscope : ∀ node, (g node).scope = node.scope) :
    Flows contexts first { s with code := s.code.modifyNode id g } :=
  h.imp fun _ hflow => hflow.noted rfl (.modifyNode hform hscope)

theorem setType (h : Flows contexts first s) (id : NodeId) (type : Ty) :
    Flows contexts first { s with code := s.code.setType id type } :=
  h.modifyNode id (fun _ => rfl) fun _ => rfl

theorem setField (h : Flows contexts first s) (id : NodeId) (field : String) :
    Flows contexts first { s with code := s.code.setField id field } :=
  h.modifyNode id (fun _ => rfl) fun _ => rfl

/-- Completing a descriptor is entering a type in it that has been found out, or nothing. -/
theorem refine {scopes : ScopeTree} {start : CheckState σ} (h : Flows contexts first s)
    (hstart : Flows contexts first start) (hknown : type.isKnown)
    (htype : ∀ home d, s.code.scopes.find? (s.code.node giver).scope name = some d →
      TypeEntry.Found contexts ⟨giver, name, home, d, type⟩ start s)
    (hrefine : s.code.scopes.refine (s.code.node giver).scope name type = .ok scopes) :
    Flows contexts first { s with code := s.code.withScopes scopes } := by
  obtain ⟨earlier, hstart⟩ := hstart
  obtain ⟨entries, hflow⟩ := h
  obtain ⟨d, hd⟩ := ScopeTree.found_of_refine hrefine
  obtain ⟨home, hhome, hget⟩ := ScopeTree.find?_eq_some_iff.mp hd
  rw [ScopeTree.refine_eq_ok hhome hget] at hrefine
  obtain rfl := Except.ok.inj hrefine
  split
  · exact ⟨entries, hflow⟩
  · next hunknown =>
    exact ⟨_, hstart.entered hflow (htype home d hd) hhome hget hunknown hknown⟩

/-- A call that is looked at connects functions at most. -/
theorem opened (h : Flows contexts first s) (x : NodeId) :
    Flows contexts first { s with code := s.code.opened x } := by
  unfold CompilationUnit.opened
  split
  · split
    · exact h.modifyNode x (fun _ => rfl) fun _ => rfl
    · next hname =>
      obtain ⟨u, t, hu, ht, -⟩ := ScopeTree.exists_setBinding_unresolved hname x
      unfold ScopeTree.putBack
      rw [hu]
      dsimp only
      rw [ht]
      exact (h.setBinding hu).setBinding ht
    · exact h
  · exact h

/-- A call that has been typed enters its type in the function. -/
theorem closed {start : CheckState σ} {ctx : Context σ} {resolving : List NodeId}
    (hctx : contexts ctx) (h : Flows contexts first s) (hstart : Flows contexts first start)
    (hends : Inquiry.Ends ctx.spec ctx.config resolving
      ((ctx.typing start.code).inquiry (.expr x)) (start.entered (.expr x)) (.ok type) s) :
    Flows contexts first { s with code := s.code.closed x type } := by
  unfold CompilationUnit.closed
  split
  · next hclosed =>
    refine setType (s := { s with code := s.code.informed x type }) ?_ x type
    unfold CompilationUnit.informed
    split
    · next name hform =>
      split
      · next f hname =>
        unfold ScopeTree.completed
        split
        · next hrefine =>
          refine refine h hstart hclosed.2 (fun home d hd => .call hctx hform ?_ hends) hrefine
          rw [ScopeTree.binding?_of_find? hd] at hname
          exact Option.isSome_of_mem hname
        · exact h
      · exact h
    · exact h
  · exact h

end Flows

end CheckState

open CheckState

/-! ### What is asked of a checker -/

section

variable {contexts : Context σ → Prop} {first : CheckState σ} {base : CompilationUnit} {α : Type}

/-- **Typing is a flow of types.** -/
theorem Inquiry.Ends.flows {ctx : Context σ} {spec : OpSpec} {config : Config} {R : List NodeId}
    {q : Inquiry} {s v : CheckState σ} {e : Except Failure Ty} (h : Ends spec config R q s e v)
    (hctx : contexts ctx) (hspec : ctx.spec = spec) (hconfig : ctx.config = config)
    (hs : Flows contexts first s) : Flows contexts first v := by
  subst hspec hconfig
  have hentered : ∀ {s : CheckState σ} (subject : Subject), Flows contexts first s →
      Flows contexts first (s.entered subject) := by
    intro s subject hs
    cases subject with
    | expr x =>
      by_cases hx : s.code.IsRecorded x
      · rwa [CheckState.entered_of_isRecorded hx]
      · rw [CheckState.entered_of_not_isRecorded hx]
        exact hs.opened x
    | body | function => exact hs
  induction h with
  | answer | fail | depth => exact hs
  | stop first ih => exact ih (hentered _ hs)
  | @ask R subject _ s u _ type _ hfirst rest ihfirst ihrest =>
    have hu := ihfirst (hentered subject hs)
    refine ihrest ?_
    cases subject with
    | expr x =>
      by_cases hx : s.code.IsRecorded x
      · rwa [CheckState.left_of_isRecorded hx]
      · rw [CheckState.left_of_not_isRecorded hx]
        exact hu.closed hctx hs hfirst
    | body | function => exact hu

/-- That a state has come about by a flow of types is an invariant. -/
theorem Check.invariant_flows {ctx : Context σ} (hctx : contexts ctx) (first : CheckState σ)
    (base : CompilationUnit) :
    ctx.Invariant base fun s => base.RefinesTo s.code ∧ Flows contexts first s where
  refines hs := hs.1
  completed hfinds hstart hs _ hknown hrefine :=
    ⟨completable_refinesTo base _ _ hs.1 _ hknown hrefine,
      hs.2.refine hstart.2 hknown (fun _ _ _ => .statement hctx hfinds) hrefine⟩
  resolved hs hname hbind :=
    ⟨(survives_refinesTo base).resolved hs.1 hname hbind, hs.2.setBinding hbind⟩
  targetTypes hs hform :=
    ⟨(survives_refinesTo base).targetTypes hs.1 hform,
      hs.2.modifyNode _ (fun _ => rfl) fun _ => rfl⟩
  innerType hs hform :=
    ⟨(survives_refinesTo base).innerType hs.1 hform, hs.2.setType _ _⟩

/-- **Judgements are flows of types**, at every depth. -/
theorem Supply.flows {supply : Supply σ} {spec : OpSpec} {config : Config}
    (hbase : supply.Bodiless base) (hcontexts : ∀ d, contexts (supply.context spec d config))
    (d : Nat) :
    (supply.context spec d config).Keeps fun s => base.RefinesTo s.code ∧ Flows contexts first s := by
  refine Supply.keeps (fun d => invariant_flows (hcontexts d) first base)
    (fun d R subject s hs => ?_) d
  have hends : Inquiry.Ends spec config R _ s _ _ := ends_visit hbase d R subject s hs.1
  exact ⟨hs.1.trans hends.refinesTo, hends.flows (hcontexts d) (Supply.spec_context ..)
    (Supply.config_context ..) hs.2⟩

/-- To qualify a call with a field is to leave the scopes alone. -/
theorem Context.flows_resolveField {ctx : Context σ} {x : NodeId} (field : String) :
    Check.Keeps (Flows contexts first) (ctx.resolveField x field) :=
  keeps_callName.bind fun _ => .bind (.liftExcept _) fun _ =>
    .bind (fun _ hs => (hs.setField x field).setType x _) fun _ => .pure _

/-- **What is answered to a query is found by a flow of types.** -/
theorem Context.flows_answer {ctx : Context σ} (hcontext : contexts ctx)
    (hctx : ctx.Keeps fun s => base.RefinesTo s.code ∧ Flows contexts first s) (q : Query α)
    (s : CheckState σ) (hs : base.RefinesTo s.code ∧ Flows contexts first s) :
    Flows contexts first (exec (ctx.answer q) s).2 := by
  cases q with
  | typeOf x => exact (hctx _ s hs).2
  | expression x => exact (keeps_checkExpr hctx.expr s hs).2
  | statements x => exact (keeps_checkChildren hctx s hs).2
  | function x => exact (keeps_checkFunction hctx (invariant_flows hcontext first base) s hs).2
  | arguments x => exact (keeps_checkArguments hctx.expr s hs).2
  | pairTypes x => exact (keeps_multiValue hctx.expr 2 s hs).2
  | quadrupleTypes x => exact (keeps_quadrupleTypes hctx.expr s hs).2
  | resolveField x field => exact flows_resolveField field s hs.2
  | returnType x => exact (hctx _ s hs).2

end

end

/-- A unit in which a number is assigned to a name that is declared by a descriptor. -/
def CompilationUnit.oneAssignment (d : Descriptor) : CompilationUnit where
  nodes := #[.ofForm 0 (.literal .uint64 "1"), .ofForm 0 (.assign (.single d.name) 0),
    { Node.ofForm 0 .program with children := [1] }]
  scopes := ⟨#[{ Scope.fresh "global" none 0 with entries := [(d.name, d)] }], .initial⟩

/-- A unit with the definition of a function whose name is that of a variable. -/
def CompilationUnit.definedVariable : CompilationUnit where
  nodes := #[.ofForm 0 (.literal .uint64 "1"), .ofForm 0 (.ret (some 0) none),
    { Node.ofForm 0 (.function "f" [] false) with children := [1] }]
  scopes := ⟨#[{ Scope.fresh "global" none 0 with
    entries := [("f", ⟨"f", .unknown, .var 0⟩)] }], .initial⟩

namespace Checker

variable {σ α : Type}

/-- The contexts in which the rules of a checker apply, at whatever depth. -/
def Uses (checker : Checker σ) (ctx : Context σ) : Prop :=
  ∃ d, ctx = checker.context d

/-- Without a parser, whatever is asked leads to a flow of types. -/
theorem flows_ask (checker : Checker σ) (hparser : checker.parser = none) (q : Query α)
    (s : CheckState σ) : s.Flows checker.Uses (checker.ask q s).2 :=
  Context.flows_answer ⟨_, rfl⟩
    (Supply.flows (checker.bodiless hparser s.code) (fun d => ⟨d, rfl⟩) (checker.depth s.code)) q s
    ⟨.refl _, [], .start⟩

/-- **Types flow to descriptors of the kind that their names have in the beginning.** Without a
parser, whatever is asked and whether it is answered or fails, the state comes about by a flow of
types from the one that there was. Every change of a type has an entry there, made by the statement
or the call whose check has found out the type. What a call enters a type in is a function. And what
any of them does so in suits it, an assignment or a declaration by being a variable and a call or a
definition by being a function, exactly if the name that it goes by means such a thing in the
beginning. -/
theorem flow_ask (checker : Checker σ) (hparser : checker.parser = none) (q : Query α)
    (s : CheckState σ) :
    ∃ entries, s.Flow checker.Uses entries (checker.ask q s).2 ∧
      (∀ scope name d d', (s.code.scopes.scope scope).get? name = some d →
        ((checker.ask q s).2.code.scopes.scope scope).get? name = some d' → d'.type ≠ d.type →
        ∃ e ∈ entries, e.home = scope ∧ e.name = name ∧ e.type = d'.type) ∧
      ∀ e ∈ entries, (s.code.isCall e.giver → e.found.Suits (s.code.form e.giver)) ∧
        ∃ d, s.code.scopes.find? (s.code.node e.giver).scope e.name = some d ∧
          (e.found.Suits (s.code.form e.giver) ↔ d.Suits (s.code.form e.giver)) := by
  obtain ⟨entries, hflow⟩ := checker.flows_ask hparser q s
  refine ⟨entries, hflow, fun scope name d d' => hflow.exists_entry, fun e he => ⟨?_, ?_⟩⟩
  · exact hflow.suits_of_isCall he
  · obtain ⟨d, hd, hkind⟩ := hflow.exists_sameKind he
    exact ⟨d, hd, hkind.suits_iff _⟩

/-- The one change that the check of an assignment makes has its entry, which the assignment has
made. -/
theorem flow_ask_oneAssignment :
    let checker : Checker Unit := ⟨Standard.spec, .strict, none⟩
    let code := CompilationUnit.oneAssignment ⟨"x", .unknown, .var 0⟩
    let t := (checker.ask (.statements 2) ⟨code, ()⟩).2
    (t.code.scopes.scope 0).get? "x" = some ⟨"x", .uint64, .var 0⟩ ∧
      ∃ entries, (⟨code, ()⟩ : CheckState Unit).Flow checker.Uses entries t ∧
        ∃ e ∈ entries, e.giver = 1 ∧ e.home = 0 ∧ e.name = "x" ∧ e.type = .uint64 := by
  obtain ⟨entries, hflow, hchanges, -⟩ := flow_ask (⟨Standard.spec, .strict, none⟩ : Checker Unit)
    rfl (.statements 2) ⟨CompilationUnit.oneAssignment ⟨"x", .unknown, .var 0⟩, ()⟩
  obtain ⟨e, he, hplace⟩ := hchanges 0 "x" _ _ rfl rfl (by decide)
  refine ⟨rfl, entries, hflow, e, he, ?_, hplace⟩
  -- No other node is a statement that gives a type, or a call.
  have hgives := hflow.gives he
  generalize e.giver = giver at hgives ⊢
  rcases giver with _ | _ | _ | giver
  case succ.zero => rfl
  all_goals rcases hgives with (⟨hform | hform, -⟩ | hform) | ⟨hform, -⟩ <;> cases hform

/-- **Types flow astray.** The check of a program whose only statement assigns a number to the name
of a function gives the function the type of the number; and the check of a definition by the
name of a variable gives the variable the return type. -/
theorem flow_astray :
    let checker : Checker Unit := ⟨Standard.spec, .strict, none⟩
    let assigned := CompilationUnit.oneAssignment ⟨"x", .unknown, .func .unresolved⟩
    let defined := CompilationUnit.definedVariable
    ((checker.ask (.statements 2) ⟨assigned, ()⟩).1 = .ok () ∧
      (assigned.scopes.scope 0).get? "x" = some ⟨"x", .unknown, .func .unresolved⟩ ∧
      ((checker.ask (.statements 2) ⟨assigned, ()⟩).2.code.scopes.scope 0).get? "x" =
        some ⟨"x", .uint64, .func .unresolved⟩) ∧
    (checker.ask (.function 2) ⟨defined, ()⟩).1 = .ok .uint64 ∧
      (defined.scopes.scope 0).get? "f" = some ⟨"f", .unknown, .var 0⟩ ∧
      ((checker.ask (.function 2) ⟨defined, ()⟩).2.code.scopes.scope 0).get? "f" =
        some ⟨"f", .uint64, .var 0⟩ :=
  ⟨⟨rfl, rfl, rfl⟩, rfl, rfl, rfl⟩

end Checker

end ContractLang
