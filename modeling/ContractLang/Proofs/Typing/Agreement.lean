import ContractLang.Operation.Standard
import ContractLang.Proofs.Typing.Mirror

/-!
# Typing with a memory agrees with typing without

The rules of the checker yield what the rules of typing without a memory give
(`ContractLang.Typing.judgementsYield`), provided the functions called are resolved and
none of them is recursive, so that none is entered while its return type is being
determined, and provided no name stands for a function whose type is still to be found
out (`ContractLang.Typing.Settled`). Hence the checker's answer is the type found
without a memory, and what is on record afterwards is right as well
(`ContractLang.Typing.ask_typeOf_eq_type`).
-/

namespace ContractLang

namespace Typing

open Check CompilationUnit

variable {σ : Type} {T : Typing} {R : List NodeId} {x y f id : NodeId}

/-! ### Where the memory does not matter -/

/-- Names are settled where none of them stands for a function. -/
theorem namesSettled_of_binding?
    (h : ∀ y name, T.code.Reaches x y → T.code.form y = .ident name →
      T.code.scopes.binding? (T.code.node y).scope name = none) : T.NamesSettled x := by
  intro y hy name d hform hfind hfunc
  have hnone : d.binding? = none := (ScopeTree.binding?_of_find? hfind).symm.trans (h y name hy hform)
  rw [Descriptor.isFunc, hnone] at hfunc
  cases hfunc

/-- Nothing about a node depends on what has been found out before: the functions called
are resolved, not recursive and not being resolved, and no name stands for a function of
unknown type. -/
structure Settled (T : Typing) (R : List NodeId) (x : NodeId) : Prop where
  resolved : ∀ y, T.code.Reaches x y → ∀ name binding, T.code.form y = .call name →
    T.code.scopes.binding? (T.code.node y).scope name = some binding →
      ∃ f, binding = .resolved f
  nonrecursive : ∀ f, T.code.ReachesFunction x f → ¬T.code.Recursive f
  entered : ∀ f, T.code.ReachesFunction x f → f ∉ R
  names : T.NamesSettled x

namespace Settled

/-- Which functions are being resolved no longer matters if none is. -/
theorem of_none (h : T.Settled R x) : T.Settled [] x :=
  { h with entered := nofun }

theorem of_leads (h : T.Settled R x) (hlead : T.code.Leads x y) : T.Settled R y where
  resolved z hz := h.resolved z (.head hlead hz)
  nonrecursive f hf := h.nonrecursive f (hf.head hlead)
  entered f hf := h.entered f (hf.head hlead)
  names z hz := h.names z (.head hlead hz)

/-- A function that is entered is not come to again. -/
theorem of_calls (h : T.Settled R x) (hcall : T.code.Calls x f) : T.Settled (f :: R) f where
  resolved z hz := h.resolved z (.head (.of_calls hcall) hz)
  nonrecursive g hg := h.nonrecursive g (hg.head (.of_calls hcall))
  entered g hg hmem := by
    rcases List.mem_cons.mp hmem with rfl | hmem
    · exact h.nonrecursive g (.of_calls hcall) hg
    · exact h.entered g (hg.head (.of_calls hcall)) hmem
  names z hz := h.names z (.head (.of_calls hcall) hz)

/-- The answer for a settled node is its type, whatever functions are being resolved. -/
theorem typeOf_eq_type (h : T.Settled R x) (hcode : T.code.Acyclic) {d : Nat}
    (hne : (T.verdicts d).typeOf R x ≠ .error .outOfDepth) :
    (T.verdicts d).typeOf R x = T.type x := by
  rw [typeOf_resolving h.entered] at hne ⊢
  exact typeOf_unique hne (type_ne_outOfDepth hcode x)

end Settled

/-! ### The rules -/

section Rules

variable {types : NodeId → Except Halt Ty} {ctx : Context σ} {v : Verdicts}

/-- The rules turn to judgements that yield the verdicts `v`. -/
abbrev YieldsType (T : Typing) (types : NodeId → Except Halt Ty) (ctx : Context σ) (v : Verdicts)
    (R : List NodeId) (y : NodeId) : Prop :=
  T.YieldsAs types (ctx.judge (.typeOf R y)) (v.typeOf R y)

/-- To yield an answer is to mirror the plain rules. -/
theorem mirrors_yields (T : Typing) (types : NodeId → Except Halt Ty) :
    T.Mirrors (T.YieldsAs (σ := σ) types) where
  pure := .pure
  fail := .fail
  bind := .bind
  onFault := .onFault
  node h hr s hs := by
    rw [exec_bind, exec_node]
    obtain ⟨type, definition, hnode⟩ := Node.exists_eq_of_bare (hs.bare _)
    exact hnode ▸ h type definition hr s hs
  textOf h hr s hs := by
    rw [exec_bind, exec_textOf, hs.render]
    exact h hr s hs

/-- A name is given the type that its nearest descriptor has in the unit at hand. -/
theorem exec_identType (scope : ScopeId) (name : String) (s : CheckState σ) :
    exec (Context.identType scope name) s =
      ({ T with code := s.code }.identType scope name, s) := by
  unfold Context.identType identType
  rw [exec_bind, exec_code]
  dsimp only
  cases s.code.scopes.lookup scope name with
  | error e => rfl
  | ok d =>
    dsimp only
    split <;> rfl

theorem yields_identType {scope : ScopeId} {name : String}
    (hname : ∀ d, T.code.scopes.find? scope name = some d → d.isFunc → d.type.isKnown) :
    T.YieldsAs types (Context.identType scope name : Check σ Ty) (T.identType scope name) :=
  .of_exec fun s hs => by rw [exec_identType (T := T), hs.identType hname]

theorem yields_functionType
    (h : f ∉ R → T.YieldsAs types (ctx.judge (.returnType (f :: R) f)) (v.returnType (f :: R) f)) :
    T.YieldsAs types (ctx.functionType R f) (functionType v R f) := by
  unfold Context.functionType functionType
  split
  · exact .pure Ty.unknown
  · next hmem => exact h (by simpa using hmem)

/-- A known type completes the descriptor of a function. -/
theorem yields_complete {scope : ScopeId} {name : String} {binding : Binding}
    (hname : T.code.scopes.binding? scope name = some binding) (type : Ty) :
    T.YieldsAs types (complete scope name type : Check σ Unit) (.ok ()) := by
  unfold complete
  split
  · intro _ s hs
    obtain ⟨scopes, hrefine, hscopes⟩ := hs.refine hname
    rw [exec_changeScopes, hrefine]
    exact ⟨rfl, hscopes, .withScopes T s.code scopes⟩
  · exact .pure ()

/-- A call of a function is connected with its definition, whatever the type turns out to
be. -/
theorem ends_definedType {scope : ScopeId} {name : String} {binding : Binding}
    (hcall : T.code.Calls id f) (hname : T.code.scopes.binding? scope name = some binding)
    (h : T.YieldsAs types (ctx.functionType R f) (functionType v R f))
    (hne : functionType v R f ≠ .error .outOfDepth) (s : CheckState σ)
    (hs : T.RecallsAs types s.code) :
    T.EndsAs types s.code (functionType v R f) (exec (ctx.definedType R id scope name f) s) ∧
      ((exec (ctx.definedType R id scope name f) s).2.code.node id).definition.isSome := by
  have hrest : T.YieldsAs types (do
      let type ← ctx.functionType R f
      complete scope name type
      return type) (functionType v R f) := by
    rw [← bind_pure (functionType v R f)]
    exact h.bind fun type _ => (yields_complete hname type).bind fun _ _ => .pure type
  -- The definition is noted before the return type is determined, which may fail.
  have hend := hrest hne { s with code := s.code.setDefinition id f } hs.setDefinition
  have hdef : ((s.code.setDefinition id f).node id).definition.isSome := by
    unfold CompilationUnit.setDefinition
    rw [node_modifyNode, if_pos ⟨rfl, hs.size ▸ hcall.lt_size⟩]
    rfl
  unfold Context.definedType
  rw [exec_bind, exec_modifyCode]
  exact ⟨⟨hend.answer, hend.recalls, (Advances.setDefinition hcall).trans hend.advances⟩,
    hend.advances.persists id hdef⟩

variable (hspec : ctx.spec = T.spec) {obtain : BodySource σ}

include hspec

variable (obtain) in
/-- The type of a call. If it is one of a function, it is connected with a definition. -/
theorem ends_callType {name : String} (hform : T.code.form id = .call name)
    (hresolved : ∀ binding,
      T.code.scopes.binding? (T.code.node id).scope name = some binding →
        ∃ f, binding = .resolved f)
    (hlink : ∀ y ∈ T.code.children id, T.YieldsType types ctx v R y)
    (hcall : ∀ f, T.code.Calls id f → T.YieldsAs types (ctx.functionType R f) (functionType v R f))
    (hne : T.callType v R (T.code.node id) name ≠ .error .outOfDepth) (s : CheckState σ)
    (hs : T.RecallsAs types s.code) :
    T.EndsAs types s.code (T.callType v R (T.code.node id) name)
        (exec (ctx.callType obtain R id name) s) ∧
      ∀ f, T.code.Calls id f →
        ((exec (ctx.callType obtain R id name) s).2.code.node id).definition.isSome := by
  revert hne
  obtain ⟨type, definition, hnode⟩ := Node.exists_eq_of_bare (hs.bare id)
  unfold Context.callType callType
  rw [exec_bind, exec_node]
  dsimp only
  rw [exec_bind, exec_code]
  dsimp only
  rw [hs.binding?, hnode]
  cases hbinding : T.code.scopes.binding? (T.code.node id).scope name with
  | some binding =>
    obtain ⟨f, rfl⟩ := hresolved binding hbinding
    intro hne
    have hf : T.code.Calls id f := ⟨name, hform, hbinding⟩
    have hend := ends_definedType hf hbinding (hcall f hf) hne s hs
    exact ⟨hend.1, fun _ _ => hend.2⟩
  | none =>
    intro hne
    refine ⟨?_, fun f hf => ?_⟩
    · revert hne
      dsimp only
      rw [hspec]
      split
      · intro hne
        exact (mirrors_yields T types).operationType hspec name hlink hne s hs
      · exact fun hne => YieldsAs.fail _ hne s hs
    · obtain ⟨_, hform', hbinding'⟩ := hf
      cases hform.symm.trans hform'
      cases hbinding.symm.trans hbinding'

/-! ### Types on record -/

/-- From every unit that recalls the first one, but not the type of `x`, a computation gives a
certain answer, unless this ran out of depth. If it is the type of `x`, then the unit that is left
is as good as the first one. -/
def LearnsAs (T : Typing) (types : NodeId → Except Halt Ty) (x : NodeId) (action : Check σ Ty)
    (r : Except Halt Ty) : Prop :=
  r ≠ .error .outOfDepth → ∀ s, T.RecallsAs types s.code → ¬s.code.IsRecorded x →
    (exec action s).1 = r ∧
      ((∀ type, r = .ok type → types x = .ok type) → T.EndsAs types s.code r (exec action s))

namespace LearnsAs

variable {r : Except Halt Ty} {action : Check σ Ty}

omit hspec

theorem of_yields (h : T.YieldsAs types action r) : T.LearnsAs types x action r :=
  fun hne s hs _ => ⟨(h hne s hs).answer, fun _ => h hne s hs⟩

theorem node {g : Node → Check σ Ty}
    (h : ∀ type definition, T.LearnsAs types x (g { T.code.node y with type, definition }) r) :
    T.LearnsAs types x (node y >>= g) r := by
  intro hne s hs hx
  rw [exec_bind, exec_node]
  obtain ⟨type, definition, hnode⟩ := Node.exists_eq_of_bare (hs.bare y)
  exact hnode ▸ h type definition hne s hs hx

theorem located (h : T.LearnsAs types x action r) (position : Option Position) :
    T.LearnsAs types x (located position action) (mapFault (·.orPosition position) r) := by
  intro hne s hs hx
  have hne' : r ≠ .error .outOfDepth := by
    rintro rfl
    exact hne rfl
  obtain ⟨hr, hend⟩ := h hne' s hs hx
  rw [exec_located]
  generalize exec action s = out at hr hend
  match out with
  | (.ok type, u) =>
    subst hr
    exact ⟨rfl, hend⟩
  | (.error .outOfDepth, u) => exact absurd hr.symm hne'
  | (.error (.fault e), u) =>
    subst hr
    exact ⟨rfl, fun _ => ⟨rfl, (hend nofun).recalls, (hend nofun).advances⟩⟩

/-- What goes on record for a node is what is inferred. -/
theorem memo {infer : Check σ Ty} (hform : (T.code.form x).remembers) (hnames : T.NamesSettled x)
    (h : r ≠ .error .outOfDepth → ∀ s, T.RecallsAs types s.code → T.EndsAs types s.code r
      (exec infer s) ∧ ∀ f, T.code.Calls x f → ((exec infer s).2.code.node x).definition.isSome) :
    T.LearnsAs types x (memo x infer) r := by
  intro hne s hs hx
  obtain ⟨hend, hdef⟩ := h hne s hs
  rw [exec_memo, if_neg fun hknown => hx ⟨(hs.form x).symm ▸ hform, hknown⟩]
  generalize exec infer s = out at hend hdef
  obtain ⟨a, u⟩ := out
  obtain rfl := hend.answer
  cases a with
  -- Nothing goes on record after a failure.
  | error halt => exact ⟨rfl, fun _ => ⟨rfl, hend.recalls, hend.advances⟩⟩
  | ok type =>
    refine ⟨rfl, fun htype => ?_⟩
    dsimp only
    split
    · next hknown =>
      exact ⟨rfl, hend.recalls.setType hknown (htype type rfl),
        hend.advances.trans (.setType hform hnames hdef)⟩
    · exact ⟨rfl, hend.recalls, hend.advances⟩

/-- A node that is no call has nothing but its type to put on record. -/
theorem memo_of_yields {infer : Check σ Ty} (hform : (T.code.form x).remembers)
    (hcall : ∀ name, T.code.form x ≠ .call name) (hnames : T.NamesSettled x)
    (h : T.YieldsAs types infer r) : T.LearnsAs types x (Check.memo x infer) r :=
  memo hform hnames fun hne s hs =>
    ⟨h hne s hs, fun _ ⟨name, hname, _⟩ => absurd hname (hcall name)⟩

end LearnsAs

/-- **The rule for expressions makes the type of an expression of what is yielded** for the
nodes linked to it and the functions it calls. -/
theorem learnsAs_typeRule (hnames : T.NamesSettled x)
    (hresolved : ∀ name binding, T.code.form x = .call name →
      T.code.scopes.binding? (T.code.node x).scope name = some binding →
        ∃ f, binding = .resolved f)
    (hlink : ∀ y, T.code.Link x y → T.YieldsType types ctx v R y)
    (hcall : ∀ f, T.code.Calls x f →
      T.YieldsAs types (ctx.functionType R f) (functionType v R f)) :
    T.LearnsAs types x (ctx.typeRule obtain R x) (T.typeRule v R x) := by
  unfold Context.typeRule typeRule
  refine LearnsAs.node fun type definition => LearnsAs.located ?_ _
  refine (mirrors_yields T types).formType hspec LearnsAs.of_yields
    (fun hremembers hnot infer => LearnsAs.memo_of_yields hremembers hnot hnames)
    (fun name hform => ?_) fun y hy => hlink y (.inl hy)
  rcases hform with hform | hform <;> rw [hform]
  · refine LearnsAs.node fun type definition => ?_
    exact LearnsAs.memo_of_yields (by rw [hform]; rfl) (by simp [hform]) hnames
      (yields_identType fun d => hnames x .refl name d hform)
  · exact LearnsAs.memo (by rw [hform]; rfl) hnames
      (ends_callType hspec obtain hform (hresolved name · hform)
        (fun y hy => hlink y (.inr hy)) hcall)

/-- **The rule for expressions yields the type of an expression**, if it does so for the
nodes linked to it and the functions it calls. -/
theorem yields_typeRule
    (hverdict : T.typeRule v R x ≠ .error .outOfDepth → T.typeRule v R x = types x)
    (hnames : T.NamesSettled x)
    (hresolved : ∀ name binding, T.code.form x = .call name →
      T.code.scopes.binding? (T.code.node x).scope name = some binding →
        ∃ f, binding = .resolved f)
    (hlink : ∀ y, T.code.Link x y → T.YieldsType types ctx v R y)
    (hcall : ∀ f, T.code.Calls x f →
      T.YieldsAs types (ctx.functionType R f) (functionType v R f)) :
    T.YieldsAs types (ctx.typeRule obtain R x) (T.typeRule v R x) := by
  intro hne s hs
  have htype := hverdict hne
  by_cases hx : s.code.IsRecorded x
  -- What is on record is right, so it may stand for the answer.
  · rw [Context.exec_typeRule_of_isRecorded obtain R hx]
    exact ⟨(htype.trans (hs.sound x hx.1 hx.2)).symm, hs, .refl T s.code⟩
  · exact (learnsAs_typeRule hspec hnames hresolved hlink hcall hne s hs hx).2
      fun type h => htype ▸ h

omit hspec in
/-- A definition of a function has no type. -/
theorem yields_typeRule_of_isDefinition (hdef : T.code.IsDefinition x) :
    T.YieldsAs types (ctx.typeRule obtain R x) (T.typeRule v R x) := by
  obtain ⟨name, params, inlined, hform⟩ := hdef
  unfold Context.typeRule typeRule
  refine (mirrors_yields T types).node fun type definition => (mirrors_yields T types).located ?_ _
  change T.YieldsAs types (ctx.formType obtain R x (T.code.form x)) _
  rw [hform]
  exact .fail _

/-! ### Bodies -/

omit hspec
variable (hconfig : ctx.config = T.config)

include hconfig

theorem yields_exitType
    (hvalue : ∀ value definition, T.code.form x = .ret (some value) definition →
      T.YieldsType types ctx v R value)
    (hbody : ¬T.code.IsDefinition x →
      T.YieldsAs types (ctx.judge (.returnType R x)) (v.returnType R x)) :
    T.YieldsAs types (ctx.exitType R x) (T.exitType v R x) := by
  refine .code fun c hc => ?_
  rw [hc.form, hconfig]
  unfold exitType
  cases hform : T.code.form x with
  | ret value definition =>
    cases value with
    | none => exact .pure Ty.unknown
    | some value => exact hvalue value definition hform
  | abort => exact .pure _
  | branch cond => exact hbody fun ⟨name, params, inlined, h⟩ => by simp [hform] at h
  | block => exact hbody fun ⟨name, params, inlined, h⟩ => by simp [hform] at h
  | _ => exact .pure Ty.unknown

omit hconfig in
/-- **The rule for bodies yields the return type of a body**, if the exits yield theirs. -/
theorem yields_returnTypeRule
    (h : ∀ stmt ∈ T.code.children x, T.YieldsAs types (ctx.exitType R stmt) (T.exitType v R stmt)) :
    T.YieldsAs types (ctx.returnTypeRule R x) (T.returnTypeRule v R x) := by
  refine .code fun c hc => ?_
  rw [hc.children]
  refine .foldlM (fun sofar stmt hstmt => ?_) Ty.unknown
  refine (h stmt hstmt).bind fun type _ => ?_
  refine YieldsAs.bind ((mirrors_yields T types).rejectIf _ ?_) fun _ _ => .pure _
  exact (mirrors_yields T types).node fun _ _ => .fail _

end Rules

/-! ### All judgements -/

section Judgements

variable (supply : Supply σ)

/-- At some depth, the judgements of the checker yield the verdicts of typing without a
memory. -/
structure JudgementsYield (T : Typing) (supply : Supply σ) (d : Nat) : Prop where
  typeOf : ∀ R x, T.Settled R x ∨ T.code.IsDefinition x →
    T.YieldsType T.type (supply.context T.spec d T.config) (T.verdicts d) R x
  returnType : ∀ R b, T.Settled R b →
    T.Yields ((supply.context T.spec d T.config).judge (.returnType R b))
      ((T.verdicts d).returnType R b)

namespace JudgementsYield

variable {supply : Supply σ} {d : Nat} (h : T.JudgementsYield supply d)

include h

theorem of_link (hx : T.Settled R x) (hlink : T.code.Link x y) :
    T.YieldsType T.type (supply.context T.spec d T.config) (T.verdicts d) R y := by
  refine h.typeOf R y ?_
  by_cases hdef : T.code.IsDefinition y
  · exact .inr hdef
  · exact .inl (hx.of_leads (.of_link hlink hdef))

theorem of_calls (hx : T.Settled R x) (hcall : T.code.Calls x f) :
    T.Yields ((supply.context T.spec d T.config).functionType R f)
      (functionType (T.verdicts d) R f) :=
  yields_functionType fun _ => h.returnType (f :: R) f (hx.of_calls hcall)

theorem of_stmt (hx : T.Settled R x) (hstmt : y ∈ T.code.children x) :
    T.Yields ((supply.context T.spec d T.config).exitType R y)
      (T.exitType (T.verdicts d) R y) := by
  have hconfig := Supply.config_context supply T.spec T.config d
  by_cases hdef : T.code.IsDefinition y
  · obtain ⟨name, params, inlined, hform⟩ := hdef
    refine yields_exitType hconfig (fun value definition h => ?_) fun h => ?_
    · rw [hform] at h
      cases h
    · exact absurd ⟨name, params, inlined, hform⟩ h
  · have hy := hx.of_leads (.of_link (.inr hstmt) hdef)
    exact yields_exitType hconfig (fun value definition hform => h.of_link hy (.of_ret hform))
      fun _ => h.returnType R y hy

end JudgementsYield

/-- **The judgements of the checker yield the verdicts of typing without a memory**, each at
the same depth, whatever the supply of definitions. -/
theorem judgementsYield (hcode : T.code.Acyclic) (d : Nat) : T.JudgementsYield supply d := by
  induction d with
  | zero => exact ⟨fun _ _ _ h => absurd rfl h, fun _ _ _ h => absurd rfl h⟩
  | succ d ih =>
    refine ⟨fun R x hx => ?_, fun R b hb => yields_returnTypeRule fun stmt => ih.of_stmt hb⟩
    rcases hx with hx | hdef
    · exact yields_typeRule (Supply.spec_context supply T.spec T.config d)
        (fun hne => hx.typeOf_eq_type hcode (d := d + 1) hne) hx.names
        (fun name binding hform => hx.resolved x .refl name binding hform)
        (fun y hy => ih.of_link hx hy) fun f hf => ih.of_calls hx hf
    · exact yields_typeRule_of_isDefinition hdef

/-- Typing a call of a function connects it with a definition, unless the type was on record
and it was connected before. -/
theorem definition_isSome_of_typeOf (hcode : T.code.Acyclic) (hx : T.Settled R x)
    (hcall : T.code.Calls x f) {d : Nat} (hne : (T.verdicts d).typeOf R x ≠ .error .outOfDepth)
    {s : CheckState σ} (hs : T.Recalls s.code)
    (hlinked : (s.code.node x).type.isKnown → (s.code.node x).definition.isSome) :
    ((exec ((supply.context T.spec d T.config).judge (.typeOf R x)) s).2.code.node
      x).definition.isSome := by
  cases d with
  | zero => exact absurd rfl hne
  | succ d =>
    have ih : T.JudgementsYield supply d := judgementsYield supply hcode d
    obtain ⟨name, hform, -⟩ := id hcall
    have hne' : T.callType (T.verdicts d) R (T.code.node x) name ≠ .error .outOfDepth := by
      intro heq
      refine hne ?_
      change T.typeRule (T.verdicts d) R x = _
      unfold typeRule formType
      rw [hform]
      dsimp only
      rw [heq]
      rfl
    have hend := ends_callType (Supply.spec_context supply T.spec T.config d)
      (supply fun config => (supply.context T.spec d config).answer) hform
      (fun binding => hx.resolved x .refl name binding hform)
      (fun y hy => ih.of_link hx (.inr hy)) (fun f hf => ih.of_calls hx hf) hne' s hs
    change ((exec ((supply.context T.spec d T.config).typeRule _ R x) s).2.code.node
      x).definition.isSome
    unfold Context.typeRule
    rw [exec_bind, exec_node]
    dsimp only
    rw [exec_located_snd, show (s.code.node x).form = .call name from (hs.form x).trans hform]
    unfold Context.formType
    rw [exec_memo]
    split
    · next hknown => exact hlinked hknown
    · have hdef := hend.2 f hcall
      revert hdef
      generalize exec (Context.callType _ _ R x name) s = out
      obtain ⟨r, t⟩ := out
      intro hdef
      cases r with
      | error halt => exact hdef
      | ok type =>
        dsimp only
        split
        · unfold CompilationUnit.setType
          dsimp only
          rw [node_modifyNode]
          split <;> exact hdef
        · exact hdef

end Judgements

/-! ### Queries -/

section Queries

variable {s : CheckState σ}

/-- The unit that typing starts from recalls itself if what is on record is right. -/
theorem recalls_self {types : NodeId → Except Halt Ty}
    (hsound : ∀ id, (T.code.form id).remembers → (T.code.node id).type.isKnown →
      types id = .ok (T.code.node id).type) : T.RecallsAs types T.code where
  size := rfl
  bare _ := rfl
  agree _ := by
    refine ⟨fun _ _ => rfl, fun s _ name => ?_⟩
    cases (T.code.scopes.scope s).get? name with
    | none => exact .none
    | some d => exact .some ⟨rfl, rfl, .inl rfl⟩
  retained _ h := h
  sound := hsound

/-- With enough depth, the checker's judgement yields the type found without a memory. -/
theorem yields_type (supply : Supply σ) (hcode : T.code.Acyclic) (hx : T.Settled [] x) {d : Nat}
    (hd : T.need [] x < d) :
    T.Yields ((supply.context T.spec d T.config).judge (.typeOf [] x)) (T.type x) := by
  rw [← verdict_eq_type hcode hd]
  exact (judgementsYield supply hcode d).typeOf [] x (.inl hx)

theorem yields_returnType (supply : Supply σ) (hcode : T.code.Acyclic) (hf : T.Settled [f] f)
    {d : Nat} (hd : T.need [f] f < d) :
    T.Yields ((supply.context T.spec d T.config).judge (.returnType [f] f)) (T.returnType f) := by
  rw [← verdict_eq_returnType hcode hd]
  exact (judgementsYield supply hcode d).returnType [f] f hf

/-- The type on record for a node is the one that it has. -/
def RecordedRight (T : Typing) (id : NodeId) : Prop :=
  (T.code.node id).type.isKnown → T.type id = .ok (T.code.node id).type

/-- **The checker's answer is the type found without a memory**, or the same error, and
what was right on record before is so afterwards, too. Every function that the
expression may call has to be resolved and none of them recursive, and no name that is
involved may stand for a function. -/
theorem ask_typeOf_eq_type (checker : Checker σ) (expr : NodeId) (hcode : s.code.Acyclic)
    (hresolved : ∀ call name binding, s.code.Reaches expr call → s.code.form call = .call name →
      s.code.scopes.binding? (s.code.node call).scope name = some binding →
        ∃ f, binding = .resolved f)
    (hnonrecursive : ∀ f, s.code.ReachesFunction expr f → ¬s.code.Recursive f)
    (hnames : ∀ x, x = expr ∨ (s.code.node x).type.isKnown → ∀ y, s.code.Reaches x y →
      ∀ name, s.code.form y = .ident name →
        s.code.scopes.binding? (s.code.node y).scope name = none)
    (hrecord : ∀ id, (s.code.form id).remembers →
      (checker.typing s.code).RecordedRight id) :
    (checker.ask (.typeOf expr) s).1 = (checker.typing s.code).type expr ∧
      (checker.typing s.code).type expr ≠ .error .outOfDepth ∧
      ∀ id, (checker.typing s.code).RecordedRight id →
        (checker.typing (checker.ask (.typeOf expr) s).2.code).RecordedRight id := by
  have hnone : ∀ x, x = expr ∨ (s.code.node x).type.isKnown →
      (checker.typing s.code).NamesSettled x := by
    intro x hx y hy name d hform hfind hfunc
    have hbinding := hnames x hx y hy name hform
    have hnone : d.binding? = none := (ScopeTree.binding?_of_find? hfind).symm.trans hbinding
    rw [Descriptor.isFunc, hnone] at hfunc
    cases hfunc
  have hne := type_ne_outOfDepth (T := checker.typing s.code) hcode expr
  have hsettled : (checker.typing s.code).Settled [] expr :=
    ⟨fun call hcall name binding => hresolved call name binding hcall, hnonrecursive, nofun,
      hnone expr (.inl rfl)⟩
  have hend : (checker.typing s.code).Ends s.code ((checker.typing s.code).type expr)
      (checker.ask (.typeOf expr) s) :=
    yields_type checker.supply hcode hsettled
      (Nat.lt_add_right _ (need_lt_ownDepth _ [] expr)) hne s (recalls_self hrecord)
  refine ⟨hend.answer, hne, fun id hid hknown => ?_⟩
  -- A type that is on record now was so before, or it has been put there on the way.
  have hnames : (checker.typing s.code).NamesSettled id :=
    (hend.advances.learned id hknown).elim (fun h => hnone id (.inr h)) fun h => h
  have htype : (checker.typing s.code).type id =
      .ok ((checker.ask (.typeOf expr) s).2.code.node id).type := by
    by_cases hform : (s.code.form id).remembers
    · exact hend.recalls.sound id (by rwa [hend.recalls.form]) hknown
    · have hkept : ((checker.ask (.typeOf expr) s).2.code.node id).type = (s.code.node id).type :=
        hend.advances.kept id hform
      have hbefore : (s.code.node id).type.isKnown := hkept ▸ hknown
      rw [hkept]
      exact hid hbefore
  -- It is the type of the node in the unit of the beginning, and so in that of the end.
  exact (eq_ok_iff_of_toOption (hend.recalls.type_toOption hnames)).mpr htype

/-- The call in a unit with one call and nothing on record. -/
theorem ask_typeOf_oneCall :
    let checker : Checker Unit := ⟨Standard.spec, .strict, none⟩
    let asked := checker.ask (.typeOf 3) ⟨oneCall, ()⟩
    asked.1 = (checker.typing oneCall).type 3 ∧
      (checker.typing oneCall).type 3 ≠ .error .outOfDepth ∧
      ∀ id, (checker.typing oneCall).RecordedRight id →
        (checker.typing asked.2.code).RecordedRight id := by
  refine ask_typeOf_eq_type _ 3 (s := ⟨oneCall, ()⟩) (acyclic_of_lt fun _ _ => OneCall.link_lt)
    (fun call name binding _ hform hbinding => ?_)
    (fun f _ => not_recursive_of_lt (fun _ _ => OneCall.leads_lt) f)
    (fun _ _ y _ name hform => absurd hform OneCall.form_ne_ident)
    fun id _ hknown => absurd hknown (OneCall.fresh id).1
  obtain ⟨rfl, rfl⟩ := OneCall.form_eq_call hform
  cases hbinding
  exact ⟨2, rfl⟩

end Queries

end Typing

end ContractLang
