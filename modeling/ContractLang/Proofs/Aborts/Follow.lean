import ContractLang.Proofs.Aborts.Simulate

/-!
# The rules of the lenient checker follow the strict ones

If the judgements of the strict checker are followed by the lenient one
(`ContractLang.Context.Followed`), then so are its rules. Mute functions stand apart in three places
only: a call of one has no type in the lenient run
(`ContractLang.Context.Followed.typeRule_mute`), its definition gives its name none
(`ContractLang.Context.Followed.checkFunction`), and what a body is left with may be nothing
instead of the type of aborts (`ContractLang.Context.Followed.returnTypeRule`).

Casts, fields that are set, arguments and statements take what has no type, so they may be calls of
mute functions. Everything else whose type matters is not, in the unit that the strict run ends
with, and has the same type in both runs.
-/

namespace ContractLang

open Check CompilationUnit

/-- The judgements of the lenient checker follow those of the strict one. -/
structure Context.Followed (spec : OpSpec) (v : CompilationUnit) (ctx : Context (List Comparison))
    (ctx' : Context Unit) : Prop where
  spec_eq : ctx.spec = spec
  spec_eq' : ctx'.spec = spec
  strict : ctx.config = .strict
  lenient : ctx'.config = .lenient
  quiet : ctx.Quiet
  quiet' : ctx'.Quiet
  typeOf : ∀ R {x}, ¬v.CallsMute x →
    Simulates v Eq (ctx.judge (.typeOf R x)) (ctx'.judge (.typeOf R x))
  /-- The type of a call of a mute function may vanish. -/
  typeOf_mute : ∀ R {x}, v.CallsMute x →
    Trails v Ty.Vanishes (ctx.judge (.typeOf R x)) (ctx'.judge (.typeOf R x))
  returnType : ∀ R b,
    Simulates v Ty.Fades (ctx.judge (.returnType R b)) (ctx'.judge (.returnType R b))
  /-- The return types of other functions have been compared. -/
  functionType : ∀ R {f}, ¬v.Mute f →
    Simulates v Eq (ctx.judge (.returnType (f :: R) f)) (ctx'.judge (.returnType (f :: R) f))
  calls : ∀ x, Simulates v Eq (ctx.judge (.calls x)) (ctx'.judge (.calls x))
  statement : ∀ x, Simulates v Eq (ctx.judge (.statement x)) (ctx'.judge (.statement x))

/-- Nothing whose type matters is a call of a mute function. -/
theorem CompilationUnit.Procedural.of_demands {spec : OpSpec} {v : CompilationUnit} {x y : NodeId}
    (hv : v.Procedural spec) (hx : v.Demands spec x y) : ¬v.CallsMute y :=
  fun hmute => hv.apart hmute x hx

/-- A function that waits for its body has none to be had. -/
theorem Context.binding?_ne_of_callType {σ : Type} {ctx : Context σ} {R : List NodeId} {x : NodeId}
    {name : String} {type : Ty} {s s' : CheckState σ}
    (h : exec (ctx.callType (Context.materialize none) R x name) s = (.ok type, s')) :
    s.code.scopes.binding? (s.code.node x).scope name ≠ some .unresolved := by
  intro hname
  obtain ⟨e, he⟩ := exec_materialize_none (x := x) hname
  rw [exec_callType, hname] at h
  unfold boundType at h
  rw [exec_bind, he] at h
  cases h

namespace Context.Followed

variable {spec : OpSpec} {v : CompilationUnit} {ctx : Context (List Comparison)}
  {ctx' : Context Unit} {R : List NodeId} {x : NodeId} (h : ctx.Followed spec v ctx')

include h

/-- The type of anything is followed, unless it vanishes. -/
theorem typeOf_vanishes (R : List NodeId) (x : NodeId) :
    Trails v Ty.Vanishes (ctx.judge (.typeOf R x)) (ctx'.judge (.typeOf R x)) := by
  by_cases hx : v.CallsMute x
  · exact h.typeOf_mute R hx
  · exact ((h.typeOf R hx).mono fun _ _ heq => .inl heq.symm).trails

/-! ### Operands and conditions -/

theorem operandType (hx : ¬v.CallsMute x) :
    Simulates v Eq (ctx.operandType R x) (ctx'.operandType R x) :=
  ((h.typeOf R hx).onFault fun _ _ => ⟨_, rfl⟩).bindEq fun _ =>
    (Simulates.rejectIf id fun _ => ⟨_, rfl⟩).bindEq fun _ => .pure rfl

theorem expectCondition (hx : ¬v.CallsMute x) :
    Simulates v Eq (ctx.expectCondition R x) (ctx'.expectCondition R x) :=
  (h.typeOf R hx).bindEq fun _ => .rejectIf id fun _ => ⟨_, rfl⟩

theorem binaryType {op : String} {lhs rhs : NodeId} (hlhs : ¬v.CallsMute lhs)
    (hrhs : ¬v.CallsMute rhs) :
    Simulates v Eq (ctx.binaryType R x op lhs rhs) (ctx'.binaryType R x op lhs rhs) := by
  unfold Context.binaryType
  rw [h.spec_eq, h.spec_eq']
  refine (Simulates.liftExcept _).bindEq fun result => (Simulates.liftExcept _).bindEq fun left =>
    (Simulates.liftExcept _).bindEq fun right => ?_
  refine (h.operandType hlhs).bindEq fun leftReceived => (h.operandType hrhs).bindEq fun _ => ?_
  refine (Simulates.rejectIf id fun _ => ⟨_, rfl⟩).bindEq fun _ => ?_
  refine (Simulates.rejectIf id fun _ => ⟨_, rfl⟩).bindEq fun _ => ?_
  exact (Simulates.rejectIf id (faults_typeMismatch _ _ _)).bindEq fun _ => .pure rfl

theorem unaryType {op : String} {value : NodeId} (hvalue : ¬v.CallsMute value) :
    Simulates v Eq (ctx.unaryType R x op value) (ctx'.unaryType R x op value) := by
  unfold Context.unaryType
  rw [h.spec_eq, h.spec_eq']
  refine (Simulates.liftExcept _).bindEq fun result => (Simulates.liftExcept _).bindEq fun _ => ?_
  refine (h.operandType hvalue).bindEq fun received => ?_
  refine (Simulates.rejectIf id (faults_typeMismatch _ _ _)).bindEq fun _ => ?_
  exact (Simulates.rejectIf id (faults_typeMismatch _ _ _)).bindEq fun _ => .pure rfl

theorem choiceType {cond yes no : NodeId} (hcond : ¬v.CallsMute cond) (hyes : ¬v.CallsMute yes)
    (hno : ¬v.CallsMute no) :
    Simulates v Eq (ctx.choiceType R cond yes no) (ctx'.choiceType R cond yes no) := by
  refine (h.expectCondition hcond).bindEq fun _ => (h.typeOf R hyes).bindEq fun first => ?_
  refine (h.typeOf R hno).bindEq fun second => ?_
  exact (Simulates.rejectIf id (faults_raise _)).bindEq fun _ => .pure rfl

/-- A cast takes what has no type for a value of its own type. -/
theorem castType (target : Ty) (value : NodeId) :
    Simulates v Eq (ctx.castType R target value) (ctx'.castType R target value) := by
  refine (h.typeOf_vanishes R value).bindEq (fun _ => .inl rfl) fun source source' hsource => ?_
  refine (Simulates.rejectIf ?_ (faults_raise _)).bindEq fun _ => .pure rfl
  rcases hsource with rfl | ⟨-, rfl⟩
  · exact id
  · exact fun _ hbad => hbad.1 rfl

omit h in
/-- A name whose descriptor is not mute has the same type in both runs. -/
theorem identType {scope : ScopeId} {name : String}
    (hname : ∀ home, v.MuteName home name → v.scopes.declaring? scope name ≠ some home) :
    Simulates v Eq (Context.identType scope name : Check (List Comparison) Ty)
      (Context.identType scope name) := by
  intro s type s' hexec hs
  unfold Context.identType at hexec
  rw [exec_bind, exec_code] at hexec
  dsimp only at hexec
  split at hexec
  · cases hexec
  · next d hlookup =>
    split at hexec
    · cases hexec
    · next hvalid =>
      cases hexec
      refine ⟨.refl s, fun hfair => ⟨_, rfl, fun t ht => ?_⟩⟩
      obtain ⟨home, d', hhome, -, -, hd', hbehind⟩ :=
        ht.find? (ScopeTree.lookup_eq_ok_iff.mp hlookup)
      have heq : d'.type = d.type := hbehind.type.resolve_right fun hlag =>
        hname home (hfair.code.muteName hlag.1) (hfair.code.scopes.declaring? _ _ ▸ hhome)
      unfold Attains Context.identType
      rw [exec_bind, exec_code]
      dsimp only
      rw [ScopeTree.lookup_of_find? hd']
      dsimp only
      rw [heq, if_neg hvalid]
      exact .inr ⟨t, rfl, ht⟩

/-! ### Calls -/

theorem operationType {call : Node} {name : String}
    (hdependent : ∀ y, spec.dependentOn? name call.children = some y → ¬v.CallsMute y) :
    Simulates v Eq (ctx.operationType R call name) (ctx'.operationType R call name) := by
  unfold Context.operationType
  rw [h.spec_eq, h.spec_eq']
  refine (Simulates.liftExcept _).bindEq fun type => ?_
  split
  · split
    · next argument hargument => exact h.typeOf R (hdependent argument hargument)
    · exact .pure rfl
  · exact .pure rfl

/-- The type of a function that is not mute is the same in both runs. -/
theorem functionType_eq {f : NodeId} (hf : ¬v.Mute f) :
    Simulates v Eq (ctx.functionType R f) (ctx'.functionType R f) := by
  unfold Context.functionType
  split
  · exact .pure rfl
  · exact h.functionType R hf

theorem functionType_fades (f : NodeId) :
    Simulates v Ty.Fades (ctx.functionType R f) (ctx'.functionType R f) := by
  unfold Context.functionType
  split
  · exact .pure (.refl _)
  · exact h.returnType _ f

theorem before_definedType {scope : ScopeId} {name : String} {f : NodeId} {type : Ty}
    {s s' : CheckState (List Comparison)} (hs : v.SameBuild s.code)
    (hexec : exec (ctx.definedType R x scope name f) s = (.ok type, s')) : Before s s' := by
  obtain ⟨u, hu, hlast⟩ := exec_definedType_eq_ok hexec
  have hset : Before s { s with code := s.code.setDefinition x f } :=
    .of_code (.modifyNode fun _ => rfl)
  have hfunction := (h.functionType_fades f) _ _ _ hu (hs.trans hset.code.build)
  exact hset.trans (hfunction.1.trans (before_complete hlast))

/-- A call of a function that is not mute has the same type in both runs. -/
theorem attains_definedType (hv : v.Procedural spec) {name : String} {f : NodeId} {type : Ty}
    {s s' : CheckState (List Comparison)} {t : CheckState Unit} (hform : s.code.form x = .call name)
    (hname : s.code.scopes.binding? (s.code.node x).scope name = some (.resolved f))
    (hf : ¬v.Mute f) (hs : v.SameBuild s.code) (hfair : Fair v s') (ht : s.code.Lags t.code)
    (hexec : exec (ctx.definedType R x (s.code.node x).scope name f) s = (.ok type, s')) :
    Attains (ctx'.definedType R x (s.code.node x).scope name f) t type s'.code := by
  have hwhole : Before s s' := h.before_definedType hs hexec
  obtain ⟨u, hu, hlast⟩ := exec_definedType_eq_ok hexec
  have hset : v.SameBuild (s.code.setDefinition x f) := hs.trans (sameBuild_modifyNode fun _ => rfl)
  have hfair' : Fair v u := hfair.before (before_complete hlast)
  obtain ⟨_, rfl, hfunction⟩ := (h.functionType_eq hf _ type u hu hset).2 hfair'
  -- In the end, the name is still connected with the function, so it is not a mute one.
  obtain ⟨home, hhome, hbinding⟩ := ScopeTree.binding?_eq_some_iff.mp
    ((hfair.before hwhole).code.scopes.binding?_eq_some hname nofun)
  have hloud : ∀ home', u.code.scopes.declaring? (s.code.node x).scope name = some home' →
      ¬u.code.MuteName home' name := fun home' hhome' hmute => by
    rw [← hfair'.code.scopes.declaring?, hhome] at hhome'
    cases hhome'
    exact hf (hv.unshared (hfair'.code.muteName hmute) f hbinding)
  refine .modifyCode ((hfunction _ (ht.setDefinition ⟨name, hform, hname⟩)).bind fun t₁ ht₁ => ?_)
  refine (attains_complete hlast ht₁ fun home' _ hhome' _ hmute => ?_).bind fun t₂ ht₂ => .pure ht₂
  exact absurd hmute (hloud home' hhome')

omit h in
/-- The lenient checker finds the same function by a name. -/
theorem exec_callType_of_lags {name : String} {s : CheckState (List Comparison)}
    {t : CheckState Unit} (obtain : BodySource Unit) (ht : s.code.Lags t.code) :
    exec (ctx'.callType obtain R x name) t =
      exec (ctx'.boundType obtain R x (s.code.node x).scope name (s.code.node x)
        (s.code.scopes.binding? (s.code.node x).scope name)) t := by
  have hoperation : ctx'.operationType R (t.code.node x) name =
      ctx'.operationType R (s.code.node x) name := by
    unfold Context.operationType
    rw [ht.build.field, show (t.code.node x).children = _ from ht.build.children x]
    rfl
  rw [exec_callType, ht.build.scope, ht.binding?]
  unfold boundType
  rw [hoperation]

theorem boundType_none {scope : ScopeId} {name : String} {call : Node}
    (hdependent : ∀ y, spec.dependentOn? name call.children = some y → ¬v.CallsMute y) :
    Simulates v Eq (ctx.boundType (Context.materialize none) R x scope name call none)
      (ctx'.boundType (Context.materialize none) R x scope name call none) := by
  unfold boundType
  rw [h.spec_eq, h.spec_eq']
  dsimp only
  split
  · exact h.operationType hdependent
  · exact .of_faults (faults_raise _)

section Call

variable (hv : v.Procedural spec) {name : String} (hform : v.form x = .call name)

include hv hform

omit h in
/-- The argument that an operation takes its type from is no call of a mute function. -/
theorem of_dependent {s : CheckState (List Comparison)} (hs : v.SameBuild s.code) :
    ∀ y, spec.dependentOn? name (s.code.node x).children = some y → ¬v.CallsMute y := fun _ hy =>
  hv.of_demands (.argument hform (hs.children x ▸ hy))

theorem before_callType {s s' : CheckState (List Comparison)} {type : Ty}
    (hs : v.SameBuild s.code)
    (hexec : exec (ctx.callType (Context.materialize none) R x name) s = (.ok type, s')) :
    Before s s' := by
  have hwaits := binding?_ne_of_callType hexec
  rw [exec_callType] at hexec
  cases hname : s.code.scopes.binding? (s.code.node x).scope name with
  | none =>
    rw [hname] at hexec
    exact (h.boundType_none (of_dependent hv hform hs) s type s' hexec hs).1
  | some binding =>
    rw [hname] at hexec
    cases binding with
    | unresolved => exact absurd hname hwaits
    | pending call =>
      cases hexec
      exact .refl s
    | resolved f => exact h.before_definedType hs hexec

/-- A call that is no call of a mute function has the same type in both runs. -/
theorem callType (hx : ¬v.CallsMute x) :
    Simulates v Eq (ctx.callType (Context.materialize none) R x name)
      (ctx'.callType (Context.materialize none) R x name) := by
  intro s type s' hexec hs
  have hbefore : Before s s' := h.before_callType hv hform hs hexec
  have hform' : s.code.form x = .call name := (hs.form x).trans hform
  have hwaits := binding?_ne_of_callType hexec
  refine ⟨hbefore, fun hfair => ?_⟩
  suffices hbound : ∃ y, type = y ∧ ∀ t : CheckState Unit, s.code.Lags t.code →
      Attains (ctx'.boundType (Context.materialize none) R x (s.code.node x).scope name
        (s.code.node x) (s.code.scopes.binding? (s.code.node x).scope name)) t y s'.code from
    hbound.imp fun y hy =>
      ⟨hy.1, fun t ht => .congr (exec_callType_of_lags _ ht) (hy.2 t ht)⟩
  rw [exec_callType] at hexec
  cases hname : s.code.scopes.binding? (s.code.node x).scope name with
  | none =>
    rw [hname] at hexec
    exact (h.boundType_none (of_dependent hv hform hs) s type s' hexec hs).2 hfair
  | some binding =>
    rw [hname] at hexec
    cases binding with
    | unresolved => exact absurd hname hwaits
    | pending call =>
      cases hexec
      exact ⟨_, rfl, fun t ht => .pure ht⟩
    | resolved f =>
      refine ⟨type, rfl, fun t ht => ?_⟩
      have hf : ¬v.Mute f := fun hmute =>
        hx ⟨f, (hfair.before hbefore).code.calls ⟨name, hform', hname⟩, hmute⟩
      exact h.attains_definedType hv hform' hname hf hs hfair ht hexec

end Call

/-- The lenient checker finds no type of a mute function. -/
theorem attains_functionType_mute {f : NodeId} {t : CheckState Unit} {c : CompilationUnit}
    (hf : t.code.Mute f) (ht : c.Lags t.code) :
    Attains (ctx'.functionType R f) t .unknown c := by
  have hfinds : FindsOnly ctx'.config.abortType t (ctx'.functionType R f) :=
    h.quiet'.functionType hf
  rw [h.lenient] at hfinds
  rcases hfinds with ⟨u, hu⟩ | ⟨type, u, hu, hcode, htype⟩
  · exact .inl ⟨u, hu⟩
  · obtain rfl : type = .unknown := htype.elim id id
    exact .inr ⟨u, hu, hcode ▸ ht⟩

/-- The strict checker finds the type of aborts, if any. -/
theorem functionType_mute {f : NodeId} {type : Ty} {s u : CheckState (List Comparison)}
    (hf : s.code.Mute f) (hexec : exec (ctx.functionType R f) s = (.ok type, u)) :
    u.code = s.code ∧ (type = .unknown ∨ type = .uint64) := by
  have hfinds : FindsOnly ctx.config.abortType s (ctx.functionType R f) :=
    h.quiet.functionType hf
  rw [h.strict] at hfinds
  rcases hfinds with ⟨_, hdepth⟩ | ⟨found, u', hu', hcode, hfound⟩
  · rw [hexec] at hdepth
    cases hdepth
  · cases hexec.symm.trans hu'
    exact ⟨hcode, hfound⟩

/-- In the strict unit, a call of a mute function and its name may be given the type of aborts,
which leaves the lenient one behind. -/
theorem lags_definedType_mute {name : String} {f : NodeId} {type : Ty}
    {s u : CheckState (List Comparison)} {t : CheckState Unit}
    (hform : s.code.form x = .call name)
    (hname : s.code.scopes.binding? (s.code.node x).scope name = some (.resolved f))
    (hf : s.code.Mute f) (ht : s.code.Lags t.code) (hunknown : ¬(t.code.node x).type.isKnown)
    (hexec : exec (ctx.definedType R x (s.code.node x).scope name f) s = (.ok type, u)) :
    (type = .unknown ∨ type = .uint64) ∧
      (if type.isKnown then u.code.setType x type else u.code).Lags
        (t.code.setDefinition x f) := by
  obtain ⟨w, hw, hlast⟩ := exec_definedType_eq_ok hexec
  have hset : s.code.SameBuild (s.code.setDefinition x f) := sameBuild_modifyNode fun _ => rfl
  obtain ⟨hcode, htype⟩ := h.functionType_mute (hset.mute hf) hw
  refine ⟨htype, ?_⟩
  rcases exec_complete_eq_ok hlast with ⟨hnone, rfl⟩ | ⟨hknown, scopes, hscopes, rfl⟩
  · rw [if_neg hnone, hcode]
    exact ht.setDefinition ⟨name, hform, hname⟩
  · obtain rfl : type = .uint64 := Ty.eq_of_isKnown htype hknown
    rw [if_pos hknown]
    dsimp only
    rw [hcode] at hscopes ⊢
    exact ht.call_ahead hform hname hf hunknown hscopes

/-- The lenient checker finds nothing of a call of a mute function. -/
theorem attains_call_mute {name : String} {f : NodeId} {s : CheckState (List Comparison)}
    {t : CheckState Unit} {c : CompilationUnit} (ht : s.code.Lags t.code)
    (hname : s.code.scopes.binding? (s.code.node x).scope name = some (.resolved f))
    (hf : s.code.Mute f) (hunknown : ¬(t.code.node x).type.isKnown)
    (hlags : c.Lags (t.code.setDefinition x f)) :
    Attains (memo x (ctx'.callType (Context.materialize none) R x name)) t .unknown c := by
  have hset : t.code.SameBuild (t.code.setDefinition x f) := sameBuild_modifyNode fun _ => rfl
  have hfunction : Attains (ctx'.functionType R f)
      { t with code := t.code.setDefinition x f } .unknown c :=
    h.attains_functionType_mute ((ht.build.trans hset).mute hf) hlags
  refine .memo hunknown (.congr (exec_callType_of_lags _ ht) ?_) fun u hu => hu
  rw [hname]
  exact .modifyCode (hfunction.bind fun u hu => .pure hu)

/-- **A call of a mute function** has no type in the lenient run, and the descriptor of the function
is given none. -/
theorem typeRule_mute (hv : v.Procedural spec) (hx : v.CallsMute x) :
    Trails v Ty.Vanishes (ctx.typeRule (Context.materialize none) R x)
      (ctx'.typeRule (Context.materialize none) R x) := by
  obtain ⟨f, ⟨name, hform, hbound⟩, hmute⟩ := hx
  intro s type s' hexec hs
  have hform' : s.code.form x = .call name := (hs.form x).trans hform
  rw [exec_typeRule_call hform'] at hexec
  have hmemo := exec_located_eq_ok hexec
  -- What the lenient checker does is the same in either case.
  suffices hcall : Before s s' ∧ (Fair v s' → ∀ t : CheckState Unit, s.code.Lags t.code →
      ∃ y, type.Vanishes y ∧
        Attains (memo x (ctx'.callType (Context.materialize none) R x name)) t y s'.code) by
    refine ⟨hcall.1, fun hfair t ht => (hcall.2 hfair t ht).imp fun y hy => ⟨hy.1, ?_⟩⟩
    exact .congr (exec_typeRule_call ((ht.build.form x).trans hform')) hy.2.onFault
  rcases exec_memo_eq_ok hmemo with ⟨hknown, rfl, rfl⟩ | ⟨hunknown, u, hcall, rfl⟩
  · refine ⟨.refl _, fun hfair t ht => ?_⟩
    rcases (ht.node x).type with heq | ⟨hword, hlag, g, ⟨name', hform'', hname⟩, hg, hdef⟩
    · exact ⟨_, .inl rfl, .memo_of_isKnown heq hknown ht⟩
    · cases hform'.symm.trans hform''
      exact ⟨.unknown, .inr ⟨hword, rfl⟩,
        h.attains_call_mute ht hname hg hlag (ht.setDefinition_again hdef)⟩
  · have hbefore : Before s u := h.before_callType hv hform hs hcall
    refine ⟨hbefore.trans Simulates.before_record, fun hfair t ht => ?_⟩
    have hcode : s.code.Precedes v := (hfair.before (hbefore.trans Simulates.before_record)).code
    -- The function has been connected with its definition before, or there would be no answer.
    have hname : s.code.scopes.binding? (s.code.node x).scope name = some (.resolved f) := by
      rw [← hs.scope] at hbound
      have hwaits := binding?_ne_of_callType hcall
      cases hb : s.code.scopes.binding? (s.code.node x).scope name with
      | none =>
        rw [hcode.scopes.binding?_eq_none hb] at hbound
        cases hbound
      | some b =>
        have hstays := hcode.scopes.binding?_eq_some hb fun hb' => hwaits (hb' ▸ hb)
        exact hstays.symm.trans hbound
    have hmute' : s.code.Mute f := hcode.build.symm.mute hmute
    have hlag : ¬(t.code.node x).type.isKnown := by
      rcases (ht.node x).type with heq | ⟨hword, hlag, -⟩
      · rwa [heq]
      · exact hlag
    rw [exec_callType, hname] at hcall
    obtain ⟨htype, hlags⟩ := h.lags_definedType_mute hform' hname hmute' ht hlag hcall
    refine ⟨.unknown, ?_, h.attains_call_mute ht hname hmute' hlag hlags⟩
    exact htype.elim (fun hnone => .inl hnone.symm) fun hword => .inr ⟨hword, rfl⟩

/-! ### The rule for expressions -/

theorem formType (hv : v.Procedural spec) (hx : ¬v.CallsMute x) {form : Form}
    (hform : v.form x = form) :
    Simulates v Eq (ctx.formType (Context.materialize none) R x form)
      (ctx'.formType (Context.materialize none) R x form) := by
  have hoperand : ∀ y ∈ form.demands, ¬v.CallsMute y := fun y hy =>
    hv.of_demands (.operand (hform ▸ hy))
  cases form with
  | literal type text => exact .pure rfl
  | const name type value => exact .pure rfl
  | ident name =>
    refine .node (fun c c' _ ht => ?_) fun c hc => .memo hx ?_
    · dsimp only
      rw [ht.build.scope]
    · rw [hc.scope]
      exact identType fun home hhome => hv.unread hhome x hform
  | binary op lhs rhs =>
    exact .memo hx (h.binaryType (hoperand lhs (.head _))
      (hoperand rhs (.tail _ (.head _))))
  | group value => exact h.typeOf R (hoperand value (.head _))
  | unary op value => exact .memo hx (h.unaryType (hoperand value (.head _)))
  | choice cond yes no =>
    exact .memo hx (h.choiceType (hoperand cond (.head _)) (hoperand yes (.tail _ (.head _)))
      (hoperand no (.tail _ (.tail _ (.head _)))))
  | cast target value => exact h.castType target value
  | call name => exact .memo hx (h.callType hv hform hx)
  | runtimeField op field indices =>
    unfold Context.formType
    rw [h.spec_eq, h.spec_eq']
    exact .memo hx (.liftExcept _)
  | runtimeArg op number =>
    unfold Context.formType
    rw [h.spec_eq, h.spec_eq']
    exact .memo hx (.liftExcept _)
  | program | function | block | ret | abort | innerBegin | innerSubmit | innerField | breakLoop
  | assign | declare | branch | loop => exact .of_faults (faults_raise _)

/-- **Anything but a call of a mute function has the same type in both runs.** -/
theorem typeRule (hv : v.Procedural spec) (hx : ¬v.CallsMute x) :
    Simulates v Eq (ctx.typeRule (Context.materialize none) R x)
      (ctx'.typeRule (Context.materialize none) R x) := by
  refine .node (fun c c' _ ht => ?_) fun c hc => .located _ ?_
  · rw [ht.build.position, show (c'.node x).form = _ from ht.build.form x]
    rfl
  · exact h.formType hv hx (hc.form x).symm

/-! ### Bodies -/

theorem exitType (hv : v.Procedural spec) {stmt : NodeId} :
    Simulates v Ty.Fades (ctx.exitType R stmt) (ctx'.exitType R stmt) := by
  refine .code (fun c c' _ ht => ?_) fun c hc => ?_
  · rw [ht.build.form]
  · rw [h.strict, h.lenient, hc.form]
    cases hform : v.form stmt with
    | ret value definition =>
      cases value with
      | some value =>
        have hvalue : ¬v.CallsMute value := hv.of_demands (x := stmt) (.operand (by
          rw [hform]
          exact List.mem_cons_self))
        exact (h.typeOf R hvalue).mono fun a b hab => hab ▸ .refl a
      | none => exact .pure (.refl _)
    | abort => exact .pure (.inr ⟨rfl, nofun⟩)
    | branch cond => exact h.returnType R stmt
    | block => exact h.returnType R stmt
    | _ => exact .pure (.refl _)

/-- **A body is left with the same type in both runs**, or with that of aborts in the strict one
only. -/
theorem returnTypeRule (hv : v.Procedural spec) {body : NodeId} :
    Simulates v Ty.Fades (ctx.returnTypeRule R body) (ctx'.returnTypeRule R body) := by
  refine .code (fun c c' _ ht => ?_) fun c hc => ?_
  · rw [ht.build.children]
  refine .foldlM Ty.Fades.refl (fun stmt _ sofar sofar' hsofar => ?_) (.refl .unknown)
  refine (h.exitType hv).bind Ty.Fades.refl fun type type' htype => ?_
  exact .rejectIf_bind (hsofar.clashes htype) (fun _ => ⟨_, rfl⟩) fun hpass =>
    .pure (hsofar.unify htype hpass)

/-! ### Calls of operations -/

omit h in
theorem callName : Simulates v Eq (callName x : Check (List Comparison) String)
    (Context.callName x) := by
  refine .code (fun c c' _ ht => ?_) fun c hc => ?_
  · rw [ht.build.form]
  · split
    · exact .pure rfl
    · exact .of_faults fun _ => ⟨_, rfl⟩

/-- What has no type is no argument of a wrong one. -/
theorem checkArgument (name : String) (position : Nat) (argument : NodeId) :
    Simulates v Eq (ctx.checkArgument x name position argument)
      (ctx'.checkArgument x name position argument) := by
  unfold Context.checkArgument
  rw [h.spec_eq, h.spec_eq']
  refine (Simulates.liftExcept _).bindEq fun expected => ?_
  refine (h.typeOf_vanishes [] argument).bindEq (fun _ => .inl rfl) fun received _ hreceived => ?_
  exact .rejectIf (Ty.Fades.clashes (.refl expected) hreceived.fades) fun _ => ⟨_, rfl⟩

theorem checkArgumentsFrom (name : String) (position : Nat) (arguments : List NodeId) :
    Simulates v Eq (ctx.checkArgumentsFrom x name position arguments)
      (ctx'.checkArgumentsFrom x name position arguments) := by
  induction arguments generalizing position with
  | nil => exact .pure rfl
  | cons argument rest ih =>
    exact (h.checkArgument name position argument).bindEq fun _ => ih (position + 1)

theorem checkArguments : Simulates v Eq (ctx.checkArguments x) (ctx'.checkArguments x) := by
  refine callName.bindEq fun name => .code (fun c c' _ ht => ?_) fun c hc => ?_
  · rw [ht.build.children]
  · exact h.checkArgumentsFrom name 0 _

theorem checkPart (part : NodeId) : Simulates v Eq (ctx.checkPart part) (ctx'.checkPart part) :=
  ((h.typeOf_vanishes [] part).discard fun _ => .inl rfl).bindEq fun _ => h.calls part

theorem callsRule : Simulates v Eq (ctx.callsRule x) (ctx'.callsRule x) := by
  refine .node (fun c c' _ ht => ?_) fun c _ => ?_
  · dsimp only
    rw [(ht.node x).definition, ht.build.scope, show (c'.node x).form = _ from ht.build.form x,
      show (c'.node x).children = _ from ht.build.children x]
    rfl
  split
  · refine .code (fun c₁ c₁' _ ht => ?_) fun c₁ _ => ?_
    · rw [ht.binding?]
    refine (Simulates.forM fun y _ => h.checkPart y).bindEq fun _ => ?_
    split
    · exact .pure rfl
    · exact h.checkArguments
  · exact .forM fun y _ => h.checkPart y

/-- Going on with an expression that is in order. -/
theorem checkExpr_bind {f : Ty → Check (List Comparison) Unit} {g : Ty → Check Unit Unit}
    (hf : ∀ type type', type.Vanishes type' → Simulates v Eq (f type) (g type')) :
    Simulates v Eq (ctx.checkExpr x >>= f) (ctx'.checkExpr x >>= g) := by
  unfold Context.checkExpr
  simp only [bind_assoc, pure_bind]
  exact (h.typeOf_vanishes [] x).bindEq (fun _ => .inl rfl) fun type type' htype =>
    (h.calls x).bindEq fun _ => hf type type' htype

/-- A call of a mute function is a statement in order like any other. -/
theorem discard_checkExpr : Simulates v Eq (discard (ctx.checkExpr x))
    (discard (ctx'.checkExpr x)) := by
  rw [discard_eq_bind, discard_eq_bind]
  exact h.checkExpr_bind fun _ _ _ => .pure rfl

theorem multiValue (hx : ¬v.CallsMute x) (count : Nat) :
    Simulates v Eq (ctx.multiValue x count) (ctx'.multiValue x count) := by
  refine callName.bindEq fun name => (h.typeOf [] hx).bindEq fun type => ?_
  refine .node (fun c c' _ ht => ?_) fun c _ => ?_
  · rw [(ht.node x).definition]
  · refine (Simulates.rejectIf id (faults_raise _)).bindEq fun _ => ?_
    rw [h.spec_eq, h.spec_eq']
    split
    · exact .pure rfl
    · exact .of_faults (faults_raise _)

/-! ### Assignments -/

theorem checkChildren : Simulates v Eq (ctx.checkChildren x) (ctx'.checkChildren x) := by
  refine .code (fun c c' _ ht => ?_) fun c _ => .forM fun y _ => h.statement y
  rw [ht.build.children]

omit h in
/-- A variable is bound to a value of the same type in both runs. -/
theorem bindTarget {scope : ScopeId} {name : String} {type : Ty} :
    Simulates v Eq (bindTarget x scope name type : Check (List Comparison) Unit)
      (Context.bindTarget x scope name type) := by
  intro s _ s' hexec _
  obtain ⟨d, hd, hclash, hlast⟩ := exec_bindTarget_eq_ok hexec
  refine ⟨before_complete hlast, fun _ => ⟨_, rfl, fun t ht => ?_⟩⟩
  obtain ⟨home, d', -, -, -, hd', hbehind⟩ := ht.find? hd
  have hclash' : ¬d'.type.clashes type := hbehind.fades.clashes (.refl type) hclash
  refine .code ?_
  rw [ScopeTree.lookup_of_find? hd']
  exact (Attains.rejectIf hclash' ht).bind fun t₁ ht₁ =>
    attains_complete_of_not_clashes hlast ht₁ hd hclash

theorem valueTypes {targets : Targets} (hx : ¬v.CallsMute x) :
    Simulates v Eq (ctx.valueTypes targets x) (ctx'.valueTypes targets x) := by
  cases targets with
  | single name => exact (h.typeOf [] hx).bindEq fun _ => .pure rfl
  | pair high low => exact h.multiValue hx 2
  | quadruple high low remHigh remLow =>
    exact (h.multiValue hx 4).bindEq fun _ => .pure rfl

theorem checkTargets {scope : ScopeId} {targets : Targets} {value : NodeId}
    (hvalue : ¬v.CallsMute value) :
    Simulates v Eq (ctx.checkTargets x scope targets value)
      (ctx'.checkTargets x scope targets value) := by
  refine h.discard_checkExpr.bindEq fun _ => (h.valueTypes hvalue).bindEq fun types => ?_
  exact (Simulates.forM fun _ _ => bindTarget).bindEq fun _ =>
    .modifyCode (fun c => .modifyNode fun _ => rfl) fun c c' ht => ht.setTargetTypes x types

/-! ### Functions -/

omit h in
/-- A function that waits for its body is connected with a definition in both runs. -/
theorem bindDefinition {scope : ScopeId} {name : String} :
    Simulates v Eq (bindDefinition scope name x : Check (List Comparison) Unit)
      (Context.bindDefinition scope name x) := by
  intro s _ s' hexec _
  unfold Context.bindDefinition
  rcases exec_bindDefinition_eq_ok hexec with ⟨hname, scopes, hset, rfl⟩ | ⟨hname, rfl⟩
  · obtain ⟨_, hset', hrefines⟩ := ScopeTree.exists_resolve hname x
    cases hset.symm.trans hset'
    refine ⟨.of_code (.withScopes hrefines), fun _ => ⟨_, rfl, fun t ht => .code ?_⟩⟩
    obtain ⟨scopes', hset'', hlags⟩ := ht.resolve hname hset
    rw [if_pos (by rw [ht.binding?, hname])]
    refine .inr ⟨{ t with code := t.code.withScopes scopes' }, ?_, hlags⟩
    rw [exec_changeScopes, hset'']
  · refine ⟨.refl s', fun _ => ⟨_, rfl, fun t ht => .code ?_⟩⟩
    rw [if_neg (by rwa [ht.binding?])]
    exact .pure ht

omit h in
/-- A definition is reconciled with its name in both runs. What the lenient run does not find of a
mute function is given to the name in the strict one only. -/
theorem attains_reconcile {name : String} {params : List Param} {inlined : Bool} {type type' : Ty}
    {s s' : CheckState (List Comparison)} {t : CheckState Unit}
    (hform : s.code.form x = .function name params inlined) (ht : s.code.Lags t.code)
    (htype : type' = type ∨ s.code.Mute x ∧ (type = .unknown ∨ type = .uint64) ∧ ¬type'.isKnown)
    (hexec : exec (reconcile x name type) s = (.ok (), s')) :
    Before s s' ∧ Attains (reconcile x name type') t () s'.code := by
  unfold reconcile
  have hscope : (t.code.node x).scope = (s.code.node x).scope := ht.build.scope x
  rcases exec_reconcile_eq_ok hexec with ⟨hd, rfl⟩ | ⟨d, hd, hclash, hlast⟩
  · refine ⟨.refl s', .code ?_⟩
    dsimp only
    rw [hscope, ht.find?_eq_none hd]
    exact .pure ht
  · obtain ⟨home, d', -, -, -, hd', hbehind⟩ := ht.find? hd
    refine ⟨before_complete hlast, .code ?_⟩
    dsimp only
    rw [hscope, hd']
    rcases htype with rfl | ⟨hmute, hword, hnone⟩
    · exact (Attains.rejectIf (hbehind.fades.clashes (.refl _) hclash) ht).bind fun t₁ ht₁ =>
        attains_complete_of_not_clashes hlast ht₁ hd hclash
    · refine (Attains.rejectIf (by simp [Ty.clashes, hnone]) ht).bind fun t₁ ht₁ => ?_
      unfold complete
      rw [if_neg hnone]
      rcases exec_complete_eq_ok hlast with ⟨-, rfl⟩ | ⟨hknown, scopes, hscopes, rfl⟩
      · exact .pure ht₁
      · obtain rfl : type = .uint64 := Ty.eq_of_isKnown hword hknown
        exact .pure (ht₁.refine_ahead hscopes fun home hhome => .definition hmute hform hhome)

/-- What a definition returns is reconciled with its name. -/
theorem reconcileReturn {name : String} {params : List Param} {inlined : Bool}
    (hform : v.form x = .function name params inlined) :
    Simulates v Eq (discard (ctx.functionType [] x >>= fun type => reconcile x name type >>=
        fun _ => pure type))
      (discard (ctx'.functionType [] x >>= fun type => reconcile x name type >>=
        fun _ => pure type)) := by
  refine Trails.discard (V := fun _ _ => True) (fun _ => trivial) fun s type s' hexec hs => ?_
  obtain ⟨found, u, hfound, hexec⟩ := exec_bind_eq_ok hexec
  obtain ⟨⟨⟩, w, hlast, hend⟩ := exec_bind_eq_ok hexec
  cases hend
  obtain ⟨hbefore, hfollow⟩ := h.functionType_fades x s type u hfound hs
  have hform' : u.code.form x = .function name params inlined :=
    ((hs.trans hbefore.code.build).form x).trans hform
  have hrest : Before u s' := (attains_reconcile (t := ⟨u.code, ()⟩) hform' (.refl _) (.inl rfl)
    hlast).1
  refine ⟨hbefore.trans hrest, fun hfair t ht => ?_⟩
  by_cases hmute : v.Mute x
  · have hmute' : s.code.Mute x := hs.mute hmute
    obtain ⟨hcode, hword⟩ := h.functionType_mute hmute' hfound
    refine ⟨.unknown, trivial, ?_⟩
    refine (h.attains_functionType_mute (ht.build.mute hmute') ht).bind fun t₁ ht₁ => ?_
    rw [← hcode] at ht₁ hmute'
    exact (attains_reconcile hform' ht₁ (.inr ⟨hmute', hword, by decide⟩) hlast).2.bind
      fun t₂ ht₂ => .pure ht₂
  · obtain ⟨_, rfl, hattains⟩ := (h.functionType_eq hmute s type u hfound hs).2 (hfair.before hrest)
    refine ⟨type, trivial, (hattains t ht).bind fun t₁ ht₁ => ?_⟩
    exact (attains_reconcile hform' ht₁ (.inl rfl) hlast).2.bind fun t₂ ht₂ => .pure ht₂

/-- **The definition of a mute function** is in order if it was before. -/
theorem checkFunction :
    Simulates v Eq (discard (ctx.checkFunction x)) (discard (ctx'.checkFunction x)) := by
  unfold Context.checkFunction
  rw [discard_bind, discard_bind]
  refine .node (fun c c' _ ht => ?_) fun c hc => ?_
  · rw [ht.build.position, ht.build.scope, show (c'.node x).form = _ from ht.build.form x]
    rfl
  split
  · next name params inlined hform =>
    have hform' : v.form x = .function name params inlined := (hc.form x).symm.trans hform
    simp only [discard_bind]
    refine bindDefinition.bindEq fun _ => h.checkChildren.bindEq fun _ => ?_
    refine .code (fun c₁ c₁' _ ht => ?_) fun c₁ _ => ?_
    · rw [ht.build.position, alwaysReturns_congr ht.size ht.build.form ht.build.children]
    · refine (Simulates.rejectIf id fun _ => ⟨_, rfl⟩).bindEq fun _ => ?_
      have hreturn := h.reconcileReturn hform'
      simp only [discard_bind] at hreturn
      exact hreturn
  · exact .of_faults fun _ => ⟨_, rfl⟩

/-! ### Statements -/

/-- A field takes what has no type for a value of its own type. -/
theorem checkInnerField (field : String) (value : NodeId) :
    Simulates v Eq (ctx.checkInnerField x field value) (ctx'.checkInnerField x field value) := by
  unfold Context.checkInnerField
  rw [h.spec_eq, h.spec_eq']
  refine (Simulates.liftExcept _).bindEq fun expected => ?_
  refine h.checkExpr_bind fun received received' hreceived => ?_
  refine (Simulates.rejectIf ?_ (faults_typeMismatch _ _ _)).bindEq fun _ =>
    .modifyCode (fun c => .modifyNode fun _ => rfl) fun c c' ht => ht.setType x expected
  rcases hreceived with rfl | ⟨-, rfl⟩
  · exact id
  · exact fun _ hbad => absurd hbad.1 (by decide)

theorem checkGuarded {cond : NodeId} (hcond : ¬v.CallsMute cond) :
    Simulates v Eq (ctx.checkGuarded x cond) (ctx'.checkGuarded x cond) :=
  h.discard_checkExpr.bindEq fun _ => (h.expectCondition hcond).bindEq fun _ => h.checkChildren

theorem checkForm (hv : v.Procedural spec) {scope : ScopeId} {form : Form}
    (hform : v.form x = form) :
    Simulates v Eq (ctx.checkForm x scope form) (ctx'.checkForm x scope form) := by
  have hoperand : ∀ y ∈ form.demands, ¬v.CallsMute y := fun y hy =>
    hv.of_demands (.operand (hform ▸ hy))
  unfold Context.checkForm
  split
  · exact h.checkChildren
  · exact h.checkChildren
  · exact h.checkFunction
  · exact h.discard_checkExpr
  · exact h.discard_checkExpr
  · exact .pure rfl
  · exact .pure rfl
  · exact .pure rfl
  · exact .pure rfl
  · exact .pure rfl
  · exact .pure rfl
  · exact h.checkInnerField _ _
  · exact h.checkTargets (hoperand _ List.mem_cons_self)
  · exact h.checkTargets (hoperand _ List.mem_cons_self)
  · exact h.checkGuarded (hoperand _ List.mem_cons_self)
  · exact h.checkGuarded (hoperand _ List.mem_cons_self)
  · exact h.discard_checkExpr

/-- **A statement that is in order** for the strict checker is so for the lenient one. -/
theorem statementRule (hv : v.Procedural spec) :
    Simulates v Eq (ctx.statementRule x) (ctx'.statementRule x) := by
  refine .node (fun c c' _ ht => ?_) fun c hc => .located _ (h.checkForm hv (hc.form x).symm)
  rw [ht.build.position, ht.build.scope, show (c'.node x).form = _ from ht.build.form x]
  rfl

end Context.Followed

end ContractLang
