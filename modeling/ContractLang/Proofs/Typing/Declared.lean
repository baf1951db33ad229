import ContractLang.Proofs.Runs.Matured
import ContractLang.Proofs.Typing.Keeping
import ContractLang.Proofs.Typing.Answers
import ContractLang.Proofs.Typing.Pursuit

/-!
# Declared types and the types of calls

The first call of a function that is typed gives the descriptor of the function its type, if it is
declared without one. If it is declared with a type, this is compared with what the body returns
when the definition of the function is checked, but not when a call of it is typed: the call has the
type that the body returns, and the descriptor the one that was declared.

While the return type of a function is being determined, calls of it have no type, so that nothing
is entered in its descriptor (`ContractLang.Supply.keeps_resolving`), unless a parser puts questions
about it in the meantime. So the two types agree exactly if the descriptor has had no other type at
any moment of the run (`ContractLang.Checker.descriptor_agrees_iff`).
-/

namespace ContractLang

open Check ScopeTree

/-! ### While a function is being resolved -/

section

variable {σ : Type} {K : CheckState σ → Prop} {home : ScopeId} {name : String} {f : NodeId}

/-- An invariant of states is about a function that a scope declares: the function has a certain
definition, and nothing else of the unit matters than its descriptor. -/
structure Check.IsAbout (K : CheckState σ → Prop) (home : ScopeId) (name : String) (f : NodeId) :
    Prop where
  resolved : ∀ {s}, K s → s.code.scopes.bindingAt home name = some (.resolved f)
  recode : ∀ {s : CheckState σ} {code : CompilationUnit}, K s →
    (code.scopes.scope home).get? name = (s.code.scopes.scope home).get? name → K { s with code }

theorem Check.IsAbout.recordable (hK : IsAbout K home name f) : Recordable K :=
  fun hs _ => hK.recode hs rfl

/-- A later state of a run has the scopes that an earlier one has, matured. -/
abbrev LetsMature (s t : CheckState σ) : Prop :=
  s.code.scopes.Matures t.code.scopes

/-- Giving a type to another function does not matter. -/
theorem Check.IsAbout.complete (hK : IsAbout K home name f) {u : CheckState σ} (hu : K u)
    {scope r : ScopeId} {other : String} (hr : u.code.scopes.declaring? scope other = some r)
    (hne : ¬(home = r ∧ name = other)) (type : Ty) :
    K (exec (complete scope other type) u).2 := by
  unfold Check.complete
  split
  · rw [exec_changeScopes]
    obtain ⟨-, old, hget⟩ := declaring?_spec hr
    rw [refine_eq_ok hr hget]
    refine hK.recode hu ?_
    change ((if _ then _ else _ : ScopeTree).scope home).get? name = _
    split
    · rfl
    · rw [get?_modifyScope_replace, if_neg hne]
  · exact hu

namespace Context

variable {ctx : Context σ} {obtain : BodySource σ} {R : List NodeId}

/-- Calling another function, or the same once more, does not touch the descriptor of a function
that is being resolved. -/
theorem keeps_definedType (hK : IsAbout K home name f) (hf : f ∈ R)
    (hreturn : ∀ g, Check.Keeps K (ctx.judge (.returnType (g :: R) g)))
    (hmatures : ∀ g, Obeys LetsMature (ctx.judge (.returnType (g :: R) g)))
    {s : CheckState σ} (hs : K s) {scope r : ScopeId} {other : String} {g x : NodeId}
    (hr : s.code.scopes.declaring? scope other = some r)
    (hplace : r = home → other = name → g = f) :
    K (exec (ctx.definedType R x scope other g) s).2 := by
  unfold definedType
  rw [exec_bind, exec_modifyCode]
  dsimp only
  have hs' : K { s with code := s.code.setDefinition x g } := hK.recode hs rfl
  unfold functionType
  by_cases hg : R.contains g
  · rw [if_pos hg]
    exact hs'
  rw [if_neg hg, exec_bind]
  have hu := hreturn g _ hs'
  have hmature := hmatures g { s with code := s.code.setDefinition x g }
  generalize exec (ctx.judge (.returnType (g :: R) g)) _ = out at hu hmature
  match out, hu, hmature with
  | (.error halt, u), hu, _ => exact hu
  | (.ok type, u), hu, hmature =>
    dsimp only
    -- The name still leads where it led, and that is not where the function is declared.
    have hne : ¬(home = r ∧ name = other) := by
      rintro ⟨rfl, rfl⟩
      have hgf := hplace rfl rfl
      exact hg (List.contains_iff_mem.mpr (hgf ▸ hf))
    have hlast := hK.complete hu (hmature.declaring? hr) hne type
    rw [exec_bind]
    generalize exec (complete scope other type) u = last at hlast
    match last, hlast with
    | (.ok _, w), hw => exact hw
    | (.error _, w), hw => exact hw

/-- The rule for calls does not touch the descriptor of a function that is being resolved, if
obtaining bodies does not. -/
theorem keeps_callType (hK : IsAbout K home name f) (hf : f ∈ R)
    (htype : ∀ y, Check.Keeps K (ctx.judge (.typeOf R y)))
    (hreturn : ∀ g, Check.Keeps K (ctx.judge (.returnType (g :: R) g)))
    (hmatures : ∀ g, Obeys LetsMature (ctx.judge (.returnType (g :: R) g)))
    (hobtain : ∀ scope x other s, K s → s.code.scopes.binding? scope other = some .unresolved →
      K (exec (obtain scope x other) s).2 ∧ LetsMature s (exec (obtain scope x other) s).2)
    (x : NodeId) (other : String) : Check.Keeps K (ctx.callType obtain R x other) := by
  intro s hs
  rw [exec_callType]
  cases hb : s.code.scopes.binding? (s.code.node x).scope other with
  | none =>
    change K (exec (if ctx.spec.isBuiltin other then _ else _) s).2
    split
    · exact keeps_operationType other (fun y _ => htype y) s hs
    · exact hs
  | some b =>
    obtain ⟨r, hr, hbind⟩ := binding?_eq_some_iff.mp hb
    cases b with
    | pending => exact hs
    | resolved g =>
      refine keeps_definedType hK hf hreturn hmatures hs hr ?_
      rintro rfl rfl
      cases hbind.symm.trans (hK.resolved hs)
      rfl
    | unresolved =>
      obtain ⟨hw, hmature⟩ := hobtain _ x other s hs hb
      unfold boundType
      rw [exec_bind]
      generalize exec (obtain (s.code.node x).scope x other) s = out at hw hmature
      match out, hw, hmature with
      | (.error halt, w), hw, _ => exact hw
      | (.ok g, w), hw, hmature =>
        refine keeps_definedType hK hf hreturn hmatures hw (hmature.declaring? hr) ?_
        rintro rfl rfl
        cases hbind.symm.trans (hK.resolved hs)

end Context

/-- **While a function is being resolved** its descriptor is not touched by judgements, unless it is
when the body of a function is being obtained. -/
theorem Supply.keeps_resolving (supply : Supply σ) (spec : OpSpec) (hK : IsAbout K home name f)
    (hmatures : ∀ d config {α : Type} (j : Judgement α),
      Obeys LetsMature ((supply.context spec d config).judge j))
    (hobtain : ∀ d scope x other s, K s → s.code.scopes.binding? scope other = some .unresolved →
      let out := exec (supply (fun config => (supply.context spec d config).answer) scope x other) s
      K out.2 ∧ LetsMature s out.2)
    (d : Nat) (config : Config) (R : List NodeId) (hf : f ∈ R) :
    (∀ y, Check.Keeps K ((supply.context spec d config).judge (.typeOf R y))) ∧
      ∀ y, Check.Keeps K ((supply.context spec d config).judge (.returnType R y)) := by
  induction d generalizing R with
  | zero => exact ⟨fun _ _ => id, fun _ _ => id⟩
  | succ d ih =>
    refine ⟨fun y => ?_, fun y => Context.keeps_returnTypeRule (ih R hf).1 (ih R hf).2⟩
    refine Context.keeps_typeRule hK.recordable (fun _ _ z _ => (ih R hf).1 z) fun _ other _ _ => ?_
    exact Context.keeps_callType hK hf (ih R hf).1
      (fun g => (ih (g :: R) (List.mem_cons_of_mem g hf)).2 g) (fun g => hmatures d config _)
      (hobtain d) y other

end

/-! ### The type of a call -/

/-- The descriptor of a name in a scope, if there is one, has no known type. -/
def ScopeTree.UntypedAt (t : ScopeTree) (home : ScopeId) (name : String) : Prop :=
  ∀ d, (t.scope home).get? name = some d → ¬d.type.isKnown

section

variable {σ : Type} {home : ScopeId} {name : String} {f : NodeId} {A : σ → Prop}

/-- A function that a scope declares has a certain definition, and its descriptor has no known type
as long as the notes are as `A` says. -/
structure UntypedWhile (A : σ → Prop) (home : ScopeId) (name : String) (f : NodeId)
    (s : CheckState σ) : Prop where
  resolved : s.code.scopes.bindingAt home name = some (.resolved f)
  untyped : A s.notes → s.code.scopes.UntypedAt home name

theorem UntypedWhile.isAbout : IsAbout (UntypedWhile A home name f) home name f where
  resolved h := h.resolved
  recode h hget := by
    refine ⟨?_, fun hnotes d hd => h.untyped hnotes d (hget ▸ hd)⟩
    have hresolved := h.resolved
    unfold ScopeTree.bindingAt at hresolved ⊢
    rwa [hget]

end

namespace Checker

variable {σ : Type} (checker : Checker σ)

/-- Without a parser, the attempt to obtain a body leaves all descriptors as they are. -/
theorem get?_observedSupply (hparser : checker.parser = none)
    (answer : Config → {β : Type} → Query β → Check (Observed σ) β) {scope : ScopeId}
    {name : String} (call : NodeId) {s : CheckState (Observed σ)}
    (hname : s.code.scopes.binding? scope name = some .unresolved) (r : ScopeId) (n : String) :
    ((exec (checker.observedSupply answer scope call name) s).2.code.scopes.scope r).get? n =
      (s.code.scopes.scope r).get? n := by
  obtain ⟨u, t, hu, ht, -, hget⟩ := exists_setBinding_unresolved hname call
  rw [exec_observedSupply, hparser]
  generalize (⟨scope, call, name, s.code.scopes.declaring? scope name⟩ : Occasion) = o
  have hname' : (s.mark (.opened o)).code.scopes.binding? scope name = some .unresolved := hname
  obtain ⟨e, he⟩ := Context.exec_materialize_none (x := call) hname'
  dsimp only [Option.map]
  rw [he]
  change ((s.code.scopes.putBack scope name call).scope r).get? n = _
  unfold putBack
  simp only [hu, ht]
  exact hget r n

/-- Nothing has been in the way of giving a function a type: either there is no parser, and the
function is declared without one, or its descriptor has had none at any moment observed. -/
def Quiet (home : ScopeId) (name : String) (declared : Ty) (past : List CompilationUnit)
    (notes : Observed σ) : Prop :=
  checker.parser = none ∧ ¬declared.isKnown ∨
    ∀ code ∈ past ++ notes.2.map Event.code, code.scopes.UntypedAt home name

variable (hrespects : checker.Restricted fun s _ e => e.Respects s.code.scopes)
  {home scope : ScopeId} {name : String} {declared type : Ty} {past : List CompilationUnit}
  {f call : NodeId}

include hrespects

/-- As long as nothing has been in the way of it, a descriptor has no type after an attempt to
obtain a body if it had none before: the moment when the attempt comes to an end is observed. -/
theorem untypedAt_observedSupply (d : Nat) (x : NodeId) {other : String}
    {s : CheckState (Observed σ)}
    (hs : checker.Quiet home name declared past s.notes → s.code.scopes.UntypedAt home name)
    (hother : s.code.scopes.binding? scope other = some .unresolved) :
    let out := exec (checker.observedSupply
      (fun config => (checker.observedSupply.context checker.spec d config).answer) scope x
      other) s
    checker.Quiet home name declared past out.2.notes → out.2.code.scopes.UntypedAt home name := by
  rintro out (hparser | hmoments)
  · intro found hfound
    have hget := checker.get?_observedSupply hparser.1
      (fun config => (checker.observedSupply.context checker.spec d config).answer) x hother home
      name
    exact hs (.inl hparser) found (hget.symm.trans hfound)
  · obtain ⟨-, o, r, v, hexec, -⟩ := checker.exists_observedSupply hrespects d
      (checker.matured_answer hrespects d) scope x other s hother
    change out = _ at hexec
    rw [hexec] at hmoments ⊢
    refine hmoments v.code (List.mem_append_right _ ?_)
    simp [CheckState.mark, Event.code]

/-- While a function is being resolved, obtaining the bodies of others leaves its descriptor without
a type, as long as nothing has been in the way of it. -/
theorem untypedWhile_observedSupply (d : Nat) (scope : ScopeId) (x : NodeId) (other : String)
    (s : CheckState (Observed σ))
    (hs : UntypedWhile (checker.Quiet home name declared past) home name f s)
    (hother : s.code.scopes.binding? scope other = some .unresolved) :
    let out := exec (checker.observedSupply
      (fun config => (checker.observedSupply.context checker.spec d config).answer) scope x
      other) s
    UntypedWhile (checker.Quiet home name declared past) home name f out.2 ∧
      LetsMature s out.2 := by
  obtain ⟨-, o, r, v, hexec, -, hmatured, -⟩ := checker.exists_observedSupply hrespects d
    (checker.matured_answer hrespects d) scope x other s hother
  have hquiet := checker.untypedAt_observedSupply hrespects d x hs.untyped hother
  dsimp only at hquiet ⊢
  rw [hexec] at hquiet ⊢
  exact ⟨⟨hmatured.scopes.holds home name _ nofun hs.resolved, hquiet⟩, hmatured.scopes⟩

/-- The type of a call of a function with a definition is entered in the descriptor of the function.
This has no type by then, if nothing has been in the way of it. -/
theorem exists_of_exec_definedType {d : Nat} {config : Config} {w v : CheckState (Observed σ)}
    (hhome : w.code.scopes.declaring? scope name = some home)
    (hw : UntypedWhile (checker.Quiet home name declared past) home name f w)
    (h : exec ((checker.observedSupply.context checker.spec d config).definedType [] call scope name
      f) w = (.ok type, v)) (hknown : type.isKnown) :
    ∃ u last, Matured w u ∧ u.code.scopes.find? scope name = some last ∧ v.notes = u.notes ∧
      u.code.scopes.refine scope name type = .ok v.code.scopes ∧
      (checker.Quiet home name declared past u.notes → ¬last.type.isKnown) := by
  obtain ⟨u, hu, hlast⟩ := Context.exec_definedType_eq_ok h
  have hset : UntypedWhile (checker.Quiet home name declared past) home name f
      { w with code := w.code.setDefinition call f } := UntypedWhile.isAbout.recode hw rfl
  have hresolving : Check.Keeps (UntypedWhile (checker.Quiet home name declared past) home name f)
      ((checker.observedSupply.context checker.spec d config).judge (.returnType [f] f)) :=
    (checker.observedSupply.keeps_resolving checker.spec UntypedWhile.isAbout
      (fun d config _ j s => (checker.matured hrespects d config j s).scopes)
      (checker.untypedWhile_observedSupply hrespects) d config [f] List.mem_cons_self).2 f
  have huntyped := hresolving.after hset hu
  have hconnected : Matured w { w with code := w.code.setDefinition call f } :=
    .of_matures (.refl _)
  have hmatured : Matured w u :=
    hconnected.trans ((checker.matured hrespects d config (.returnType [f] f)).after hu)
  obtain ⟨-, dw, hdw⟩ := declaring?_spec hhome
  obtain ⟨last, hget, -⟩ := hmatured.scopes.kept home name dw hdw
  have hfound := find?_eq_some_iff.mpr ⟨home, hmatured.scopes.declaring? hhome, hget⟩
  rcases exec_complete_eq_ok hlast with ⟨hunknown, -⟩ | ⟨-, scopes, hrefine, rfl⟩
  · exact absurd hknown hunknown
  · exact ⟨u, last, hmatured, hfound, rfl, hrefine, fun hquiet => huntyped.untyped hquiet last hget⟩

/-- **The type of a call is entered in the descriptor** of the function that it means, whether the
function had a body or that has been obtained for the call. The descriptor has no type by then, if
nothing has been in the way of it. -/
theorem exists_of_exec_typeOf {d : Nat} {config : Config} {s v : CheckState (Observed σ)}
    {old : Descriptor} (hform : s.code.form call = .call name)
    (hstored : ¬(s.code.node call).type.isKnown)
    (hhome : s.code.scopes.declaring? (s.code.node call).scope name = some home)
    (hold : (s.code.scopes.scope home).get? name = some old) (hfunc : old.isFunc)
    (h : exec ((checker.observedSupply.context checker.spec (d + 1) config).judge (.typeOf [] call))
      s = (.ok type, v)) (hknown : type.isKnown) (hpast : s.code ∈ past) :
    ∃ u last, Matured s u ∧ u.code.scopes.find? (s.code.node call).scope name = some last ∧
      v.notes = u.notes ∧
      u.code.scopes.refine (s.code.node call).scope name type = .ok v.code.scopes ∧
      (checker.Quiet home name old.type past u.notes → ¬last.type.isKnown) := by
  obtain ⟨b, hb⟩ := Option.isSome_iff_exists.mp hfunc
  have hbound : s.code.scopes.bindingAt home name = some b :=
    Option.bind_eq_some_iff.mpr ⟨old, hold, hb⟩
  have hname := binding?_eq_some_iff.mpr ⟨home, hhome, hbound⟩
  have hstart : checker.Quiet home name old.type past s.notes →
      s.code.scopes.UntypedAt home name := by
    rintro (⟨-, hunknown⟩ | hmoments)
    · intro found hfound
      cases hold.symm.trans hfound
      exact hunknown
    · exact hmoments s.code (List.mem_append_left _ hpast)
  replace h := (Context.exec_typeRule_call hform).symm.trans h
  obtain ⟨hrecorded, -⟩ | ⟨-, w, hw, rfl⟩ := exec_memo_eq_ok (exec_located_eq_ok h)
  · exact absurd hrecorded hstored
  rw [if_pos hknown]
  rw [Context.exec_callType, hname] at hw
  cases b with
  | pending =>
    cases hw
    cases hknown
  | resolved f =>
    obtain ⟨u, last, hmatured, hrest⟩ :=
      checker.exists_of_exec_definedType hrespects hhome ⟨hbound, hstart⟩ hw hknown
    exact ⟨u, last, hmatured, hrest⟩
  | unresolved =>
    obtain ⟨f, t, ht, hrest⟩ := exec_bind_eq_ok hw
    have hobtained := checker.untypedAt_observedSupply hrespects d call hstart hname
    obtain ⟨home', o, r, v, hexec, hhome', hmatured, hdefined⟩ := checker.exists_observedSupply
      hrespects d (checker.matured_answer hrespects d) _ call name s hname
    cases hhome.symm.trans hhome'
    dsimp only at hobtained
    rw [ht] at hobtained
    cases hexec.symm.trans ht
    have hmark := hmatured.mark (.closed o (.ok f)) fun _ => rfl
    obtain ⟨u, last, hmatured', hrest⟩ := checker.exists_of_exec_definedType hrespects
      (hmark.scopes.declaring? hhome) ⟨hdefined f rfl, hobtained⟩ hrest hknown
    exact ⟨u, last, hmark.trans hmatured', hrest⟩

/-- A call that is given a known type leaves a descriptor with one, which is that of the call if
nothing has been in the way of it. -/
theorem exists_of_ask_typeOf {s : CheckState σ} {d : Descriptor}
    (hform : s.code.form call = .call name) (hstored : ¬(s.code.node call).type.isKnown)
    (hhome : s.code.scopes.declaring? (s.code.node call).scope name = some home)
    (hd : (s.code.scopes.scope home).get? name = some d) (hfunc : d.isFunc)
    (hanswer : (checker.ask (.typeOf call) s).1 = .ok type) (hknown : type.isKnown) :
    let t := (checker.ask (.typeOf call) s).2.code.scopes
    ∃ d', t.declaring? (s.code.node call).scope name = some home ∧
      (t.scope home).get? name = some d' ∧ d.Matures d' ∧ d'.type.isKnown ∧
      (checker.Quiet home name d.type [s.code]
        (checker.watch s.watched ⟨checker.config, .typeOf call⟩).notes → d'.type = type) := by
  intro t
  obtain ⟨depth, hdepth, -⟩ := checker.exists_ask_eq s
  let v := checker.watch s.watched ⟨checker.config, .typeOf call⟩
  have hexec : exec ((checker.observedSupply.context checker.spec (depth + 1)
      checker.config).judge (.typeOf [] call)) s.watched = (.ok type, v) := by
    rw [← hdepth]
    exact Prod.ext ((checker.related_watch s.watched checker.config (.typeOf call)).answer.trans
      hanswer) rfl
  obtain ⟨u, last, hmatured, hlast, hnotes, hrefine, hquiet⟩ := checker.exists_of_exec_typeOf
    hrespects (s := s.watched) hform hstored hhome hd hfunc hexec hknown
    (List.mem_singleton_self s.code)
  rw [checker.code_watch] at hrefine
  have hmatures : s.code.scopes.Matures t := hmatured.scopes.trans (.refine hrefine)
  obtain ⟨d', hget, hdmatures⟩ := hmatures.kept home name d hd
  -- What is entered in the end is the type of the call, unless the descriptor has one by then.
  have htype : d'.type = if last.type.isKnown then last.type else type := by
    obtain ⟨found, hfound, htype⟩ := exists_find?_of_refine hlast hrefine
    have hfound' := find?_eq_some_iff.mpr ⟨home, hmatures.declaring? hhome, hget⟩
    cases hfound'.symm.trans hfound
    exact htype
  refine ⟨d', hmatures.declaring? hhome, hget, hdmatures, ?_, fun hnothing => ?_⟩
  · rw [htype]
    split
    · assumption
    · exact hknown
  · rw [htype, if_neg (hquiet (hnotes ▸ hnothing))]

/-- **When a call and the descriptor of its function have the same type.** Let a call be given a
known type, by a checker whose parser respects the names that it finds. Its name still leads to the
function, whose descriptor now has a known type. This is the type that has been declared, if one has
been. It is that of the call if and only if the descriptor had no other type at any moment of the
run. Without a parser this means that the function has been declared without a type, or with that
one. -/
theorem descriptor_agrees_iff {s : CheckState σ} {d : Descriptor}
    (hform : s.code.form call = .call name) (hstored : ¬(s.code.node call).type.isKnown)
    (hhome : s.code.scopes.declaring? (s.code.node call).scope name = some home)
    (hd : (s.code.scopes.scope home).get? name = some d) (hfunc : d.isFunc)
    (hanswer : (checker.ask (.typeOf call) s).1 = .ok type) (hknown : type.isKnown) :
    let t := (checker.ask (.typeOf call) s).2.code.scopes
    ∃ d', t.declaring? (s.code.node call).scope name = some home ∧
      (t.scope home).get? name = some d' ∧ d'.isFunc ∧ d'.type.isKnown ∧
      (d.type.isKnown → d'.type = d.type) ∧
      (d'.type = type ↔ ∀ code ∈ s.code :: checker.moments (.typeOf call) s, ∀ d₁,
        (code.scopes.scope home).get? name = some d₁ → d₁.type.isKnown → d₁.type = type) ∧
      (checker.parser = none → (d'.type = type ↔ d.type.isKnown → d.type = type)) := by
  intro t
  obtain ⟨d', hdeclaring, hget, hmatures, hknown', hquiet⟩ := checker.exists_of_ask_typeOf
    hrespects hform hstored hhome hd hfunc hanswer hknown
  -- A type that was known at some moment is the one in the end.
  have hearlier : ∀ code ∈ s.code :: checker.moments (.typeOf call) s, ∀ d₁,
      (code.scopes.scope home).get? name = some d₁ → d₁.type.isKnown → d'.type = d₁.type := by
    intro code hcode d₁ hd₁ hknown₁
    obtain ⟨_, hsame, htype₁⟩ := checker.keepsTypes_moments hrespects (.typeOf call) (.of_get? hd)
      code hcode home d₁ hd₁ hknown₁
    cases hget.symm.trans hsame
    exact htype₁
  refine ⟨d', hdeclaring, hget, hmatures.kind.isFunc_eq.trans hfunc, hknown', hmatures.type,
    ⟨fun heq code hcode d₁ hd₁ hknown₁ => ?_, fun hall => ?_⟩,
    fun hparser => ⟨fun heq hdeclared => ?_, fun hdeclared => ?_⟩⟩
  · exact (hearlier code hcode d₁ hd₁ hknown₁).symm.trans heq
  · by_cases hnothing : ∀ code ∈ s.code :: checker.moments (.typeOf call) s,
        code.scopes.UntypedAt home name
    · exact hquiet (.inr hnothing)
    · unfold UntypedAt at hnothing
      push Not at hnothing
      obtain ⟨code, hcode, d₁, hd₁, hknown₁⟩ := hnothing
      exact (hearlier code hcode d₁ hd₁ hknown₁).trans (hall code hcode d₁ hd₁ hknown₁)
  · exact (hmatures.type hdeclared).symm.trans heq
  · by_cases hk : d.type.isKnown
    · exact (hmatures.type hk).trans (hdeclared hk)
    · exact hquiet (.inl ⟨hparser, hk⟩)

end Checker

/-- A call of a function `f` declared with a certain type, and two definitions for it, of which the
first returns bytes and the second one returns a number. -/
def CompilationUnit.twoBodies (f : Descriptor) : CompilationUnit where
  nodes := #[.ofForm 0 (.literal .bytes "\"a\""), .ofForm 0 (.ret (some 0) none),
    { Node.ofForm 0 (.function "f" [] false) with children := [1] },
    .ofForm 0 (.literal .uint64 "1"), .ofForm 0 (.ret (some 3) none),
    { Node.ofForm 0 (.function "f" [] false) with children := [4] }, .ofForm 0 (.call "f")]
  scopes := ⟨#[{ Scope.fresh "global" none 0 with entries := [("f", f)] }], .initial⟩

/-- A parser that has one definition checked, and supplies another one or the same. -/
def BodyParser.choosing (checked supplied : NodeId) : BodyParser Unit where
  parse _ _ _ := .query .strict (.function checked) fun _ => .done (.ok supplied)
  depth := 0

namespace Checker

/-- A parser that makes no edits is restricted to any. -/
theorem choosing_restricted (checked supplied : NodeId)
    {allowed : CheckState Unit → ∀ {β : Type}, Edit β → Prop} :
    (⟨Standard.spec, .strict, some (.choosing checked supplied)⟩ : Checker Unit).Restricted
      allowed := by
  rintro parser hparser d scope call name s
  cases hparser
  rw [BodyParser.choosing, Script.Restricted]
  split <;> trivial

/-- A function declared without a type, whose definition is checked before it is supplied, has that
of its first call. -/
theorem descriptor_agrees_iff_twoBodies :
    let checker : Checker Unit := ⟨Standard.spec, .strict, some (.choosing 2 2)⟩
    let s : CheckState Unit := ⟨.twoBodies ⟨"f", .unknown, .func .unresolved⟩, ()⟩
    (checker.ask (.typeOf 6) s).1 = .ok .bytes ∧
      ∃ d', ((checker.ask (.typeOf 6) s).2.code.scopes.scope 0).get? "f" = some d' ∧
        d'.type = .bytes := by
  intro checker s
  have hform : s.code.form 6 = .call "f" := rfl
  have hhome : s.code.scopes.declaring? (s.code.node 6).scope "f" = some 0 := rfl
  have hd : (s.code.scopes.scope 0).get? "f" = some ⟨"f", .unknown, .func .unresolved⟩ := rfl
  have hanswer : (checker.ask (.typeOf 6) s).1 = .ok .bytes := by decide +kernel
  have hstored : ¬(s.code.node 6).type.isKnown := by decide
  have hall := checker.descriptor_agrees_iff (choosing_restricted 2 2) hform hstored hhome hd rfl
    hanswer rfl
  obtain ⟨d', -, hget, -, -, -, hagrees, -⟩ := hall
  have hmoments : ∀ code ∈ s.code :: checker.moments (.typeOf 6) s,
      ((code.scopes.scope 0).get? "f").map Descriptor.type ∈ [some .unknown, some .bytes] := by
    decide +kernel
  refine ⟨hanswer, d', hget, hagrees.mpr fun code hcode d₁ hd₁ hknown => ?_⟩
  have htype := hmoments code hcode
  rw [hd₁] at htype
  rcases List.mem_pair.mp htype with hunknown | hbytes
  · rw [Option.some.inj hunknown] at hknown
    cases hknown
  · exact Option.some.inj hbytes

/-- **Calls and descriptors disagree.** The call of a function with a body that returns bytes is one
of bytes, although the function is declared to return a number, and stays declared so. And if a
parser has a definition checked that returns a number before it supplies the one that returns bytes,
the same comes out for a function that is declared without a type. -/
theorem descriptor_disagrees :
    let checker : Checker Unit := ⟨Standard.spec, .strict, none⟩
    let choosing : Checker Unit := ⟨Standard.spec, .strict, some (.choosing 5 2)⟩
    let declared : CheckState Unit := ⟨.twoBodies ⟨"f", .uint64, .func (.resolved 2)⟩, ()⟩
    let undeclared : CheckState Unit := ⟨.twoBodies ⟨"f", .unknown, .func .unresolved⟩, ()⟩
    ((checker.ask (.typeOf 6) declared).1 = .ok .bytes ∧
      (checker.ask (.typeOf 6) declared).2.code.scopes.find? 0 "f" =
        some ⟨"f", .uint64, .func (.resolved 2)⟩) ∧
    (choosing.Restricted fun s _ e => e.Respects s.code.scopes) ∧
      (choosing.ask (.typeOf 6) undeclared).1 = .ok .bytes ∧
      (choosing.ask (.typeOf 6) undeclared).2.code.scopes.find? 0 "f" =
        some ⟨"f", .uint64, .func (.resolved 2)⟩ :=
  ⟨⟨by rfl, by rfl⟩, choosing_restricted 5 2, by decide +kernel, by decide +kernel⟩

end Checker

end ContractLang
