import ContractLang.Proofs.Statements.Growth
import ContractLang.Proofs.Statements.Replay

/-!
# Going through assignments and functions again

Part by part, the rules for statements can be gone through again in the end. Descriptors that a
value has been bound to fit it ever after, functions are connected with their definitions
already, and so what is done to the unit in the course of an assignment
(`ContractLang.Context.repeats_checkTargets`) or for the name of a function
(`ContractLang.Context.repeats_reconcile`) is done without effect.
-/

namespace ContractLang

open Check Typing

variable {σ : Type}

/-! ### Descriptors -/

section Descriptors

variable {code : CompilationUnit} {scope : ScopeId} {name : String} {type : Ty} {s t : CheckState σ}
  {d : Descriptor}

/-- A descriptor that a type does not clash with has this type once it has been completed. -/
theorem Check.exists_find?_of_complete (hd : s.code.scopes.find? scope name = some d)
    (hfits : ¬d.type.clashes type) (h : exec (complete scope name type) s = (.ok (), t))
    (hcode : t.code.RefinesTo code) :
    ∃ d', code.scopes.find? scope name = some d' ∧ ¬d'.type.clashes type ∧
      (type.isKnown → d'.type.isKnown) := by
  rcases exec_complete_eq_ok h with ⟨hunknown, rfl⟩ | ⟨hknown, scopes, hscopes, rfl⟩
  · obtain ⟨d', hd', -⟩ := hcode.scopes.exists_find? hd
    refine ⟨d', hd', ?_, fun hknown => absurd hknown hunknown⟩
    unfold Ty.clashes
    simp [hunknown]
  · obtain ⟨d₁, hd₁, htype⟩ := ScopeTree.exists_find?_of_refine hd hscopes
    obtain ⟨d', hd', hrel⟩ := hcode.scopes.exists_find? hd₁
    have hd₁type : d₁.type = type := by
      rw [htype]
      split
      · next hdknown => exact Ty.eq_of_not_clashes hdknown hknown hfits
      · rfl
    have hd'type : d'.type = type := (hrel.type_eq (by rwa [hd₁type])).trans hd₁type
    refine ⟨d', hd', ?_, fun _ => by rwa [hd'type]⟩
    rw [hd'type, Ty.clashes_self]
    exact Bool.false_ne_true

/-- Completing a descriptor that has a type already changes nothing. -/
theorem Check.replays_complete (hd : code.scopes.find? scope name = some d)
    (hknown : type.isKnown → d.type.isKnown) :
    Replays code (complete scope name type : Check σ Unit) () := by
  unfold complete
  split
  · next htype =>
    intro w hw
    have hrefine : w.code.scopes.refine scope name type = .ok w.code.scopes := by
      rw [hw.scopes]
      exact ScopeTree.refine_of_isKnown hd (hknown htype)
    exact ⟨w, by rw [exec_changeScopes, hrefine]; rfl, hw⟩
  · exact .pure ()

end Descriptors

namespace Context

/-! ### Single effects -/

section Effects

variable {T : Typing} {start : CompilationUnit} {x : NodeId} {scope : ScopeId} {name : String}
  {type : Ty}

theorem repeats_bindTarget :
    Repeats T start (bindTarget x scope name type : Check σ Unit) where
  spares base _ := keeps_bindTarget (completable_spares base scope name) type
  replays {s answer t} hs h ht := by
    cases answer
    obtain ⟨d, hd, hclash, hcomplete⟩ := exec_bindTarget_eq_ok h
    obtain ⟨d', hd', hclash', hknown⟩ := exists_find?_of_complete hd hclash hcomplete ht.refines
    have hrest : Replays T.code (do
        Check.rejectIf (d'.type.clashes type) (typeMismatch x d'.type type)
        complete scope name type : Check σ Unit) () :=
      (Replays.rejectIf hclash').bind (replays_complete hd' hknown)
    refine hrest.congr fun w hw => ?_
    unfold bindTarget
    rw [exec_bind, exec_code]
    dsimp only
    rw [hw.scopes, ScopeTree.lookup_of_find? hd']
    rfl

/-- A definition leaves no name unresolved that it is the definition of. -/
theorem binding?_ne_of_bindDefinition {s t : CheckState σ} {code : CompilationUnit}
    (h : exec (bindDefinition scope name x) s = (.ok (), t)) (ht : t.code.RefinesTo code) :
    code.scopes.binding? scope name ≠ some .unresolved := by
  rcases exec_bindDefinition_eq_ok h with ⟨hname, scopes, hscopes, rfl⟩ | ⟨hname, rfl⟩
  · obtain ⟨d, hd, hrole⟩ := ScopeTree.exists_of_unresolved hname
    obtain ⟨home, hhome, hget⟩ := ScopeTree.find?_eq_some_iff.mp hd
    rw [ScopeTree.setBinding_eq_ok hhome hget
      (by rw [Descriptor.isFunc, Descriptor.binding?, hrole]; rfl)] at hscopes
    obtain rfl := Except.ok.inj hscopes
    have hbound := ScopeTree.binding?_of_find?
      (ScopeTree.find?_replace (d := { d with role := .func (.resolved x) }) hhome hget)
    rw [ht.scopes.binding?_eq_some (b := .resolved x) hbound (by simp)]
    simp
  · intro hunresolved
    obtain ⟨d', hd', hrole⟩ := ScopeTree.exists_of_unresolved hunresolved
    obtain ⟨d, hd, hrel⟩ := ht.scopes.exists_of_find? hd'
    refine hname ?_
    rw [ScopeTree.binding?_of_find? hd]
    rcases hrel.role with heq | ⟨hold, f, hnew⟩
    · rw [Descriptor.binding?, ← heq, hrole]
    · cases hrole.symm.trans hnew

theorem repeats_bindDefinition :
    Repeats T start (bindDefinition scope name x : Check σ Unit) where
  spares base _ := keeps_bindDefinition (survives_spares base) scope name
  replays {s _ t} _ h ht := by
    have hresolved := binding?_ne_of_bindDefinition h ht.refines
    intro w hw
    refine ⟨w, ?_, hw⟩
    unfold bindDefinition
    rw [exec_bind, exec_code]
    dsimp only
    rw [hw.scopes, if_neg hresolved]
    rfl

theorem repeats_reconcile :
    Repeats T start (reconcile x name type : Check σ Unit) where
  spares base _ := keeps_reconcile (fun _ _ => completable_spares base _ name) type
  replays {s answer t} hs h ht := by
    cases answer
    have hst : T.Spared s.code t :=
      (keeps_reconcile (fun _ _ => completable_spares s.code _ name) type).after (.refl _) h
    have hfinal := hst.refines.trans ht.refines
    rcases exec_reconcile_eq_ok h with ⟨hd, -⟩ | ⟨d, hd, hclash, hcomplete⟩
    · have hnone : T.code.scopes.find? (T.code.node x).scope name = none := by
        rw [hfinal.scope]
        cases hd' : T.code.scopes.find? (s.code.node x).scope name with
        | none => rfl
        | some d' =>
          obtain ⟨d, hd₀, -⟩ := hfinal.scopes.exists_of_find? hd'
          cases hd.symm.trans hd₀
      intro w hw
      refine ⟨w, ?_, hw⟩
      unfold reconcile
      rw [exec_bind, exec_code]
      dsimp only
      rw [hw.scopes, hw.refines.scope, hnone]
      rfl
    · obtain ⟨d', hd', hclash', hknown⟩ := exists_find?_of_complete hd hclash hcomplete ht.refines
      intro w hw
      have hscope := (hfinal.trans hw.refines).scope x
      have hrest : Replays T.code (do
          Check.rejectIf (d'.type.clashes type) (raiseAt (w.code.node x).position
            (.typeMismatch d'.type.name type.name (w.code.render x)))
          complete (s.code.node x).scope name type : Check σ Unit) () :=
        (Replays.rejectIf hclash').bind (replays_complete hd' hknown)
      suffices hexec : exec (reconcile x name type) w = exec _ w by
        rw [hexec]
        exact hrest w hw
      unfold reconcile
      rw [exec_bind, exec_code]
      dsimp only
      rw [hw.scopes, hscope, hd']

variable {ctx : Context σ} {Q : NodeId → Prop} (h : ctx.Faithful T start Q) {value : NodeId}

include h

theorem repeats_checkTargets (targets : Targets) (hvalue : Q value)
    (hform : 0 < (start.form x).arity) :
    Repeats T start (ctx.checkTargets x scope targets value) := by
  refine (repeats_checkExpr h hvalue).discard.bind fun _ =>
    (repeats_valueTypes h targets hvalue).bind fun types => ?_
  refine (Repeats.forM fun _ _ => repeats_bindTarget).bind fun _ => ⟨fun base hbase s hs => ?_,
    fun {s _ t} hs hexec ht w hw => ?_⟩
  · exact (survives_spares base).targetTypes hs (by rwa [hbase.form])
  · cases hexec
    have hs' : start.RefinesTo (s.code.setTargetTypes x types) := hs.setTargetTypes hform
    exact ⟨_, rfl, hw.setTargetTypes (by rwa [(hs'.trans ht.refines).form])⟩

theorem repeats_checkInnerField {field : String} (hvalue : Q value)
    (hform : start.form x = .innerField field value) :
    Repeats T start (ctx.checkInnerField x field value) := by
  refine .bind (.liftExcept _) fun expected => (repeats_checkExpr h hvalue).bind fun received => ?_
  refine .bind (.rejectIf _ (fun _ => .typeMismatch _ _ _) fun _ => ⟨_, rfl⟩) fun _ =>
    ⟨fun base hbase s hs => ?_, fun {s _ t} hs hexec ht w hw => ?_⟩
  · exact (survives_spares base).innerType hs ((hbase.form x).trans hform)
  · cases hexec
    have hs' : start.RefinesTo (s.code.setType x expected) := hs.setInnerType hform
    exact ⟨_, rfl, hw.setInnerType (((hs'.trans ht.refines).form x).trans hform)⟩

end Effects

/-! ### Rules for statements -/

section Statements

variable {code : CompilationUnit} {ctx : Context σ} {x : NodeId} {s : CheckState σ}

/-- A statement is checked again by its form. -/
theorem replays_statementRule (hs : s.code.RefinesTo code)
    (h : Replays code (ctx.checkForm x (s.code.node x).scope (s.code.form x)) ()) :
    Replays code (ctx.statementRule x) () := by
  refine Replays.congr (h.located (s.code.node x).position) fun w hw => ?_
  have hw' := hs.trans hw.refines
  have hposition : (w.code.node x).position = (s.code.node x).position :=
    Node.congr_fixed Node.position (fun _ => rfl) (hw'.fixed x)
  unfold statementRule
  rw [exec_bind, exec_node]
  dsimp only
  rw [hposition, hw'.scope, show (w.code.node x).form = s.code.form x from hw'.form x]

/-- All children of a node are checked again. -/
theorem replays_checkChildren
    (h : ∀ child ∈ code.children x, Replays code (ctx.judge (.statement child)) ()) :
    Replays code (ctx.checkChildren x) () := by
  have hall : ∀ xs : List NodeId, (∀ child ∈ xs, Replays code (ctx.judge (.statement child)) ()) →
      Replays code (xs.forM fun child => ctx.judge (.statement child)) () := by
    intro xs
    induction xs with
    | nil => exact fun _ => .pure ()
    | cons child rest ih =>
      intro h
      exact (h child List.mem_cons_self).bind (f := fun _ => rest.forM fun child =>
        ctx.judge (.statement child)) (ih fun y hy => h y (List.mem_cons_of_mem child hy))
  refine (hall _ h).congr fun w hw => ?_
  unfold checkChildren
  rw [exec_bind, exec_code]
  dsimp only
  rw [hw.refines.children]

/-- A function is checked again part by part. -/
theorem replays_checkFunction {name : String} {params : List Param} {inlined : Bool} {type : Ty}
    (hform : code.form x = .function name params inlined)
    (hbind : Replays code (bindDefinition (code.node x).scope name x : Check σ Unit) ())
    (hbody : Replays code (ctx.checkChildren x) ()) (hreturns : code.alwaysReturns x)
    (htype : Replays code (ctx.functionType [] x) type)
    (hname : Replays code (reconcile x name type : Check σ Unit) ()) :
    Replays code (ctx.checkFunction x) type := by
  intro w hw
  obtain ⟨u, hu, hstill⟩ := hbind w hw
  obtain ⟨v, hv, hstill⟩ := hbody u hstill
  have hv' : v.code.alwaysReturns x := by rwa [hstill.refines.alwaysReturns]
  obtain ⟨v', htype, hstill⟩ := htype v hstill
  obtain ⟨w', hw', hstill⟩ := hname v' hstill
  refine ⟨w', ?_, hstill⟩
  unfold checkFunction
  rw [exec_bind, exec_node]
  dsimp only
  rw [show (w.code.node x).form = _ from (hw.refines.form x).trans hform, hw.refines.scope]
  dsimp only
  rw [exec_bind, hu]
  dsimp only
  rw [exec_bind, hv]
  dsimp only
  rw [exec_bind, exec_code]
  dsimp only
  rw [exec_bind, exec_rejectIf, if_neg (not_not.mpr hv')]
  dsimp only
  rw [exec_bind, htype]
  dsimp only
  rw [exec_bind, hw']
  rfl

end Statements

end Context

end ContractLang
