import ContractLang.Proofs.Scope.Evolve
import ContractLang.Proofs.Scope.Slots

/-!
# How edits lay out scopes

What an edit makes of a tree of scopes is said once, in a relation that has a case for each
way to succeed and one for all that leaves the tree alone (`ContractLang.Edit.Changes`).
Whatever is shown of the trees that edits lead to goes by cases on it.

Here this is that the scopes stay dense (`ContractLang.ScopeTree.Dense`), unless descriptors
are overwritten. The checker overwrites descriptors, too, but only to complete the type of
one, or to connect a function with its definition, which concern no slot.
-/

namespace ContractLang

namespace ScopeTree

variable {t t' : ScopeTree} {s p parent : ScopeId} {name : String}

/-- A number that belongs to no scope is read as that of an empty one. -/
theorem scope_of_size_le (h : t.scopes.size ≤ s) : t.scope s = default := by
  simp [scope, Array.getD, Nat.not_lt.mpr h]

/-- A scope with a parent exists. -/
theorem lt_size_of_parent (h : (t.scope s).parent = some p) : s < t.scopes.size := by
  by_contra hge
  rw [scope_of_size_le (Nat.not_lt.mp hge)] at h
  cases h

/-- Before anything is declared, all scopes are fresh. -/
theorem exists_scope_initial (name : String) (s : ScopeId) :
    ∃ label, (ScopeTree.initial name).scope s = .fresh label none 0 := by
  rcases Nat.eq_zero_or_pos s with rfl | hs
  · exact ⟨name, rfl⟩
  · exact ⟨"", scope_of_size_le hs⟩

/-- Opening a scope adds a fresh one, and changes no other. -/
theorem scope_openScope : (t.openScope name parent).1.scope s =
    if s = t.scopes.size then .fresh name (some parent) (t.scope parent).nextAddress
    else t.scope s := by
  rcases Nat.lt_trichotomy s t.scopes.size with hlt | rfl | hgt
  · simp [scope, openScope, Array.getD, hlt, Nat.lt_succ_of_lt hlt, Array.getElem_push_lt,
      Nat.ne_of_lt hlt]
  · simp [scope, openScope, Array.getD]
  · simp [scope, openScope, Array.getD, Nat.not_lt_of_gt hgt, Nat.not_lt.mpr hgt, Nat.ne_of_gt hgt]

end ScopeTree

/-! ### What edits make of the scopes -/

/-- What an edit makes of a tree of scopes. -/
inductive Edit.Changes (t : ScopeTree) : {α : Type} → Edit α → ScopeTree → Prop
  /-- The edit fails, or concerns the nodes. -/
  | unchanged {α : Type} {e : Edit α} : Changes t e t
  | openScope {name : String} {parent : ScopeId} :
    Changes t (.openScope name parent) (t.openScope name parent).1
  | declareVar {id : ScopeId} {name : String} {type : Ty} (hnew : ¬(t.scope id).declares name) :
    Changes t (.declareVar id name type) (t.modifyScope id fun s => s.declareVar name type)
  | declareConst {id : ScopeId} {name value : String} {type : Ty} {offset : Nat} {pool : Pool}
    (hnew : ¬(t.scope id).declares name) (hpool : t.pool.intern value type = .ok (offset, pool)) :
    Changes t (.declareConst id name type value)
      ({ t with pool }.modifyScope id fun s => s.insert name ⟨name, type, .const offset value⟩)
  | declareFunc {id : ScopeId} {name : String} {type : Ty} (hnew : ¬(t.scope id).declares name) :
    Changes t (.declareFunc id name type)
      (t.modifyScope id fun s => s.insert name ⟨name, type, .func .unresolved⟩)
  | update {id s : ScopeId} {name : String} {d old : Descriptor}
    (hs : t.declaring? id name = some s) (hold : (t.scope s).get? name = some old)
    (hkind : old.role.sameKind d.role) :
    Changes t (.update id name d) (t.modifyScope s fun scope => scope.replace name d)
  | remap {id : ScopeId} {base : Nat} : Changes t (.remap id base) (t.remap id base)
  | intern {text : String} {type : Ty} {offset : Nat} {pool : Pool}
    (hpool : t.pool.intern text type = .ok (offset, pool)) :
    Changes t (.intern text type) { t with pool }

namespace CompilationUnit

variable {code : CompilationUnit} {α : Type}

/-- The unit after an edit. One that fails leaves it as it was. -/
def edited (code : CompilationUnit) (e : Edit α) : CompilationUnit :=
  match code.apply e with
  | .ok (_, code) => code
  | .error _ => code

theorem edited_of_apply {e : Edit α} {value : α} {code' : CompilationUnit}
    (h : code.apply e = .ok (value, code')) : code.edited e = code' := by
  unfold edited
  rw [h]

/-- **Every edit changes the scopes in one of these ways.** -/
theorem changes_edited (code : CompilationUnit) (e : Edit α) :
    e.Changes code.scopes (code.edited e).scopes := by
  unfold edited
  cases e with
  | create scope form children =>
    have hscopes : (code.create scope form children).1.scopes = code.scopes := scopes_create
    exact hscopes.symm ▸ .unchanged
  | append | addFunction | setPosition => exact .unchanged
  | setField call field =>
    have hscopes : (if code.isCall call then code.setField call field else code).scopes =
        code.scopes := by
      split <;> rfl
    exact hscopes.symm ▸ .unchanged
  | openScope name parent => exact .openScope
  | declareVar scope name type =>
    by_cases hnew : (code.scopes.scope scope).declares name
    · simpa [apply, ScopeTree.declareVar, hnew, Except.map] using .unchanged
    · simpa [apply, ScopeTree.declareVar, hnew, Except.map] using .declareVar hnew
  | declareConst scope name type value =>
    by_cases hnew : (code.scopes.scope scope).declares name
    · simpa [apply, ScopeTree.declareConst, hnew, Except.map] using .unchanged
    · cases hpool : code.scopes.pool.intern value type with
      | ok r =>
        simpa [apply, ScopeTree.declareConst, ScopeTree.intern, hnew, hpool, Except.map] using
          .declareConst hnew hpool
      | error e =>
        simpa [apply, ScopeTree.declareConst, ScopeTree.intern, hnew, hpool, Except.map] using
          .unchanged
  | declareFunc scope name type =>
    by_cases hnew : (code.scopes.scope scope).declares name
    · simpa [apply, ScopeTree.declareFunc, hnew, Except.map] using .unchanged
    · simpa [apply, ScopeTree.declareFunc, hnew, Except.map] using .declareFunc hnew
  | update scope name d =>
    cases hs : code.scopes.declaring? scope name with
    | none => simpa [apply, ScopeTree.update, hs, Except.map] using .unchanged
    | some s =>
      obtain ⟨-, old, hold⟩ := ScopeTree.declaring?_spec hs
      by_cases hkind : old.role.sameKind d.role
      · simpa [apply, ScopeTree.update, hs, hold, hkind, Except.map] using .update hs hold hkind
      · simpa [apply, ScopeTree.update, hs, hold, hkind, Except.map] using .unchanged
  | remap scope base => exact .remap
  | intern text type =>
    cases hpool : code.scopes.pool.intern text type with
    | ok r => simpa [apply, ScopeTree.intern, hpool, Except.map] using .intern hpool
    | error e => simpa [apply, ScopeTree.intern, hpool, Except.map] using .unchanged

end CompilationUnit

/-! ### Dense trees -/

/-- An edit overwrites a descriptor. -/
def Edit.Overwrites {α : Type} : Edit α → Prop
  | .update .. => True
  | _ => False

namespace ScopeTree

/-- The slots of all scopes are dense. -/
def Dense (t : ScopeTree) : Prop :=
  ∀ s, (t.scope s).Dense

namespace Dense

variable {t t' : ScopeTree} {id s : ScopeId} {name : String} {d old : Descriptor}

theorem initial (name : String) : (ScopeTree.initial name).Dense := by
  intro s
  obtain ⟨label, hfresh⟩ := exists_scope_initial name s
  rw [hfresh]
  exact .fresh label none Scope.addressSpace_pos

theorem modifyScope (h : t.Dense) {f : Scope → Scope} (hf : (f (t.scope id)).Dense) :
    (t.modifyScope id f).Dense := by
  intro s
  rw [scope_modifyScope]
  split
  · next hs => exact hs.1 ▸ hf
  · exact h s

/-- **Edits keep the scopes dense**, unless they overwrite descriptors. -/
theorem changes {α : Type} {e : Edit α} (h : t.Dense) (he : ¬e.Overwrites)
    (hchanges : e.Changes t t') : t'.Dense := by
  cases hchanges with
  | unchanged => exact h
  | @openScope name parent =>
    intro s
    rw [scope_openScope]
    split
    · exact .fresh _ _ (h parent).next_lt
    · exact h s
  | declareVar hnew => exact h.modifyScope ((h _).declareVar hnew _)
  | declareConst hnew =>
    exact modifyScope (t := { t with pool := _ }) h ((h _).insert hnew rfl rfl)
  | declareFunc hnew => exact h.modifyScope ((h _).insert hnew rfl rfl)
  | update => exact absurd trivial he
  | remap => exact h.modifyScope ((h _).remap _)
  | intern => exact h

/-- Replacing a descriptor by one of the same name in the same slot, if any. -/
theorem update (h : t.Dense) (hfind : t.find? id name = some old) (hname : d.name = old.name)
    (hslot : old.role.sameKind d.role → d.role.slot? = old.role.slot?)
    (hupdate : t.update id name d = .ok t') : t'.Dense := by
  obtain ⟨s, found, hs, hfound, hkind, rfl⟩ := exists_of_update hupdate
  obtain rfl : found = old :=
    Option.some.inj ((find?_eq_some_iff.mpr ⟨s, hs, hfound⟩).symm.trans hfind)
  exact h.modifyScope ((h s).replace hfound (hname.trans ((h s).name_eq hfound)) (hslot hkind))

/-- Completing the type of a descriptor. -/
theorem refine {type : Ty} (h : t.Dense) (hrefine : t.refine id name type = .ok t') :
    t'.Dense := by
  unfold ScopeTree.refine at hrefine
  split at hrefine
  · next old hlookup =>
    split at hrefine
    · cases hrefine
      exact h
    · exact h.update (d := { old with type }) (lookup_eq_ok_iff.mp hlookup) rfl (fun _ => rfl)
        hrefine
  · cases hrefine

/-- Connecting a function with a definition. -/
theorem setBinding {b : Binding} (h : t.Dense) (hset : t.setBinding id name b = .ok t') :
    t'.Dense := by
  unfold ScopeTree.setBinding at hset
  split at hset
  · next old hlookup =>
    refine h.update (d := { old with role := .func b }) (lookup_eq_ok_iff.mp hlookup) rfl
      (fun hkind => ?_) hset
    -- The descriptor is one of a function before as well.
    cases hrole : old.role <;> rw [hrole] at hkind
    case func => rfl
    all_goals cases hkind
  · cases hset

end Dense

end ScopeTree

end ContractLang
