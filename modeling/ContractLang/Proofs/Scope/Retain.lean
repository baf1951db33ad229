import ContractLang.Proofs.Scope.Refine
import ContractLang.Proofs.Scope.Visible

/-!
# What scopes retain

Descriptors are overwritten from many places: by an update, when a scope is moved, when a
function is connected with its definition, and when a type has been determined. None of them
takes a declaration back. A tree retains another one (`ContractLang.ScopeTree.Retains`) if it has
the scopes of that, by the same names and inside the same parents, and every name in them is still
declared as a thing of its kind.

Every edit leads to a tree that retains the one before, and adds no name to a scope unless it
declares it there (`ContractLang.Edit.Changes.retains`). What the checker writes adds none at all
(`ContractLang.ScopeTree.Revises`).
-/

namespace ContractLang

/-- Two descriptors are of the same kind. -/
def Descriptor.SameKind (d d' : Descriptor) : Prop :=
  d.role.sameKind d'.role

namespace Descriptor.SameKind

variable {d d' d'' : Descriptor}

theorem refl (d : Descriptor) : d.SameKind d :=
  d.role.sameKind_self

theorem trans (h : d.SameKind d') (h' : d'.SameKind d'') : d.SameKind d'' := by
  unfold SameKind at *
  cases hd : d.role <;> cases hd' : d'.role <;> cases hd'' : d''.role <;>
    simp_all [Role.sameKind]

end Descriptor.SameKind

/-! ### One scope -/

/-- A scope has become another one by the same name and in the same place, in which all names are
still declared, as things of their kinds. -/
structure Scope.Retains (scope scope' : Scope) : Prop where
  name : scope'.name = scope.name
  parent : scope'.parent = scope.parent
  kept : ∀ n d, scope.get? n = some d → ∃ d', scope'.get? n = some d' ∧ d.SameKind d'

/-- A scope has become another one that retains it, and declares nothing else. -/
structure Scope.Revises (scope scope' : Scope) : Prop where
  name : scope'.name = scope.name
  parent : scope'.parent = scope.parent
  get? : ∀ n, Option.Rel Descriptor.SameKind (scope.get? n) (scope'.get? n)

/-- Looking up in a list of which every entry has been changed gives a changed entry, if the keys
are the same. -/
theorem rel_lookup_mapIdx {R : Descriptor → Descriptor → Prop} {n : String}
    {entries : List (String × Descriptor)}
    {f : Nat → String × Descriptor → String × Descriptor} (hkey : ∀ i e, (f i e).1 = e.1)
    (hR : ∀ i e, R e.2 (f i e).2) :
    Option.Rel R (entries.lookup n) ((entries.mapIdx f).lookup n) := by
  induction entries generalizing f with
  | nil => exact .none
  | cons e entries ih =>
    rw [List.mapIdx_cons, List.lookup_cons, List.lookup_cons, hkey]
    cases n == e.1 with
    | true => exact .some (hR 0 e)
    | false => exact ih (fun i e => hkey (i + 1) e) fun i e => hR (i + 1) e

namespace Scope

variable {scope scope' scope'' : Scope} {n : String} {d old : Descriptor}

theorem Retains.refl (scope : Scope) : scope.Retains scope :=
  ⟨rfl, rfl, fun _ d h => ⟨d, h, .refl d⟩⟩

theorem Retains.trans (h : scope.Retains scope') (h' : scope'.Retains scope'') :
    scope.Retains scope'' where
  name := h'.name.trans h.name
  parent := h'.parent.trans h.parent
  kept n d hget := by
    obtain ⟨d', hget', hkind⟩ := h.kept n d hget
    obtain ⟨d'', hget'', hkind'⟩ := h'.kept n d' hget'
    exact ⟨d'', hget'', hkind.trans hkind'⟩

/-- One more name hides none of those that are declared. -/
theorem Retains.of_insert (hname : scope'.name = scope.name)
    (hparent : scope'.parent = scope.parent)
    (hget : ∀ m, scope'.get? m = (scope.get? m).or (if m = n then some d else none)) :
    scope.Retains scope' :=
  ⟨hname, hparent, fun m d' h => ⟨d', by rw [hget, h, Option.some_or], .refl d'⟩⟩

namespace Revises

theorem refl (scope : Scope) : scope.Revises scope := by
  refine ⟨rfl, rfl, fun n => ?_⟩
  cases scope.get? n with
  | none => exact .none
  | some d => exact .some (.refl d)

theorem trans (h : scope.Revises scope') (h' : scope'.Revises scope'') : scope.Revises scope'' where
  name := h'.name.trans h.name
  parent := h'.parent.trans h.parent
  get? n := rel_trans (fun hd hd' => hd.trans hd') (h.get? n) (h'.get? n)

theorem retains (h : scope.Revises scope') : scope.Retains scope' where
  name := h.name
  parent := h.parent
  kept n d hget := by
    have hrel := h.get? n
    rw [hget] at hrel
    cases hget' : scope'.get? n with
    | none =>
      rw [hget'] at hrel
      cases hrel
    | some d' =>
      rw [hget'] at hrel
      cases hrel with
      | some hkind => exact ⟨d', rfl, hkind⟩

theorem declares (h : scope.Revises scope') (hn : scope'.declares n) : scope.declares n := by
  have hrel := h.get? n
  unfold Scope.declares at *
  revert hrel hn
  generalize scope.get? n = o
  generalize scope'.get? n = o'
  rintro hn (_ | _)
  · rfl
  · exact hn

/-- Replacing a descriptor by one of the same kind declares nothing. -/
theorem replace (hget : scope.get? n = some old) (hkind : old.SameKind d) :
    scope.Revises (scope.replace n d) where
  name := rfl
  parent := rfl
  get? m := by
    rw [get?_replace]
    split
    · next hm =>
      rw [hm, hget]
      exact .some hkind
    · cases scope.get? m with
      | none => exact .none
      | some other => exact .some (.refl other)

/-- Moving a scope declares nothing. -/
theorem remap (base : Nat) : scope.Revises (scope.remap base) where
  name := rfl
  parent := rfl
  get? m := by
    refine rel_lookup_mapIdx (fun i e => ?_) fun i e => ?_
    · unfold remapEntry
      split <;> rfl
    · unfold remapEntry
      split
      · next hrole => simp [Descriptor.SameKind, hrole, Role.sameKind]
      · exact .refl _

end Revises

end Scope

/-! ### Trees of scopes -/

/-- A tree of scopes has become another one: no scope is gone, renamed or inside another parent,
and all names are still declared, as things of their kinds. -/
structure ScopeTree.Retains (t t' : ScopeTree) : Prop where
  size : t.scopes.size ≤ t'.scopes.size
  scope : ∀ s < t.scopes.size, (t.scope s).Retains (t'.scope s)

/-- A tree of scopes has become another one that retains it, and declares nothing else. -/
structure ScopeTree.Revises (t t' : ScopeTree) : Prop where
  size : t'.scopes.size = t.scopes.size
  scope : ∀ s, (t.scope s).Revises (t'.scope s)

namespace ScopeTree

variable {t t' t'' : ScopeTree} {s id : ScopeId} {n name : String} {f : Scope → Scope}

namespace Retains

theorem refl (t : ScopeTree) : t.Retains t :=
  ⟨Nat.le_refl _, fun _ _ => .refl _⟩

theorem trans (h : t.Retains t') (h' : t'.Retains t'') : t.Retains t'' where
  size := Nat.le_trans h.size h'.size
  scope s hs := (h.scope s hs).trans (h'.scope s (Nat.lt_of_lt_of_le hs h.size))

theorem declares (h : t.Retains t') (hn : (t.scope s).declares n) : (t'.scope s).declares n := by
  obtain ⟨d, hget⟩ := Option.isSome_iff_exists.mp hn
  obtain ⟨d', hget', -⟩ := (h.scope s (lt_size_of_get? hget)).kept n d hget
  exact declares_of_get? hget'

theorem modifyScope (h : (t.scope id).Retains (f (t.scope id))) :
    t.Retains (t.modifyScope id f) where
  size := Nat.le_of_eq size_modifyScope.symm
  scope s _ := by
    rw [scope_modifyScope]
    split
    · next hid => exact hid.1 ▸ h
    · exact .refl _

theorem openScope (name : String) (parent : ScopeId) :
    t.Retains (t.openScope name parent).1 where
  size := by simp [ScopeTree.openScope]
  scope s hs := by
    rw [scope_openScope, if_neg (Nat.ne_of_lt hs)]
    exact .refl _

end Retains

namespace Revises

theorem refl (t : ScopeTree) : t.Revises t :=
  ⟨rfl, fun _ => .refl _⟩

theorem trans (h : t.Revises t') (h' : t'.Revises t'') : t.Revises t'' :=
  ⟨h'.size.trans h.size, fun s => (h.scope s).trans (h'.scope s)⟩

theorem retains (h : t.Revises t') : t.Retains t' :=
  ⟨Nat.le_of_eq h.size.symm, fun s _ => (h.scope s).retains⟩

theorem declares (h : t.Revises t') (hn : (t'.scope s).declares n) : (t.scope s).declares n :=
  (h.scope s).declares hn

theorem agree (h : t.Revises t') (ids : List ScopeId) : Agree Descriptor.SameKind ids t t' :=
  ⟨fun s _ => (h.scope s).parent, fun s _ => (h.scope s).get?⟩

/-- What is found by a name stays a thing of its kind. -/
theorem find? (h : t.Revises t') (id : ScopeId) (name : String) :
    Option.Rel Descriptor.SameKind (t.find? id name) (t'.find? id name) :=
  (h.agree _).find? name

theorem modifyScope (h : (t.scope id).Revises (f (t.scope id))) :
    t.Revises (t.modifyScope id f) where
  size := size_modifyScope
  scope s := by
    rw [scope_modifyScope]
    split
    · next hid => exact hid.1 ▸ h
    · exact .refl _

/-- Overwriting the nearest descriptor of a name declares nothing. -/
theorem update {d : Descriptor} (h : t.update id name d = .ok t') : t.Revises t' := by
  obtain ⟨s, old, -, hold, hkind, rfl⟩ := exists_of_update h
  exact .modifyScope (.replace hold hkind)

/-- Completing a type declares nothing. -/
theorem refine {type : Ty} (h : t.refine id name type = .ok t') : t.Revises t' := by
  unfold ScopeTree.refine at h
  split at h
  · split at h
    · cases h
      exact .refl t
    · exact .update h
  · cases h

/-- Connecting a function with its definition declares nothing. -/
theorem setBinding {b : Binding} (h : t.setBinding id name b = .ok t') : t.Revises t' := by
  unfold ScopeTree.setBinding at h
  split at h
  · exact .update h
  · cases h

end Revises

end ScopeTree

/-! ### Edits -/

namespace Edit

/-- Whether an edit declares a name in a scope. -/
def Declares (s : ScopeId) (n : String) : {α : Type} → Edit α → Prop
  | _, .declareVar scope name _ | _, .declareConst scope name _ _
  | _, .declareFunc scope name _ => scope = s ∧ name = n
  | _, _ => False

variable {t t' : ScopeTree} {α : Type} {e : Edit α} {s : ScopeId} {n : String}

/-- **Every edit retains what is declared**, and what it adds to a scope is a name that it
declares there. -/
theorem Changes.retains (h : e.Changes t t') : t.Retains t' ∧
    ∀ s n, (t'.scope s).declares n → (t.scope s).declares n ∨ e.Declares s n := by
  -- One more descriptor in a scope adds its name to that scope.
  have hinsert : ∀ (u : ScopeTree) (id : ScopeId) (name : String) (d : Descriptor)
      (f : Scope → Scope), (u.scope id).Retains (f (u.scope id)) →
      (∀ m, (f (u.scope id)).get? m =
        ((u.scope id).get? m).or (if m = name then some d else none)) →
      u.Retains (u.modifyScope id f) ∧ ∀ s n, ((u.modifyScope id f).scope s).declares n →
        (u.scope s).declares n ∨ id = s ∧ name = n := by
    refine fun u id name d f hretains hget => ⟨.modifyScope hretains, fun s n hn => ?_⟩
    rw [ScopeTree.scope_modifyScope] at hn
    split at hn
    · next hid =>
      obtain ⟨rfl, -⟩ := hid
      unfold Scope.declares at hn ⊢
      rw [hget] at hn
      by_cases hname : n = name
      · exact .inr ⟨rfl, hname.symm⟩
      · exact .inl (by simpa [hname] using hn)
    · exact .inl hn
  cases h with
  | unchanged => exact ⟨.refl t, fun _ _ => .inl⟩
  | openScope =>
    exact ⟨.openScope _ _, fun s n hn => .inl (by rwa [ScopeTree.declares_openScope] at hn)⟩
  | declareVar =>
    exact hinsert _ _ _ _ _ (.of_insert rfl rfl fun _ => Scope.get?_declareVar)
      fun _ => Scope.get?_declareVar
  | @declareConst id name value type offset pool _ _ =>
    have hconst := hinsert { t with pool } id name ⟨name, type, .const offset value⟩
      (fun scope => scope.insert name ⟨name, type, .const offset value⟩)
      (.of_insert rfl rfl fun _ => Scope.get?_insert) fun _ => Scope.get?_insert
    exact ⟨⟨hconst.1.size, hconst.1.scope⟩, hconst.2⟩
  | declareFunc =>
    exact hinsert _ _ _ _ _ (.of_insert rfl rfl fun _ => Scope.get?_insert)
      fun _ => Scope.get?_insert
  | @update id s name d old _ hold hkind =>
    have hrevises : t.Revises (t.modifyScope s fun scope => scope.replace name d) :=
      .modifyScope (.replace hold hkind)
    exact ⟨hrevises.retains, fun _ _ hn => .inl (hrevises.declares hn)⟩
  | @remap id base =>
    have hrevises : t.Revises (t.remap id base) := .modifyScope (.remap base)
    exact ⟨hrevises.retains, fun _ _ hn => .inl (hrevises.declares hn)⟩
  | intern => exact ⟨⟨Nat.le_refl _, fun _ _ => .refl _⟩, fun _ _ => .inl⟩

end Edit

end ContractLang
