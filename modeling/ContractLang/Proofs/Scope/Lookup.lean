import ContractLang.Scope.Tree

/-!
# Looking names up in related trees

Looking a name up visits the scopes on a chain, so two trees that agree on the
scopes of a chain agree on what is found from its first scope
(`ContractLang.ScopeTree.Agree.find?`). The agreement is one up to a relation between
descriptors: the trees declare the same names with related descriptors.

Replacing the nearest descriptor of a name is the only change that the checker makes
to a tree, and it always succeeds where there is a descriptor of the same kind
(`ContractLang.ScopeTree.update_eq_ok`).
-/

namespace ContractLang

namespace ScopeTree

variable {tree tree' : ScopeTree} {id s : ScopeId} {name other : String}
  {d old : Descriptor}

/-! ### What is found -/

/-- The nearest descriptor is the one in the nearest scope that declares the name. -/
theorem find?_eq_some_iff : tree.find? id name = some d ↔
    ∃ s, tree.declaring? id name = some s ∧ (tree.scope s).get? name = some d := by
  unfold find?
  exact Option.bind_eq_some_iff

/-- The nearest scope that declares a name is on the chain, and declares it. -/
theorem declaring?_spec (h : tree.declaring? id name = some s) :
    s ∈ tree.chain id ∧ ∃ d, (tree.scope s).get? name = some d := by
  have hdeclares := List.find?_some h
  exact ⟨List.mem_of_find?_eq_some h, Option.isSome_iff_exists.mp hdeclares⟩

theorem lookup_eq_ok_iff : tree.lookup id name = .ok d ↔ tree.find? id name = some d := by
  unfold lookup
  cases tree.find? id name <;> simp

theorem lookup_of_find? (h : tree.find? id name = some d) : tree.lookup id name = .ok d :=
  lookup_eq_ok_iff.mpr h

theorem binding?_of_find? (h : tree.find? id name = some d) :
    tree.binding? id name = d.binding? := by
  simp [binding?, h]

/-- A scope that declares something exists. -/
theorem lt_size_of_get? (h : (tree.scope s).get? name = some d) : s < tree.scopes.size := by
  refine Nat.lt_of_not_le fun hle => ?_
  simp [scope, Array.getD, Nat.not_lt.mpr hle, Scope.get?, default, Scope.fresh] at h

/-! ### Trees that agree -/

/-- On the scopes in `ids`, two trees declare the same names, with descriptors related by
`P`. -/
structure Agree (P : Descriptor → Descriptor → Prop) (ids : List ScopeId)
    (tree tree' : ScopeTree) : Prop where
  parent : ∀ s ∈ ids, (tree'.scope s).parent = (tree.scope s).parent
  get? : ∀ s ∈ ids, ∀ name,
    Option.Rel P ((tree.scope s).get? name) ((tree'.scope s).get? name)

namespace Agree

variable {P : Descriptor → Descriptor → Prop}

theorem refl (hP : ∀ d, P d d) (ids : List ScopeId) (tree : ScopeTree) :
    Agree P ids tree tree := by
  refine ⟨fun _ _ => rfl, fun s _ name => ?_⟩
  cases (tree.scope s).get? name with
  | none => exact .none
  | some d => exact .some (hP d)

theorem ancestry {count : Nat} (h : Agree P (tree.ancestry count id) tree tree') :
    tree'.ancestry count id = tree.ancestry count id := by
  induction count generalizing id with
  | zero => rfl
  | succ count ih =>
    have hid : id ∈ tree.ancestry (count + 1) id := List.mem_cons_self
    unfold ScopeTree.ancestry
    rw [h.parent id hid]
    cases hparent : (tree.scope id).parent with
    | none => rfl
    | some parent =>
      have hmem : ∀ s ∈ tree.ancestry count parent, s ∈ tree.ancestry (count + 1) id := by
        intro s hs
        unfold ScopeTree.ancestry
        rw [hparent]
        exact List.mem_cons_of_mem id hs
      dsimp only
      rw [ih ⟨fun s hs => h.parent s (hmem s hs), fun s hs => h.get? s (hmem s hs)⟩]

theorem chain (h : Agree P (tree.chain id) tree tree') : tree'.chain id = tree.chain id :=
  Agree.ancestry h

/-- Trees that agree find the names of a chain in the same scopes. -/
theorem declaring? (h : Agree P (tree.chain id) tree tree') (name : String) :
    tree'.declaring? id name = tree.declaring? id name := by
  unfold ScopeTree.declaring?
  rw [h.chain]
  -- The search is compared on any part of the chain, for the sake of the induction.
  have hcongr : ∀ ids : List ScopeId, (∀ s ∈ ids, s ∈ tree.chain id) →
      ids.find? (fun s => (tree'.scope s).declares name) =
        ids.find? fun s => (tree.scope s).declares name := by
    intro ids hids
    induction ids with
    | nil => rfl
    | cons s ids ih =>
      have hs : (tree'.scope s).declares name = (tree.scope s).declares name := by
        have hrel := h.get? s (hids s List.mem_cons_self) name
        unfold Scope.declares
        revert hrel
        generalize (tree.scope s).get? name = o, (tree'.scope s).get? name = o'
        rintro (_ | _) <;> rfl
      rw [List.find?_cons, List.find?_cons, hs,
        ih fun s hs => hids s (List.mem_cons_of_mem _ hs)]
  exact hcongr _ fun _ hs => hs

/-- **Trees that agree on a chain find related descriptors** from its first scope. -/
theorem find? (h : Agree P (tree.chain id) tree tree') (name : String) :
    Option.Rel P (tree.find? id name) (tree'.find? id name) := by
  unfold ScopeTree.find?
  rw [h.declaring? name]
  cases hdeclaring : tree.declaring? id name with
  | none => exact .none
  | some s => exact h.get? s (declaring?_spec hdeclaring).1 name

end Agree

/-! ### Replacing a descriptor -/

/-- Replacing the nearest descriptor succeeds if the kind stays the same. -/
theorem update_eq_ok (hs : tree.declaring? id name = some s)
    (hold : (tree.scope s).get? name = some old) (hkind : old.role.sameKind d.role) :
    tree.update id name d = .ok (tree.modifyScope s fun scope => scope.replace name d) := by
  unfold update
  simp only [hs, hold, hkind, if_true]

/-- What succeeds in replacing a descriptor has found one of the same kind. -/
theorem exists_of_update (h : tree.update id name d = .ok tree') :
    ∃ s old, tree.declaring? id name = some s ∧ (tree.scope s).get? name = some old ∧
      old.role.sameKind d.role ∧
      tree' = tree.modifyScope s fun scope => scope.replace name d := by
  unfold update at h
  cases hs : tree.declaring? id name with
  | none => simp [hs] at h
  | some s =>
    obtain ⟨-, old, hold⟩ := declaring?_spec hs
    simp only [hs, hold] at h
    split at h
    · next hkind => exact ⟨s, old, rfl, hold, hkind, (Except.ok.inj h).symm⟩
    · cases h

/-- What a change of one scope leaves alone is as it was in all of them. -/
theorem field_modifyScope {t : ScopeTree} {β : Type} {g : Scope → β} {f : Scope → Scope}
    (hg : ∀ scope, g (f scope) = g scope) :
    g ((t.modifyScope id f).scope s) = g (t.scope s) := by
  rw [scope_modifyScope]
  split
  · exact hg _
  · rfl

theorem parent_modifyScope {t : ScopeTree} {f : Scope → Scope}
    (hf : ∀ scope, (f scope).parent = scope.parent) :
    ((t.modifyScope id f).scope s).parent = (t.scope s).parent :=
  field_modifyScope (g := Scope.parent) hf

theorem parent_replace {t : ScopeId} :
    ((tree.modifyScope s fun scope => scope.replace name d).scope t).parent =
      (tree.scope t).parent :=
  parent_modifyScope fun _ => rfl

/-- Replacing a descriptor concerns one name in one scope. -/
theorem get?_modifyScope_replace {t : ScopeId} :
    ((tree.modifyScope s fun scope => scope.replace name d).scope t).get? other =
      if t = s ∧ other = name then ((tree.scope t).get? other).map fun _ => d
      else (tree.scope t).get? other := by
  rw [scope_modifyScope]
  by_cases ht : t = s ∧ t < tree.scopes.size
  · rw [if_pos ht, Scope.get?_replace]
    simp [ht.1]
  · rw [if_neg ht]
    split
    · next h =>
      cases hget : (tree.scope t).get? other with
      | none => rfl
      | some old => exact absurd ⟨h.1, lt_size_of_get? hget⟩ ht
    · rfl

/-- Replacing a descriptor in one of two trees that agree keeps them in agreement if what
it replaces was related to nothing but what the replacement is related to. -/
theorem Agree.replace {P : Descriptor → Descriptor → Prop} {ids : List ScopeId}
    (h : Agree P ids tree tree') (hget : (tree'.scope s).get? name = some old)
    (hP : ∀ d', P d' old → P d' d) :
    Agree P ids tree (tree'.modifyScope s fun scope => scope.replace name d) where
  parent t ht := parent_replace.trans (h.parent t ht)
  get? t ht other := by
    rw [get?_modifyScope_replace]
    split
    · next heq =>
      obtain ⟨rfl, rfl⟩ := heq
      have hrel := h.get? t ht other
      rw [hget] at hrel ⊢
      revert hrel
      generalize (tree.scope t).get? other = o
      rintro (hd | _)
      exact .some (hP _ hd)
    · exact h.get? t ht other

/-- Completing the nearest descriptor of a name succeeds. -/
theorem refine_eq_ok (hs : tree.declaring? id name = some s)
    (hold : (tree.scope s).get? name = some old) (type : Ty) :
    tree.refine id name type = .ok (if old.type.isKnown then tree
      else tree.modifyScope s fun scope => scope.replace name { old with type }) := by
  unfold refine
  rw [lookup_of_find? (find?_eq_some_iff.mpr ⟨s, hs, hold⟩)]
  dsimp only
  split
  · rfl
  · exact update_eq_ok hs hold (Role.sameKind_self old.role)

/-- What replaces the nearest descriptor of a name is found afterwards. -/
theorem find?_replace (hs : tree.declaring? id name = some s)
    (hold : (tree.scope s).get? name = some old) :
    (tree.modifyScope s fun scope => scope.replace name d).find? id name = some d := by
  have hagree := (Agree.refl (P := fun _ _ => True) (fun _ => trivial) (tree.chain id) tree).replace
    (d := d) hold fun _ _ => trivial
  refine find?_eq_some_iff.mpr ⟨s, (hagree.declaring? name).trans hs, ?_⟩
  rw [get?_modifyScope_replace, if_pos ⟨rfl, rfl⟩, hold]
  rfl

/-- Only a name that is declared is given a type. -/
theorem found_of_refine {type : Ty} (h : tree.refine id name type = .ok tree') :
    ∃ d, tree.find? id name = some d := by
  unfold refine at h
  split at h
  · next d hlookup => exact ⟨d, lookup_eq_ok_iff.mp hlookup⟩
  · cases h

/-- The nearest descriptor of a name has a type after completing it, if it is given one. -/
theorem exists_find?_of_refine {t' : ScopeTree} {type : Ty} (hd : tree.find? id name = some d)
    (h : tree.refine id name type = .ok t') :
    ∃ d', t'.find? id name = some d' ∧ d'.type = if d.type.isKnown then d.type else type := by
  obtain ⟨s, hs, hget⟩ := find?_eq_some_iff.mp hd
  rw [refine_eq_ok hs hget type] at h
  obtain rfl := Except.ok.inj h
  split
  · exact ⟨d, hd, rfl⟩
  · exact ⟨_, find?_replace hs hget, rfl⟩

/-- Completing a descriptor with a known type changes nothing. -/
theorem refine_of_isKnown {type : Ty} (hd : tree.find? id name = some d) (hknown : d.type.isKnown) :
    tree.refine id name type = .ok tree := by
  unfold refine
  rw [lookup_of_find? hd]
  exact if_pos hknown

/-- Connecting the function that a name stands for succeeds. -/
theorem setBinding_eq_ok (hs : tree.declaring? id name = some s)
    (hold : (tree.scope s).get? name = some old) (hfunc : old.isFunc) (binding : Binding) :
    tree.setBinding id name binding = .ok (tree.modifyScope s fun scope =>
      scope.replace name { old with role := .func binding }) := by
  unfold setBinding
  rw [lookup_of_find? (find?_eq_some_iff.mpr ⟨s, hs, hold⟩)]
  dsimp only
  refine update_eq_ok hs hold ?_
  unfold Descriptor.isFunc Descriptor.binding? at hfunc
  cases hrole : old.role <;> simp [hrole] at hfunc
  rfl

end ScopeTree

end ContractLang
