import ContractLang.Proofs.Scope.Evolve

/-!
# How descriptors are refined

Without a parser, the checker opens no scopes and declares no names. What it does to
the scopes is to find out more about names that are there: a descriptor of no known
type is given one, and a function that waits for its body is resolved
(`ContractLang.Descriptor.RefinesTo`). All else about a tree of scopes stays as it is
(`ContractLang.ScopeTree.RefinesTo`).

A table of names is read through look-ups only, so trees are compared by what is
looked up in their scopes, and by the order of the names.
-/

namespace ContractLang

/-- A descriptor has become another one by finding out its type, or the definition of the
function that it describes. -/
structure Descriptor.RefinesTo (d d' : Descriptor) : Prop where
  name : d'.name = d.name
  type : d'.type = d.type ∨ ¬d.type.isKnown ∧ d'.type.isKnown
  role : d'.role = d.role ∨
    d.role = .func .unresolved ∧ ∃ definition, d'.role = .func (.resolved definition)

namespace Descriptor.RefinesTo

variable {d d' d'' : Descriptor}

theorem refl (d : Descriptor) : d.RefinesTo d :=
  ⟨rfl, .inl rfl, .inl rfl⟩

theorem trans (h : d.RefinesTo d') (h' : d'.RefinesTo d'') : d.RefinesTo d'' where
  name := h'.name.trans h.name
  type := by
    rcases h.type with heq | ⟨hold, hnew⟩ <;> rcases h'.type with heq' | ⟨hold', hnew'⟩
    · exact .inl (heq'.trans heq)
    · exact .inr ⟨heq ▸ hold', hnew'⟩
    · exact .inr ⟨hold, heq' ▸ hnew⟩
    · exact absurd hnew hold'
  role := by
    rcases h.role with heq | ⟨hold, f, hnew⟩ <;> rcases h'.role with heq' | ⟨hold', f', hnew'⟩
    · exact .inl (heq'.trans heq)
    · exact .inr ⟨heq ▸ hold', f', hnew'⟩
    · exact .inr ⟨hold, f, heq'.trans hnew⟩
    · cases hnew.symm.trans hold'

/-- A known type is kept. -/
theorem type_eq (h : d.RefinesTo d') (hknown : d.type.isKnown) : d'.type = d.type :=
  h.type.resolve_right fun hnew => hnew.1 hknown

/-- A name keeps standing for what it stands for. -/
theorem isFunc (h : d.RefinesTo d') : d'.isFunc = d.isFunc := by
  unfold Descriptor.isFunc Descriptor.binding?
  rcases h.role with heq | ⟨hold, f, hnew⟩
  · rw [heq]
  · rw [hold, hnew]
    rfl

/-- A function that has been resolved keeps its definition. -/
theorem binding? (h : d.RefinesTo d') {b : Binding} (hb : d.binding? = some b)
    (hne : b ≠ .unresolved) : d'.binding? = some b := by
  unfold Descriptor.binding? at hb ⊢
  rcases h.role with heq | ⟨hold, f, hnew⟩
  · rw [heq]
    exact hb
  · rw [hold] at hb
    exact absurd (Option.some.inj hb).symm hne

/-- What is known of a function in the end was known before, or the function has been
resolved. -/
theorem binding?_or (h : d.RefinesTo d') :
    d'.binding? = d.binding? ∨
      d.binding? = some .unresolved ∧ ∃ f, d'.binding? = some (.resolved f) := by
  unfold Descriptor.binding?
  rcases h.role with heq | ⟨hold, f, hnew⟩
  · exact .inl (by rw [heq])
  · rw [hold, hnew]
    exact .inr ⟨rfl, f, rfl⟩

end Descriptor.RefinesTo

/-- A scope has become another one by refining descriptors. -/
structure Scope.RefinesTo (scope scope' : Scope) : Prop where
  name : scope'.name = scope.name
  parent : scope'.parent = scope.parent
  entryAddress : scope'.entryAddress = scope.entryAddress
  nextAddress : scope'.nextAddress = scope.nextAddress
  names : scope'.entries.map (·.1) = scope.entries.map (·.1)
  get? : ∀ name, Option.Rel Descriptor.RefinesTo (scope.get? name) (scope'.get? name)

/-- A tree of scopes has become another one by refining descriptors. -/
structure ScopeTree.RefinesTo (t t' : ScopeTree) : Prop where
  size : t'.scopes.size = t.scopes.size
  pool : t'.pool = t.pool
  scope : ∀ s, (t.scope s).RefinesTo (t'.scope s)

/-- What is found in three tables is related throughout if it is related between
neighbours. -/
theorem rel_trans {α : Type} {r : α → α → Prop} (hr : ∀ {a b c}, r a b → r b c → r a c) :
    ∀ {o o' o'' : Option α}, Option.Rel r o o' → Option.Rel r o' o'' → Option.Rel r o o''
  | _, _, _, .some h, .some h' => .some (hr h h')
  | _, _, _, .none, .none => .none

namespace Scope.RefinesTo

variable {scope scope' scope'' : Scope}

theorem refl (scope : Scope) : scope.RefinesTo scope where
  name := rfl
  parent := rfl
  entryAddress := rfl
  nextAddress := rfl
  names := rfl
  get? name := by
    cases scope.get? name with
    | none => exact .none
    | some d => exact .some (.refl d)

theorem trans (h : scope.RefinesTo scope') (h' : scope'.RefinesTo scope'') :
    scope.RefinesTo scope'' where
  name := h'.name.trans h.name
  parent := h'.parent.trans h.parent
  entryAddress := h'.entryAddress.trans h.entryAddress
  nextAddress := h'.nextAddress.trans h.nextAddress
  names := h'.names.trans h.names
  get? name := rel_trans (fun hd hd' => hd.trans hd') (h.get? name) (h'.get? name)

/-- Replacing a descriptor by a refined one. -/
theorem replace {name : String} {old d : Descriptor} (hget : scope.get? name = some old)
    (hd : old.RefinesTo d) : scope.RefinesTo (scope.replace name d) where
  name := rfl
  parent := rfl
  entryAddress := rfl
  nextAddress := rfl
  names := by
    unfold Scope.replace
    rw [List.map_map]
    refine List.map_congr_left fun e _ => ?_
    rw [Function.comp_apply]
    split <;> rfl
  get? other := by
    rw [get?_replace]
    split
    · next heq =>
      rw [heq, hget]
      exact .some hd
    · exact (refl scope).get? other

end Scope.RefinesTo

/-- Replacing a descriptor twice is replacing it by the second one. -/
theorem Scope.replace_replace (scope : Scope) (name : String) (old d : Descriptor) :
    (scope.replace name old).replace name d = scope.replace name d := by
  unfold replace
  rw [List.map_map]
  congr 1
  refine List.map_congr_left fun e _ => ?_
  rw [Function.comp_apply]
  by_cases he : e.1 == name
  · simp only [he, if_true]
  · simp only [he, if_false, Bool.false_eq_true]

namespace ScopeTree

variable {t t' t'' : ScopeTree} {id s : ScopeId} {name : String} {d old : Descriptor}

namespace RefinesTo

theorem refl (t : ScopeTree) : t.RefinesTo t :=
  ⟨rfl, rfl, fun s => .refl (t.scope s)⟩

theorem trans (h : t.RefinesTo t') (h' : t'.RefinesTo t'') : t.RefinesTo t'' :=
  ⟨h'.size.trans h.size, h'.pool.trans h.pool, fun s => (h.scope s).trans (h'.scope s)⟩

theorem agree (h : t.RefinesTo t') (ids : List ScopeId) :
    Agree Descriptor.RefinesTo ids t t' :=
  ⟨fun s _ => (h.scope s).parent, fun s _ => (h.scope s).get?⟩

theorem declaring? (h : t.RefinesTo t') (id : ScopeId) (name : String) :
    t'.declaring? id name = t.declaring? id name :=
  (h.agree _).declaring? name

/-- **A name is found where it was found before**, with a refined descriptor. -/
theorem find? (h : t.RefinesTo t') (id : ScopeId) (name : String) :
    Option.Rel Descriptor.RefinesTo (t.find? id name) (t'.find? id name) :=
  (h.agree _).find? name

theorem exists_find? (h : t.RefinesTo t') (hd : t.find? id name = some d) :
    ∃ d', t'.find? id name = some d' ∧ d.RefinesTo d' := by
  have hrel := h.find? id name
  rw [hd] at hrel
  generalize t'.find? id name = o at hrel ⊢
  cases hrel with
  | some hrel => exact ⟨_, rfl, hrel⟩

theorem exists_of_find? (h : t.RefinesTo t') (hd : t'.find? id name = some d) :
    ∃ d₀, t.find? id name = some d₀ ∧ d₀.RefinesTo d := by
  have hrel := h.find? id name
  rw [hd] at hrel
  generalize t.find? id name = o at hrel ⊢
  cases hrel with
  | some hrel => exact ⟨_, rfl, hrel⟩

/-- A function that is pending or resolved stays so. -/
theorem binding?_eq_some (h : t.RefinesTo t') {b : Binding} (hb : t.binding? id name = some b)
    (hne : b ≠ .unresolved) : t'.binding? id name = some b := by
  obtain ⟨d, hd, hdb⟩ := Option.bind_eq_some_iff.mp hb
  obtain ⟨d', hd', hrel⟩ := h.exists_find? hd
  rw [binding?_of_find? hd']
  exact hrel.binding? hdb hne

theorem binding?_eq_none (h : t.RefinesTo t') (hb : t.binding? id name = none) :
    t'.binding? id name = none := by
  have hrel := h.find? id name
  unfold ScopeTree.binding? at hb ⊢
  revert hrel hb
  generalize t.find? id name = o, t'.find? id name = o'
  rintro hb (hd | _)
  · rcases hd.binding?_or with heq | ⟨hold, -⟩
    · exact heq.trans hb
    · cases hb.symm.trans hold
  · rfl

theorem binding?_isSome (h : t.RefinesTo t') :
    (t'.binding? id name).isSome = (t.binding? id name).isSome := by
  cases hb : t.binding? id name with
  | none => rw [h.binding?_eq_none hb]
  | some b =>
    obtain ⟨d, hd, hdb⟩ := Option.bind_eq_some_iff.mp hb
    obtain ⟨d', hd', hrel⟩ := h.exists_find? hd
    rw [binding?_of_find? hd', ← Descriptor.isFunc, hrel.isFunc, Descriptor.isFunc, hdb]

/-- Replacing a descriptor by a refined one. -/
theorem replace (hget : (t.scope s).get? name = some old) (hd : old.RefinesTo d) :
    t.RefinesTo (t.modifyScope s fun scope => scope.replace name d) where
  size := size_modifyScope
  pool := rfl
  scope r := by
    rw [scope_modifyScope]
    split
    · next h =>
      rw [h.1]
      exact .replace hget hd
    · exact .refl _

end RefinesTo

/-- Giving a type to the nearest descriptor of a name refines the tree, and succeeds if
there is one. -/
theorem exists_refine (hd : t.find? id name = some d) {type : Ty} (htype : type.isKnown) :
    ∃ t', t.refine id name type = .ok t' ∧ t.RefinesTo t' := by
  obtain ⟨s, hs, hget⟩ := find?_eq_some_iff.mp hd
  refine ⟨_, refine_eq_ok hs hget type, ?_⟩
  split
  · exact .refl t
  · next hunknown => exact .replace hget ⟨rfl, .inr ⟨hunknown, htype⟩, .inl rfl⟩

theorem refinesTo_refine {type : Ty} (h : t.refine id name type = .ok t')
    (htype : type.isKnown) : t.RefinesTo t' := by
  cases hd : t.find? id name with
  | none =>
    unfold refine lookup at h
    rw [hd] at h
    cases h
  | some d =>
    obtain ⟨u, hu, hrefines⟩ := exists_refine hd htype
    cases hu.symm.trans h
    exact hrefines

theorem exists_of_unresolved (hb : t.binding? id name = some .unresolved) :
    ∃ d, t.find? id name = some d ∧ d.role = .func .unresolved := by
  obtain ⟨d, hd, hdb⟩ := Option.bind_eq_some_iff.mp hb
  refine ⟨d, hd, ?_⟩
  unfold Descriptor.binding? at hdb
  split at hdb
  · next hrole =>
    cases hdb
    exact hrole
  · cases hdb

/-- A function that waits for its body can be resolved, which refines the tree. -/
theorem exists_resolve (hb : t.binding? id name = some .unresolved) (definition : NodeId) :
    ∃ t', t.setBinding id name (.resolved definition) = .ok t' ∧ t.RefinesTo t' := by
  obtain ⟨d, hd, hrole⟩ := exists_of_unresolved hb
  obtain ⟨s, hs, hget⟩ := find?_eq_some_iff.mp hd
  have hfunc : d.isFunc := by
    rw [Descriptor.isFunc, Descriptor.binding?, hrole]
    rfl
  exact ⟨_, setBinding_eq_ok hs hget hfunc _, .replace hget ⟨rfl, .inl rfl, .inr ⟨hrole, _, rfl⟩⟩⟩

/-- Setting a function aside and putting it back changes nothing that is looked up. -/
theorem exists_setBinding_unresolved (hb : t.binding? id name = some .unresolved)
    (call : NodeId) : ∃ u t', t.setBinding id name (.pending call) = .ok u ∧
      u.setBinding id name .unresolved = .ok t' ∧ t.RefinesTo t' ∧
      ∀ r other, (t'.scope r).get? other = (t.scope r).get? other := by
  obtain ⟨d, hd, hrole⟩ := exists_of_unresolved hb
  obtain ⟨s, hs, hget⟩ := find?_eq_some_iff.mp hd
  have hfunc : d.isFunc := by
    rw [Descriptor.isFunc, Descriptor.binding?, hrole]
    rfl
  let aside : Descriptor := { d with role := .func (.pending call) }
  let u := t.modifyScope s fun scope => scope.replace name aside
  have hagree : Agree (fun _ _ => True) (t.chain id) t u := by
    refine ⟨fun _ _ => parent_replace, fun r _ other => ?_⟩
    rw [get?_modifyScope_replace]
    split <;> cases (t.scope r).get? other <;> constructor <;> trivial
  have hget' : (u.scope s).get? name = some aside := by
    rw [get?_modifyScope_replace, if_pos ⟨rfl, rfl⟩, hget]
    rfl
  have hs' : u.declaring? id name = some s := (hagree.declaring? name).trans hs
  have hsame : { aside with role := .func .unresolved } = d := by
    rw [← hrole]
  refine ⟨u, _, setBinding_eq_ok hs hget hfunc _, setBinding_eq_ok hs' hget' rfl _,
    ⟨size_modifyScope.trans size_modifyScope, rfl, fun r => ?_⟩, fun r other => ?_⟩
  · rw [hsame, scope_modifyScope, scope_modifyScope, size_modifyScope]
    by_cases hr : r = s ∧ r < t.scopes.size
    · rw [if_pos hr, if_pos hr, Scope.replace_replace, hr.1]
      exact .replace hget (.refl d)
    · rw [if_neg hr, if_neg hr]
      exact .refl _
  · rw [hsame, get?_modifyScope_replace, get?_modifyScope_replace]
    split
    · next heq =>
      obtain ⟨rfl, rfl⟩ := heq
      rw [hget]
      rfl
    · rfl

/-! ### Trees without open ends -/

/-- Every function that is declared has a body. -/
def AllResolved (t : ScopeTree) : Prop :=
  ∀ scope name d, (t.scope scope).get? name = some d →
    ∀ binding, d.binding? = some binding → ∃ f, binding = .resolved f

/-- What is looked up in a table is one of its entries. -/
theorem mem_of_lookup {entries : List (String × Descriptor)}
    (h : entries.lookup name = some d) : ∃ e ∈ entries, e.2 = d := by
  induction entries with
  | nil => cases h
  | cons e rest ih =>
    rw [List.lookup_cons] at h
    split at h
    · exact ⟨e, List.mem_cons_self, Option.some.inj h⟩
    · exact (ih h).imp fun e' he' => ⟨List.mem_cons_of_mem _ he'.1, he'.2⟩

/-- Whether every function has a body is a matter of the tables that exist. -/
theorem allResolved_of_forall (h : ∀ scope ∈ t.scopes.toList, ∀ e ∈ scope.entries,
    ∀ binding ∈ e.2.binding?, binding matches .resolved _) : t.AllResolved := by
  intro scope name d hget binding hbinding
  have hscope : t.scope scope ∈ t.scopes.toList := by
    have hlt := lt_size_of_get? hget
    unfold ScopeTree.scope
    simp [Array.getD, hlt]
  obtain ⟨e, he, rfl⟩ := mem_of_lookup hget
  have hmatches := h _ hscope e he binding hbinding
  cases binding with
  | resolved f => exact ⟨f, rfl⟩
  | unresolved | pending => cases hmatches

end ScopeTree

end ContractLang
