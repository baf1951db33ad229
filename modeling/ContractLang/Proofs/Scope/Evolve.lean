import ContractLang.CompilationUnit.Edit
import ContractLang.Proofs.Scope.Lookup

/-!
# How trees of scopes evolve

While the checker runs, scopes are opened and functions are connected with their
definitions, but nothing is declared in a scope that has been there before, and no
binding is taken back (`ContractLang.ScopeTree.Evolves`). So a descriptor, which is
known by the scope that declares it and its name, can be found again later on
(`ContractLang.ScopeTree.Evolves.declaring?`).

In between, while the body of a function is being obtained, its descriptor is set aside
as pending (`ContractLang.ScopeTree.Rebinds`); what stays the same even then is that
no descriptor that is pending or resolved is touched (`ContractLang.ScopeTree.Holds`).
-/

namespace ContractLang

namespace ScopeTree

variable {t t' t'' : ScopeTree} {id s home : ScopeId} {name other : String} {b : Binding}

/-- How far the function that a scope itself declares has been connected with its
definition. -/
def bindingAt (tree : ScopeTree) (s : ScopeId) (name : String) : Option Binding :=
  ((tree.scope s).get? name).bind Descriptor.binding?

/-- No function is waiting for its body while that is being obtained. -/
def NoPending (tree : ScopeTree) : Prop :=
  ∀ s name call, tree.bindingAt s name ≠ some (.pending call)

/-- The binding of a name is that of the nearest descriptor. -/
theorem binding?_eq_some_iff : t.binding? id name = some b ↔
    ∃ home, t.declaring? id name = some home ∧ t.bindingAt home name = some b := by
  unfold binding? find? bindingAt
  rw [Option.bind_assoc]
  exact Option.bind_eq_some_iff

theorem bindingAt_eq_none_of_size_le (h : t.scopes.size ≤ s) : t.bindingAt s name = none := by
  unfold bindingAt
  cases hget : (t.scope s).get? name with
  | none => rfl
  | some d => exact absurd (lt_size_of_get? hget) (Nat.not_lt.mpr h)

theorem lt_size_of_bindingAt (h : t.bindingAt s name = some b) : s < t.scopes.size := by
  refine Nat.lt_of_not_le fun hle => ?_
  rw [bindingAt_eq_none_of_size_le hle] at h
  cases h

/-- Where a declaration is found along a chain, it is found in any other tree whose scopes of old
have the same parents and declare the same of that name. Scopes past the declaring one do not
matter, and all before it have been there from the start. -/
theorem find?_ancestry_of_lt_size
    (hparent : ∀ s < t.scopes.size, (t'.scope s).parent = (t.scope s).parent)
    (hdeclares : ∀ s < t.scopes.size, (t'.scope s).declares name = (t.scope s).declares name)
    {count : Nat}
    (hs : (t.ancestry count id).find? (fun s => (t.scope s).declares name) = some home) :
    (t'.ancestry count id).find? (fun s => (t'.scope s).declares name) = some home := by
  induction count generalizing id with
  | zero => cases hs
  | succ count ih =>
    unfold ancestry at hs ⊢
    rcases Nat.lt_or_ge id t.scopes.size with hlt | hge
    · rw [List.find?_cons, hdeclares id hlt, hparent id hlt]
      rw [List.find?_cons] at hs
      split at hs
      · exact hs
      · split at hs
        · exact ih hs
        · cases hs
    -- A scope that does not exist yet ends the chain, and declares nothing.
    · have hdefault : t.scope id = default := by
        simp [scope, Array.getD, Nat.not_lt.mpr hge]
      have hnone : ∀ name, (default : Scope).declares name = false := fun _ => rfl
      rw [List.find?_cons, hdefault] at hs
      simp only [hnone] at hs
      cases hs

/-! ### The course of a run -/

/-- No binding of a function that is pending or resolved is touched. -/
def Holds (t t' : ScopeTree) : Prop :=
  ∀ s name b, b ≠ .unresolved → t.bindingAt s name = some b → t'.bindingAt s name = some b

/-- Resolved functions keep their definitions. -/
def Persists (t t' : ScopeTree) : Prop :=
  ∀ s name d, t.bindingAt s name = some (.resolved d) → t'.bindingAt s name = some (.resolved d)

/-- A tree has become another one: scopes have been opened, with no pending function in
them, and functions have been resolved. -/
structure Evolves (t t' : ScopeTree) : Prop where
  size : t.scopes.size ≤ t'.scopes.size
  parent : ∀ s < t.scopes.size, (t'.scope s).parent = (t.scope s).parent
  declares : ∀ s < t.scopes.size, ∀ name, (t'.scope s).declares name = (t.scope s).declares name
  binding : ∀ s < t.scopes.size, ∀ name, t'.bindingAt s name = t.bindingAt s name ∨
    t.bindingAt s name = some .unresolved ∧ ∃ d, t'.bindingAt s name = some (.resolved d)
  opened : ∀ s, t.scopes.size ≤ s → ∀ name call, t'.bindingAt s name ≠ some (.pending call)

theorem Holds.trans (h : t.Holds t') (h' : t'.Holds t'') : t.Holds t'' :=
  fun s name b hb hbind => h' s name b hb (h s name b hb hbind)

theorem Holds.persists (h : t.Holds t') : t.Persists t' :=
  fun s name d => h s name (.resolved d) nofun

theorem Persists.trans (h : t.Persists t') (h' : t'.Persists t'') : t.Persists t'' :=
  fun s name d hd => h' s name d (h s name d hd)

namespace Evolves

theorem refl (t : ScopeTree) : t.Evolves t where
  size := Nat.le_refl _
  parent _ _ := rfl
  declares _ _ _ := rfl
  binding _ _ _ := .inl rfl
  opened s hs name call h := by
    rw [bindingAt_eq_none_of_size_le hs] at h
    cases h

theorem trans (h : t.Evolves t') (h' : t'.Evolves t'') : t.Evolves t'' where
  size := Nat.le_trans h.size h'.size
  parent s hs := (h'.parent s (Nat.lt_of_lt_of_le hs h.size)).trans (h.parent s hs)
  declares s hs name :=
    (h'.declares s (Nat.lt_of_lt_of_le hs h.size) name).trans (h.declares s hs name)
  binding s hs name := by
    rcases h.binding s hs name with heq | ⟨hold, d, hd⟩ <;>
      rcases h'.binding s (Nat.lt_of_lt_of_le hs h.size) name with heq' | ⟨hold', d', hd'⟩
    · exact .inl (heq'.trans heq)
    · exact .inr ⟨heq ▸ hold', d', hd'⟩
    · exact .inr ⟨hold, d, heq'.trans hd⟩
    -- A function that has been resolved does not wait for its body again.
    · cases hd.symm.trans hold'
  opened s hs name call := by
    rcases Nat.lt_or_ge s t'.scopes.size with hlt | hge
    · rcases h'.binding s hlt name with heq | ⟨-, d, hd⟩
      · rw [heq]
        exact h.opened s hs name call
      · rw [hd]
        nofun
    · exact h'.opened s hge name call

/-- What is pending or resolved stays so. -/
theorem holds (h : t.Evolves t') : t.Holds t' := by
  intro s name b hb hbind
  rcases h.binding s (lt_size_of_bindingAt hbind) name with heq | ⟨hold, -⟩
  · exact heq.trans hbind
  · exact absurd (Option.some.inj (hbind.symm.trans hold)) hb

/-- Where nothing is pending nothing becomes so. -/
theorem noPending (h : t.Evolves t') (hnone : t.NoPending) : t'.NoPending := by
  intro s name call hcall
  rcases Nat.lt_or_ge s t.scopes.size with hlt | hge
  · rcases h.binding s hlt name with heq | ⟨-, d, hd⟩
    · exact hnone s name call (heq.symm.trans hcall)
    · cases hd.symm.trans hcall
  · exact h.opened s hge name call hcall

/-- **A descriptor is found again** where it was found before. -/
theorem declaring? (h : t.Evolves t') (hs : t.declaring? id name = some home) :
    t'.declaring? id name = some home :=
  find?_ancestry_of_lt_size h.parent (fun r hr => h.declares r hr name) hs

end Evolves

/-! ### Replacing a descriptor -/

/-- A tree has become another one by giving one function another binding. -/
structure Rebinds (t t' : ScopeTree) (home : ScopeId) (name : String) (b : Binding) : Prop where
  size : t'.scopes.size = t.scopes.size
  parent : ∀ s, (t'.scope s).parent = (t.scope s).parent
  get? : ∀ s other, (t'.scope s).get? other = if s = home ∧ other = name then
    ((t.scope s).get? other).map fun d => { d with role := .func b } else (t.scope s).get? other
  binding : ∀ s other,
    t'.bindingAt s other = if s = home ∧ other = name then some b else t.bindingAt s other

section Replace

variable {d old : Descriptor}

theorem size_modifyScope {f : Scope → Scope} : (t.modifyScope s f).scopes.size = t.scopes.size := by
  simp [modifyScope]

theorem declares_replace :
    ((t.modifyScope home fun scope => scope.replace name d).scope s).declares other =
      (t.scope s).declares other := by
  unfold Scope.declares
  rw [get?_modifyScope_replace]
  split
  · rw [Option.isSome_map]
  · rfl

theorem bindingAt_replace (hget : (t.scope home).get? name = some old) :
    (t.modifyScope home fun scope => scope.replace name d).bindingAt s other =
      if s = home ∧ other = name then d.binding? else t.bindingAt s other := by
  unfold bindingAt
  rw [get?_modifyScope_replace]
  split
  · next h => rw [h.1, h.2, hget, Option.map_some, Option.bind_some]
  · rfl

/-- Replacing a descriptor by one with the same binding changes no binding. -/
theorem evolves_replace (hget : (t.scope home).get? name = some old)
    (hsame : d.binding? = old.binding?) :
    t.Evolves (t.modifyScope home fun scope => scope.replace name d) := by
  have hbinding : ∀ s other, (t.modifyScope home fun scope => scope.replace name d).bindingAt s
      other = t.bindingAt s other := by
    intro s other
    rw [bindingAt_replace hget]
    split
    · next h => rw [h.1, h.2, bindingAt, hget, Option.bind_some, hsame]
    · rfl
  refine ⟨Nat.le_of_eq size_modifyScope.symm, fun _ _ => parent_replace,
    fun _ _ _ => declares_replace, fun s _ other => .inl (hbinding s other),
    fun s hs other call => ?_⟩
  rw [hbinding, bindingAt_eq_none_of_size_le hs]
  nofun

theorem evolves_refine {type : Ty} (h : t.refine id name type = .ok t') : t.Evolves t' := by
  cases hlookup : t.lookup id name with
  | error e =>
    unfold refine at h
    rw [hlookup] at h
    cases h
  | ok old =>
    obtain ⟨s, hs, hget⟩ := find?_eq_some_iff.mp (lookup_eq_ok_iff.mp hlookup)
    rw [refine_eq_ok hs hget] at h
    cases h
    split
    · exact .refl t
    · exact evolves_replace hget rfl

/-- **A function can be given any binding** from where it is found. -/
theorem exists_rebinds (hs : t.declaring? id name = some home)
    (hold : t.bindingAt home name = some b) (new : Binding) :
    ∃ t', t.setBinding id name new = .ok t' ∧ t.Rebinds t' home name new := by
  obtain ⟨old, hget, hb⟩ := Option.bind_eq_some_iff.mp hold
  have hfunc : old.isFunc := by
    rw [Descriptor.isFunc, hb]
    rfl
  refine ⟨_, setBinding_eq_ok hs hget hfunc new, size_modifyScope, fun _ => parent_replace,
    fun s other => ?_, fun _ _ => bindingAt_replace hget⟩
  rw [get?_modifyScope_replace]
  split
  · next h =>
    rw [h.1, h.2, hget]
    rfl
  · rfl

end Replace

namespace Rebinds

variable (h : t.Rebinds t' home name b)

include h

/-- No declaration comes or goes. -/
theorem declares (s : ScopeId) (other : String) :
    (t'.scope s).declares other = (t.scope s).declares other := by
  unfold Scope.declares
  rw [h.get?]
  split
  · exact Option.isSome_map
  · rfl

theorem bindingAt_self : t'.bindingAt home name = some b := by
  rw [h.binding, if_pos ⟨rfl, rfl⟩]

/-- Names are found where they were found before. -/
theorem declaring? (hs : t.declaring? id other = some s) : t'.declaring? id other = some s := by
  have hancestry : ∀ count id, t'.ancestry count id = t.ancestry count id := by
    intro count
    induction count with
    | zero => exact fun _ => rfl
    | succ count ih =>
      intro id
      unfold ancestry
      rw [h.parent]
      cases (t.scope id).parent with
      | none => rfl
      | some parent => exact congrArg _ (ih parent)
  unfold ScopeTree.declaring? chain at hs ⊢
  simp only [hancestry, h.declares]
  exact hs

/-- Other functions that are pending or resolved are not touched. -/
theorem holds (hold : t.bindingAt home name = some .unresolved) : t.Holds t' := by
  intro s other b' hb' hbind
  rw [h.binding, if_neg]
  · exact hbind
  · rintro ⟨rfl, rfl⟩
    exact hb' (Option.some.inj (hbind.symm.trans hold))

theorem persists {call : NodeId} (hold : t.bindingAt home name = some (.pending call)) :
    t.Persists t' := by
  intro s other d hbind
  rw [h.binding, if_neg]
  · exact hbind
  · rintro ⟨rfl, rfl⟩
    cases hbind.symm.trans hold

/-- Setting a function aside, what happens meanwhile, and taking it up again amount to an
evolution. -/
theorem evolves {u v : ScopeTree} (hold : t.bindingAt home name = some .unresolved)
    (hrun : t'.Evolves u) {b' : Binding} (hlast : u.Rebinds v home name b')
    (hb' : b' = .unresolved ∨ ∃ d, b' = .resolved d) : t.Evolves v where
  size := by
    rw [hlast.size, ← h.size]
    exact hrun.size
  parent s hs := by
    rw [hlast.parent, hrun.parent s (h.size ▸ hs), h.parent]
  declares s hs other := by
    rw [hlast.declares, hrun.declares s (h.size ▸ hs), h.declares]
  binding s hs other := by
    rw [hlast.binding]
    split
    · next heq =>
      rw [heq.1, heq.2, hold]
      rcases hb' with rfl | ⟨d, rfl⟩
      · exact .inl rfl
      · exact .inr ⟨rfl, d, rfl⟩
    · next hne =>
      have hsame := h.binding s other
      rw [if_neg hne] at hsame
      rcases hrun.binding s (h.size ▸ hs) other with heq | ⟨hold', d, hd⟩
      · exact .inl (heq.trans hsame)
      · exact .inr ⟨hsame.symm.trans hold', d, hd⟩
  opened s hs other call' := by
    -- The function is one of the tree at first, and not of a scope opened since.
    have hhome : home < t.scopes.size := lt_size_of_bindingAt hold
    rw [hlast.binding, if_neg]
    · exact hrun.opened s (h.size ▸ hs) other call'
    · rintro ⟨rfl, -⟩
      exact Nat.lt_irrefl s (Nat.lt_of_lt_of_le hhome hs)

end Rebinds

/-- Resolving a function that waits for its body is an evolution. -/
theorem evolves_bound {definition : NodeId} (hname : t.binding? id name = some .unresolved)
    (h : t.setBinding id name (.resolved definition) = .ok t') : t.Evolves t' := by
  obtain ⟨home, hs, hold⟩ := binding?_eq_some_iff.mp hname
  obtain ⟨u, hu, hrebinds⟩ := exists_rebinds hs hold (.resolved definition)
  cases hu.symm.trans h
  refine ⟨Nat.le_of_eq hrebinds.size.symm, fun s _ => hrebinds.parent s,
    fun s _ => hrebinds.declares s, fun s _ other => ?_, fun s hs' other call => ?_⟩ <;>
    rw [hrebinds.binding]
  · split
    · next heq =>
      rw [heq.1, heq.2]
      exact .inr ⟨hold, definition, rfl⟩
    · exact .inl rfl
  · split
    · nofun
    · rw [bindingAt_eq_none_of_size_le hs']
      nofun

/-! ### Declaring -/

/-- A tree has become another one by opening scopes and declaring names in scopes from
number `n` on, so that new functions wait for their bodies. -/
structure Grows (n : ScopeId) (t t' : ScopeTree) : Prop where
  size : t.scopes.size ≤ t'.scopes.size
  scope : ∀ s < n, t'.scope s = t.scope s
  binding : ∀ s name, t'.bindingAt s name = t.bindingAt s name ∨
    t.bindingAt s name = none ∧ t'.bindingAt s name = some .unresolved

namespace Grows

variable {n : ScopeId}

/-- The literals do not matter. -/
theorem of_scopes (h : t'.scopes = t.scopes) : t.Grows n t' := by
  have hscope : t'.scope = t.scope := by
    funext s
    rw [ScopeTree.scope, ScopeTree.scope, h]
  refine ⟨Nat.le_of_eq (congrArg Array.size h).symm, fun s _ => by rw [hscope],
    fun s name => .inl ?_⟩
  rw [bindingAt, bindingAt, hscope]

/-- Opening a scope declares nothing. -/
theorem openScope (hn : n ≤ t.scopes.size) (parent : ScopeId) :
    t.Grows n (t.openScope name parent).1 := by
  have hscope : ∀ s, s ≠ t.scopes.size → (t.openScope name parent).1.scope s = t.scope s := by
    intro s hs
    unfold ScopeTree.scope ScopeTree.openScope
    rcases Nat.lt_or_gt_of_ne hs with hlt | hgt
    · simp [Array.getD, hlt, Nat.lt_succ_of_lt hlt, Array.getElem_push_lt]
    · have hge : ¬s < t.scopes.size := by omega
      have hge' : ¬s < t.scopes.size + 1 := by omega
      simp [Array.getD, hge, hge']
  -- The new scope has no entries, like the scope that did not exist.
  have hnew : ((t.openScope name parent).1.scope t.scopes.size).entries = [] := by
    simp [ScopeTree.scope, ScopeTree.openScope, Array.getD, Scope.fresh]
  refine ⟨by simp [ScopeTree.openScope],
    fun s hs => hscope s (Nat.ne_of_lt (Nat.lt_of_lt_of_le hs hn)), fun s other => .inl ?_⟩
  by_cases hs : s = t.scopes.size
  · rw [bindingAt_eq_none_of_size_le (Nat.le_of_eq hs.symm), hs, bindingAt, Scope.get?, hnew]
    rfl
  · unfold bindingAt
    rw [hscope s hs]

/-- Declaring a name that is no function, or a function that waits for its body. -/
theorem declare {f : Scope → Scope} {d : Scope → Descriptor} (hn : n ≤ s)
    (hget : ∀ scope other, (f scope).get? other =
      (scope.get? other).or (if other = name then some (d scope) else none))
    (hd : ∀ scope, (d scope).binding? = none ∨ (d scope).binding? = some .unresolved) :
    t.Grows n (t.modifyScope s f) where
  size := Nat.le_of_eq size_modifyScope.symm
  scope r hr := by
    rw [scope_modifyScope, if_neg]
    exact fun h => absurd (h.1 ▸ hn) (Nat.not_le.mpr hr)
  binding r other := by
    unfold bindingAt
    rw [scope_modifyScope]
    split
    · rw [hget]
      cases (t.scope r).get? other with
      | some old => exact .inl rfl
      | none =>
        rw [Option.none_or]
        split
        · rcases hd (t.scope r) with hd | hd
          · exact .inl hd
          · exact .inr ⟨rfl, hd⟩
        · exact .inl rfl
    · exact .inl rfl

theorem trans (h : t.Grows n t') (h' : t'.Grows n t'') : t.Grows n t'' where
  size := Nat.le_trans h.size h'.size
  scope s hs := (h'.scope s hs).trans (h.scope s hs)
  binding s name := by
    rcases h.binding s name with heq | ⟨hnone, hnew⟩ <;>
      rcases h'.binding s name with heq' | ⟨hnone', hnew'⟩
    · exact .inl (heq'.trans heq)
    · exact .inr ⟨heq ▸ hnone', hnew'⟩
    · exact .inr ⟨hnone, heq'.trans hnew⟩
    · cases hnew.symm.trans hnone'

theorem holds (h : t.Grows n t') : t.Holds t' := by
  intro s name b _ hbind
  rcases h.binding s name with heq | ⟨hnone, -⟩
  · exact heq.trans hbind
  · cases hnone.symm.trans hbind

/-- Growth past the scopes that a tree started from is part of its evolution. -/
theorem evolves (h : t'.Grows t.scopes.size t'') (ht : t.Evolves t') : t.Evolves t'' where
  size := Nat.le_trans ht.size h.size
  parent s hs := by
    rw [h.scope s hs]
    exact ht.parent s hs
  declares s hs name := by
    rw [h.scope s hs]
    exact ht.declares s hs name
  binding s hs name := by
    unfold bindingAt
    rw [h.scope s hs]
    exact ht.binding s hs name
  opened s hs name call := by
    rcases h.binding s name with heq | ⟨-, hnew⟩
    · rw [heq]
      exact ht.opened s hs name call
    · rw [hnew]
      nofun

theorem intern {text : String} {type : Ty} {offset : Nat}
    (h : t.intern text type = .ok (offset, t')) : t.Grows n t' := by
  unfold ScopeTree.intern at h
  split at h <;> cases h
  exact .of_scopes rfl

theorem declareVar {type : Ty} {slot : Nat} (hn : n ≤ s)
    (h : t.declareVar s name type = .ok (slot, t')) : t.Grows n t' := by
  unfold ScopeTree.declareVar at h
  split at h <;> cases h
  exact .declare hn (fun _ _ => Scope.get?_declareVar) fun _ => .inl rfl

theorem declareConst {type : Ty} {value : String} {offset : Nat} (hn : n ≤ s)
    (h : t.declareConst s name type value = .ok (offset, t')) : t.Grows n t' := by
  unfold ScopeTree.declareConst at h
  split at h
  · cases h
  · split at h
    · next hintern =>
      cases h
      exact (intern hintern).trans (.declare hn (fun _ _ => Scope.get?_insert) fun _ => .inl rfl)
    · cases h

theorem declareFunc {type : Ty} (hn : n ≤ s) (h : t.declareFunc s name type = .ok t') :
    t.Grows n t' := by
  unfold ScopeTree.declareFunc at h
  split at h <;> cases h
  exact .declare hn (fun _ _ => Scope.get?_insert) fun _ => .inr rfl

end Grows

end ScopeTree

namespace Edit

/-- An edit declares names in scopes from number `n` on only, and neither replaces
descriptors nor moves variables. -/
def DeclaresFrom (n : ScopeId) : {α : Type} → Edit α → Prop
  | _, .declareVar scope _ _ => n ≤ scope
  | _, .declareConst scope _ _ _ => n ≤ scope
  | _, .declareFunc scope _ _ => n ≤ scope
  | _, .update .. => False
  | _, .remap .. => False
  | _, _ => True

end Edit

namespace CompilationUnit

variable {code code' : CompilationUnit} {n : ScopeId} {α : Type} {value : α}

theorem scopes_create {scope : ScopeId} {form : Form} {children : List NodeId} :
    (code.create scope form children).1.scopes = code.scopes := by
  unfold create
  dsimp only
  refine List.foldlRecOn (motive := fun c : CompilationUnit => c.scopes = code.scopes)
    children _ (List.foldlRecOn (motive := fun c : CompilationUnit => c.scopes = code.scopes)
      form.operands _ rfl ?_) ?_
  · exact fun _ h _ _ => h
  · exact fun _ h _ _ => h

/-- **What such an edit makes of the scopes**: they grow. -/
theorem grows_apply {e : Edit α} (h : code.apply e = .ok (value, code'))
    (he : e.DeclaresFrom n) (hn : n ≤ code.scopes.scopes.size) :
    code.scopes.Grows n code'.scopes := by
  cases e with
  | create scope form children =>
    cases h
    exact .of_scopes (congrArg ScopeTree.scopes scopes_create)
  | append | addFunction | setPosition =>
    cases h
    exact .of_scopes rfl
  | setField call field =>
    cases h
    refine .of_scopes ?_
    split <;> rfl
  | openScope name parent =>
    cases h
    exact .openScope hn parent
  | declareVar scope name type =>
    obtain ⟨⟨slot, t⟩, ht, heq⟩ := exists_of_map_eq_ok h
    cases heq
    exact .declareVar he ht
  | declareConst scope name type value =>
    obtain ⟨⟨offset, t⟩, ht, heq⟩ := exists_of_map_eq_ok h
    cases heq
    exact .declareConst he ht
  | declareFunc scope name type =>
    obtain ⟨t, ht, heq⟩ := exists_of_map_eq_ok h
    cases heq
    exact .declareFunc he ht
  | update | remap => exact he.elim
  | intern text type =>
    obtain ⟨⟨offset, t⟩, ht, heq⟩ := exists_of_map_eq_ok h
    cases heq
    exact .intern ht

end CompilationUnit

end ContractLang
