import ContractLang.Proofs.Scope.Retain

/-!
# How trees of scopes mature

A parser declares names while the body of a function is being obtained, and not only in scopes that
it has opened itself. As long as it respects the names that it finds declared
(`ContractLang.Edit.Respects`), the descriptors of these only gain: a type that is known stays the
same, and so does the binding of a function that is pending or resolved. And these names lead to the
scopes that they led to before (`ContractLang.ScopeTree.Matures.declaring?`).

This is less than what evolving trees are (`ContractLang.ScopeTree.Evolves`), in which nothing is
declared in a scope of old, and it is more, because it is about types as well.
-/

namespace ContractLang

/-! ### Descriptors -/

/-- A descriptor has become another one of its kind, and what was known stays as it was: the type,
and the binding of a function that does not wait for its body. -/
structure Descriptor.Matures (d d' : Descriptor) : Prop where
  kind : d.SameKind d'
  type : d.type.isKnown → d'.type = d.type
  binding : ∀ b, b ≠ .unresolved → d.binding? = some b → d'.binding? = some b

namespace Descriptor

variable {d d' d'' : Descriptor}

/-- Things of a kind are functions all of them or none. -/
theorem SameKind.isFunc_eq (h : d.SameKind d') : d'.isFunc = d.isFunc := by
  unfold SameKind at h
  unfold Descriptor.isFunc Descriptor.binding?
  cases hd : d.role <;> cases hd' : d'.role <;> simp_all [Role.sameKind]

/-- What is connected otherwise stays a function. -/
theorem SameKind.of_isFunc (hd : d.isFunc) (type : Ty) (b : Binding) :
    d.SameKind { d with type, role := .func b } := by
  unfold Descriptor.isFunc Descriptor.binding? at hd
  unfold SameKind
  cases hrole : d.role <;> simp_all [Role.sameKind]

namespace Matures

theorem refl (d : Descriptor) : d.Matures d :=
  ⟨.refl d, fun _ => rfl, fun _ _ => id⟩

theorem trans (h : d.Matures d') (h' : d'.Matures d'') : d.Matures d'' where
  kind := h.kind.trans h'.kind
  type hknown := by
    have htype := h.type hknown
    exact (h'.type (htype ▸ hknown)).trans htype
  binding b hb hbind := h'.binding b hb (h.binding b hb hbind)

end Matures

end Descriptor

/-! ### Trees of scopes -/

namespace ScopeTree

variable {t t' t'' u : ScopeTree} {id s home : ScopeId} {n name : String} {d old : Descriptor}

/-- A name is declared in some scope. -/
def Mentions (t : ScopeTree) (n : String) : Prop :=
  ∃ s, (t.scope s).declares n

theorem Mentions.of_get? (h : (t.scope s).get? n = some d) : t.Mentions n :=
  ⟨s, declares_of_get? h⟩

/-- What is known of the types of things of a name is kept from one tree to another. -/
def KeepsTypes (t t' : ScopeTree) (n : String) : Prop :=
  ∀ s d, (t.scope s).get? n = some d → d.type.isKnown →
    ∃ d', (t'.scope s).get? n = some d' ∧ d'.type = d.type

/-- A tree has become another one in which all descriptors have matured, and if a scope of old
declares one more name, this had not been declared anywhere. -/
structure Matures (t t' : ScopeTree) : Prop where
  size : t.scopes.size ≤ t'.scopes.size
  parent : ∀ s < t.scopes.size, (t'.scope s).parent = (t.scope s).parent
  kept : ∀ s n d, (t.scope s).get? n = some d → ∃ d', (t'.scope s).get? n = some d' ∧ d.Matures d'
  added : ∀ s < t.scopes.size, ∀ n, (t'.scope s).declares n →
    (t.scope s).declares n ∨ ¬t.Mentions n

namespace KeepsTypes

theorem refl (t : ScopeTree) (n : String) : t.KeepsTypes t n :=
  fun _ d hget _ => ⟨d, hget, rfl⟩

theorem trans (h : t.KeepsTypes t' n) (h' : t'.KeepsTypes t'' n) : t.KeepsTypes t'' n := by
  intro s d hget hknown
  obtain ⟨d', hget', htype⟩ := h s d hget hknown
  obtain ⟨d'', hget'', htype'⟩ := h' s d' hget' (htype ▸ hknown)
  exact ⟨d'', hget'', htype'.trans htype⟩

theorem modifyScope {f : Scope → Scope} (h : ∀ d, (t.scope id).get? n = some d → d.type.isKnown →
    ∃ d', (f (t.scope id)).get? n = some d' ∧ d'.type = d.type) :
    t.KeepsTypes (t.modifyScope id f) n := by
  intro s d hget hknown
  rw [scope_modifyScope]
  split
  · next hid =>
    obtain ⟨rfl, -⟩ := hid
    exact h d hget hknown
  · exact ⟨d, hget, rfl⟩

/-- Giving a function another binding changes no type. -/
theorem rebinds {b : Binding} (h : t.Rebinds t' home name b) : t.KeepsTypes t' n := by
  intro s d hget _
  rw [h.get?, hget]
  split
  · exact ⟨_, rfl, rfl⟩
  · exact ⟨d, rfl, rfl⟩

end KeepsTypes

namespace Matures

theorem refl (t : ScopeTree) : t.Matures t :=
  ⟨Nat.le_refl _, fun _ _ => rfl, fun _ _ d h => ⟨d, h, .refl d⟩, fun _ _ _ => .inl⟩

theorem mentions (h : t.Matures t') (hn : t.Mentions n) : t'.Mentions n := by
  obtain ⟨s, hs⟩ := hn
  obtain ⟨d, hget⟩ := Option.isSome_iff_exists.mp hs
  obtain ⟨d', hget', -⟩ := h.kept s n d hget
  exact .of_get? hget'

theorem trans (h : t.Matures t') (h' : t'.Matures t'') : t.Matures t'' where
  size := Nat.le_trans h.size h'.size
  parent s hs := (h'.parent s (Nat.lt_of_lt_of_le hs h.size)).trans (h.parent s hs)
  kept s n d hget := by
    obtain ⟨d', hget', hd⟩ := h.kept s n d hget
    obtain ⟨d'', hget'', hd'⟩ := h'.kept s n d' hget'
    exact ⟨d'', hget'', hd.trans hd'⟩
  added s hs n hn := by
    rcases h'.added s (Nat.lt_of_lt_of_le hs h.size) n hn with hold | hnew
    · exact h.added s hs n hold
    · exact .inr fun hold => hnew (h.mentions hold)

theorem keepsTypes (h : t.Matures t') (n : String) : t.KeepsTypes t' n := by
  intro s d hget hknown
  obtain ⟨d', hget', hd⟩ := h.kept s n d hget
  exact ⟨d', hget', hd.type hknown⟩

/-- What is pending or resolved stays so. -/
theorem holds (h : t.Matures t') : t.Holds t' := by
  intro s n b hb hbind
  obtain ⟨d, hget, hd⟩ := Option.bind_eq_some_iff.mp hbind
  obtain ⟨d', hget', hmatures⟩ := h.kept s n d hget
  exact Option.bind_eq_some_iff.mpr ⟨d', hget', hmatures.binding b hb hd⟩

/-- **A name leads to the same scope as before**, if it led to one. -/
theorem declaring? (h : t.Matures t') (hs : t.declaring? id n = some home) :
    t'.declaring? id n = some home := by
  obtain ⟨-, d, hget⟩ := declaring?_spec hs
  refine find?_ancestry_of_lt_size h.parent (fun s hlt => ?_) hs
  rw [Bool.eq_iff_iff]
  refine ⟨fun hn => (h.added s hlt n hn).resolve_right fun hnew => hnew (.of_get? hget),
    fun hn => ?_⟩
  obtain ⟨d, hget⟩ := Option.isSome_iff_exists.mp hn
  obtain ⟨d', hget', -⟩ := h.kept s n d hget
  exact declares_of_get? hget'

/-- Changing a scope in such a way that all of its descriptors mature. -/
theorem modifyScope {f : Scope → Scope} (hparent : ∀ scope, (f scope).parent = scope.parent)
    (hget : ∀ n, Option.Rel Descriptor.Matures ((t.scope id).get? n) ((f (t.scope id)).get? n)) :
    t.Matures (t.modifyScope id f) := by
  have hrel : ∀ s n, Option.Rel Descriptor.Matures ((t.scope s).get? n)
      (((t.modifyScope id f).scope s).get? n) := by
    intro s n
    rw [scope_modifyScope]
    split
    · next hs => exact hs.1 ▸ hget n
    · cases (t.scope s).get? n with
      | none => exact .none
      | some d => exact .some (.refl d)
  refine ⟨Nat.le_of_eq size_modifyScope.symm, fun s _ => parent_modifyScope hparent,
    fun s n d hold => ?_, fun s _ n hn => .inl ?_⟩
  · have hd := hrel s n
    rw [hold] at hd
    generalize ((t.modifyScope id f).scope s).get? n = o at hd
    cases hd with
    | some hd => exact ⟨_, rfl, hd⟩
  · have hd := hrel s n
    unfold Scope.declares at *
    revert hd hn
    generalize (t.scope s).get? n = o, ((t.modifyScope id f).scope s).get? n = o'
    rintro hn (_ | _)
    · rfl
    · exact hn

/-- Whatever is said of a name that has not been declared anywhere, or in a scope that has not been
there. -/
theorem modifyScope_of_new (h : u.Matures t) {f : Scope → Scope}
    (hparent : ∀ scope, (f scope).parent = scope.parent)
    (hother : ∀ m, m ≠ n → (f (t.scope id)).get? m = (t.scope id).get? m)
    (hnew : id < u.scopes.size → ¬u.Mentions n) : u.Matures (t.modifyScope id f) := by
  -- What the start tree declares in that scope has another name.
  have hne : ∀ {m d}, (u.scope id).get? m = some d → m ≠ n := by
    rintro m d hget rfl
    exact hnew (lt_size_of_get? hget) (.of_get? hget)
  refine ⟨size_modifyScope.symm ▸ h.size, fun s hs => (parent_modifyScope hparent).trans
    (h.parent s hs), fun s m d hget => ?_, fun s hs m hm => ?_⟩
  · rw [scope_modifyScope]
    split
    · next hid =>
      obtain ⟨rfl, -⟩ := hid
      rw [hother m (hne hget)]
      exact h.kept s m d hget
    · exact h.kept s m d hget
  · rw [scope_modifyScope] at hm
    split at hm
    · next hid =>
      obtain ⟨rfl, -⟩ := hid
      by_cases hmn : m = n
      · exact .inr (hmn ▸ hnew hs)
      · unfold Scope.declares at hm
        rw [hother m hmn] at hm
        exact h.added s hs m hm
    · exact h.added s hs m hm

theorem replace (hget : (t.scope s).get? name = some old) (hd : old.Matures d) :
    t.Matures (t.modifyScope s fun scope => scope.replace name d) := by
  refine modifyScope (fun _ => rfl) fun m => ?_
  rw [Scope.get?_replace]
  split
  · next hm =>
    rw [hm, hget]
    exact .some hd
  · cases (t.scope s).get? m with
    | none => exact .none
    | some d => exact .some (.refl d)

/-- Moving a scope concerns variables only, and not their types. -/
theorem remap (base : Nat) : t.Matures (t.remap id base) := by
  refine modifyScope (fun _ => rfl) fun m => ?_
  refine rel_lookup_mapIdx (fun i e => ?_) fun i e => ?_
  · unfold Scope.remapEntry
    split <;> rfl
  · unfold Scope.remapEntry
    split
    · next hrole =>
      refine ⟨by simp [Descriptor.SameKind, hrole, Role.sameKind], fun _ => rfl, fun b _ hb => ?_⟩
      simp [Descriptor.binding?, hrole] at hb
    · exact .refl _

theorem openScope (name : String) (parent : ScopeId) : t.Matures (t.openScope name parent).1 := by
  have hretains := Retains.openScope (t := t) name parent
  refine ⟨hretains.size, fun s hs => (hretains.scope s hs).parent,
    fun s n d hget => ⟨d, ?_, .refl d⟩, fun s _ n hn => .inl (by rwa [declares_openScope] at hn)⟩
  rw [scope_openScope, if_neg (Nat.ne_of_lt (lt_size_of_get? hget))]
  exact hget

/-- Giving a type to a name. -/
theorem refine {type : Ty} (h : t.refine id name type = .ok t') : t.Matures t' := by
  obtain ⟨old, hold⟩ := found_of_refine h
  obtain ⟨s, hs, hget⟩ := find?_eq_some_iff.mp hold
  rw [refine_eq_ok hs hget] at h
  cases h
  split
  · exact refl t
  · next hunknown =>
    exact replace hget ⟨old.role.sameKind_self, fun hknown => absurd hknown hunknown,
      fun _ _ hb => hb⟩

/-- **Connecting a function**, however often, as long as it has been waiting for its body in the
beginning. -/
theorem rebinds {b : Binding} (h : u.Matures t) (hold : u.bindingAt home name = some .unresolved)
    (hrebinds : t.Rebinds t' home name b) : u.Matures t' where
  size := hrebinds.size ▸ h.size
  parent s hs := (hrebinds.parent s).trans (h.parent s hs)
  kept s n d hget := by
    obtain ⟨d', hget', hd⟩ := h.kept s n d hget
    rw [hrebinds.get?, hget']
    split
    · next hplace =>
      obtain ⟨rfl, rfl⟩ := hplace
      obtain ⟨_, hsame, hunresolved⟩ := Option.bind_eq_some_iff.mp hold
      cases hget.symm.trans hsame
      have hfunc : d'.isFunc := by
        rw [hd.kind.isFunc_eq, Descriptor.isFunc, hunresolved]
        rfl
      refine ⟨_, rfl, hd.kind.trans (.of_isFunc hfunc _ b), hd.type, fun b' hb' hbind => ?_⟩
      exact absurd (Option.some.inj (hbind.symm.trans hunresolved)) hb'
    · exact ⟨d', rfl, hd⟩
  added s hs n hn := by
    rw [hrebinds.declares] at hn
    exact h.added s hs n hn

end Matures

end ScopeTree

/-! ### Edits -/

/-- An edit respects the names that are declared in a tree: it declares none of them in a scope that
is there, and replaces none of their descriptors. -/
def Edit.Respects (t : ScopeTree) : {α : Type} → Edit α → Prop
  | _, .declareVar scope n _ | _, .declareConst scope n _ _ | _, .declareFunc scope n _ =>
    scope < t.scopes.size → ¬t.Mentions n
  | _, .update _ n _ => ¬t.Mentions n
  | _, _ => True

section Respects

variable {t t' u : ScopeTree} {α : Type} {e : Edit α}

/-- **Trees mature by edits that respect the names in them**, even if they have matured before. -/
theorem ScopeTree.Matures.changes (h : u.Matures t) (he : e.Respects u)
    (hchanges : e.Changes t t') : u.Matures t' := by
  cases hchanges with
  | unchanged => exact h
  | openScope => exact h.trans (.openScope _ _)
  | declareVar hnew =>
    exact h.modifyScope_of_new (fun _ => rfl) (fun m hm => by simp [Scope.get?_declareVar, hm]) he
  | @declareConst id name value type offset pool hnew hpool =>
    have hpooled : u.Matures { t with pool } := ⟨h.size, h.parent, h.kept, h.added⟩
    exact hpooled.modifyScope_of_new (fun _ => rfl) (fun m hm => by simp [Scope.get?_insert, hm]) he
  | declareFunc hnew =>
    exact h.modifyScope_of_new (fun _ => rfl) (fun m hm => by simp [Scope.get?_insert, hm]) he
  | update hs hold hkind =>
    exact h.modifyScope_of_new (fun _ => rfl) (fun m hm => by simp [Scope.get?_replace, hm])
      fun _ => he
  | remap => exact h.trans (.remap _)
  | intern => exact ⟨h.size, h.parent, h.kept, h.added⟩

/-- What is known of the types of a name that is respected is kept by every single edit. -/
theorem ScopeTree.KeepsTypes.changes {n : String} (hn : u.Mentions n) (he : e.Respects u)
    (hchanges : e.Changes t t') : t.KeepsTypes t' n := by
  cases hchanges with
  | unchanged => exact .refl t n
  | openScope => exact (Matures.openScope _ _).keepsTypes n
  | declareVar =>
    exact .modifyScope fun d hget _ => ⟨d, by rw [Scope.get?_declareVar, hget, Option.some_or], rfl⟩
  | @declareConst id name value type offset pool =>
    exact KeepsTypes.modifyScope (t := { t with pool }) fun d hget _ =>
      ⟨d, by rw [Scope.get?_insert, hget, Option.some_or], rfl⟩
  | declareFunc =>
    exact .modifyScope fun d hget _ => ⟨d, by rw [Scope.get?_insert, hget, Option.some_or], rfl⟩
  | @update id s name d =>
    have hne : n ≠ name := fun heq => he (heq ▸ hn)
    exact .modifyScope fun d' hget _ => ⟨d', by rw [Scope.get?_replace, if_neg hne, hget], rfl⟩
  | remap => exact (Matures.remap _).keepsTypes n
  | intern => exact fun s d hget _ => ⟨d, hget, rfl⟩

end Respects

end ContractLang
