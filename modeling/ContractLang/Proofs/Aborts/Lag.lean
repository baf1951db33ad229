import ContractLang.Proofs.Aborts.Mute

/-!
# Units that lag behind

A unit that has been checked leniently lags behind one that has been checked strictly
(`ContractLang.CompilationUnit.Lags`): calls of mute functions may have no type on record where the
strict one has that of a word, and neither may the descriptors of mute names. Apart from that the
two units are the same, so a name is found in the same scope of both, and connected with the same
function.

It keeps lagging behind when the same goes on record in both, and when a type goes on record only in
the strict one, for a call of a mute function or for a mute name.
-/

namespace ContractLang

open Check

/-- What is found in two tables is related more loosely. -/
theorem rel_mono {α β : Type} {r r' : α → β → Prop} (hr : ∀ a b, r a b → r' a b) :
    ∀ {o : Option α} {o' : Option β}, Option.Rel r o o' → Option.Rel r' o o'
  | _, _, .some h => .some (hr _ _ h)
  | _, _, .none => .none

/-- A descriptor is the same in two units, or without a known type in the second one if its name
is mute. -/
structure Descriptor.Behind (mute : Prop) (d d' : Descriptor) : Prop where
  role : d'.role = d.role
  type : d'.type = d.type ∨ mute ∧ d.type = .uint64 ∧ ¬d'.type.isKnown

theorem Descriptor.Behind.mono {mute mute' : Prop} {d d' : Descriptor} (h : d.Behind mute d')
    (hmute : mute → mute') : d.Behind mute' d' :=
  ⟨h.role, h.type.imp_right fun ⟨hold, hlag⟩ => ⟨hmute hold, hlag⟩⟩

namespace CompilationUnit

/-- What is on record for a node is the same in two units, or without a known type in the second
one if the node calls a mute function. -/
structure NodeLags (code : CompilationUnit) (x : NodeId) (node node' : Node) : Prop where
  fixed : node'.fixed = node.fixed
  definition : node'.definition = node.definition
  type : node'.type = node.type ∨ node.type = .uint64 ∧ ¬node'.type.isKnown ∧
    ∃ f, code.Calls x f ∧ code.Mute f ∧ node.definition = some f

/-- A unit lags behind another one: the same has been found out in both, except for types of
calls of mute functions and of mute names. -/
structure Lags (code code' : CompilationUnit) : Prop where
  size : code'.size = code.size
  node : ∀ id, code.NodeLags id (code.node id) (code'.node id)
  parent : ∀ s, (code'.scopes.scope s).parent = (code.scopes.scope s).parent
  get? : ∀ s n, Option.Rel (Descriptor.Behind (code.MuteName s n))
    ((code.scopes.scope s).get? n) ((code'.scopes.scope s).get? n)

variable {code code' code₁ : CompilationUnit} {x f : NodeId} {id home : ScopeId} {name : String}
  {d : Descriptor}

theorem NodeLags.mono {node node' : Node} (h : code.NodeLags x node node')
    (hcode : code.Precedes code₁) : code₁.NodeLags x node node' :=
  ⟨h.fixed, h.definition, h.type.imp_right fun ⟨hword, hunknown, f, hcalls, hmute, hdef⟩ =>
    ⟨hword, hunknown, f, hcode.calls hcalls, hcode.build.mute hmute, hdef⟩⟩

namespace Lags

theorem refl (code : CompilationUnit) : code.Lags code where
  size := rfl
  node _ := ⟨rfl, rfl, .inl rfl⟩
  parent _ := rfl
  get? s n := by
    cases (code.scopes.scope s).get? n with
    | none => exact .none
    | some d => exact .some ⟨rfl, .inl rfl⟩

section Look

variable (h : code.Lags code')

include h

theorem build : code.SameBuild code' := fun id => (h.node id).fixed

theorem agree (ids : List ScopeId) :
    ScopeTree.Agree (fun d d' => d'.role = d.role) ids code.scopes code'.scopes := by
  refine ⟨fun s _ => h.parent s, fun s _ n => ?_⟩
  have hrel := h.get? s n
  revert hrel
  generalize (code.scopes.scope s).get? n = o, (code'.scopes.scope s).get? n = o'
  rintro (hd | _)
  · exact .some hd.role
  · exact .none

/-- A name is found in the same scope. -/
theorem declaring? (id : ScopeId) (name : String) :
    code'.scopes.declaring? id name = code.scopes.declaring? id name :=
  (h.agree _).declaring? name

/-- A name is connected with the same function. -/
theorem binding? (id : ScopeId) (name : String) :
    code'.scopes.binding? id name = code.scopes.binding? id name := by
  have hrel := (h.agree (code.scopes.chain id)).find? name
  unfold ScopeTree.binding?
  revert hrel
  generalize code.scopes.find? id name = o, code'.scopes.find? id name = o'
  rintro (hrole | _)
  · simp only [Option.bind_some, Descriptor.binding?, hrole]
  · rfl

/-- What a name means in the one unit is behind what it means in the other one. -/
theorem find? (hd : code.scopes.find? id name = some d) :
    ∃ home d', code.scopes.declaring? id name = some home ∧
      (code.scopes.scope home).get? name = some d ∧
      (code'.scopes.scope home).get? name = some d' ∧
      code'.scopes.find? id name = some d' ∧ d.Behind (code.MuteName home name) d' := by
  obtain ⟨home, hhome, hget⟩ := ScopeTree.find?_eq_some_iff.mp hd
  have hrel := h.get? home name
  rw [hget] at hrel
  cases hget' : (code'.scopes.scope home).get? name with
  | none =>
    rw [hget'] at hrel
    cases hrel
  | some d' =>
    rw [hget'] at hrel
    cases hrel with
    | some hbehind =>
      exact ⟨home, d', hhome, hget, hget',
        ScopeTree.find?_eq_some_iff.mpr ⟨home, (h.declaring? id name).trans hhome, hget'⟩, hbehind⟩

theorem find?_eq_none (hd : code.scopes.find? id name = none) :
    code'.scopes.find? id name = none := by
  have hrel := (h.agree (code.scopes.chain id)).find? name
  rw [hd] at hrel
  cases hd' : code'.scopes.find? id name with
  | none => rfl
  | some d' =>
    rw [hd'] at hrel
    cases hrel

/-- The types on record are the same for all that calls no mute function. -/
theorem type_eq (hx : ¬code.CallsMute x) : (code'.node x).type = (code.node x).type :=
  (h.node x).type.resolve_right fun ⟨_, _, f, hcalls, hmute, _⟩ => hx ⟨f, hcalls, hmute⟩

end Look

/-! ### Going on record -/

/-- What goes on record for a node in both units. -/
theorem modifyNode {g g' : Node → Node} (h : code.Lags code')
    (hg : ∀ node, (g node).fixed = node.fixed)
    (hnode : code.NodeLags x (g (code.node x)) (g' (code'.node x))) :
    (code.modifyNode x g).Lags (code'.modifyNode x g') where
  size := by rw [size_modifyNode, size_modifyNode, h.size]
  node id := by
    refine NodeLags.mono ?_ (.modifyNode hg)
    rw [node_modifyNode, node_modifyNode, h.size]
    split
    · next hid => exact hid.1 ▸ hnode
    · exact h.node id
  parent := h.parent
  get? s n := rel_mono (fun _ _ hd => hd.mono (Precedes.modifyNode hg).muteName) (h.get? s n)

theorem setType (h : code.Lags code') (x : NodeId) (type : Ty) :
    (code.setType x type).Lags (code'.setType x type) :=
  h.modifyNode (fun _ => rfl)
    ⟨(h.node x).fixed, (h.node x).definition, .inl rfl⟩

theorem setTargetTypes (h : code.Lags code') (x : NodeId) (types : List Ty) :
    (code.setTargetTypes x types).Lags (code'.setTargetTypes x types) :=
  h.modifyNode (fun _ => rfl) ⟨(h.node x).fixed, (h.node x).definition, (h.node x).type⟩

/-- A call is connected with its function. -/
theorem setDefinition (h : code.Lags code') (hcalls : code.Calls x f) :
    (code.setDefinition x f).Lags (code'.setDefinition x f) := by
  refine h.modifyNode (fun _ => rfl) ⟨(h.node x).fixed, rfl, ?_⟩
  refine (h.node x).type.imp_right fun ⟨hword, hunknown, g, hg, hmute, _⟩ => ?_
  exact ⟨hword, hunknown, g, hg, hmute, congrArg some (hcalls.unique hg)⟩

/-- A call of a mute function that is connected with it already stays behind. -/
theorem setDefinition_again (h : code.Lags code') (hdef : (code.node x).definition = some f) :
    code.Lags (code'.setDefinition x f) where
  size := size_modifyNode.trans h.size
  node id := by
    unfold CompilationUnit.setDefinition
    rw [node_modifyNode]
    split
    · next hid =>
      obtain ⟨rfl, -⟩ := hid
      exact ⟨(h.node id).fixed, hdef.symm, (h.node id).type⟩
    · exact h.node id
  parent := h.parent
  get? := h.get?

/-- A call of a mute function has a type on record in the strict unit only. -/
theorem setType_ahead (h : code.Lags code') (hcalls : code.Calls x f) (hmute : code.Mute f)
    (hdef : (code.node x).definition = some f) (hunknown : ¬(code'.node x).type.isKnown) :
    (code.setType x .uint64).Lags code' where
  size := h.size.trans size_modifyNode.symm
  node id := by
    refine NodeLags.mono ?_ (.modifyNode fun _ => rfl)
    unfold CompilationUnit.setType
    rw [node_modifyNode]
    split
    · next hid =>
      obtain ⟨rfl, -⟩ := hid
      exact ⟨(h.node id).fixed, (h.node id).definition,
        .inr ⟨rfl, hunknown, f, hcalls, hmute, hdef⟩⟩
    · exact h.node id
  parent := h.parent
  get? s n := by
    have hset : code.Precedes (code.setType x .uint64) := .modifyNode fun _ => rfl
    exact rel_mono (fun _ _ hd => hd.mono hset.muteName) (h.get? s n)

/-- Both scopes change, and the one tree still lags behind the other one. -/
theorem withScopes (h : code.Lags code') {t t' : ScopeTree} (ht : code.scopes.RefinesTo t)
    (hparent : ∀ s, (t'.scope s).parent = (code'.scopes.scope s).parent)
    (hget : ∀ s n, Option.Rel (Descriptor.Behind (code.MuteName s n))
      ((t.scope s).get? n) ((t'.scope s).get? n)) :
    (code.withScopes t).Lags (code'.withScopes t') where
  size := h.size
  node id := (h.node id).mono (.withScopes ht)
  parent s := by
    change (t'.scope s).parent = (t.scope s).parent
    rw [hparent, h.parent, (ht.scope s).parent]
  get? s n :=
    rel_mono (fun _ _ hd => hd.mono (Precedes.withScopes ht).muteName) (hget s n)

/-- A descriptor is replaced in both units. -/
theorem replace (h : code.Lags code') {old d₁ d₁' : Descriptor}
    (hget : (code.scopes.scope home).get? name = some old) (hd : old.RefinesTo d₁)
    (hbehind : d₁.Behind (code.MuteName home name) d₁') :
    (code.withScopes (code.scopes.modifyScope home fun scope => scope.replace name d₁)).Lags
      (code'.withScopes (code'.scopes.modifyScope home fun scope => scope.replace name d₁')) := by
  refine h.withScopes (.replace hget hd) (fun s => ScopeTree.parent_replace) fun s n => ?_
  rw [ScopeTree.get?_modifyScope_replace, ScopeTree.get?_modifyScope_replace]
  have hrel := h.get? s n
  split
  · next hplace =>
    obtain ⟨rfl, rfl⟩ := hplace
    revert hrel
    generalize (code.scopes.scope s).get? n = o, (code'.scopes.scope s).get? n = o'
    rintro (_ | _)
    · exact .some hbehind
    · exact .none
  · exact hrel

/-- A descriptor is replaced in the lenient unit. -/
theorem replace_behind (h : code.Lags code') {d₁' : Descriptor}
    (hget : (code.scopes.scope home).get? name = some d)
    (hbehind : d.Behind (code.MuteName home name) d₁') :
    code.Lags (code'.withScopes
      (code'.scopes.modifyScope home fun scope => scope.replace name d₁')) := by
  refine h.withScopes (.refl _) (fun s => ScopeTree.parent_replace) fun s n => ?_
  rw [ScopeTree.get?_modifyScope_replace]
  have hrel := h.get? s n
  split
  · next hplace =>
    obtain ⟨rfl, rfl⟩ := hplace
    rw [hget] at hrel ⊢
    revert hrel
    generalize (code'.scopes.scope s).get? n = o'
    rintro (_ | _)
    exact .some hbehind
  · exact hrel

/-- A descriptor is replaced in the strict unit. -/
theorem replace_ahead (h : code.Lags code') {old d₁ d' : Descriptor}
    (hget : (code.scopes.scope home).get? name = some old)
    (hget' : (code'.scopes.scope home).get? name = some d') (hd : old.RefinesTo d₁)
    (hbehind : d₁.Behind (code.MuteName home name) d') :
    (code.withScopes (code.scopes.modifyScope home fun scope => scope.replace name d₁)).Lags
      code' := by
  change (code.withScopes _).Lags (code'.withScopes code'.scopes)
  refine h.withScopes (.replace hget hd) (fun _ => rfl) fun s n => ?_
  rw [ScopeTree.get?_modifyScope_replace]
  have hrel := h.get? s n
  split
  · next hplace =>
    obtain ⟨rfl, rfl⟩ := hplace
    rw [hget, hget']
    exact .some hbehind
  · exact hrel

/-- **A name is given a type in both units**, which has to be that of words if the name is mute
and has that type in the strict one. -/
theorem refine (h : code.Lags code') {type : Ty} {t : ScopeTree}
    (hrefine : code.scopes.refine id name type = .ok t) (htype : type.isKnown)
    (hsafe : ∀ home d, code.scopes.declaring? id name = some home →
      code.scopes.find? id name = some d → code.MuteName home name → d.type = .uint64 →
      type = .uint64) :
    ∃ t', code'.scopes.refine id name type = .ok t' ∧
      (code.withScopes t).Lags (code'.withScopes t') := by
  obtain ⟨d, hd⟩ := ScopeTree.found_of_refine hrefine
  obtain ⟨home, d', hhome, hget, hget', -, hbehind⟩ := h.find? hd
  rw [ScopeTree.refine_eq_ok hhome hget] at hrefine
  obtain rfl := Except.ok.inj hrefine
  refine ⟨_, ScopeTree.refine_eq_ok ((h.declaring? _ _).trans hhome) hget' type, ?_⟩
  rcases hbehind.type with heq | ⟨hmute, hword, hunknown⟩
  · rw [heq]
    split
    · exact h
    · next hunknown =>
      exact h.replace hget ⟨rfl, .inr ⟨hunknown, htype⟩, .inl rfl⟩ ⟨hbehind.role, .inl rfl⟩
  · rw [if_pos (by rw [hword]; rfl), if_neg hunknown]
    refine h.replace_behind hget ⟨hbehind.role, .inl ?_⟩
    exact (hsafe home d hhome hd hmute hword).trans hword.symm

/-- A mute name is given the type of words in the strict unit only. -/
theorem refine_ahead (h : code.Lags code') {t : ScopeTree}
    (hrefine : code.scopes.refine id name .uint64 = .ok t)
    (hmute : ∀ home, code.scopes.declaring? id name = some home → code.MuteName home name) :
    (code.withScopes t).Lags code' := by
  obtain ⟨d, hd⟩ := ScopeTree.found_of_refine hrefine
  obtain ⟨home, d', hhome, hget, hget', -, hbehind⟩ := h.find? hd
  rw [ScopeTree.refine_eq_ok hhome hget] at hrefine
  obtain rfl := Except.ok.inj hrefine
  split
  · exact h
  · next hunknown =>
    have heq : d'.type = d.type := hbehind.type.resolve_right fun hlag =>
      hunknown (by rw [hlag.2.1]; rfl)
    exact h.replace_ahead hget hget' ⟨rfl, .inr ⟨hunknown, rfl⟩, .inl rfl⟩
      ⟨hbehind.role, .inr ⟨hmute home hhome, rfl, heq ▸ hunknown⟩⟩

/-- **A call of a mute function goes on record** as one of its type of aborts in the strict unit
only. -/
theorem call_ahead (h : code.Lags code') (hform : code.form x = .call name)
    (hname : code.scopes.binding? (code.node x).scope name = some (.resolved f))
    (hmute : code.Mute f) (hunknown : ¬(code'.node x).type.isKnown) {t : ScopeTree}
    (hrefine : (code.setDefinition x f).scopes.refine (code.node x).scope name .uint64 = .ok t) :
    (((code.setDefinition x f).withScopes t).setType x .uint64).Lags (code'.setDefinition x f) := by
  have hcalls : code.Calls x f := ⟨name, hform, hname⟩
  have hset : code.Precedes (code.setDefinition x f) := .modifyNode fun _ => rfl
  have hrefines : (code.setDefinition x f).Precedes ((code.setDefinition x f).withScopes t) :=
    .withScopes (ScopeTree.refinesTo_refine hrefine rfl)
  have hahead : ((code.setDefinition x f).withScopes t).Lags (code'.setDefinition x f) := by
    refine (h.setDefinition hcalls).refine_ahead hrefine fun home hhome => ?_
    refine .call ⟨f, hset.calls hcalls, hset.build.mute hmute⟩ ((hset.build.form x).trans hform) ?_
    rw [hset.build.scope]
    exact hhome
  have hnode : ∀ c : CompilationUnit, x < c.size →
      (c.setDefinition x f).node x = { c.node x with definition := some f } := fun c hc => by
    unfold CompilationUnit.setDefinition
    rw [node_modifyNode, if_pos ⟨rfl, hc⟩]
  refine hahead.setType_ahead ((hset.trans hrefines).calls hcalls)
    ((hset.trans hrefines).build.mute hmute) ?_ ?_
  · change ((code.setDefinition x f).node x).definition = some f
    rw [hnode code hcalls.lt_size]
  · rw [hnode code' (h.size ▸ hcalls.lt_size)]
    exact hunknown

/-- A function that waits for its body is given one in both units. -/
theorem resolve (h : code.Lags code') {t : ScopeTree}
    (hname : code.scopes.binding? id name = some .unresolved)
    (hset : code.scopes.setBinding id name (.resolved f) = .ok t) :
    ∃ t', code'.scopes.setBinding id name (.resolved f) = .ok t' ∧
      (code.withScopes t).Lags (code'.withScopes t') := by
  obtain ⟨d, hd, hrole⟩ := ScopeTree.exists_of_unresolved hname
  obtain ⟨home, d', hhome, hget, hget', -, hbehind⟩ := h.find? hd
  have hfunc : ∀ e : Descriptor, e.role = .func .unresolved → e.isFunc := fun e he => by
    rw [Descriptor.isFunc, Descriptor.binding?, he]
    rfl
  rw [ScopeTree.setBinding_eq_ok hhome hget (hfunc d hrole)] at hset
  obtain rfl := Except.ok.inj hset
  refine ⟨_, ScopeTree.setBinding_eq_ok ((h.declaring? _ _).trans hhome) hget'
    (hfunc d' (hbehind.role.trans hrole)) _, ?_⟩
  exact h.replace hget ⟨rfl, .inl rfl, .inr ⟨hrole, f, rfl⟩⟩ ⟨rfl, hbehind.type⟩

end Lags

end CompilationUnit

end ContractLang
