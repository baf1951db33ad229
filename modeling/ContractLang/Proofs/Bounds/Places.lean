import ContractLang.Proofs.Scope.Retain

/-!
# References

Nodes and scopes refer to one another by number: a node to its scope, its parent, its children,
its operands, a definition or the functions that are listed in it, a scope to its parent, and the
descriptor of a function to a call or a definition. A unit is intact if all that is referred to
in it exists (`ContractLang.CompilationUnit.Intact`).

It stays so whatever is built on it, as long as an edit is given nothing that does not exist
(`ContractLang.CompilationUnit.Intact.apply`). Nodes and scopes are never removed, so what exists
once does so from then on (`ContractLang.CompilationUnit.LiesIn`).
-/

namespace ContractLang

/-- A node or a scope, by its number. -/
inductive Place where
  | node (id : NodeId)
  | scope (id : ScopeId)
  deriving DecidableEq, Repr

/-! ### What refers to what -/

namespace Form

/-- The definition that leaving a function notes. -/
def noted : Form → Option NodeId
  | ret _ definition => definition
  | _ => none

/-- What a form refers to: its operands, and the definition that it notes. -/
def places (form : Form) : List Place :=
  (form.operands ++ form.noted.toList).map .node

end Form

/-- What a node refers to. -/
def Node.places (node : Node) : List Place :=
  .scope node.scope :: (node.form.places ++
    (node.parent.toList ++ node.children ++ node.definition.toList ++ node.listed).map .node)

/-- The node that the binding of a function refers to. -/
def Binding.node? : Binding → Option NodeId
  | unresolved => none
  | pending call => some call
  | resolved definition => some definition

/-- What a descriptor refers to. -/
def Descriptor.places (d : Descriptor) : List Place :=
  (d.binding?.bind Binding.node?).toList.map .node

/-- What a scope refers to. -/
def Scope.places (scope : Scope) : List Place :=
  scope.parent.toList.map .scope ++ scope.descriptors.flatMap Descriptor.places

/-- What an edit is given. -/
def Edit.places : {α : Type} → Edit α → List Place
  | _, .create scope form children => .scope scope :: (form.places ++ children.map .node)
  | _, .append parent child => [.node parent, .node child]
  | _, .addFunction program definition => [.node program, .node definition]
  | _, .setPosition node _ => [.node node]
  | _, .setField call _ => [.node call]
  | _, .openScope _ parent => [.scope parent]
  | _, .declareVar scope _ _ => [.scope scope]
  | _, .declareConst scope _ _ _ => [.scope scope]
  | _, .declareFunc scope _ _ => [.scope scope]
  | _, .update scope _ descriptor => .scope scope :: descriptor.places
  | _, .remap scope _ => [.scope scope]
  | _, .intern _ _ => []

namespace CompilationUnit

/-- A place exists in a unit. -/
def Has (code : CompilationUnit) : Place → Prop
  | .node id => id < code.size
  | .scope id => id < code.scopes.scopes.size

instance (code : CompilationUnit) : DecidablePred code.Has
  | .node id => inferInstanceAs (Decidable (id < code.size))
  | .scope id => inferInstanceAs (Decidable (id < code.scopes.scopes.size))

/-- All of some places exist in a unit. -/
def HasAll (code : CompilationUnit) (places : List Place) : Prop :=
  ∀ p ∈ places, code.Has p

instance (code : CompilationUnit) (places : List Place) : Decidable (code.HasAll places) :=
  inferInstanceAs (Decidable (∀ p ∈ places, code.Has p))

/-- All that nodes and scopes of the unit refer to exists. -/
structure Intact (code : CompilationUnit) : Prop where
  node : ∀ x < code.size, code.HasAll (code.node x).places
  scope : ∀ s < code.scopes.scopes.size, code.HasAll (code.scopes.scope s).places

/-- All that nodes and scopes of the unit refer to. -/
def references (code : CompilationUnit) : List Place :=
  ((List.range code.size).flatMap fun x => (code.node x).places) ++
    (List.range code.scopes.scopes.size).flatMap fun s => (code.scopes.scope s).places

section HasAll

variable {code : CompilationUnit} {places places' : List Place} {p : Place} {ids : List Nat}

@[simp] theorem has_node {x : NodeId} : code.Has (.node x) ↔ x < code.size :=
  Iff.rfl

@[simp] theorem has_scope {s : ScopeId} : code.Has (.scope s) ↔ s < code.scopes.scopes.size :=
  Iff.rfl

@[simp] theorem hasAll_nil : code.HasAll [] :=
  nofun

@[simp] theorem hasAll_cons : code.HasAll (p :: places) ↔ code.Has p ∧ code.HasAll places :=
  List.forall_mem_cons

@[simp] theorem hasAll_append :
    code.HasAll (places ++ places') ↔ code.HasAll places ∧ code.HasAll places' :=
  List.forall_mem_append

@[simp] theorem hasAll_map {f : Nat → Place} :
    code.HasAll (ids.map f) ↔ ∀ x ∈ ids, code.Has (f x) :=
  List.forall_mem_map

@[simp] theorem hasAll_flatMap {γ : Type} {xs : List γ} {f : γ → List Place} :
    code.HasAll (xs.flatMap f) ↔ ∀ x ∈ xs, code.HasAll (f x) := by
  simp only [HasAll, List.mem_flatMap]
  exact ⟨fun h x hx p hp => h p ⟨x, hx, hp⟩, fun h p ⟨x, hx, hp⟩ => h x hx p hp⟩

/-- What a node refers to, part by part. -/
theorem hasAll_node {node : Node} : code.HasAll node.places ↔
    node.scope < code.scopes.scopes.size ∧ code.HasAll node.form.places ∧
      (∀ y ∈ node.parent, y < code.size) ∧ (∀ y ∈ node.children, y < code.size) ∧
      (∀ y ∈ node.definition, y < code.size) ∧ ∀ y ∈ node.listed, y < code.size := by
  simp [Node.places]

/-- What a scope refers to, part by part. -/
theorem hasAll_scope {scope : Scope} : code.HasAll scope.places ↔
    (∀ p ∈ scope.parent, p < code.scopes.scopes.size) ∧
      ∀ d ∈ scope.descriptors, code.HasAll d.places := by
  simp [Scope.places]

/-- What a descriptor refers to. -/
theorem hasAll_descriptor {d : Descriptor} :
    code.HasAll d.places ↔ ∀ y ∈ d.binding?.bind Binding.node?, y < code.size := by
  simp [Descriptor.places]

theorem intact_iff : code.Intact ↔ code.HasAll code.references := by
  simp only [references, hasAll_append, hasAll_flatMap, List.mem_range]
  exact ⟨fun h => ⟨h.node, h.scope⟩, fun h => ⟨h.1, h.2⟩⟩

theorem HasAll.subset (h : code.HasAll places) (hsub : places' ⊆ places) : code.HasAll places' :=
  fun p hp => h p (hsub hp)

end HasAll

/-! ### Units that lie in later ones -/

/-- All nodes and scopes of a unit are nodes and scopes of another one. -/
structure LiesIn (code code' : CompilationUnit) : Prop where
  nodes : code.size ≤ code'.size
  scopes : code.scopes.scopes.size ≤ code'.scopes.scopes.size

namespace LiesIn

variable {code code' code'' : CompilationUnit} {places : List Place} {p : Place}

theorem refl (code : CompilationUnit) : code.LiesIn code :=
  ⟨Nat.le_refl _, Nat.le_refl _⟩

theorem trans (h : code.LiesIn code') (h' : code'.LiesIn code'') : code.LiesIn code'' :=
  ⟨Nat.le_trans h.nodes h'.nodes, Nat.le_trans h.scopes h'.scopes⟩

theorem node_lt (h : code.LiesIn code') {x : NodeId} (hx : x < code.size) : x < code'.size :=
  Nat.lt_of_lt_of_le hx h.nodes

theorem scope_lt (h : code.LiesIn code') {s : ScopeId} (hs : s < code.scopes.scopes.size) :
    s < code'.scopes.scopes.size :=
  Nat.lt_of_lt_of_le hs h.scopes

theorem has (h : code.LiesIn code') (hp : code.Has p) : code'.Has p := by
  cases p with
  | node x => exact h.node_lt hp
  | scope s => exact h.scope_lt hp

theorem hasAll (h : code.LiesIn code') (hplaces : code.HasAll places) : code'.HasAll places :=
  fun p hp => h.has (hplaces p hp)

theorem modifyNode (code : CompilationUnit) (x : NodeId) (f : Node → Node) :
    code.LiesIn (code.modifyNode x f) :=
  ⟨Nat.le_of_eq size_modifyNode.symm, Nat.le_refl _⟩

theorem withScopes (code : CompilationUnit) {scopes : ScopeTree}
    (h : code.scopes.scopes.size ≤ scopes.scopes.size) : code.LiesIn (code.withScopes scopes) :=
  ⟨Nat.le_refl _, h⟩

theorem revises {scopes : ScopeTree} (h : code.scopes.Revises scopes) :
    code.LiesIn (code.withScopes scopes) :=
  .withScopes code (Nat.le_of_eq h.size.symm)

end LiesIn

namespace Intact

variable {code code' : CompilationUnit} {x y : NodeId} {s : ScopeId}

/-! ### Reading an intact unit -/

section Read

variable (h : code.Intact)

include h

theorem scope_lt (hx : x < code.size) : (code.node x).scope < code.scopes.scopes.size :=
  (hasAll_node.mp (h.node x hx)).1

theorem operand_lt (hx : x < code.size) (hy : y ∈ (code.form x).operands) : y < code.size :=
  (hasAll_node.mp (h.node x hx)).2.1 (.node y)
    (List.mem_map_of_mem (List.mem_append_left _ hy))

theorem child_lt (hx : x < code.size) (hy : y ∈ code.children x) : y < code.size :=
  (hasAll_node.mp (h.node x hx)).2.2.2.1 y hy

theorem parent_lt {p : ScopeId} (hs : s < code.scopes.scopes.size)
    (hp : (code.scopes.scope s).parent = some p) : p < code.scopes.scopes.size :=
  (hasAll_scope.mp (h.scope s hs)).1 p hp

/-- What a name that is found refers to exists. -/
theorem find? {name : String} {d : Descriptor} (hd : code.scopes.find? s name = some d) :
    code.HasAll d.places := by
  obtain ⟨home, -, hget⟩ := ScopeTree.find?_eq_some_iff.mp hd
  exact (hasAll_scope.mp (h.scope home (ScopeTree.lt_size_of_get? hget))).2 d
    (List.mem_map.mpr ⟨(name, d), Scope.mem_of_get? hget, rfl⟩)

/-- The definition that a function is connected with exists. -/
theorem resolved_lt {name : String} (hb : code.scopes.binding? s name = some (.resolved y)) :
    y < code.size := by
  obtain ⟨d, hd, hbinding⟩ := Option.bind_eq_some_iff.mp hb
  exact hasAll_descriptor.mp (h.find? hd) y (by simp [hbinding, Binding.node?])

end Read

/-! ### Changing an intact unit -/

section Change

variable (h : code.Intact)

include h

theorem modifyNode {f : Node → Node}
    (hf : x < code.size → code.HasAll (f (code.node x)).places) :
    (code.modifyNode x f).Intact where
  node y hy := by
    refine (LiesIn.modifyNode code x f).hasAll ?_
    rw [size_modifyNode] at hy
    rw [node_modifyNode]
    split
    · next hyx => exact hyx.1 ▸ hf (hyx.1 ▸ hy)
    · exact h.node y hy
  scope s hs := (LiesIn.modifyNode code x f).hasAll (h.scope s hs)

/-- What is put on record for a node refers to nothing. -/
theorem note {f : Node → Node} (hf : ∀ node, (f node).places = node.places) :
    (code.modifyNode x f).Intact :=
  h.modifyNode fun hx => hf (code.node x) ▸ h.node x hx

/-- A call may be connected with a definition that exists. -/
theorem setDefinition (hy : y < code.size) : (code.setDefinition x y).Intact := by
  refine h.modifyNode fun hx => ?_
  obtain ⟨hscope, hform, hparent, hchildren, -, hlisted⟩ := hasAll_node.mp (h.node x hx)
  exact hasAll_node.mpr ⟨hscope, hform, hparent, hchildren, by simpa using hy, hlisted⟩

theorem withScopes {scopes : ScopeTree}
    (hsize : code.scopes.scopes.size ≤ scopes.scopes.size)
    (hscope : ∀ s < scopes.scopes.size, (code.withScopes scopes).HasAll (scopes.scope s).places) :
    (code.withScopes scopes).Intact where
  node x hx := (LiesIn.withScopes code hsize).hasAll (h.node x hx)
  scope := hscope

/-- What a scope refers to in addition has to exist. -/
theorem modifyScope {f : Scope → Scope} {places : List Place}
    (hf : ∀ scope, (f scope).places ⊆ places ++ scope.places) (hplaces : code.HasAll places) :
    (code.withScopes (code.scopes.modifyScope s f)).Intact := by
  have hsize : (code.scopes.modifyScope s f).scopes.size = code.scopes.scopes.size :=
    ScopeTree.size_modifyScope
  refine h.withScopes (Nat.le_of_eq hsize.symm) fun t ht => ?_
  rw [hsize] at ht
  refine (LiesIn.withScopes code (Nat.le_of_eq hsize.symm)).hasAll ?_
  rw [ScopeTree.scope_modifyScope]
  split
  · exact (hasAll_append.mpr ⟨hplaces, h.scope t ht⟩).subset (hf _)
  · exact h.scope t ht

/-- A scope may be changed that does not refer to anything else then. -/
theorem retain {f : Scope → Scope} (hf : ∀ scope, (f scope).places ⊆ scope.places) :
    (code.withScopes (code.scopes.modifyScope s f)).Intact :=
  h.modifyScope (fun scope => List.Subset.trans (hf scope) (List.subset_append_right [] _))
    hasAll_nil

end Change

end Intact

end CompilationUnit

/-! ### What a scope refers to after a change -/

namespace Scope

variable {scope : Scope} {name : String} {d : Descriptor}

/-- A variable, a constant or a function without a body refers to nothing. -/
theorem places_insert_subset (hd : d.places = []) :
    (scope.insert name d).places ⊆ scope.places := by
  simp [places, insert, descriptors, hd]

theorem places_declareVar_subset (type : Ty) :
    (scope.declareVar name type).places ⊆ scope.places := by
  have hinsert : (scope.declareVar name type).places =
      (scope.insert name ⟨name, type, .var scope.nextAddress⟩).places := rfl
  exact hinsert ▸ places_insert_subset rfl

theorem places_replace_subset : (scope.replace name d).places ⊆ d.places ++ scope.places := by
  intro p hp
  simp only [places, descriptors, replace, List.mem_append, List.mem_flatMap, List.map_map,
    List.mem_map, Function.comp_apply] at hp ⊢
  rcases hp with hp | ⟨d', ⟨e, he, rfl⟩, hp⟩
  · exact .inr (.inl hp)
  · split at hp
    · exact .inl hp
    · exact .inr (.inr ⟨e.2, ⟨e, he, rfl⟩, hp⟩)

theorem places_remapEntry (entries : List (String × Descriptor)) (base index : Nat)
    (e : String × Descriptor) : (remapEntry entries base index e).2.places = e.2.places := by
  unfold remapEntry
  split
  · next hrole => simp [Descriptor.places, Descriptor.binding?, hrole]
  · rfl

theorem places_remap_subset (base : Nat) : (scope.remap base).places ⊆ scope.places := by
  intro p hp
  simp only [places, descriptors, remap, List.mem_append, List.mem_flatMap, List.mem_map,
    List.mem_mapIdx] at hp ⊢
  rcases hp with hp | ⟨d, ⟨e, ⟨i, hi, rfl⟩, rfl⟩, hp⟩
  · exact .inl hp
  · rw [places_remapEntry] at hp
    exact .inr ⟨_, ⟨_, List.getElem_mem hi, rfl⟩, hp⟩

end Scope

namespace CompilationUnit

variable {code code' : CompilationUnit} {x y : NodeId} {s : ScopeId} {name : String}

/-! ### Replacing descriptors -/

namespace Intact

variable (h : code.Intact)

include h

/-- A descriptor may be replaced by one that refers to what exists. -/
theorem update {d : Descriptor} {scopes : ScopeTree} (hd : code.HasAll d.places)
    (hupdate : code.scopes.update s name d = .ok scopes) : (code.withScopes scopes).Intact := by
  obtain ⟨home, old, -, -, -, rfl⟩ := ScopeTree.exists_of_update hupdate
  exact h.modifyScope (fun _ => Scope.places_replace_subset) hd

theorem refine {type : Ty} {scopes : ScopeTree}
    (hrefine : code.scopes.refine s name type = .ok scopes) :
    (code.withScopes scopes).Intact := by
  unfold ScopeTree.refine at hrefine
  split at hrefine
  · next d hlookup =>
    split at hrefine
    · cases hrefine
      exact h
    · have hd : code.HasAll d.places := h.find? (ScopeTree.lookup_eq_ok_iff.mp hlookup)
      exact h.update (d := { d with type }) hd hrefine
  · cases hrefine

/-- A function may be connected with a call or a definition that exists. -/
theorem setBinding {b : Binding} {scopes : ScopeTree} (hb : ∀ y ∈ b.node?, y < code.size)
    (hset : code.scopes.setBinding s name b = .ok scopes) : (code.withScopes scopes).Intact := by
  unfold ScopeTree.setBinding at hset
  split at hset
  · next d hlookup =>
    refine h.update ?_ hset
    simp only [Descriptor.places, Descriptor.binding?, Option.bind_some, hasAll_map, has_node,
      Option.mem_toList]
    exact hb
  · cases hset

end Intact

/-! ### Building -/

/-- The unit with one more node, which is linked with no other one yet. -/
def push (code : CompilationUnit) (s : ScopeId) (form : Form) : CompilationUnit :=
  { code with nodes := code.nodes.push (.ofForm s form) }

theorem size_push {form : Form} : (code.push s form).size = code.size + 1 :=
  Array.size_push ..

theorem node_push {form : Form} :
    (code.push s form).node x = if x = code.size then .ofForm s form else code.node x := by
  unfold node push size
  rcases Nat.lt_trichotomy x code.nodes.size with hlt | rfl | hgt
  · simp [Array.getD, hlt, Nat.lt_succ_of_lt hlt, Array.getElem_push_lt, Nat.ne_of_lt hlt]
  · simp [Array.getD]
  · simp [Array.getD, Nat.not_lt_of_gt hgt, Nat.not_lt.mpr hgt, Nat.ne_of_gt hgt]

theorem LiesIn.push (code : CompilationUnit) (s : ScopeId) (form : Form) :
    code.LiesIn (code.push s form) :=
  ⟨by rw [size_push]; exact Nat.le_succ _, Nat.le_refl _⟩

theorem size_append : (code.append x y).size = code.size :=
  size_modifyNode.trans size_modifyNode

theorem LiesIn.append (code : CompilationUnit) (x y : NodeId) : code.LiesIn (code.append x y) :=
  ⟨Nat.le_of_eq size_append.symm, Nat.le_refl _⟩

namespace Intact

/-- A node may become the parent of another one. -/
theorem adopt (h : code.Intact) (hx : x < code.size) : (code.adopt x y).Intact := by
  refine h.modifyNode fun hy => ?_
  obtain ⟨hscope, hform, -, hrest⟩ := hasAll_node.mp (h.node y hy)
  exact hasAll_node.mpr ⟨hscope, hform, by simpa using hx, hrest⟩

/-- A node may become a child of another one. -/
theorem append (h : code.Intact) (hx : x < code.size) (hy : y < code.size) :
    (code.append x y).Intact := by
  have hadopted : (code.adopt x y).Intact := h.adopt hx
  have hy' : y < (code.adopt x y).size := size_modifyNode.symm ▸ hy
  refine hadopted.modifyNode fun hx' => ?_
  obtain ⟨hscope, hform, hparent, hchildren, hrest⟩ := hasAll_node.mp (hadopted.node x hx')
  refine hasAll_node.mpr ⟨hscope, hform, hparent, ?_, hrest⟩
  exact List.forall_mem_append.mpr ⟨hchildren, by simpa using hy'⟩

/-- A definition may be listed. -/
theorem addFunction (h : code.Intact) (hx : x < code.size) (hy : y < code.size) :
    (code.addFunction x y).Intact := by
  have happended : (code.append x y).Intact := h.append hx hy
  have hy' : y < (code.append x y).size := size_append.symm ▸ hy
  have hlist : ∀ (node : Node) (listed : Bool), (code.append x y).HasAll node.places →
      (code.append x y).HasAll
        (if listed then { node with listed := node.listed ++ [y] } else node).places := by
    rintro node (_ | _) hnode
    · exact hnode
    · obtain ⟨hscope, hform, hparent, hchildren, hdefinition, hlisted⟩ := hasAll_node.mp hnode
      refine hasAll_node.mpr ⟨hscope, hform, hparent, hchildren, hdefinition, ?_⟩
      exact List.forall_mem_append.mpr ⟨hlisted, by simpa using hy'⟩
  exact happended.modifyNode fun hx' => hlist _ _ (happended.node x hx')

/-- A node with a form that refers to what exists may be added. -/
theorem push (h : code.Intact) {form : Form} (hs : s < code.scopes.scopes.size)
    (hform : code.HasAll form.places) : (code.push s form).Intact := by
  have hlies : code.LiesIn (code.push s form) := .push code s form
  refine ⟨fun x hx => ?_, fun t ht => hlies.hasAll (h.scope t ht)⟩
  rw [node_push]
  split
  · exact hasAll_node.mpr ⟨hs, hlies.hasAll hform, by simp [Node.ofForm]⟩
  · next hne =>
    have hlt : x < code.size := by
      rw [size_push] at hx
      exact Nat.lt_of_le_of_ne (Nat.le_of_lt_succ hx) hne
    exact hlies.hasAll (h.node x hlt)

/-- A node may be created with operands and children that exist. -/
theorem create (h : code.Intact) {form : Form} {children : List NodeId}
    (hs : s < code.scopes.scopes.size) (hform : code.HasAll form.places)
    (hchildren : ∀ y ∈ children, y < code.size) : (code.create s form children).1.Intact := by
  -- While the new node is linked with its parts, nothing is added or removed.
  let Linked := fun c : CompilationUnit => c.Intact ∧ (code.push s form).LiesIn c
  have hnew : (code.push s form).Has (.node code.size) :=
    has_node.mpr (size_push.symm ▸ Nat.lt_succ_self _)
  have hpushed : Linked (code.push s form) := ⟨h.push hs hform, .refl _⟩
  refine (List.foldlRecOn (motive := Linked) children _
    (List.foldlRecOn (motive := Linked) form.operands _ hpushed ?_) ?_).1
  · rintro c ⟨hc, hlies⟩ operand -
    exact ⟨hc.adopt (hlies.has hnew), hlies.trans (.modifyNode c operand _)⟩
  · rintro c ⟨hc, hlies⟩ child hchild
    have hchild' : c.Has (.node child) :=
      ((LiesIn.push code s form).trans hlies).has (hchildren child hchild)
    exact ⟨hc.append (hlies.has hnew) hchild', hlies.trans (.append c code.size child)⟩

theorem openScope (h : code.Intact) (hs : s < code.scopes.scopes.size) :
    (code.withScopes (code.scopes.openScope name s).1).Intact := by
  have hsize : (code.scopes.openScope name s).1.scopes.size = code.scopes.scopes.size + 1 :=
    Array.size_push ..
  have hle : code.scopes.scopes.size ≤ (code.scopes.openScope name s).1.scopes.size :=
    hsize ▸ Nat.le_succ _
  refine h.withScopes hle fun t ht => (LiesIn.withScopes code hle).hasAll ?_
  rw [ScopeTree.scope_openScope]
  split
  · exact hasAll_scope.mpr ⟨by simpa [Scope.fresh] using hs, nofun⟩
  · next hne =>
    rw [hsize] at ht
    exact h.scope t (Nat.lt_of_le_of_ne (Nat.le_of_lt_succ ht) hne)

/-- The pool refers to nothing. -/
theorem withPool (h : code.Intact) (pool : Pool) :
    (code.withScopes { code.scopes with pool }).Intact :=
  h.withScopes (Nat.le_refl _) h.scope

/-- Whatever an edit changes of the scopes, they refer to what exists. -/
theorem changes {α : Type} {e : Edit α} {t : ScopeTree} (h : code.Intact)
    (he : code.HasAll e.places) (hchanges : e.Changes code.scopes t) :
    (code.withScopes t).Intact := by
  cases hchanges with
  | unchanged => exact h
  | openScope => exact h.openScope (he _ List.mem_cons_self)
  | declareVar => exact h.retain fun _ => Scope.places_declareVar_subset _
  | @declareConst id name value type offset pool =>
    exact (h.withPool pool).retain (s := id)
      (f := fun scope => scope.insert name ⟨name, type, .const offset value⟩)
      fun _ => Scope.places_insert_subset rfl
  | declareFunc =>
    exact h.retain fun _ => Scope.places_insert_subset (d := ⟨_, _, .func .unresolved⟩) rfl
  | update hs hold hkind =>
    exact h.modifyScope (fun _ => Scope.places_replace_subset) (hasAll_cons.mp he).2
  | remap => exact h.retain fun _ => Scope.places_remap_subset _
  | intern hpool => exact h.withPool _

end Intact

theorem push_liesIn_create (code : CompilationUnit) (s : ScopeId) (form : Form)
    (children : List NodeId) : (code.push s form).LiesIn (code.create s form children).1 := by
  refine List.foldlRecOn children _ (List.foldlRecOn form.operands _ (.refl _) ?_) ?_
  · exact fun c hc operand _ => hc.trans (.modifyNode c operand _)
  · exact fun c hc child _ => hc.trans (.append c code.size child)

theorem LiesIn.create (code : CompilationUnit) (s : ScopeId) (form : Form)
    (children : List NodeId) : code.LiesIn (code.create s form children).1 :=
  .trans (.push code s form) (push_liesIn_create code s form children)

/-- A node that has been created exists. -/
theorem create_lt (code : CompilationUnit) (s : ScopeId) (form : Form) (children : List NodeId) :
    (code.create s form children).2 < (code.create s form children).1.size :=
  (push_liesIn_create code s form children).node_lt (size_push.symm ▸ Nat.lt_succ_self _)

/-- **Nothing is ever removed.** -/
theorem LiesIn.apply {α : Type} {e : Edit α} {value : α}
    (happly : code.apply e = .ok (value, code')) : code.LiesIn code' := by
  refine ⟨?_, (edited_of_apply happly ▸ code.changes_edited e).retains.1.size⟩
  cases e with
  | create scope form children =>
    cases happly
    exact (LiesIn.create code scope form children).nodes
  | append parent child =>
    cases happly
    exact (LiesIn.append code parent child).nodes
  | addFunction program definition =>
    cases happly
    exact ((LiesIn.append code program definition).trans (.modifyNode _ program _)).nodes
  | setPosition node position =>
    cases happly
    exact (LiesIn.modifyNode code node _).nodes
  | setField call field =>
    cases happly
    split
    · exact (LiesIn.modifyNode code call _).nodes
    · exact Nat.le_refl _
  | openScope | remap =>
    cases happly
    exact Nat.le_refl _
  | declareVar | declareConst | declareFunc | update | intern =>
    obtain ⟨r, -, heq⟩ := exists_of_map_eq_ok happly
    cases heq
    exact Nat.le_refl _

/-- **An edit keeps a unit intact** if what it is given exists. -/
theorem Intact.apply {α : Type} {e : Edit α} {value : α} (h : code.Intact)
    (he : code.HasAll e.places) (happly : code.apply e = .ok (value, code')) :
    code'.Intact := by
  have hchanges : e.Changes code.scopes code'.scopes :=
    edited_of_apply happly ▸ code.changes_edited e
  cases e with
  | create scope form children =>
    cases happly
    simp only [Edit.places, hasAll_cons, hasAll_append, hasAll_map] at he
    exact h.create he.1 he.2.1 he.2.2
  | append parent child =>
    cases happly
    simp only [Edit.places, hasAll_cons, hasAll_nil, and_true] at he
    exact h.append he.1 he.2
  | addFunction program definition =>
    cases happly
    simp only [Edit.places, hasAll_cons, hasAll_nil, and_true] at he
    exact h.addFunction he.1 he.2
  | setPosition node position =>
    cases happly
    exact h.note fun _ => rfl
  | setField call field =>
    cases happly
    split
    · exact h.note fun _ => rfl
    · exact h
  | openScope | remap =>
    cases happly
    exact h.changes he hchanges
  | declareVar | declareConst | declareFunc | update | intern =>
    obtain ⟨r, -, heq⟩ := exists_of_map_eq_ok happly
    cases heq
    exact h.changes he hchanges

end CompilationUnit

end ContractLang
