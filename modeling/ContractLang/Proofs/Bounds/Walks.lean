import ContractLang.CompilationUnit.Render
import ContractLang.CompilationUnit.Returns
import ContractLang.Proofs.Bounds.Places

/-!
# What walks look at

Showing a node as text, printing a tree, telling whether a body always returns and looking a name
up are walks from node to node or from scope to scope. Here is what each of them looks at, as a
list (`ContractLang.CompilationUnit.rendered`, `ContractLang.CompilationUnit.outlined`,
`ContractLang.CompilationUnit.examined`, and for names `ContractLang.ScopeTree.chain`): the result
is the same in any other unit with the same there (`ContractLang.CompilationUnit.DependsOn`).

In an intact unit, a walk that begins at something that exists looks at nothing that does not,
however far it goes (`ContractLang.CompilationUnit.Intact.enclosed`).
-/

namespace ContractLang

/-- The nodes whose texts are part of the text of a node. -/
def Node.textParts (node : Node) : List NodeId :=
  match node.form with
  | .call _ => node.children
  | form => form.operands

namespace CompilationUnit

/-- What is looked at to show a node as text, following at most `depth` links. -/
def renderedWithin (code : CompilationUnit) : (depth : Nat) → NodeId → List NodeId
  | 0, _ => []
  | depth + 1, x => x :: (code.node x).textParts.flatMap (code.renderedWithin depth)

/-- What is looked at to show a node as text. -/
def rendered (code : CompilationUnit) (x : NodeId) : List NodeId :=
  code.renderedWithin (code.size + 1) x

/-- What is looked at to print the tree below a node, following at most `depth` links. -/
def outlinedWithin (code : CompilationUnit) (depth : Nat) (x : NodeId) : List NodeId :=
  (code.outlineWithin depth 0 x).flatMap fun line => line.2 :: code.renderedWithin depth line.2

/-- What is looked at to print the tree below a node. -/
def outlined (code : CompilationUnit) (x : NodeId) : List NodeId :=
  code.outlinedWithin (code.size + 1) x

/-- What is looked at to tell whether a body always returns, following at most `depth` links. -/
def examinedWithin (code : CompilationUnit) : (depth : Nat) → NodeId → List NodeId
  | 0, _ => []
  | depth + 1, body =>
    body :: match (code.children body).getLast? with
      | none => []
      | some last =>
        last :: match code.form last with
          | .branch _ => (code.children last).flatMap (code.examinedWithin depth)
          | _ => []

/-- What is looked at to tell whether a body always returns. -/
def examined (code : CompilationUnit) (body : NodeId) : List NodeId :=
  code.examinedWithin (code.size + 1) body

variable {code code' : CompilationUnit} {x y : NodeId}

/-- The result of a walk is the same in any unit of the same size with the same at some nodes. -/
def DependsOn {β : Type} (code : CompilationUnit) (nodes : List NodeId)
    (walk : CompilationUnit → β) : Prop :=
  ∀ code' : CompilationUnit, code'.size = code.size →
    (∀ y ∈ nodes, code'.node y = code.node y) → walk code' = walk code

/-! ### Nothing else is looked at -/

theorem nodeText_congr {render render' : NodeId → String} {node : Node}
    (h : ∀ y ∈ node.textParts, render' y = render y) :
    nodeText render' node = nodeText render node := by
  unfold Node.textParts at h
  unfold nodeText
  cases hform : node.form with
  | call name =>
    simp only [hform] at h
    simp only [List.map_congr_left h]
  | ret value definition | breakLoop value =>
    simp only [hform] at h
    cases value with
    | none => rfl
    | some value => simp only [keywordText, h value List.mem_cons_self]
  | _ => simp_all [Form.operands]

/-- The text of a node depends on nothing but what is looked at. -/
theorem renderWithin_of_rendered (d : Nat)
    (h : ∀ y ∈ code.renderedWithin d x, code'.node y = code.node y) :
    code'.renderWithin d x = code.renderWithin d x := by
  induction d generalizing x with
  | zero => rfl
  | succ d ih =>
    unfold renderWithin
    rw [h x List.mem_cons_self]
    refine nodeText_congr fun y hy => ih fun z hz => h z ?_
    exact List.mem_cons_of_mem x (List.mem_flatMap.mpr ⟨y, hy, hz⟩)

theorem dependsOn_rendered (x : NodeId) :
    code.DependsOn (code.rendered x) fun code => code.render x := by
  intro code' hsize h
  change code'.render x = code.render x
  unfold render
  rw [hsize]
  exact renderWithin_of_rendered _ h

theorem outlineWithin_of_outlined (d level : Nat)
    (h : ∀ line ∈ code.outlineWithin d level x, code'.node line.2 = code.node line.2) :
    code'.outlineWithin d level x = code.outlineWithin d level x := by
  induction d generalizing level x with
  | zero => rfl
  | succ d ih =>
    have hx : code'.children x = code.children x :=
      congrArg Node.children (h (level, x) List.mem_cons_self)
    unfold outlineWithin
    rw [hx]
    refine congrArg _ (List.flatMap_congr fun y hy => ih _ fun line hline => h line ?_)
    exact List.mem_cons_of_mem _ (List.mem_flatMap.mpr ⟨y, hy, hline⟩)

/-- The outline of a tree depends on nothing but what is looked at. -/
theorem dependsOn_outlined (x : NodeId) :
    code.DependsOn (code.outlined x) fun code => code.outline x := by
  intro code' hsize h
  have hlines : code'.outlineWithin (code.size + 1) 0 x = code.outlineWithin (code.size + 1) 0 x :=
    outlineWithin_of_outlined _ _ fun line hline =>
      h _ (List.mem_flatMap.mpr ⟨line, hline, List.mem_cons_self⟩)
  change code'.outline x = code.outline x
  unfold outline
  rw [hsize, hlines]
  refine congrArg String.join (List.map_congr_left fun line hline => ?_)
  have htext : code'.render line.2 = code.render line.2 :=
    dependsOn_rendered line.2 code' hsize fun y hy =>
      h y (List.mem_flatMap.mpr ⟨line, hline, List.mem_cons_of_mem _ hy⟩)
  unfold outlineLine
  rw [htext]

theorem alwaysReturnsWithin_of_examined (d : Nat)
    (h : ∀ y ∈ code.examinedWithin d x, code'.node y = code.node y) :
    code'.alwaysReturnsWithin d x = code.alwaysReturnsWithin d x := by
  induction d generalizing x with
  | zero => rfl
  | succ d ih =>
    have hx : code'.children x = code.children x := congrArg Node.children (h x List.mem_cons_self)
    unfold examinedWithin at h
    unfold alwaysReturnsWithin
    rw [hx]
    cases hlast : (code.children x).getLast? with
    | none => rfl
    | some last =>
      simp only [hlast, List.forall_mem_cons] at h
      have hform : code'.form last = code.form last := congrArg Node.form h.2.1
      have hchildren : code'.children last = code.children last := congrArg Node.children h.2.1
      dsimp only
      rw [hform, hchildren]
      split
      · rfl
      · rfl
      · next hbranch =>
        have hrest := h.2.2
        rw [hbranch] at hrest
        have hall : ∀ y ∈ code.children last,
            code'.alwaysReturnsWithin d y = code.alwaysReturnsWithin d y :=
          fun y hy => ih fun z hz => hrest z (List.mem_flatMap.mpr ⟨y, hy, hz⟩)
        rw [Bool.eq_iff_iff, Bool.and_eq_true, Bool.and_eq_true, List.all_eq_true,
          List.all_eq_true]
        exact and_congr_right fun _ => forall₂_congr fun y hy => by rw [hall y hy]
      · rfl

/-- Whether a body always returns depends on nothing but what is looked at. -/
theorem dependsOn_examined (x : NodeId) :
    code.DependsOn (code.examined x) fun code => code.alwaysReturns x := by
  intro code' hsize h
  change code'.alwaysReturns x = code.alwaysReturns x
  unfold alwaysReturns
  rw [hsize]
  exact alwaysReturnsWithin_of_examined _ h

/-- What is found for a name depends on nothing but the scopes on the chain. -/
theorem find?_of_chain {t t' : ScopeTree} {s : ScopeId}
    (h : ∀ c ∈ t.chain s, t'.scope c = t.scope c) (name : String) :
    t'.find? s name = t.find? s name := by
  have hagree : ScopeTree.Agree Eq (t.chain s) t t' := by
    refine ⟨fun c hc => by rw [h c hc], fun c hc name => ?_⟩
    rw [h c hc]
    exact (ScopeTree.Agree.refl (fun _ => rfl) [c] t).get? c List.mem_cons_self name
  have hrel := hagree.find? name
  revert hrel
  generalize t.find? s name = o, t'.find? s name = o'
  rintro (rfl | _) <;> rfl

/-! ### Everything that is looked at exists -/

/-- Walks over the unit that begin at something that exists look at nothing that does not, however
far they go: to show a node as text, to print the tree below it, to tell whether a body always
returns, and from scope to scope to look a name up. And they look at nothing else, so that what
they come to depends on nothing else. -/
structure Enclosed (code : CompilationUnit) : Prop where
  rendered : ∀ d, ∀ x < code.size, ∀ y ∈ code.renderedWithin d x, y < code.size
  outlined : ∀ d, ∀ x < code.size, ∀ y ∈ code.outlinedWithin d x, y < code.size
  examined : ∀ d, ∀ x < code.size, ∀ y ∈ code.examinedWithin d x, y < code.size
  ancestry : ∀ count, ∀ s < code.scopes.scopes.size,
    ∀ c ∈ code.scopes.ancestry count s, c < code.scopes.scopes.size
  render : ∀ x, code.DependsOn (code.rendered x) fun code => code.render x
  outline : ∀ x, code.DependsOn (code.outlined x) fun code => code.outline x
  alwaysReturns : ∀ x, code.DependsOn (code.examined x) fun code => code.alwaysReturns x
  find? : ∀ s (scopes : ScopeTree),
    (∀ c ∈ code.scopes.chain s, scopes.scope c = code.scopes.scope c) →
      ∀ name, scopes.find? s name = code.scopes.find? s name

namespace Intact

variable (h : code.Intact)

include h

theorem textPart_lt (hx : x < code.size) (hy : y ∈ (code.node x).textParts) : y < code.size := by
  unfold Node.textParts at hy
  split at hy
  · exact h.child_lt hx hy
  · exact h.operand_lt hx hy

theorem renderedWithin_lt (d : Nat) (hx : x < code.size) :
    ∀ y ∈ code.renderedWithin d x, y < code.size := by
  induction d generalizing x with
  | zero => exact nofun
  | succ d ih =>
    refine List.forall_mem_cons.mpr ⟨hx, fun z hz => ?_⟩
    obtain ⟨y, hy, hz⟩ := List.mem_flatMap.mp hz
    exact ih (h.textPart_lt hx hy) z hz

theorem rendered_lt (hx : x < code.size) : ∀ y ∈ code.rendered x, y < code.size :=
  h.renderedWithin_lt _ hx

theorem outlineWithin_lt (d level : Nat) (hx : x < code.size) :
    ∀ line ∈ code.outlineWithin d level x, line.2 < code.size := by
  induction d generalizing level x with
  | zero => exact nofun
  | succ d ih =>
    refine List.forall_mem_cons.mpr ⟨hx, fun line hline => ?_⟩
    obtain ⟨y, hy, hline⟩ := List.mem_flatMap.mp hline
    exact ih _ (h.child_lt hx hy) line hline

theorem outlinedWithin_lt (d : Nat) (hx : x < code.size) :
    ∀ y ∈ code.outlinedWithin d x, y < code.size := by
  intro y hy
  obtain ⟨line, hline, hy⟩ := List.mem_flatMap.mp hy
  have hlt : line.2 < code.size := h.outlineWithin_lt d 0 hx line hline
  rcases List.mem_cons.mp hy with rfl | hy
  · exact hlt
  · exact h.renderedWithin_lt d hlt y hy

theorem examinedWithin_lt (d : Nat) (hx : x < code.size) :
    ∀ y ∈ code.examinedWithin d x, y < code.size := by
  induction d generalizing x with
  | zero => exact nofun
  | succ d ih =>
    refine List.forall_mem_cons.mpr ⟨hx, fun z hz => ?_⟩
    split at hz
    · cases hz
    · next last hlast =>
      have hlt : last < code.size := h.child_lt hx (List.mem_of_getLast? hlast)
      rcases List.mem_cons.mp hz with rfl | hz
      · exact hlt
      · split at hz
        · obtain ⟨y, hy, hz⟩ := List.mem_flatMap.mp hz
          exact ih (h.child_lt hlt hy) z hz
        · cases hz

theorem examined_lt (hx : x < code.size) : ∀ y ∈ code.examined x, y < code.size :=
  h.examinedWithin_lt _ hx

theorem ancestry_lt {s : ScopeId} (count : Nat) (hs : s < code.scopes.scopes.size) :
    ∀ c ∈ code.scopes.ancestry count s, c < code.scopes.scopes.size := by
  induction count generalizing s with
  | zero => simp [ScopeTree.ancestry]
  | succ count ih =>
    unfold ScopeTree.ancestry
    refine List.forall_mem_cons.mpr ⟨hs, ?_⟩
    cases hparent : (code.scopes.scope s).parent with
    | none => simp
    | some p => exact ih (h.parent_lt hs hparent)

theorem chain_lt {s : ScopeId} (hs : s < code.scopes.scopes.size) :
    ∀ c ∈ code.scopes.chain s, c < code.scopes.scopes.size :=
  h.ancestry_lt _ hs

/-- **Walks stay inside an intact unit.** -/
theorem enclosed : code.Enclosed where
  rendered d _ hx := h.renderedWithin_lt d hx
  outlined d _ hx := h.outlinedWithin_lt d hx
  examined d _ hx := h.examinedWithin_lt d hx
  ancestry count _ hs := h.ancestry_lt count hs
  render := dependsOn_rendered
  outline := dependsOn_outlined
  alwaysReturns := dependsOn_examined
  find? _ _ hsame := find?_of_chain hsame

end Intact

end CompilationUnit

end ContractLang
