import ContractLang.Proofs.Scope.Refine
import ContractLang.Proofs.Typing.Recall

/-!
# How a unit is refined

What the checker does to a compilation unit without a parser is to find out more
about it (`ContractLang.CompilationUnit.RefinesTo`): types go on record where none was
known, calls are connected with the definitions of the functions called, and
descriptors are refined. Everything that a unit was built from stays as it is.

Refinement is stated between the beginning and the end of a computation. In between,
the type on record for a node may be replaced by another one, if the node turns up
again among the nodes that its own type depends on; this is why each single effect
is described relative to a unit that has gone before
(`ContractLang.CompilationUnit.RefinesTo.setType`).
-/

namespace ContractLang

/-- What a node is apart from all that the checker puts on record for it. -/
def Node.fixed (node : Node) : Node :=
  { node with type := .unknown, targetTypes := [], definition := none }

/-- Nodes that are the same apart from what the checker puts on record agree on whatever
does not depend on that. -/
theorem Node.congr_fixed {α : Type} {node node' : Node} (f : Node → α)
    (hf : ∀ node, f node.fixed = f node) (h : node.fixed = node'.fixed) : f node = f node' := by
  rw [← hf node, h, hf node']

namespace CompilationUnit

/-- Whether a body always returns depends on forms and children only. -/
theorem alwaysReturns_congr {code code' : CompilationUnit} (hsize : code'.size = code.size)
    (hform : ∀ id, code'.form id = code.form id)
    (hchildren : ∀ id, code'.children id = code.children id) (body : NodeId) :
    code'.alwaysReturns body = code.alwaysReturns body := by
  unfold CompilationUnit.alwaysReturns
  rw [hsize]
  generalize code.size + 1 = depth
  induction depth generalizing body with
  | zero => rfl
  | succ depth ih =>
    unfold alwaysReturnsWithin
    simp only [hchildren, hform, funext ih]

/-- A unit has become another one by finding out types and definitions. -/
structure RefinesTo (code code' : CompilationUnit) : Prop where
  size : code'.size = code.size
  fixed : ∀ id, (code'.node id).fixed = (code.node id).fixed
  /-- A type that has come to be known is that of an expression, or of the field that an
  inner transaction is given. -/
  type : ∀ id, (code'.node id).type = (code.node id).type ∨
    (code.form id).remembers ∧ ¬(code.node id).type.isKnown ∧ (code'.node id).type.isKnown ∨
    ∃ field value, code.form id = .innerField field value
  /-- Only statements that bind variables have types of variables on record. -/
  targetTypes : ∀ id, (code'.node id).targetTypes = (code.node id).targetTypes ∨
    0 < (code.form id).arity
  /-- Calls are connected with the functions that they are calls of. -/
  definition : ∀ id, (code'.node id).definition = (code.node id).definition ∨
    ¬(code.node id).type.isKnown ∧
      ∃ f, code'.Calls id f ∧ (code'.node id).definition = some f
  scopes : code.scopes.RefinesTo code'.scopes

namespace RefinesTo

variable {code code' code'' : CompilationUnit} {id f : NodeId}

theorem refl (code : CompilationUnit) : code.RefinesTo code :=
  ⟨rfl, fun _ => rfl, fun _ => .inl rfl, fun _ => .inl rfl, fun _ => .inl rfl, .refl _⟩

section Fixed

variable (h : code.RefinesTo code')

include h

theorem form (id : NodeId) : code'.form id = code.form id :=
  Node.congr_fixed Node.form (fun _ => rfl) (h.fixed id)

theorem scope (id : NodeId) : (code'.node id).scope = (code.node id).scope :=
  Node.congr_fixed Node.scope (fun _ => rfl) (h.fixed id)

theorem children (id : NodeId) : code'.children id = code.children id :=
  Node.congr_fixed Node.children (fun _ => rfl) (h.fixed id)

theorem field (id : NodeId) : (code'.node id).field = (code.node id).field :=
  Node.congr_fixed Node.field (fun _ => rfl) (h.fixed id)

/-- A type on record stays there. -/
theorem type_eq (hrecorded : code.IsRecorded id) : (code'.node id).type = (code.node id).type := by
  rcases h.type id with heq | ⟨-, hunknown, -⟩ | ⟨field, value, hform⟩
  · exact heq
  · exact absurd hrecorded.2 hunknown
  · have hremembers := hrecorded.1
    rw [hform] at hremembers
    cases hremembers

theorem isRecorded (hrecorded : code.IsRecorded id) : code'.IsRecorded id := by
  unfold IsRecorded
  rw [h.form, h.type_eq hrecorded]
  exact hrecorded

/-- A call of a function stays one. -/
theorem calls (hcalls : code.Calls id f) : code'.Calls id f := by
  obtain ⟨name, hform, hname⟩ := hcalls
  refine ⟨name, (h.form id).trans hform, ?_⟩
  rw [h.scope]
  exact h.scopes.binding?_eq_some hname nofun

/-- A call that is connected with the function called stays so. -/
theorem definition_eq_some (hcalls : code'.Calls id f) (hdef : (code.node id).definition = some f) :
    (code'.node id).definition = some f := by
  rcases h.definition id with heq | ⟨-, g, hg, hdef'⟩
  · exact heq.trans hdef
  · rw [hdef', hg.unique hcalls]

theorem link_iff {a b : NodeId} : code'.Link a b ↔ code.Link a b := by
  rw [Link, Link, h.form, h.children]

theorem link_eq : code'.Link = code.Link := by
  funext a b
  exact propext h.link_iff

theorem acyclic_iff : code'.Acyclic ↔ code.Acyclic := by
  rw [Acyclic, Acyclic, h.link_eq]

theorem isDefinition_iff : code'.IsDefinition id ↔ code.IsDefinition id := by
  simp only [IsDefinition, h.form]

theorem alwaysReturns (body : NodeId) : code'.alwaysReturns body = code.alwaysReturns body :=
  alwaysReturns_congr h.size h.form h.children body

/-- Evaluation comes to no less. -/
theorem leads {a b : NodeId} (hlead : code.Leads a b) : code'.Leads a b := by
  unfold Leads at hlead ⊢
  rw [h.link_iff, h.isDefinition_iff]
  exact hlead.imp_right h.calls

theorem reaches {a b : NodeId} (hreach : code.Reaches a b) : code'.Reaches a b := by
  induction hreach with
  | refl => exact .refl
  | tail _ hlead ih => exact ih.tail (h.leads hlead)

end Fixed

theorem trans (h : code.RefinesTo code') (h' : code'.RefinesTo code'') :
    code.RefinesTo code'' where
  size := h'.size.trans h.size
  fixed id := (h'.fixed id).trans (h.fixed id)
  type id := by
    have htype' := h'.type id
    rw [h.form] at htype'
    rcases h.type id with heq | hnew | hinner
    · rw [heq] at htype'
      exact htype'
    · rcases htype' with heq' | ⟨-, hunknown, -⟩ | hinner
      · rw [heq']
        exact .inr (.inl hnew)
      · exact absurd hnew.2.2 hunknown
      · exact .inr (.inr hinner)
    · exact .inr (.inr hinner)
  targetTypes id := by
    have htypes' := h'.targetTypes id
    rw [h.form] at htypes'
    rcases h.targetTypes id with heq | hbinds
    · exact htypes'.imp_left fun heq' => heq'.trans heq
    · exact .inr hbinds
  definition id := by
    rcases h'.definition id with heq' | ⟨hunknown, f, hcalls, hdef⟩
    · rcases h.definition id with heq | ⟨hunknown, f, hcalls, hdef⟩
      · exact .inl (heq'.trans heq)
      · exact .inr ⟨hunknown, f, h'.calls hcalls, heq'.trans hdef⟩
    · refine .inr ⟨fun hknown => hunknown ?_, f, hcalls, hdef⟩
      -- A call has its type on record like any other expression.
      obtain ⟨name, hform, -⟩ := hcalls
      rw [h'.form, h.form] at hform
      rw [h.type_eq ⟨by rw [hform]; rfl, hknown⟩]
      exact hknown
  scopes := h.scopes.trans h'.scopes

/-! ### Single effects -/

theorem withScopes (h : code.RefinesTo code') {scopes : ScopeTree}
    (hscopes : code'.scopes.RefinesTo scopes) : code.RefinesTo (code'.withScopes scopes) where
  size := h.size
  fixed := h.fixed
  type := h.type
  targetTypes := h.targetTypes
  definition id := by
    refine (h.definition id).imp_right fun ⟨hunknown, f, hcalls, hdef⟩ => ⟨hunknown, f, ?_, hdef⟩
    obtain ⟨name, hform, hname⟩ := hcalls
    exact ⟨name, hform, hscopes.binding?_eq_some hname nofun⟩
  scopes := h.scopes.trans hscopes

/-- A change to what is on record for one node refines a unit if it does so at that node. -/
theorem modifyNode {g : Node → Node} (h : code.RefinesTo code')
    (hfixed : ∀ node, (g node).fixed = node.fixed)
    (htype : (g (code'.node id)).type = (code'.node id).type ∨
      (code.form id).remembers ∧ ¬(code.node id).type.isKnown ∧
        (g (code'.node id)).type.isKnown ∨
      ∃ field value, code.form id = .innerField field value)
    (htypes : (g (code'.node id)).targetTypes = (code'.node id).targetTypes ∨
      0 < (code.form id).arity)
    (hdef : (g (code'.node id)).definition = (code'.node id).definition ∨
      ¬(code.node id).type.isKnown ∧
        ∃ f, code'.Calls id f ∧ (g (code'.node id)).definition = some f) :
    code.RefinesTo (code'.modifyNode id g) := by
  have hsame : ∀ other, ((code'.modifyNode id g).node other).fixed = (code'.node other).fixed :=
    fun _ => field_modifyNode Node.fixed hfixed
  have hcalls : ∀ other f, code'.Calls other f → (code'.modifyNode id g).Calls other f := by
    rintro other f ⟨name, hform, hname⟩
    have hscope := Node.congr_fixed Node.scope (fun _ => rfl) (hsame other)
    refine ⟨name, (Node.congr_fixed Node.form (fun _ => rfl) (hsame other)).trans hform, ?_⟩
    rw [hscope]
    exact hname
  refine ⟨size_modifyNode.trans h.size, fun other => (hsame other).trans (h.fixed other),
    fun other => ?_, fun other => ?_, fun other => ?_, h.scopes⟩ <;>
    rw [node_modifyNode]
  · split
    · next hother =>
      rw [hother.1]
      exact htype.elim (fun heq => heq ▸ h.type id) .inr
    · exact h.type other
  · split
    · next hother =>
      rw [hother.1]
      exact htypes.elim (fun heq => heq ▸ h.targetTypes id) .inr
    · exact h.targetTypes other
  · -- What is connected with a function in the unit before stays so.
    have hold : (code'.node other).definition = (code.node other).definition ∨
        ¬(code.node other).type.isKnown ∧ ∃ f, (code'.modifyNode id g).Calls other f ∧
          (code'.node other).definition = some f :=
      (h.definition other).imp_right fun ⟨hunknown, f, hf, hsome⟩ =>
        ⟨hunknown, f, hcalls other f hf, hsome⟩
    split
    · next hother =>
      rw [hother.1] at hold ⊢
      rcases hdef with heq | ⟨hunknown, f, hf, hsome⟩
      · rw [heq]
        exact hold
      · exact .inr ⟨hunknown, f, hcalls id f hf, hsome⟩
    · exact hold

/-- Putting a type on record refines a unit in which none was on record. -/
theorem setType (h : code.RefinesTo code') {type : Ty} (hform : (code.form id).remembers)
    (hunrecorded : ¬code.IsRecorded id) (htype : type.isKnown) :
    code.RefinesTo (code'.setType id type) :=
  h.modifyNode (fun _ => rfl)
    (.inr (.inl ⟨hform, fun hknown => hunrecorded ⟨hform, hknown⟩, htype⟩)) (.inl rfl) (.inl rfl)

/-- Connecting a call with the function called refines a unit in which no type was on record
for the call. -/
theorem setDefinition (h : code.RefinesTo code') (hcalls : code'.Calls id f)
    (hunrecorded : ¬code.IsRecorded id) : code.RefinesTo (code'.setDefinition id f) := by
  refine h.modifyNode (fun _ => rfl) (.inl rfl) (.inl rfl)
    (.inr ⟨fun hknown => hunrecorded ⟨?_, hknown⟩, f, hcalls, rfl⟩)
  obtain ⟨name, hform, -⟩ := hcalls
  rw [← h.form, hform]
  rfl

theorem setTargetTypes (h : code.RefinesTo code') {types : List Ty}
    (hform : 0 < (code.form id).arity) : code.RefinesTo (code'.setTargetTypes id types) :=
  h.modifyNode (fun _ => rfl) (.inl rfl) (.inr hform) (.inl rfl)

theorem setInnerType (h : code.RefinesTo code') {type : Ty} {field : String} {value : NodeId}
    (hform : code.form id = .innerField field value) : code.RefinesTo (code'.setType id type) :=
  h.modifyNode (fun _ => rfl) (.inr (.inr ⟨field, value, hform⟩)) (.inl rfl) (.inl rfl)

end RefinesTo

end CompilationUnit

end ContractLang
