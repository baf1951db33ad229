import ContractLang.Proofs.Typing.Agreement
import ContractLang.Proofs.Typing.Validate

/-!
# The units that the statement pass comes to

The units that the pass may be in are those that agree with the first one up to what
goes on record (`ContractLang.Typing.Keeps`). Nothing else changes where the types of
all names are known and all functions are resolved (`ContractLang.Typing.Ready`). The
computations of the pass decide properties of their answers
(`ContractLang.Typing.Decides`) from whatever such unit they start from.
-/

namespace ContractLang

namespace Typing

open Check CompilationUnit ScopeTree

variable {σ α : Type} {T : Typing}

/-! ### The states of the pass -/

/-- Nothing remains to be found out about names: their types are known, and functions are
resolved and not recursive. -/
structure Ready (T : Typing) : Prop where
  acyclic : T.code.Acyclic
  known : ∀ s name d, (T.code.scopes.scope s).get? name = some d → d.type.isKnown
  resolved : ∀ s name d binding, (T.code.scopes.scope s).get? name = some d →
    d.binding? = some binding → ∃ f, binding = .resolved f
  nonrecursive : ∀ f, ¬T.code.Recursive f

/-- A unit agrees with the one that is typed on all that typing reads, and what it has on
record is right: types, and definitions for calls of functions only, among them all
calls with a type. -/
structure Keeps (T : Typing) (code : CompilationUnit) : Prop where
  size : code.size = T.code.size
  alike : T.code.Alike code
  agree : ∀ ids, Agree Eq ids T.code.scopes code.scopes
  sound : ∀ id, (T.code.form id).remembers → (code.node id).type.isKnown →
    T.type id = .ok (code.node id).type
  proper : ∀ id, (T.code.form id).remembers → (code.node id).definition.isSome →
    ∃ f, T.code.Calls id f
  linked : ∀ id f, T.code.Calls id f → (code.node id).type.isKnown →
    (code.node id).definition.isSome

namespace Ready

variable (h : T.Ready)

include h

theorem find?_known {scope : ScopeId} {name : String} {d : Descriptor}
    (hd : T.code.scopes.find? scope name = some d) : d.type.isKnown := by
  obtain ⟨s, -, hget⟩ := find?_eq_some_iff.mp hd
  exact h.known s name d hget

theorem binding?_resolved {scope : ScopeId} {name : String} {binding : Binding}
    (hb : T.code.scopes.binding? scope name = some binding) : ∃ f, binding = .resolved f := by
  obtain ⟨d, hfind, hd⟩ := Option.bind_eq_some_iff.mp hb
  obtain ⟨s, -, hget⟩ := find?_eq_some_iff.mp hfind
  exact h.resolved s name d binding hget hd

theorem namesSettled (x : NodeId) : T.NamesSettled x :=
  fun _ _ _ _ _ hd _ => h.find?_known hd

theorem settled (x : NodeId) : T.Settled [] x where
  resolved _ _ _ _ _ hb := h.binding?_resolved hb
  nonrecursive f _ := h.nonrecursive f
  entered _ _ := nofun
  names := h.namesSettled x

theorem settled_self (f : NodeId) : T.Settled [f] f where
  resolved _ _ _ _ _ hb := h.binding?_resolved hb
  nonrecursive g _ := h.nonrecursive g
  entered g hg hmem := by
    rw [List.mem_singleton.mp hmem] at hg
    exact h.nonrecursive f hg
  names := h.namesSettled f

end Ready

namespace Keeps

variable {code : CompilationUnit} (h : T.Keeps code)

include h

theorem find? (scope : ScopeId) (name : String) :
    code.scopes.find? scope name = T.code.scopes.find? scope name := by
  have hrel := (h.agree (T.code.scopes.chain scope)).find? name
  revert hrel
  generalize T.code.scopes.find? scope name = o, code.scopes.find? scope name = o'
  rintro (hd | _)
  · rw [hd]
  · rfl

theorem get? (s : ScopeId) (name : String) :
    (code.scopes.scope s).get? name = (T.code.scopes.scope s).get? name := by
  have hrel := (h.agree [s]).get? s (List.mem_singleton_self s) name
  revert hrel
  generalize (T.code.scopes.scope s).get? name = o, (code.scopes.scope s).get? name = o'
  rintro (hd | _)
  · rw [hd]
  · rfl

theorem sameIdents (x : NodeId) : T.SameIdents code x := by
  intro y _ name _
  unfold identType ScopeTree.lookup
  dsimp only
  rw [h.find?]

theorem ready (hT : T.Ready) : Ready { T with code } where
  acyclic := h.alike.acyclic_iff.mpr hT.acyclic
  known s name d hd := hT.known s name d (by rwa [← h.get?])
  resolved s name d binding hd := hT.resolved s name d binding (by rwa [← h.get?])
  nonrecursive f hf := hT.nonrecursive f (h.alike.recursive_iff.mp hf)

/-- A type is the one that the first unit gives. -/
theorem type_eq_ok_iff {x : NodeId} {type : Ty} :
    { T with code }.type x = .ok type ↔ T.type x = .ok type :=
  eq_ok_iff_of_toOption (type_congr_code h.size h.alike (h.sameIdents x))

theorem returnType_eq_ok_iff {f : NodeId} {type : Ty} :
    { T with code }.returnType f = .ok type ↔ T.returnType f = .ok type :=
  eq_ok_iff_of_toOption (returnType_congr_code h.size h.alike (h.sameIdents f))

theorem alwaysReturns (x : NodeId) : code.alwaysReturns x = T.code.alwaysReturns x := by
  unfold CompilationUnit.alwaysReturns
  rw [h.size]
  generalize T.code.size + 1 = depth
  induction depth generalizing x with
  | zero => rfl
  | succ depth ih =>
    unfold alwaysReturnsWithin
    simp only [h.alike.children, h.alike.form, funext ih]

/-- Only calls of functions are connected with definitions. -/
theorem definition_eq_none {x : NodeId} {name : String} (hform : T.code.form x = .call name)
    (hname : T.code.scopes.binding? (T.code.node x).scope name = none) :
    (code.node x).definition = none := by
  refine Option.not_isSome_iff_eq_none.mp fun hdef => ?_
  obtain ⟨f, other, hother, hf⟩ := h.proper x (by rw [hform]; rfl) hdef
  cases hform.symm.trans hother
  cases hname.symm.trans hf

/-- A unit of the pass is one that typing can start from. -/
theorem recalls : Recalls { T with code } code :=
  recalls_self fun id hid hknown =>
    h.type_eq_ok_iff.mpr (h.sound id (by rwa [← h.alike.form]) hknown)

/-- Typing leaves a unit of the pass behind. -/
theorem of_recalls (hT : T.Ready) {code' : CompilationUnit}
    (hrecalls : Recalls { T with code } code') (hadvances : Advances { T with code } code code') :
    T.Keeps code' where
  size := hrecalls.size.trans h.size
  alike := h.alike.trans hrecalls.alike
  agree ids := by
    refine ⟨fun s hs => ((hrecalls.agree ids).parent s hs).trans ((h.agree ids).parent s hs),
      fun s hs name => ?_⟩
    have hrel := (hrecalls.agree ids).get? s hs name
    have hknown := (h.ready hT).known s name
    rw [← h.get?]
    revert hrel hknown
    dsimp only
    generalize (code.scopes.scope s).get? name = o, (code'.scopes.scope s).get? name = o'
    -- A descriptor of known type is not completed, so it is the same as before.
    rintro (⟨hname, hrole, htype⟩ | _) hknown
    · rename_i d d'
      refine .some ?_
      obtain ⟨dname, dtype, drole⟩ := d
      obtain ⟨dname', dtype', drole'⟩ := d'
      rcases htype with htype | ⟨-, hunknown⟩
      · cases hname
        cases hrole
        cases htype
        rfl
      · exact absurd (hknown _ rfl) hunknown
    · exact .none
  sound id hid hknown := by
    have hform : code'.form id = T.code.form id := (hrecalls.form id).trans (h.alike.form id)
    exact h.type_eq_ok_iff.mp (hrecalls.sound id (by rwa [hform]) hknown)
  proper id hid hdef := by
    rcases hadvances.proper id hdef with hdef | ⟨f, hf⟩
    · exact h.proper id hid hdef
    · exact ⟨f, h.alike.calls_iff.mp hf⟩
  linked id f hf hknown := by
    rcases hadvances.linked id f (h.alike.calls_iff.mpr hf) hknown with hknown | hdef
    · exact hadvances.persists id (h.linked id f hf hknown)
    · exact hdef

end Keeps

/-- The walk over the calls of an expression may come to the units of the pass. -/
theorem walkable_keeps (x : NodeId) : T.Walkable T.Keeps x :=
  ⟨fun _ hc => hc.alike, fun _ hc _ hform hname => hc.definition_eq_none hform hname⟩

/-- The pass may start from a unit in which nothing has been put on record. -/
theorem keeps_self (hfresh : ∀ id, (T.code.form id).remembers →
    ¬(T.code.node id).type.isKnown ∧ (T.code.node id).definition = none) : T.Keeps T.code := by
  refine ⟨rfl, .refl _, fun ids => ?_, fun id hid h => ?_, fun id hid h => ?_,
    fun id f hf h => ?_⟩
  · refine ⟨fun _ _ => rfl, fun scope _ name => ?_⟩
    cases (T.code.scopes.scope scope).get? name with
    | none => exact .none
    | some d => exact .some rfl
  · exact absurd h (hfresh id hid).1
  · rw [(hfresh id hid).2] at h
    cases h
  · obtain ⟨name, hform, -⟩ := hf
    exact absurd h (hfresh id (by rw [hform]; rfl)).1

/-- Putting types on record makes no difference, except for a node whose type is kept for
typing. -/
theorem Keeps.modifyNode {code : CompilationUnit} (h : T.Keeps code) (id : NodeId)
    {g : Node → Node}
    (hg : ∀ node, ∃ type targetTypes, g node = { node with type, targetTypes })
    (htype : (T.code.form id).remembers → ∀ node, (g node).type = node.type) :
    T.Keeps (code.modifyNode id g) := by
  have hsame : ∀ {γ : Type} (f : Node → γ),
      (∀ node type targetTypes, f { node with type, targetTypes } = f node) → ∀ other,
        f ((code.modifyNode id g).node other) = f (code.node other) := by
    intro γ f hf other
    rw [node_modifyNode]
    split
    · obtain ⟨type, targetTypes, heq⟩ := hg (code.node other)
      rw [heq, hf]
    · rfl
  have htype' : ∀ other, (T.code.form other).remembers →
      ((code.modifyNode id g).node other).type = (code.node other).type := by
    intro other hother
    rw [node_modifyNode]
    split
    · next heq => exact htype (heq.1 ▸ hother) _
    · rfl
  have hdefinition := hsame Node.definition fun _ _ _ => rfl
  refine ⟨size_modifyNode.trans h.size, h.alike.trans ⟨hsame Node.form fun _ _ _ => rfl,
    hsame Node.scope fun _ _ _ => rfl, hsame Node.children fun _ _ _ => rfl,
    hsame Node.field fun _ _ _ => rfl, fun _ _ => rfl⟩, h.agree, fun other hother => ?_,
    fun other hother => ?_, fun other f hf => ?_⟩
  · rw [htype' other hother]
    exact h.sound other hother
  · rw [hdefinition]
    exact h.proper other hother
  · obtain ⟨name, hform, hname⟩ := hf
    rw [hdefinition, htype' other (by rw [hform]; rfl)]
    exact h.linked other f ⟨name, hform, hname⟩

/-! ### Deciding -/

/-- A computation of the pass answers with the things that have a property, and with nothing
else. -/
abbrev Decides (T : Typing) (action : Check σ α) (Q : α → Prop) : Prop :=
  Check.Decides T.Keeps action Q

/-- What a computation yields from every unit of the pass, it decides. -/
theorem Decides.of_yields {action : Check σ α} {Q : α → Prop} (hT : T.Ready)
    {r : CompilationUnit → Except Halt α}
    (h : ∀ c, T.Keeps c → Yields { T with code := c } action (r c))
    (hne : ∀ c, T.Keeps c → r c ≠ .error .outOfDepth)
    (hQ : ∀ c, T.Keeps c → ∀ a, r c = .ok a ↔ Q a) : T.Decides action Q := by
  intro s hs a
  have hend := h s.code hs (hne s.code hs) s hs.recalls
  rw [hend.answer]
  exact ⟨hQ s.code hs a, fun _ => hs.of_recalls hT hend.recalls hend.advances⟩

end Typing

end ContractLang
