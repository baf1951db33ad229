import ContractLang.Check.Checker
import Mathlib.Data.Finset.Card
import Mathlib.Logic.Relation

/-!
# Links and calls

What a walk over a compilation unit can come to. A node is linked to its operands
and its children (`ContractLang.CompilationUnit.Link`), and a unit is *acyclic* when
no node is below itself. Then every node has a rank
(`ContractLang.CompilationUnit.rank`), the number of nodes from itself downwards,
which drops along every link and never exceeds the size of the unit. All bounds on
the depth of walks come from it. Where only what lies below one node is acyclic, the nodes
that can be come to from it are counted instead (`ContractLang.CompilationUnit.span`).

A call leads on to the definition of the function called. Evaluating a node follows
links and calls (`ContractLang.CompilationUnit.Leads`), but does not enter a
definition only because it stands inside a body. A function that evaluation comes
back to is recursive (`ContractLang.CompilationUnit.Recursive`).
-/

namespace ContractLang

namespace CompilationUnit

open Relation

variable {code : CompilationUnit} {a b c : NodeId}

/-! ### Links -/

/-- A node is linked to its operands and to its children. -/
def Link (code : CompilationUnit) (a b : NodeId) : Prop :=
  b ∈ (code.form a).operands ∨ b ∈ code.children a

/-- No node is below itself. -/
def Acyclic (code : CompilationUnit) : Prop :=
  ∀ a, ¬TransGen code.Link a a

/-- No node that is below a given one, or is that node, is below itself. -/
def AcyclicFrom (code : CompilationUnit) (a : NodeId) : Prop :=
  ∀ b, ReflTransGen code.Link a b → ¬TransGen code.Link b b

theorem Acyclic.acyclicFrom (hcode : code.Acyclic) : code.AcyclicFrom a :=
  fun b _ => hcode b

/-- What is below a node has no more below it than the node. -/
theorem AcyclicFrom.tail (ha : code.AcyclicFrom a) (h : code.Link a b) : code.AcyclicFrom b :=
  fun c hc => ha c (.head h hc)

/-- A number that belongs to no node is linked to nothing. -/
theorem node_of_size_le (h : code.size ≤ a) : code.node a = default := by
  have hnot : ¬a < code.nodes.size := Nat.not_lt.mpr h
  simp [node, Array.getD, hnot]

/-- Links start at nodes that exist. -/
theorem Link.lt_size (h : code.Link a b) : a < code.size := by
  by_contra hlt
  have hnode := node_of_size_le (Nat.le_of_not_lt hlt)
  rcases h with h | h
  · rw [form, hnode] at h
    exact absurd h List.not_mem_nil
  · rw [children, hnode] at h
    exact absurd h List.not_mem_nil

/-- A return statement is linked to its value. -/
theorem Link.of_ret {value : NodeId} {definition : Option NodeId}
    (h : code.form a = .ret (some value) definition) : code.Link a value := by
  refine .inl ?_
  rw [h]
  exact List.mem_singleton_self value

open Classical in
/-- The number of nodes that a node leads to along a relation, itself included. -/
noncomputable def span (code : CompilationUnit) (R : NodeId → NodeId → Prop) (a : NodeId) : Nat :=
  ((Finset.range code.size).filter fun b => ReflTransGen R a b).card

section Span

variable {R : NodeId → NodeId → Prop}

theorem span_le_size (code : CompilationUnit) (R : NodeId → NodeId → Prop) (a : NodeId) :
    code.span R a ≤ code.size := by
  classical
  exact (Finset.card_filter_le _ _).trans (Finset.card_range _).le

/-- **Spans drop along a relation** from a node that it does not lead back to: all that the later
node leads to the earlier one leads to as well. -/
theorem span_lt (hsize : a < code.size) (ha : ¬TransGen R a a) (h : TransGen R a b) :
    code.span R b < code.span R a := by
  classical
  -- What `b` leads to `a` leads to, but `b` does not lead to `a` itself.
  refine Finset.card_lt_card (Finset.ssubset_iff_subset_ne.mpr ⟨fun c hc => ?_, fun heq => ?_⟩)
  · rw [Finset.mem_filter] at hc ⊢
    exact ⟨hc.1, h.to_reflTransGen.trans hc.2⟩
  · have hmem : a ∈ (Finset.range code.size).filter fun c => ReflTransGen R a c :=
      Finset.mem_filter.mpr ⟨Finset.mem_range.mpr hsize, ReflTransGen.refl⟩
    rw [← heq, Finset.mem_filter] at hmem
    exact ha (h.trans_left hmem.2)

/-- A node that exists has a positive span. -/
theorem span_pos (ha : a < code.size) : 0 < code.span R a := by
  classical
  exact Finset.card_pos.mpr
    ⟨a, Finset.mem_filter.mpr ⟨Finset.mem_range.mpr ha, ReflTransGen.refl⟩⟩

end Span

/-- The number of nodes that a node leads down to along links, itself included. -/
noncomputable def rank (code : CompilationUnit) (a : NodeId) : Nat :=
  code.span code.Link a

theorem rank_le_size (code : CompilationUnit) (a : NodeId) : code.rank a ≤ code.size :=
  code.span_le_size code.Link a

/-- **Ranks drop along links** of a node that is not below itself: all that is below the lower
node is below the upper one as well. -/
theorem rank_lt_of_not_transGen (ha : ¬TransGen code.Link a a) (h : code.Link a b) :
    code.rank b < code.rank a :=
  span_lt h.lt_size ha (.single h)

/-- In an acyclic unit, they drop along all links. -/
theorem rank_lt_of_link (hcode : code.Acyclic) (h : code.Link a b) :
    code.rank b < code.rank a :=
  rank_lt_of_not_transGen (hcode a) h

theorem AcyclicFrom.rank_lt (ha : code.AcyclicFrom a) (h : code.Link a b) :
    code.rank b < code.rank a :=
  rank_lt_of_not_transGen (ha a .refl) h

/-- A number that belongs to no node has no rank. -/
theorem rank_of_size_le (h : code.size ≤ a) : code.rank a = 0 := by
  classical
  unfold rank span
  refine Finset.card_eq_zero.mpr (Finset.filter_eq_empty_iff.mpr fun b hb hreach => ?_)
  rcases ReflTransGen.cases_head hreach with rfl | ⟨c, hlink, -⟩
  · exact Nat.not_lt.mpr h (Finset.mem_range.mp hb)
  · exact Nat.not_lt.mpr h hlink.lt_size

/-- A node that exists has a positive rank. -/
theorem rank_pos (ha : a < code.size) : 0 < code.rank a :=
  span_pos ha

/-- A node of a form other than that of an empty block exists. -/
theorem lt_size_of_form (h : code.form a ≠ .block) : a < code.size := by
  by_contra hlt
  refine h ?_
  rw [form, node_of_size_le (Nat.le_of_not_lt hlt)]
  rfl

/-! ### Calls -/

/-- A call is one of the function that is defined by a node. -/
def Calls (code : CompilationUnit) (call definition : NodeId) : Prop :=
  ∃ name, code.form call = .call name ∧
    code.scopes.binding? (code.node call).scope name = some (.resolved definition)

/-- A node defines a function. -/
def IsDefinition (code : CompilationUnit) (a : NodeId) : Prop :=
  ∃ name params inlined, code.form a = .function name params inlined

/-- Evaluating a node may come to its operands and children, other than definitions of
functions, and from a call to the definition of the function called. -/
def Leads (code : CompilationUnit) (a b : NodeId) : Prop :=
  (code.Link a b ∧ ¬code.IsDefinition b) ∨ code.Calls a b

/-- What evaluating a node may come to. -/
def Reaches (code : CompilationUnit) : NodeId → NodeId → Prop :=
  ReflTransGen code.Leads

/-- Evaluating a node may come to a call of a function. -/
def ReachesFunction (code : CompilationUnit) (a definition : NodeId) : Prop :=
  ∃ call, code.Reaches a call ∧ code.Calls call definition

/-- A function reaches itself through calls. -/
def Recursive (code : CompilationUnit) (definition : NodeId) : Prop :=
  code.ReachesFunction definition definition

theorem Leads.of_link (h : code.Link a b) (hb : ¬code.IsDefinition b) : code.Leads a b :=
  .inl ⟨h, hb⟩

theorem Leads.of_calls (h : code.Calls a b) : code.Leads a b :=
  .inr h

theorem Calls.lt_size (h : code.Calls a b) : a < code.size := by
  obtain ⟨name, hform, -⟩ := h
  exact lt_size_of_form (by rw [hform]; simp)

/-- A call is one of a single function. -/
theorem Calls.unique (hb : code.Calls a b) (hc : code.Calls a c) : b = c := by
  obtain ⟨name, hform, hname⟩ := hb
  obtain ⟨name', hform', hname'⟩ := hc
  cases hform.symm.trans hform'
  cases hname.symm.trans hname'
  rfl

theorem ReachesFunction.of_calls (h : code.Calls a b) : code.ReachesFunction a b :=
  ⟨a, ReflTransGen.refl, h⟩

/-- What is reached from further on is reached. -/
theorem ReachesFunction.head (h : code.Leads a b) (hb : code.ReachesFunction b c) :
    code.ReachesFunction a c := by
  obtain ⟨call, hreach, hcalls⟩ := hb
  exact ⟨call, ReflTransGen.head h hreach, hcalls⟩

/-! ### Evaluating downwards -/

/-- Evaluation leads on from nodes that exist. -/
theorem Leads.lt_size (h : code.Leads a b) : a < code.size := by
  rcases h with ⟨hlink, -⟩ | hcall
  · exact hlink.lt_size
  · exact hcall.lt_size

/-- Evaluation gets from one node to another one along links, or it calls a function on the
way. -/
theorem transGen_link_or_calls (h : TransGen code.Leads a b) :
    TransGen code.Link a b ∨
      ∃ call f, code.Reaches a call ∧ code.Calls call f ∧ code.Reaches f b := by
  induction h with
  | single hlead =>
    rcases hlead with ⟨hlink, -⟩ | hcall
    · exact .inl (.single hlink)
    · exact .inr ⟨a, _, .refl, hcall, .refl⟩
  | @tail b c hab hlead ih =>
    rcases ih with hlinks | ⟨call, f, hcall, hf, hb⟩
    · rcases hlead with ⟨hlink, -⟩ | hcall
      · exact .inl (hlinks.tail hlink)
      · exact .inr ⟨b, c, hab.to_reflTransGen, hcall, .refl⟩
    · exact .inr ⟨call, f, hcall, hf, hb.tail hlead⟩

/-- Evaluating a node comes back to no node that it has come to. -/
def Descends (code : CompilationUnit) (a : NodeId) : Prop :=
  ∀ b, code.Reaches a b → ¬TransGen code.Leads b b

/-- **Evaluation does not come back** where no node that it comes to is below itself, and no
function that it comes to a call of is recursive. -/
theorem descends_of_nonrecursive (hlinks : ∀ b, code.Reaches a b → ¬TransGen code.Link b b)
    (hnonrecursive : ∀ f, code.ReachesFunction a f → ¬code.Recursive f) : code.Descends a := by
  intro b hb hcycle
  rcases transGen_link_or_calls hcycle with hlinked | ⟨call, f, hcall, hf, hback⟩
  · exact hlinks b hb hlinked
  -- A function that is called on the way from a node to itself is come to again from its body.
  · exact hnonrecursive f ⟨call, hb.trans hcall, hf⟩ ⟨call, hback.trans hcall, hf⟩

namespace Descends

variable (ha : code.Descends a)

include ha

theorem of_reaches (h : code.Reaches a b) : code.Descends b :=
  fun c hc => ha c (h.trans hc)

/-- Less is reached from a node further on. -/
theorem span_lt (h : TransGen code.Leads a b) :
    code.span code.Leads b < code.span code.Leads a := by
  obtain ⟨c, hlead, -⟩ := TransGen.head'_iff.mp h
  exact CompilationUnit.span_lt hlead.lt_size (ha a .refl) h

end Descends

/-! ### Units built from the leaves upwards

Nodes are created after the nodes that they are linked to, and as long as nothing is
appended later, numbers drop along links. If definitions come before calls of them as
well, nothing can come back to itself. -/

/-- A unit in which links lead to smaller numbers is acyclic. -/
theorem acyclic_of_lt (h : ∀ a b, code.Link a b → b < a) : code.Acyclic := by
  have hlt : ∀ a b, TransGen code.Link a b → b < a := by
    intro a b hreach
    induction hreach with
    | single hlink => exact h _ _ hlink
    | tail _ hlink ih => exact Nat.lt_trans (h _ _ hlink) ih
  exact fun a ha => Nat.lt_irrefl a (hlt a a ha)

/-- Whether links lead to smaller numbers is a matter of the nodes that exist. -/
theorem link_lt_of_forall
    (h : ∀ a < code.size, ∀ b ∈ (code.form a).operands ++ code.children a, b < a) :
    ∀ a b, code.Link a b → b < a :=
  fun a b hlink => h a hlink.lt_size b (List.mem_append.mpr hlink)

/-- The definition of the function that a node is a call of. -/
def callee? (code : CompilationUnit) (a : NodeId) : Option NodeId :=
  match code.form a with
  | .call name =>
    match code.scopes.binding? (code.node a).scope name with
    | some (.resolved definition) => some definition
    | _ => none
  | _ => none

theorem callee?_of_calls (h : code.Calls a b) : code.callee? a = some b := by
  obtain ⟨name, hform, hname⟩ := h
  unfold callee?
  rw [hform]
  dsimp only
  rw [hname]

/-- So is whether calls do. -/
theorem leads_lt_of_forall
    (h : ∀ a < code.size, ∀ b ∈ (code.form a).operands ++ code.children a, b < a)
    (hcalls : ∀ a < code.size, ∀ b ∈ code.callee? a, b < a) :
    ∀ a b, code.Leads a b → b < a := by
  rintro a b (⟨hlink, -⟩ | hcall)
  · exact link_lt_of_forall h a b hlink
  · exact hcalls a hcall.lt_size b (callee?_of_calls hcall)

/-- A unit in which calls lead to smaller numbers, too, is evaluated downwards. -/
theorem le_of_reaches (h : ∀ a b, code.Leads a b → b < a) (hreach : code.Reaches a b) : b ≤ a := by
  induction hreach with
  | refl => exact Nat.le_refl a
  | tail _ hlead ih => exact Nat.le_trans (Nat.le_of_lt (h _ _ hlead)) ih

/-- It has no recursive function. -/
theorem not_recursive_of_lt (h : ∀ a b, code.Leads a b → b < a) (f : NodeId) :
    ¬code.Recursive f := by
  rintro ⟨call, hreach, hcall⟩
  exact Nat.lt_irrefl f (Nat.lt_of_lt_of_le (h _ _ (.of_calls hcall)) (le_of_reaches h hreach))

/-- A unit with a function that returns a literal, and a call of it. -/
def oneCall : CompilationUnit where
  nodes := #[.ofForm 0 (.literal .uint64 "1"), .ofForm 0 (.ret (some 0) none),
    { Node.ofForm 0 (.function "f" [] false) with children := [1] }, .ofForm 0 (.call "f"),
    .ofForm 0 (.ret (some 3) none), { Node.ofForm 0 .program with children := [2, 4] }]
  scopes := ⟨#[{ Scope.fresh "global" none 0 with
    entries := [("f", ⟨"f", .uint64, .func (.resolved 2)⟩)] }], .initial⟩

namespace OneCall

theorem node_eq_default (h : ¬a < 6) : oneCall.node a = default :=
  node_of_size_le (Nat.not_lt.mp h)

theorem link_lt (h : oneCall.Link a b) : b < a := by
  have hdrops : ∀ a < 6, ∀ b ∈ (oneCall.form a).operands ++ oneCall.children a, b < a := by
    decide
  exact hdrops a h.lt_size b (List.mem_append.mpr h)

/-- Nothing but the one node is a call. -/
theorem form_eq_call {name : String} (h : oneCall.form a = .call name) :
    a = 3 ∧ name = "f" := by
  have hcalls : ∀ a < 6, oneCall.isCall a → a = 3 := by decide
  have hsize : a < oneCall.size := lt_size_of_form (by rw [h]; nofun)
  have ha : a = 3 := hcalls a hsize (by rw [isCall, h])
  subst ha
  cases h
  exact ⟨rfl, rfl⟩

theorem form_ne_ident {name : String} : oneCall.form a ≠ .ident name := by
  intro h
  have hidents : ∀ a < 6, ¬(oneCall.form a matches .ident _) := by decide
  have hsize : a < oneCall.size := lt_size_of_form (by rw [h]; nofun)
  exact hidents a hsize (by rw [h])

theorem calls (h : oneCall.Calls a b) : a = 3 ∧ b = 2 := by
  obtain ⟨name, hform, hname⟩ := h
  obtain ⟨rfl, rfl⟩ := form_eq_call hform
  cases hname
  exact ⟨rfl, rfl⟩

theorem leads_lt (h : oneCall.Leads a b) : b < a := by
  rcases h with ⟨hlink, -⟩ | hcall
  · exact link_lt hlink
  · obtain ⟨rfl, rfl⟩ := calls hcall
    decide

/-- The function is all that is declared. -/
theorem get?_eq_some {scope : ScopeId} {name : String} {d : Descriptor}
    (h : (oneCall.scopes.scope scope).get? name = some d) :
    d = ⟨"f", .uint64, .func (.resolved 2)⟩ := by
  cases scope with
  | zero =>
    by_cases hname : name = "f"
    · subst hname
      exact (Option.some.inj h).symm
    · have hnone : (oneCall.scopes.scope 0).get? name = none := by
        change List.lookup name [("f", _)] = none
        rw [List.lookup_cons, beq_false_of_ne hname]
        rfl
      cases hnone.symm.trans h
  | succ scope =>
    have hdefault : oneCall.scopes.scope (scope + 1) = default := by
      simp [ScopeTree.scope, oneCall, Array.getD]
    rw [hdefault] at h
    cases h

/-- Nothing has been put on record. -/
theorem fresh (a : NodeId) :
    ¬(oneCall.node a).type.isKnown ∧ (oneCall.node a).definition = none := by
  by_cases h : a < 6
  · have hall : ∀ a < 6,
        ¬(oneCall.node a).type.isKnown ∧ (oneCall.node a).definition = none := by decide
    exact hall a h
  · rw [node_eq_default h]
    decide

end OneCall

end CompilationUnit

end ContractLang
