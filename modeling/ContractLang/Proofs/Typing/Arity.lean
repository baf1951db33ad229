import ContractLang.Operation.Standard
import ContractLang.Proofs.Statements.WellTyped
import ContractLang.Proofs.Typing.Agreement
import ContractLang.Proofs.Typing.Answers
import ContractLang.Proofs.Typing.Keeping

/-!
# How many arguments a call has

The number of arguments of a call is not compared with that of the operation. Instead each argument
is compared with what is listed at its position, and there has to be something listed. So the call
of an operation has no more arguments than the operation lists, at any depth of an expression that
is accepted (`ContractLang.Checker.arity_le`), but it may have fewer, or none at all
(`ContractLang.Checker.arity_lt`).
-/

namespace ContractLang

open Check Relation

/-- A specification takes the types of arguments from lists, one for each operation. -/
def OpSpec.ListsArguments (spec : OpSpec) (arguments : String → List Ty) : Prop :=
  ∀ op i type, spec.argumentType op i = .ok type ↔ (arguments op)[i]? = some type

/-- The types of the arguments of an operation, none if it is not in the table. -/
def OpTable.arguments (table : OpTable) (op : String) : List Ty :=
  (table.signatures.lookup op).elim [] Signature.arguments

/-- A table lists the arguments of its operations. -/
theorem OpTable.listsArguments (table : OpTable) : table.toSpec.ListsArguments table.arguments := by
  intro op i type
  change (table.signature op >>= fun signature => entryAt signature.arguments op "argument" i) = _ ↔
    _
  unfold signature arguments entryAt
  cases table.signatures.lookup op with
  | none => simp [bind, Except.bind]
  | some signature =>
    dsimp only [bind, Except.bind, Option.elim]
    cases signature.arguments[i]? <;> simp

/-! ### Units with types on record -/

/-- A unit has become another one by putting types of nodes on record. -/
structure CompilationUnit.Retypes (code code' : CompilationUnit) : Prop where
  scopes : code'.scopes = code.scopes
  node : ∀ id, ∃ type, code'.node id = { code.node id with type }

namespace CompilationUnit.Retypes

variable {code code' : CompilationUnit} {id : NodeId}

theorem refl (code : CompilationUnit) : code.Retypes code :=
  ⟨rfl, fun _ => ⟨_, rfl⟩⟩

theorem setType (h : code.Retypes code') (type : Ty) : code.Retypes (code'.setType id type) where
  scopes := h.scopes
  node other := by
    obtain ⟨old, hold⟩ := h.node other
    unfold CompilationUnit.setType
    rw [node_modifyNode]
    split
    · exact ⟨type, by rw [hold]⟩
    · exact ⟨old, hold⟩

/-- What does not depend on types is the same. -/
theorem field {β : Type} (h : code.Retypes code') (g : Node → β)
    (hg : ∀ node type, g { node with type } = g node) : g (code'.node id) = g (code.node id) := by
  obtain ⟨type, htype⟩ := h.node id
  rw [htype, hg]

theorem form (h : code.Retypes code') : code'.form id = code.form id :=
  h.field Node.form fun _ _ => rfl

theorem children (h : code.Retypes code') : code'.children id = code.children id :=
  h.field Node.children fun _ _ => rfl

theorem binding? (h : code.Retypes code') (name : String) :
    code'.scopes.binding? (code'.node id).scope name =
      code.scopes.binding? (code.node id).scope name := by
  rw [h.scopes, h.field Node.scope fun _ _ => rfl]

end CompilationUnit.Retypes

/-! ### Expressions without functions -/

section

variable {σ : Type} {base : CompilationUnit} {ctx : Context σ} {obtain : BodySource σ}
  {R : List NodeId} {x : NodeId}

/-- A node is no call of a function: if it is a call, then its name does not mean a function, and it
has not been connected with one. -/
def CompilationUnit.CallsNoFunction (code : CompilationUnit) (x : NodeId) : Prop :=
  ∀ name, code.form x = .call name →
    code.scopes.binding? (code.node x).scope name = none ∧ (code.node x).definition = none

/-- The types in a unit may be put on record. -/
abbrev Retyped (base : CompilationUnit) (s : CheckState σ) : Prop :=
  base.Retypes s.code

theorem recordable_retyped : Recordable (Retyped (σ := σ) base) :=
  fun hs _ => hs.setType _

/-- Typing an expression that is no call of a function puts types on record only, if typing its
parts does. -/
theorem Context.retyped_typeRule (hx : base.CallsNoFunction x)
    (hparts : ∀ y ∈ base.parts x, Check.Keeps (Retyped base) (ctx.judge (.typeOf R y))) :
    Check.Keeps (Retyped base) (ctx.typeRule obtain R x) := by
  refine keeps_typeRule recordable_retyped (fun s hs y hy => hparts y ?_)
    fun s name hs hform t ht => ?_
  · rw [hs.form] at hy
    exact CompilationUnit.mem_parts_of_mem_operands hy
  · rw [hs.form] at hform
    have hchildren : ∀ y ∈ (t.code.node x).children, y ∈ base.parts x := fun y hy => by
      unfold CompilationUnit.parts
      rw [hform]
      exact ht.children ▸ hy
    rw [exec_callType, ht.binding?, (hx name hform).1]
    unfold boundType
    dsimp only
    split
    · exact keeps_operationType name (fun y hy => hparts y (hchildren y hy)) t ht
    · exact ht

/-- **Typing an expression without calls of functions puts types on record only.** -/
theorem Supply.retyped_typeOf (supply : Supply σ) (spec : OpSpec) (config : Config) (d : Nat)
    (hx : ∀ y, ReflTransGen base.Part x y → base.CallsNoFunction y) :
    Check.Keeps (Retyped base) ((supply.context spec d config).judge (.typeOf R x)) := by
  induction d generalizing x with
  | zero => exact fun _ hs => hs
  | succ d ih =>
    exact Context.retyped_typeRule (hx x .refl)
      fun y hy => ih fun z hz => hx z (hz.head hy)

/-- The number of arguments of a call does not exceed that of what is listed for it. -/
def CompilationUnit.ArityLe (code : CompilationUnit) (arguments : String → List Ty) (x : NodeId) :
    Prop :=
  ∀ name, code.form x = .call name → (code.children x).length ≤ (arguments name).length

/-- Arguments that have been checked are listed, from the first to the last. -/
theorem Context.le_of_checkArgumentsFrom {arguments : String → List Ty}
    (hspec : ctx.spec.ListsArguments arguments) {name : String} {given : List NodeId}
    {position : Nat} {s u : CheckState σ}
    (h : exec (ctx.checkArgumentsFrom x name position given) s = (.ok (), u)) :
    given = [] ∨ position + given.length ≤ (arguments name).length := by
  induction given generalizing position s with
  | nil => exact .inl rfl
  | cons argument rest ih =>
    obtain ⟨⟨⟩, t, hfirst, hrest⟩ := exec_bind_eq_ok h
    obtain ⟨expected, v, hexpected, -⟩ := exec_bind_eq_ok hfirst
    refine .inr ?_
    have hlisted : ∃ type, (arguments name)[position]? = some type := by
      cases hlookup : ctx.spec.argumentType name position with
      | ok type => exact ⟨type, (hspec _ _ _).mp hlookup⟩
      | error e =>
        rw [hlookup] at hexpected
        cases hexpected
    obtain ⟨type, htype⟩ := hlisted
    obtain ⟨hposition, -⟩ := List.getElem?_eq_some_iff.mp htype
    rcases ih hrest with rfl | hle
    · exact hposition
    · simp only [List.length_cons] at hle ⊢
      omega

/-- The check of the arguments of a call puts types on record only, if typing the arguments does,
and finds that there are not too many of them. -/
theorem Context.arity_checkArguments {arguments : String → List Ty}
    (hspec : ctx.spec.ListsArguments arguments) {name : String} (hform : base.form x = .call name)
    (htypes : ∀ y ∈ base.children x, Check.Keeps (Retyped base) (ctx.judge (.typeOf [] y)))
    {s u : CheckState σ} (hs : Retyped base s)
    (h : exec (ctx.checkArguments x) s = (.ok (), u)) :
    Retyped base u ∧ base.ArityLe arguments x := by
  unfold checkArguments at h
  rw [exec_bind, exec_callName (hs.form.trans hform)] at h
  dsimp only at h
  rw [exec_bind, exec_code] at h
  dsimp only at h
  rw [hs.children] at h
  have hu := keeps_checkArgumentsFrom (x := x) name 0 htypes s hs
  rw [h] at hu
  refine ⟨hu, fun other hother => ?_⟩
  cases hform.symm.trans hother
  rcases le_of_checkArgumentsFrom hspec h with hnil | hle
  · rw [hnil]
    exact Nat.zero_le _
  · rwa [Nat.zero_add] at hle

/-- Checking the calls in an expression without functions puts types on record only, and finds no
call in it with too many arguments, if this is so for the parts. -/
theorem Context.arity_callsRule {arguments : String → List Ty}
    (hspec : ctx.spec.ListsArguments arguments) (hx : base.CallsNoFunction x)
    (htypes : ∀ y ∈ base.parts x, Check.Keeps (Retyped base) (ctx.judge (.typeOf [] y)))
    (hcalls : ∀ y ∈ base.parts x, ∀ s u, Retyped base s →
      exec (ctx.judge (.calls y)) s = (.ok (), u) →
      Retyped base u ∧ ∀ z, ReflTransGen base.Part y z → base.ArityLe arguments z)
    {s u : CheckState σ} (hs : Retyped base s)
    (h : exec (ctx.callsRule x) s = (.ok (), u)) :
    Retyped base u ∧ ∀ z, ReflTransGen base.Part x z → base.ArityLe arguments z := by
  have hpart : ∀ y ∈ base.parts x, ∀ s u, Retyped base s →
      exec (ctx.checkPart y) s = (.ok (), u) →
      Retyped base u ∧ ∀ z, ReflTransGen base.Part y z → base.ArityLe arguments z := by
    intro y hy s u hs hexec
    obtain ⟨⟨⟩, t, htype, hrest⟩ := exec_bind_eq_ok hexec
    have ht := (htypes y hy).discard s hs
    rw [htype] at ht
    exact hcalls y hy t u ht hrest
  -- What is below an expression is below one of its parts, or the expression itself.
  have hbelow : (∀ y ∈ base.parts x, ∀ z, ReflTransGen base.Part y z → base.ArityLe arguments z) →
      base.ArityLe arguments x → ∀ z, ReflTransGen base.Part x z → base.ArityLe arguments z := by
    intro hparts hself z hz
    rcases ReflTransGen.cases_head hz with rfl | ⟨y, hy, hyz⟩
    · exact hself
    · exact hparts y hy z hyz
  unfold callsRule at h
  rw [exec_bind, exec_node] at h
  dsimp only at h
  split at h
  · next name hform =>
    have hform' : base.form x = .call name := hs.form.symm.trans hform
    have hparts : (s.code.node x).children = base.parts x :=
      hs.children.trans (CompilationUnit.parts_of_call hform').symm
    obtain ⟨hnone, hunconnected⟩ := hx name hform'
    rw [exec_bind, exec_code] at h
    dsimp only at h
    rw [hs.binding?, hnone, hs.field Node.definition fun _ _ => rfl, hunconnected, hparts] at h
    obtain ⟨⟨⟩, t, hchildren, hlast⟩ := exec_bind_eq_ok h
    obtain ⟨ht, hall⟩ := Keeps.of_exec_forM hpart hs hchildren
    rw [CompilationUnit.parts_of_call hform'] at htypes
    obtain ⟨hu, hself⟩ := arity_checkArguments hspec hform' htypes ht hlast
    exact ⟨hu, hbelow hall hself⟩
  · next hform =>
    have hform' : ∀ name, base.form x ≠ .call name :=
      fun name hname => hform name (hs.form.trans hname)
    rw [show (s.code.node x).form = base.form x from hs.form,
      ← CompilationUnit.parts_of_not_call hform'] at h
    obtain ⟨hu, hall⟩ := Keeps.of_exec_forM hpart hs h
    exact ⟨hu, hbelow hall fun name hname => absurd hname (hform' name)⟩

/-- **The walk over the calls of an expression without functions** leaves none with too many
arguments, at every depth. -/
theorem Supply.arity_calls {arguments : String → List Ty} (supply : Supply σ) {spec : OpSpec}
    (hspec : spec.ListsArguments arguments) (config : Config) (d : Nat)
    (hx : ∀ y, ReflTransGen base.Part x y → base.CallsNoFunction y) {s u : CheckState σ}
    (hs : Retyped base s)
    (h : exec ((supply.context spec d config).judge (.calls x)) s = (.ok (), u)) :
    Retyped base u ∧ ∀ z, ReflTransGen base.Part x z → base.ArityLe arguments z := by
  induction d generalizing x s u with
  | zero => cases h
  | succ d ih =>
    have hparts : ∀ y ∈ base.parts x, ∀ z, ReflTransGen base.Part y z → base.CallsNoFunction z :=
      fun y hy z hz => hx z (hz.head hy)
    have hrule : exec ((supply.context spec d config).callsRule x) s = (.ok (), u) := h
    refine Context.arity_callsRule ?_ (hx x .refl)
      (fun y hy => supply.retyped_typeOf spec config d (hparts y hy))
      (fun y hy s u hs h => ih (hparts y hy) hs h) hs hrule
    rwa [Supply.spec_context]

end

/-- A unit with four calls of operations, two of which have arguments. -/
def CompilationUnit.bareCalls : CompilationUnit where
  nodes := #[.ofForm 0 (.literal .bytes "0x61"),
    { Node.ofForm 0 (.call "sha256") with children := [0] },
    { Node.ofForm 0 (.call "len") with children := [1] },
    .ofForm 0 (.call "sha256"), .ofForm 0 (.call "select")]
  scopes := .initial "global"

theorem CompilationUnit.callsNoFunction_bareCalls (x : NodeId) : bareCalls.CallsNoFunction x := by
  intro name hform
  have hlt : x < bareCalls.size := lt_size_of_form (by rw [hform]; nofun)
  have hx : x < 5 := hlt
  match x, hx with
  | 0, _ | 1, _ | 2, _ | 3, _ | 4, _ =>
    cases hform <;> exact ⟨rfl, rfl⟩

namespace Checker

/-- **No call of an operation has too many arguments.** If an expression in which nothing is a call
of a function is accepted, then no call in it, to any depth, has more arguments than are listed for
the operation. It may have fewer. -/
theorem arity_le {σ : Type} (checker : Checker σ) {arguments : String → List Ty}
    (hspec : checker.spec.ListsArguments arguments) {s : CheckState σ} {x : NodeId} {type : Ty}
    (hx : ∀ y, ReflTransGen s.code.Part x y → s.code.CallsNoFunction y)
    (h : (checker.ask (.expression x) s).1 = .ok type) (y : NodeId)
    (hy : ReflTransGen s.code.Part x y) (name : String) (hform : s.code.form y = .call name) :
    (s.code.children y).length ≤ (arguments name).length := by
  obtain ⟨d, -, hask⟩ := checker.exists_ask_eq s
  rw [hask] at h
  have hexec : exec ((checker.context (d + 1)).checkExpr x) s =
      (.ok type, (exec ((checker.context (d + 1)).answer (.expression x)) s).2) := Prod.ext h rfl
  obtain ⟨found, t, htype, hrest⟩ := exec_bind_eq_ok hexec
  obtain ⟨⟨⟩, u, hcalls, -⟩ := exec_bind_eq_ok hrest
  have ht : Retyped s.code (exec ((checker.context (d + 1)).judge (.typeOf [] x)) s).2 :=
    checker.supply.retyped_typeOf checker.spec checker.config (d + 1) hx s (.refl s.code)
  rw [htype] at ht
  exact (checker.supply.arity_calls hspec checker.config (d + 1) hx ht hcalls).2 y hy name hform

/-- The call inside another one has one argument at most. -/
theorem arity_le_bareCalls :
    let checker : Checker Unit := ⟨Standard.spec, .strict, none⟩
    (checker.ask (.expression 2) ⟨.bareCalls, ()⟩).1 = .ok .uint64 ∧
      (CompilationUnit.bareCalls.children 1).length ≤
        (Standard.table.arguments "sha256").length := by
  intro checker
  have hask : (checker.ask (.expression 2) ⟨.bareCalls, ()⟩).1 = .ok .uint64 := rfl
  exact ⟨hask, checker.arity_le Standard.table.listsArguments
    (fun y _ => CompilationUnit.callsNoFunction_bareCalls y) hask 1
    (.single (show 1 ∈ [1] from List.mem_singleton_self 1)) "sha256" rfl⟩

/-- **Arguments may be missing.** Calls without any argument are accepted as expressions, one of an
operation whose type is fixed, and one of an operation that has the type of an argument. -/
theorem arity_lt :
    let checker : Checker Unit := ⟨Standard.spec, .strict, none⟩
    let code := CompilationUnit.bareCalls
    Standard.spec.ListsArguments Standard.table.arguments ∧ code.Acyclic ∧
      (∀ y, code.CallsNoFunction y) ∧
      (code.form 3 = .call "sha256" ∧ (checker.ask (.expression 3) ⟨code, ()⟩).1 = .ok .bytes ∧
        (code.children 3).length = 0 ∧ (Standard.table.arguments "sha256").length = 1) ∧
      code.form 4 = .call "select" ∧ (checker.ask (.expression 4) ⟨code, ()⟩).1 = .ok .unknown ∧
        (code.children 4).length = 0 ∧ (Standard.table.arguments "select").length = 3 :=
  ⟨Standard.table.listsArguments,
    CompilationUnit.acyclic_of_lt (CompilationUnit.link_lt_of_forall (by decide)),
    CompilationUnit.callsNoFunction_bareCalls, ⟨rfl, rfl, rfl, rfl⟩, rfl, rfl, rfl, rfl⟩

end Checker

end ContractLang
