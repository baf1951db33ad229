import ContractLang.Proofs.Decide
import ContractLang.Proofs.Statements.WellTyped
import ContractLang.Proofs.Typing.Transfer

/-!
# The walk over the calls of an expression

Typing an expression looks at few of the arguments of the calls in it. So once it has a type, the
checker walks over it again, types each of its parts, and compares the arguments of calls of
operations with their signatures (`ContractLang.Context.callsRule`). The walk decides whether
the answers about the parts cohere (`ContractLang.Typing.Coheres`).

Which answers these are is left open. They may be the types found without a memory, or what the
checker answers about a unit with other types on record. Nor does it matter which units the walk
comes to, as long as they read alike and connect no call of an operation with a definition
(`ContractLang.Typing.Walkable`).
-/

namespace ContractLang

namespace Typing

open Check CompilationUnit Relation

variable {σ : Type} {T : Typing} {types : NodeId → Except Halt Ty} {K : CompilationUnit → Prop}
  {x y : NodeId}

/-! ### Answers that cohere -/

/-- The arguments of an operation suit it: the signature has an entry for each of them, and does
not clash with the answer about it. The arguments of a function may be anything. -/
def ArgumentsSuit (T : Typing) (types : NodeId → Except Halt Ty) (x : NodeId) : Prop :=
  ∀ name, T.code.form x = .call name →
    T.code.scopes.binding? (T.code.node x).scope name = none →
      ∀ position argument, (T.code.children x)[position]? = some argument →
        ∃ expected received, T.spec.argumentType name position = .ok expected ∧
          types argument = .ok received ∧ ¬expected.clashes received

/-- The answers about an expression cohere: every node that it is made of has a type, and the
arguments of every operation in it suit the operation. -/
def Coheres (T : Typing) (types : NodeId → Except Halt Ty) (x : NodeId) : Prop :=
  ∀ y, ReflTransGen T.code.Part x y →
    (∃ type, types y = .ok type) ∧ T.ArgumentsSuit types y

/-- The answers about the parts of an expression cohere, and its own arguments suit it. -/
def CallsCohere (T : Typing) (types : NodeId → Except Halt Ty) (x : NodeId) : Prop :=
  (∀ y ∈ T.code.parts x, T.Coheres types y) ∧ T.ArgumentsSuit types x

/-- The answers about an expression cohere if it has a type and those about its calls do. -/
theorem coheres_iff : T.Coheres types x ↔ (∃ type, types x = .ok type) ∧ T.CallsCohere types x := by
  constructor
  · intro h
    exact ⟨(h x .refl).1, fun y hy z hz => h z (.head hy hz), (h x .refl).2⟩
  · rintro ⟨htype, hparts, harguments⟩ y hy
    rcases ReflTransGen.cases_head hy with rfl | ⟨z, hz, hreach⟩
    · exact ⟨htype, harguments⟩
    · exact hparts z hz y hreach

/-- The walk comes to units that read like the first one, and in which an expression that is a call
of an operation is not connected with a definition. -/
structure Walkable (T : Typing) (K : CompilationUnit → Prop) (x : NodeId) : Prop where
  alike : ∀ c, K c → T.code.Alike c
  unlinked : ∀ c, K c → ∀ name, T.code.form x = .call name →
    T.code.scopes.binding? (T.code.node x).scope name = none → (c.node x).definition = none

/-! ### Calls of operations -/

section Rules

variable {ctx : Context σ}

theorem decides_callName (halike : ∀ c, K c → T.code.Alike c) :
    Check.Decides K (Context.callName x : Check σ String) fun name =>
      T.code.form x = .call name := by
  refine .code fun c hc => ?_
  rw [(halike c hc).form]
  split
  · next name hform =>
    refine (Check.Decides.pure name).congr fun other => ?_
    rw [hform, Form.call.injEq]
    exact eq_comm
  · next hform =>
    refine (Check.Decides.fail fun _ _ => ⟨_, rfl⟩).congr fun name => ⟨False.elim, fun h => ?_⟩
    exact hform name h

variable (hspec : ctx.spec = T.spec)

include hspec

theorem decides_checkArgument (name : String) (position : Nat) {argument : NodeId}
    (htype : Check.Decides K (ctx.judge (.typeOf [] argument)) fun type =>
      types argument = .ok type) :
    Check.Decides K (ctx.checkArgument x name position argument) fun _ =>
      ∃ expected received, T.spec.argumentType name position = .ok expected ∧
        types argument = .ok received ∧ ¬expected.clashes received := by
  unfold Context.checkArgument
  rw [hspec]
  refine ((Check.Decides.liftExcept _).bind fun expected _ => htype.bind fun received _ =>
    Check.Decides.rejectIf _ (.fail fun _ _ => ⟨_, rfl⟩)).congr fun _ => ?_
  simp only [exists_and_left]

theorem decides_checkArgumentsFrom (name : String) (start : Nat) {arguments : List NodeId}
    (htype : ∀ y ∈ arguments, Check.Decides K (ctx.judge (.typeOf [] y)) fun type =>
      types y = .ok type) :
    Check.Decides K (ctx.checkArgumentsFrom x name start arguments) fun _ =>
      ∀ (position : Nat) argument, arguments[position]? = some argument →
        ∃ expected received, T.spec.argumentType name (start + position) = .ok expected ∧
          types argument = .ok received ∧ ¬expected.clashes received := by
  -- The induction is on the arguments that are left; the start moves along with them.
  induction arguments generalizing start with
  | nil => exact (Check.Decides.pure ()).congr fun _ => ⟨fun _ => nofun, fun _ => rfl⟩
  | cons argument rest ih =>
    rw [List.forall_mem_cons] at htype
    refine ((decides_checkArgument hspec name start htype.1).seq fun _ =>
      ih (start + 1) htype.2).congr fun _ => ⟨fun h position other hother => ?_, fun h => ⟨?_, ?_⟩⟩
    · cases position with
      | zero =>
        cases hother
        exact h.1
      | succ position =>
        have hrest := h.2 position other hother
        rwa [Nat.add_assoc, Nat.add_comm 1] at hrest
    · exact h 0 argument rfl
    · intro position other hother
      have hrest := h (position + 1) other hother
      rwa [Nat.add_assoc, Nat.add_comm 1]

/-- The check of the arguments of a call of an operation decides whether they suit it. -/
theorem decides_checkArguments (halike : ∀ c, K c → T.code.Alike c) {name : String}
    (hform : T.code.form x = .call name)
    (hname : T.code.scopes.binding? (T.code.node x).scope name = none)
    (htype : ∀ y ∈ T.code.children x, Check.Decides K (ctx.judge (.typeOf [] y)) fun type =>
      types y = .ok type) :
    Check.Decides K (ctx.checkArguments x) fun _ => T.ArgumentsSuit types x := by
  have hcheck : Check.Decides K (ctx.checkArguments x) _ :=
    (decides_callName halike).bind fun name _ => Check.Decides.code fun c hc => by
      rw [(halike c hc).children]
      exact decides_checkArgumentsFrom hspec name 0 htype
  refine hcheck.congr fun _ => ⟨fun ⟨other, hother, h⟩ => ?_, fun h => ⟨name, hform, ?_⟩⟩
  · intro name' hname' _ position argument hargument
    cases hother.symm.trans hname'
    rw [← Nat.zero_add position]
    exact h position argument hargument
  · intro position argument hargument
    rw [Nat.zero_add]
    exact h name hform hname position argument hargument

/-! ### Walking over an expression -/

section Walk

variable (htype : Check.Decides K (ctx.judge (.typeOf [] x)) fun type => types x = .ok type)
  (hcalls : (∃ type, types x = .ok type) →
    Check.Decides K (ctx.judge (.calls x)) fun _ => T.CallsCohere types x)

include htype hcalls

omit hspec

/-- The walk goes on below a part only if this has a type. -/
theorem decides_checkPart :
    Check.Decides K (ctx.checkPart x) fun _ => T.Coheres types x := by
  refine (htype.discard.seq hcalls).congr fun _ => ?_
  rw [coheres_iff]

theorem decides_checkExpr :
    Check.Decides K (ctx.checkExpr x) fun type => types x = .ok type ∧ T.Coheres types x := by
  refine (htype.bind fun type htyped => (hcalls ⟨type, htyped⟩).bind fun _ _ =>
    Check.Decides.pure type).congr fun type => ?_
  rw [coheres_iff]
  constructor
  · rintro ⟨type', htype', -, hok, rfl⟩
    exact ⟨htype', ⟨type, htype'⟩, hok⟩
  · rintro ⟨htype', -, hok⟩
    exact ⟨type, htype', (), hok, rfl⟩

theorem decides_discard_checkExpr :
    Check.Decides K (discard (ctx.checkExpr x)) fun _ => T.Coheres types x := by
  refine (decides_checkExpr htype hcalls).discard.congr fun _ => ?_
  constructor
  · exact fun ⟨_, _, h⟩ => h
  · exact fun h => (coheres_iff.mp h).1.imp fun type htype => ⟨htype, h⟩

end Walk

/-- **The walk over the parts of an expression decides whether the answers about its
calls cohere.** -/
theorem decides_callsRule (hK : T.Walkable K x)
    (htype : ∀ y ∈ T.code.parts x, Check.Decides K (ctx.judge (.typeOf [] y)) fun type =>
      types y = .ok type)
    (hcalls : ∀ y ∈ T.code.parts x, (∃ type, types y = .ok type) →
      Check.Decides K (ctx.judge (.calls y)) fun _ => T.CallsCohere types y) :
    Check.Decides K (ctx.callsRule x) fun _ => T.CallsCohere types x := by
  have hparts : Check.Decides K ((T.code.parts x).forM ctx.checkPart) fun _ =>
      ∀ y ∈ T.code.parts x, T.Coheres types y :=
    .forM fun y hy => decides_checkPart (htype y hy) (hcalls y hy)
  refine .node fun c hc => ?_
  have halike := hK.alike c hc
  rw [show (c.node x).form = T.code.form x from halike.form x]
  by_cases hcall : ∃ name, T.code.form x = .call name
  · obtain ⟨name, hform⟩ := hcall
    have hchildren := parts_of_call hform
    rw [hform]
    dsimp only
    rw [show (c.node x).children = T.code.children x from halike.children x, ← hchildren]
    refine .code fun c' hc' => ?_
    rw [halike.scope, (hK.alike c' hc').binding]
    cases hname : T.code.scopes.binding? (T.code.node x).scope name with
    | some binding =>
      rw [Option.isSome_some, Bool.or_true]
      refine (hparts.seq fun _ => Check.Decides.pure ()).congr fun _ => and_congr_right fun _ => ?_
      refine ⟨fun _ other hother hnone => ?_, fun _ => rfl⟩
      cases hform.symm.trans hother
      cases hname.symm.trans hnone
    | none =>
      rw [hK.unlinked c hc name hform hname]
      exact hparts.seq fun _ => decides_checkArguments hspec hK.alike hform hname
        (hchildren ▸ htype)
  · have hnot : ∀ name, T.code.form x ≠ .call name := fun name hform => hcall ⟨name, hform⟩
    split
    · next name hform => exact absurd hform (hnot name)
    · rw [← parts_of_not_call hnot]
      exact hparts.congr fun _ =>
        ⟨fun h => ⟨h, fun name hform => absurd hform (hnot name)⟩, fun h => h.1⟩

end Rules

end Typing

end ContractLang
