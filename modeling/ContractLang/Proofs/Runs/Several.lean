import ContractLang.Proofs.Links
import ContractLang.Proofs.Runs.Reachable
import ContractLang.Proofs.Typing.Answers

/-!
# Calls that give several values

Functions give one value, and only operations give several. Whether a call is one of a function
is found out by its name when the call is typed, and then the call is connected with the definition
of the function. When the types of several values are asked for, only this connection counts.

A call stays connected whatever happens later on (`ContractLang.CompilationUnit.StaysConnected`),
so what is left are calls that typing does not connect: those that have a type on record, perhaps
from a time when their name did not mean a function, and those of a function that is pending
(`ContractLang.CompilationUnit.PassesForOperation`). These, and no other calls of functions, give
several values if there is an operation by the name of the function that does
(`ContractLang.Checker.severalTypes_iff`).
-/

namespace ContractLang

open Check

/-! ### Calls stay connected -/

/-- From a unit to a later one: no node is gone, and a call that has been connected with a
definition stays connected with one. -/
structure CompilationUnit.StaysConnected (code code' : CompilationUnit) : Prop where
  size : code.size ≤ code'.size
  connected : ∀ id, (code.node id).definition.isSome → (code'.node id).definition.isSome

namespace CompilationUnit.StaysConnected

variable {code code' code'' : CompilationUnit} {id : NodeId} {g : Node → Node}

theorem refl (code : CompilationUnit) : code.StaysConnected code :=
  ⟨Nat.le_refl _, fun _ => id⟩

theorem trans (h : code.StaysConnected code') (h' : code'.StaysConnected code'') :
    code.StaysConnected code'' :=
  ⟨Nat.le_trans h.size h'.size, fun id hid => h'.connected id (h.connected id hid)⟩

theorem withScopes (h : code.StaysConnected code') (scopes : ScopeTree) :
    code.StaysConnected (code'.withScopes scopes) :=
  ⟨h.size, h.connected⟩

theorem modifyNode (h : code.StaysConnected code')
    (hg : ∀ node, node.definition.isSome → (g node).definition.isSome) :
    code.StaysConnected (code'.modifyNode id g) where
  size := by
    rw [size_modifyNode]
    exact h.size
  connected other hother := by
    rw [node_modifyNode]
    split
    · exact hg _ (h.connected other hother)
    · exact h.connected other hother

theorem append (h : code.StaysConnected code') (parent child : NodeId) :
    code.StaysConnected (code'.append parent child) := by
  have hadopted : code.StaysConnected (code'.adopt parent child) := h.modifyNode fun _ => id
  exact hadopted.modifyNode fun _ => id

theorem push (h : code.StaysConnected code') (node : Node) :
    code.StaysConnected { code' with nodes := code'.nodes.push node } where
  size := Nat.le_trans h.size (by simp [CompilationUnit.size])
  connected other hother := by
    have hsome := h.connected other hother
    -- A node that is connected exists, and what is created comes after it.
    have hlt : other < code'.nodes.size := by
      by_contra hle
      rw [node_of_size_le (Nat.le_of_not_lt hle)] at hsome
      cases hsome
    simpa [CompilationUnit.node, Array.getD, hlt, Nat.lt_succ_of_lt hlt,
      Array.getElem_push_lt] using hsome

/-- **No edit takes a connection back.** -/
theorem apply {α : Type} {e : Edit α} {value : α} (h : code.apply e = .ok (value, code')) :
    code.StaysConnected code' := by
  have hrefl := refl code
  cases e with
  | create scope form children =>
    cases h
    refine List.foldlRecOn children _ (List.foldlRecOn form.operands _ (hrefl.push _) ?_) ?_
    · exact fun c hc operand _ => hc.modifyNode fun _ => id
    · exact fun c hc child _ => hc.append _ child
  | append parent child =>
    cases h
    exact hrefl.append parent child
  | addFunction program definition =>
    cases h
    refine (hrefl.append program definition).modifyNode fun node hnode => ?_
    rwa [apply_ite Node.definition, ite_self]
  | setPosition =>
    cases h
    exact hrefl.modifyNode fun _ => id
  | setField =>
    cases h
    split
    · exact hrefl.modifyNode fun _ => id
    · exact hrefl
  | openScope | remap =>
    cases h
    exact hrefl.withScopes _
  | declareVar | declareConst | declareFunc | update | intern =>
    obtain ⟨r, -, heq⟩ := exists_of_map_eq_ok h
    cases heq
    exact hrefl.withScopes _

/-- Neither does the checker. -/
theorem lasting {σ : Type} : Lasting fun s t : CheckState σ => s.code.StaysConnected t.code where
  refl s := .refl s.code
  trans := .trans
  noted {s _} h := by
    have hrefl := refl s.code
    cases h with
    | type | targetTypes | field => exact hrefl.modifyNode fun _ => id
    | definition => exact hrefl.modifyNode fun _ _ => rfl
    | completed | bound => exact hrefl.withScopes _

end CompilationUnit.StaysConnected

/-- A later state of a run has the calls connected that an earlier one has. -/
abbrev KeepsConnected {σ : Type} (s t : CheckState σ) : Prop :=
  s.code.StaysConnected t.code

namespace Checker

variable {σ : Type} (checker : Checker σ)

/-- Obtaining a body takes no connection back, if the answers to queries do not. -/
theorem keepsConnected_supply (d : Nat)
    (hanswer : ∀ config {β : Type} (q : Query β),
      Obeys KeepsConnected ((checker.supply.context checker.spec d config).answer q))
    (scope : ScopeId) (call : NodeId) (name : String) :
    Obeys KeepsConnected (checker.supply
      (fun config => (checker.supply.context checker.spec d config).answer) scope call name) := by
  have hP : Lasting (KeepsConnected (σ := σ)) := CompilationUnit.StaysConnected.lasting
  have hscopes : ∀ f, Obeys (KeepsConnected (σ := σ)) (changeScopes f) := by
    intro f s
    rw [exec_changeScopes]
    split
    · exact (hP.refl s).withScopes _
    · exact hP.refl s
  refine Context.obeys_materialize hP (fun _ _ _ => hscopes _) ?_
  cases checker.parser with
  | none => exact hP.refl
  | some parser =>
    refine Obeys.bind hP (fun s => ?_) fun result => ?_
    · exact Script.invariant (I := fun code => s.code.StaysConnected code)
        (fun _ hedited hs => hs.trans (.apply hedited))
        (fun config _ q t ht => ht.trans (hanswer config q t)) _
        (Script.restricted_of_forall (fun _ => trivial) _ s) (hP.refl s)
    · cases result <;> exact hP.refl

/-- **Calls stay connected** whatever judgements are passed, and whatever the parser does
meanwhile. -/
theorem keepsConnected (d : Nat) (config : Config) (start : CheckState σ) :
    (checker.supply.context checker.spec d config).Corresponds (Kept KeepsConnected start)
      (checker.supply.context checker.spec d config) :=
  Supply.kept CompilationUnit.StaysConnected.lasting _ _
    (fun d hanswer scope call name s _ => checker.keepsConnected_supply d hanswer scope call name s)
    d config start

end Checker

/-! ### Asking for several values -/

/-- A call passes for one of an operation: it is connected with no definition, and typing does
not connect it, because it has a type on record or calls a function that is pending. -/
def CompilationUnit.PassesForOperation (code : CompilationUnit) (call : NodeId) (name : String) :
    Prop :=
  (code.node call).definition = none ∧
    ((code.node call).type.isKnown ∨
      ∃ c, code.scopes.binding? (code.node call).scope name = some (.pending c))

section

variable {σ : Type} {s u : CheckState σ} {call : NodeId} {name : String} {type : Ty}
  {b : Binding}

/-- Several values are what a call gives that comes out unconnected from typing, and whose name is
that of an operation with so many results. -/
theorem Context.ok_multiValue_iff (ctx : Context σ) (hform : s.code.form call = .call name)
    (count : Nat) :
    (∃ types, (exec (ctx.multiValue call count) s).1 = .ok types) ↔
      (∃ type u, exec (ctx.judge (.typeOf [] call)) s = (.ok type, u) ∧
        (u.code.node call).definition = none) ∧
      ∃ types, ctx.spec.resultTypes name count = .ok types := by
  unfold multiValue
  rw [exec_bind, exec_callName hform]
  dsimp only
  rw [exec_bind]
  rcases exec (ctx.judge (.typeOf [] call)) s with ⟨halt | type, u⟩
  · simp
  dsimp only
  rw [exec_bind, exec_node]
  dsimp only
  rw [exec_bind, exec_rejectIf]
  cases hdefinition : (u.code.node call).definition with
  | some f => simp [hdefinition]
  | none =>
    cases htypes : ctx.spec.resultTypes name count <;> simp [hdefinition]

/-- A call that passes for one of an operation comes out of typing as it was. -/
theorem CompilationUnit.PassesForOperation.exec_typeRule
    (h : s.code.PassesForOperation call name) (hform : s.code.form call = .call name)
    (ctx : Context σ) (obtain : BodySource σ) (R : List NodeId) :
    ∃ type, exec (ctx.typeRule obtain R call) s = (.ok type, s) := by
  rw [Context.exec_typeRule_call hform, exec_located, exec_memo]
  by_cases hknown : (s.code.node call).type.isKnown
  · rw [if_pos hknown]
    exact ⟨_, rfl⟩
  · obtain ⟨c, hpending⟩ := h.2.resolve_left hknown
    rw [if_neg hknown, Context.exec_callType, hpending]
    exact ⟨.unknown, rfl⟩

/-- **Typing connects the call of a function**, unless a type is on record for the call or the
function is pending. -/
theorem Context.isSome_definition_of_typeRule {ctx : Context σ} {obtain : BodySource σ}
    (hctx : ∀ f, Obeys KeepsConnected (ctx.judge (.returnType [f] f)))
    (hobtain : Obeys KeepsConnected (obtain (s.code.node call).scope call name))
    (hform : s.code.form call = .call name) (hunknown : ¬(s.code.node call).type.isKnown)
    (hname : s.code.scopes.binding? (s.code.node call).scope name = some b)
    (hpending : ∀ c, b ≠ .pending c) (h : exec (ctx.typeRule obtain [] call) s = (.ok type, u)) :
    (u.code.node call).definition.isSome := by
  have hcall : call < s.code.size := CompilationUnit.lt_size_of_form (by rw [hform]; nofun)
  -- Once the definition is there, the call is connected with it before anything else is done.
  have hdefined : ∀ {v w : CheckState σ} {f : NodeId}, call < v.code.size →
      exec (ctx.definedType [] call (s.code.node call).scope name f) v = (.ok type, w) →
      (w.code.node call).definition.isSome := by
    intro v w f hlt hexec
    obtain ⟨t, ht, hlast⟩ := exec_definedType_eq_ok hexec
    have hset : ((v.code.setDefinition call f).node call).definition.isSome := by
      unfold CompilationUnit.setDefinition
      rw [CompilationUnit.node_modifyNode, if_pos ⟨rfl, hlt⟩]
      rfl
    have hkept := ((hctx f).after ht).connected call hset
    rcases exec_complete_eq_ok hlast with ⟨-, rfl⟩ | ⟨-, scopes, -, rfl⟩
    · exact hkept
    · exact hkept
  rw [exec_typeRule_call hform] at h
  obtain ⟨hknown, -⟩ | ⟨-, v, hv, rfl⟩ := exec_memo_eq_ok (exec_located_eq_ok h)
  · exact absurd hknown hunknown
  have hconnected : (v.code.node call).definition.isSome := by
    rw [exec_callType, hname] at hv
    cases b with
    | resolved f => exact hdefined hcall hv
    | pending c => exact absurd rfl (hpending c)
    | unresolved =>
      obtain ⟨f, w, hw, hrest⟩ := exec_bind_eq_ok hv
      exact hdefined (Nat.lt_of_lt_of_le hcall (hobtain.after hw).size) hrest
  dsimp only
  split
  · unfold CompilationUnit.setType
    rw [CompilationUnit.node_modifyNode]
    split <;> exact hconnected
  · exact hconnected

end

/-- A unit with a call that has been typed before a function was declared by its name. -/
def CompilationUnit.overtaken : CompilationUnit :=
  let called := initial.edited (.create 0 (.call "addw") [])
  let typed := ((⟨Standard.spec, .strict, none⟩ : Checker Unit).ask (.typeOf 0) ⟨called, ()⟩).2.code
  typed.edited (.declareFunc 0 "addw" .unknown)

/-- A unit with a call of a function that has no body yet, by the name of an operation. -/
def CompilationUnit.namesake : CompilationUnit :=
  (initial.edited (.create 0 (.call "divmodw") [])).edited (.declareFunc 0 "divmodw" .unknown)

/-- A parser that asks for the four values of the call on whose behalf it is started, notes them,
and gives up. -/
def BodyParser.inquisitive : BodyParser (Option (List Ty)) where
  parse _ call name := .query .strict (.quadrupleTypes call) fun answer =>
    .write answer.toOption (.done (.error (.unplaced (.functionNotResolved name "no body"))))
  depth := 0

namespace Checker

variable {σ : Type} (checker : Checker σ)

/-- Typing the call of a function leaves it unconnected exactly if it passes for the call of an
operation. -/
theorem unconnected_iff {s : CheckState σ} {call : NodeId} {name : String} {b : Binding}
    (hform : s.code.form call = .call name)
    (hname : s.code.scopes.binding? (s.code.node call).scope name = some b) (d : Nat) :
    (∃ type u, exec ((checker.context (d + 1)).judge (.typeOf [] call)) s = (.ok type, u) ∧
      (u.code.node call).definition = none) ↔ s.code.PassesForOperation call name := by
  have hP : Lasting (KeepsConnected (σ := σ)) := CompilationUnit.StaysConnected.lasting
  have hjudge : ∀ d {α : Type} (j : Judgement α),
      Obeys KeepsConnected ((checker.context d).judge j) := fun d α j =>
    hP.obeys fun start => (checker.keepsConnected d checker.config start).judge j
  refine ⟨fun ⟨type, u, htype, hnone⟩ => ⟨?_, ?_⟩, fun hpasses => ?_⟩
  · by_contra hsome
    have hconnected := ((hjudge (d + 1) _).after htype).connected call
      (Option.isSome_iff_ne_none.mpr hsome)
    rw [hnone] at hconnected
    cases hconnected
  · by_contra hnot
    obtain ⟨hunknown, hpending⟩ := not_or.mp hnot
    have hsource := fun scope call name => checker.keepsConnected_supply d
      (fun config _ q => hP.obeys fun start =>
        (checker.keepsConnected d config start).answer (hP.admissible start) q) scope call name
    have hconnected := Context.isSome_definition_of_typeRule (fun f => hjudge d _)
      (hsource _ call name) hform hunknown hname
      (fun c hc => hpending ⟨c, hc ▸ hname⟩) htype
    rw [hnone] at hconnected
    cases hconnected
  · obtain ⟨type, htype⟩ := hpasses.exec_typeRule hform (checker.context d) _ []
    exact ⟨type, s, htype, hpasses.1⟩

/-- **Which calls of functions give several values.** A call whose name means a function gives two
values, or four, if and only if it passes for the call of an operation and there is an operation by
that name with so many results, whatever parser the checker has. Calls of functions that are
connected give one value, and so do those that typing connects. -/
theorem severalTypes_iff {s : CheckState σ} {call : NodeId} {name : String} {b : Binding}
    (hform : s.code.form call = .call name)
    (hname : s.code.scopes.binding? (s.code.node call).scope name = some b) :
    ((∃ types, (checker.ask (.pairTypes call) s).1 = .ok types) ↔
      s.code.PassesForOperation call name ∧
        ∃ types, checker.spec.resultTypes name 2 = .ok types) ∧
    ((∃ types, (checker.ask (.quadrupleTypes call) s).1 = .ok types) ↔
      s.code.PassesForOperation call name ∧
        ∃ types, checker.spec.resultTypes name 4 = .ok types) := by
  obtain ⟨d, -, hask⟩ := checker.exists_ask_eq s
  have hmulti := fun count => (checker.context (d + 1)).ok_multiValue_iff hform count
  simp only [checker.unconnected_iff hform hname d] at hmulti
  rw [hask, hask]
  refine ⟨hmulti 2, Iff.trans ?_ (hmulti 4)⟩
  -- The order of the values does not matter.
  change (∃ types, (exec ((checker.context (d + 1)).quadrupleTypes call) s).1 = _) ↔ _
  unfold Context.quadrupleTypes
  rw [exec_bind]
  rcases exec ((checker.context (d + 1)).multiValue call 4) s with ⟨halt | types, u⟩
  · simp
  · simp

/-- The call that has been typed too early gives two values, but not four. -/
theorem severalTypes_iff_overtaken :
    let checker : Checker Unit := ⟨Standard.spec, .strict, none⟩
    let s : CheckState Unit := ⟨.overtaken, ()⟩
    (∃ types, (checker.ask (.pairTypes 0) s).1 = .ok types) ∧
      ¬∃ types, (checker.ask (.quadrupleTypes 0) s).1 = .ok types := by
  intro checker s
  have hform : s.code.form 0 = .call "addw" := rfl
  have hname : s.code.scopes.binding? (s.code.node 0).scope "addw" = some .unresolved := rfl
  obtain ⟨hpair, hquadruple⟩ := checker.severalTypes_iff hform hname
  refine ⟨hpair.mpr ⟨⟨rfl, .inl rfl⟩, _, rfl⟩, fun h => ?_⟩
  obtain ⟨-, types, htypes⟩ := hquadruple.mp h
  cases htypes

/-- **Calls of functions pass for calls of operations.** A call gives two values although its name
means a function, because it was typed before the function was declared. And while the body of a
function is being obtained, the call on whose behalf this is done gives the parser four values. -/
theorem severalTypes_astray :
    let checker : Checker Unit := ⟨Standard.spec, .strict, none⟩
    let inquiring : Checker (Option (List Ty)) := ⟨Standard.spec, .strict, some .inquisitive⟩
    (CompilationUnit.overtaken.Reachable (fun _ => True) ∧
      CompilationUnit.overtaken.form 0 = .call "addw" ∧
      (CompilationUnit.overtaken.node 0).field = none ∧
      CompilationUnit.overtaken.scopes.find? (CompilationUnit.overtaken.node 0).scope "addw" =
        some ⟨"addw", .unknown, .func .unresolved⟩ ∧
      (checker.ask (.pairTypes 0) ⟨.overtaken, ()⟩).1 = .ok [.uint64, .uint64]) ∧
    CompilationUnit.namesake.Reachable (fun _ => True) ∧
      CompilationUnit.namesake.form 0 = .call "divmodw" ∧
      (CompilationUnit.namesake.node 0).field = none ∧
      CompilationUnit.namesake.scopes.find? (CompilationUnit.namesake.node 0).scope "divmodw" =
        some ⟨"divmodw", .unknown, .func .unresolved⟩ ∧
      (inquiring.ask (.typeOf 0) ⟨.namesake, none⟩).2.notes =
        some [.uint64, .uint64, .uint64, .uint64] := by
  intro checker inquiring
  refine ⟨⟨?_, rfl, rfl, rfl, rfl⟩, ?_, rfl, rfl, rfl, by decide +kernel⟩
  · let called := CompilationUnit.initial.edited (.create 0 (.call "addw") [])
    have hcalled : called.Reachable fun _ => True :=
      (CompilationUnit.Reachable.initial "global").edit trivial
    have hrestricted : checker.Restricted fun _ _ _ => True := fun _ hparser => nomatch hparser
    have htyped : (checker.ask (.typeOf 0) ⟨called, ()⟩).2.code.Reachable fun _ => True :=
      hcalled.ask hrestricted (.typeOf 0)
    exact htyped.edit (e := .declareFunc 0 "addw" .unknown) trivial
  · exact ((CompilationUnit.Reachable.initial "global").edit trivial).edit trivial

end Checker

end ContractLang
