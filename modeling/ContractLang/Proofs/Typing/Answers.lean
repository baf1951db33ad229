import ContractLang.Check.Checker
import ContractLang.Proofs.Scope.Lookup

/-!
# Answers, and how they come about

The rules of the checker are sequences, and a sequence comes to an answer only if all of its
parts do. For the operations that these rules are built from, for the rule for calls and for what
gives types to names, this file says what an answer has gone through.
-/

namespace ContractLang

open Check

variable {σ α : Type} {s s' : CheckState σ} {ctx : Context σ} {obtain : BodySource σ}
  {R : List NodeId} {x : NodeId} {name : String} {type : Ty}

/-! ### Operations -/

/-- An answer is no treatment of an error. -/
theorem Check.exec_located_eq_ok {position : Option Position} {action : Check σ α} {a : α}
    (h : exec (located position action) s = (.ok a, s')) : exec action s = (.ok a, s') := by
  rw [exec_located] at h
  split at h
  · cases h
  · exact h

/-- What follows on a check comes to an answer only if the check is passed. -/
theorem Check.exec_rejectIf_bind_eq_ok {bad : Prop} [Decidable bad] {failure : Check σ Unit}
    {next : Unit → Check σ α} {a : α} (hfailure : ∀ t, exec failure s ≠ (.ok (), t))
    (h : exec (rejectIf bad failure >>= next) s = (.ok a, s')) :
    ¬bad ∧ exec (next ()) s = (.ok a, s') := by
  obtain ⟨⟨⟩, t, hcheck, hnext⟩ := exec_bind_eq_ok h
  rw [exec_rejectIf] at hcheck
  split at hcheck
  · exact absurd hcheck (hfailure t)
  · next hgood =>
    cases hcheck
    exact ⟨hgood, hnext⟩

/-- A type that a computation remembers is on record, or inferred and put there. -/
theorem exec_memo_eq_ok {infer : Check σ Ty} (h : exec (memo x infer) s = (.ok type, s')) :
    (s.code.node x).type.isKnown ∧ (s.code.node x).type = type ∧ s' = s ∨
    ¬(s.code.node x).type.isKnown ∧ ∃ u, exec infer s = (.ok type, u) ∧
      s' = { u with code := if type.isKnown then u.code.setType x type else u.code } := by
  rw [exec_memo] at h
  split at h
  · next hknown =>
    cases h
    exact .inl ⟨hknown, rfl, rfl⟩
  · next hunknown =>
    rcases hout : exec infer s with ⟨r, u⟩
    rw [hout] at h
    cases r with
    | error halt => cases h
    | ok found =>
      cases h
      exact .inr ⟨hunknown, u, rfl, by split <;> rfl⟩

/-- Completing a descriptor is nothing but giving its name a type, if the type is known. -/
theorem exec_complete_eq_ok {id : ScopeId} (h : exec (complete id name type) s = (.ok (), s')) :
    ¬type.isKnown ∧ s' = s ∨ type.isKnown ∧ ∃ scopes,
      s.code.scopes.refine id name type = .ok scopes ∧
      s' = { s with code := s.code.withScopes scopes } := by
  unfold complete at h
  split at h
  · next hknown =>
    rw [exec_changeScopes] at h
    split at h
    · next scopes hscopes =>
      cases h
      exact .inr ⟨hknown, scopes, hscopes, rfl⟩
    · cases h
  · next hunknown =>
    cases h
    exact .inl ⟨hunknown, rfl⟩

namespace Context

/-! ### Names that are given types -/

/-- A variable is bound to a value whose type does not clash with its own. -/
theorem exec_bindTarget_eq_ok {scope : ScopeId}
    (h : exec (bindTarget x scope name type) s = (.ok (), s')) :
    ∃ d, s.code.scopes.find? scope name = some d ∧ ¬d.type.clashes type ∧
      exec (complete scope name type) s = (.ok (), s') := by
  unfold bindTarget at h
  rw [exec_bind, exec_code] at h
  dsimp only at h
  cases hlookup : s.code.scopes.lookup scope name with
  | error e =>
    rw [hlookup] at h
    cases h
  | ok d =>
    rw [hlookup] at h
    exact ⟨d, ScopeTree.lookup_eq_ok_iff.mp hlookup, exec_rejectIf_bind_eq_ok (by simp) h⟩

/-- A definition becomes that of its name if the name is unresolved. -/
theorem exec_bindDefinition_eq_ok {scope : ScopeId}
    (h : exec (bindDefinition scope name x) s = (.ok (), s')) :
    (s.code.scopes.binding? scope name = some .unresolved ∧ ∃ scopes,
      s.code.scopes.setBinding scope name (.resolved x) = .ok scopes ∧
      s' = { s with code := s.code.withScopes scopes }) ∨
    s.code.scopes.binding? scope name ≠ some .unresolved ∧ s' = s := by
  unfold bindDefinition at h
  rw [exec_bind, exec_code] at h
  dsimp only at h
  split at h
  · next hname =>
    rw [exec_changeScopes] at h
    split at h
    · next scopes hscopes =>
      cases h
      exact .inl ⟨hname, scopes, hscopes, rfl⟩
    · cases h
  · next hname =>
    cases h
    exact .inr ⟨hname, rfl⟩

/-- A definition is reconciled with a name that means nothing, or something that has no type that
clashes with what the definition returns. -/
theorem exec_reconcile_eq_ok (h : exec (reconcile x name type) s = (.ok (), s')) :
    s.code.scopes.find? (s.code.node x).scope name = none ∧ s' = s ∨
      ∃ d, s.code.scopes.find? (s.code.node x).scope name = some d ∧ ¬d.type.clashes type ∧
        exec (complete (s.code.node x).scope name type) s = (.ok (), s') := by
  unfold reconcile at h
  rw [exec_bind, exec_code] at h
  dsimp only at h
  cases hd : s.code.scopes.find? (s.code.node x).scope name with
  | none =>
    rw [hd] at h
    cases h
    exact .inl ⟨rfl, rfl⟩
  | some d =>
    rw [hd] at h
    exact .inr ⟨d, rfl, exec_rejectIf_bind_eq_ok (by simp) h⟩

/-! ### Calls -/

/-- The type of a call, by the binding of its name. -/
def boundType (ctx : Context σ) (obtain : BodySource σ) (R : List NodeId) (x : NodeId)
    (scope : ScopeId) (name : String) (call : Node) : Option Binding → Check σ Ty
  | some (.resolved f) => ctx.definedType R x scope name f
  | some (.pending _) => pure .unknown
  | some .unresolved => obtain scope x name >>= fun f => ctx.definedType R x scope name f
  | none => if ctx.spec.isBuiltin name then ctx.operationType R call name
    else raise (.functionLookupFailed name)

/-- The rule for calls looks the name up first, in the unit as it is. -/
theorem exec_callType (obtain : BodySource σ) (name : String) :
    exec (ctx.callType obtain R x name) s = exec (ctx.boundType obtain R x (s.code.node x).scope
      name (s.code.node x) (s.code.scopes.binding? (s.code.node x).scope name)) s := rfl

/-- What is called is asked of a call. -/
theorem exec_callName (hform : s.code.form x = .call name) :
    exec (callName x) s = (.ok name, s) := by
  unfold callName
  rw [exec_bind, exec_code]
  dsimp only
  rw [hform]
  rfl

/-- The rule for a call remembers the type that it finds. -/
theorem exec_typeRule_call (hform : s.code.form x = .call name) :
    exec (ctx.typeRule obtain R x) s =
      exec (located (s.code.node x).position (memo x (ctx.callType obtain R x name))) s := by
  unfold typeRule
  rw [exec_bind, exec_node]
  dsimp only
  rw [show (s.code.node x).form = .call name from hform]
  rfl

/-- The type of a call of a function is what the function returns, and completes its
descriptor. -/
theorem exec_definedType_eq_ok {scope : ScopeId} {f : NodeId}
    (h : exec (ctx.definedType R x scope name f) s = (.ok type, s')) :
    ∃ u, exec (ctx.functionType R f) { s with code := s.code.setDefinition x f } = (.ok type, u) ∧
      exec (complete scope name type) u = (.ok (), s') := by
  unfold definedType at h
  rw [exec_bind, exec_modifyCode] at h
  obtain ⟨found, u, hu, hrest⟩ := exec_bind_eq_ok h
  obtain ⟨_, w, hw, hend⟩ := exec_bind_eq_ok hrest
  cases hend
  exact ⟨u, hu, hw⟩

end Context

/-! ### Queries -/

theorem Checker.ask_eq_exec (checker : Checker σ) (q : Query α) (s : CheckState σ) :
    checker.ask q s = exec ((checker.context (checker.depth s.code)).answer q) s := by
  unfold ask answer
  rw [exec_bind, exec_code]

/-- What is asked is answered with room for one judgement at least. -/
theorem Checker.exists_ask_eq (checker : Checker σ) (s : CheckState σ) :
    ∃ d, checker.depth s.code = d + 1 ∧ ∀ {β : Type} (q : Query β),
      checker.ask q s = exec ((checker.context (d + 1)).answer q) s := by
  have hpos : 0 < checker.depth s.code := by
    unfold depth ownDepth
    have hsquare : 0 < (s.code.size + 2) * (s.code.size + 2) :=
      Nat.mul_pos (Nat.succ_pos _) (Nat.succ_pos _)
    omega
  obtain ⟨d, hd⟩ := Nat.exists_eq_add_one.mpr hpos
  refine ⟨d, hd, fun q => ?_⟩
  rw [ask_eq_exec, hd]

/-- There is room for as many judgements below that one as the unit has nodes. -/
theorem Checker.exists_size_le_ask_eq (checker : Checker σ) (s : CheckState σ) :
    ∃ d, s.code.size ≤ d ∧ ∀ {β : Type} (q : Query β),
      checker.ask q s = exec ((checker.context (d + 1)).answer q) s := by
  obtain ⟨d, hd, hask⟩ := checker.exists_ask_eq s
  refine ⟨d, ?_, hask⟩
  have hsquare : s.code.size + 2 ≤ (s.code.size + 2) * (s.code.size + 2) :=
    Nat.le_mul_of_pos_right _ (Nat.succ_pos _)
  unfold depth ownDepth at hd
  omega

end ContractLang
