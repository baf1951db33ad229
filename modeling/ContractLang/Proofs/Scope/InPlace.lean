import ContractLang.Proofs.Literal.Interning
import ContractLang.Proofs.Scope.Layout
import ContractLang.Proofs.Scope.Visible

/-!
# Operations in place

An operation on scopes either gives a new tree or an error, so a tree that is half changed
cannot even be written down. A program that keeps one tree has to come by this: it changes the
tree step by step, and what it has written when it fails stays written. Here the operations that
can be rejected are carried out in this way
(`ContractLang.ScopeTree.Request.perform`): a constant is looked for, its value is looked for in
the pool, parsed, appended to one of two sequences and put on record, and then its descriptor is
entered.

They come to the same (`ContractLang.ScopeTree.Request.exec_perform`), since all that can fail is
done before anything is written. So a request that is rejected
(`ContractLang.ScopeTree.Request.Rejected` says when, and with which error) leaves the scopes and
the pool exactly as they were (`ContractLang.ScopeTree.Request.rejection`).
-/

namespace ContractLang

/-! ### Literals that are refused -/

/-- A text that has no place in a pool, and is no literal of a type, with the error that says
so. -/
def Pool.Refuses (pool : Pool) (text : String) (type : Ty) (e : Error) : Prop :=
  pool.find? text = none ∧
    match type with
    | .uint64 => False
    | .bytes => ∃ flaw, Literal.bytes text = .error flaw ∧
        e = .unplaced (.literalFormat text flaw.reason)
    | .unknown | .invalid => e = .unplaced (.unknownLiteralType type.name text)

theorem Literal.parse_eq_error_iff {text : String} {e : Error} : Literal.parse text = .error e ↔
    ∃ flaw, Literal.bytes text = .error flaw ∧
      e = .unplaced (.literalFormat text flaw.reason) := by
  unfold Literal.parse
  cases Literal.bytes text with
  | ok value => simp [Except.mapError]
  | error flaw => simp [Except.mapError, eq_comm]

/-- **A literal is refused** if it is new and not of its type. -/
theorem Pool.intern_eq_error_iff {pool : Pool} {text : String} {type : Ty} {e : Error} :
    pool.intern text type = .error e ↔ pool.Refuses text type e := by
  unfold intern add Refuses
  cases pool.find? text with
  | some entry => simp
  | none =>
    cases type with
    | uint64 => simp
    | bytes =>
      rw [← Literal.parse_eq_error_iff]
      cases Literal.parse text <;> simp
    | unknown | invalid => simp [eq_comm]

namespace ScopeTree

variable {t t' : ScopeTree} {id s : ScopeId} {name : String} {e : Error}

/-! ### Requests -/

/-- An operation on scopes that can be rejected, with the type of its answer. -/
inductive Request : Type → Type
  /-- Declare a variable. -/
  | declareVar (scope : ScopeId) (name : String) (type : Ty) : Request Nat
  /-- Declare a constant. -/
  | declareConst (scope : ScopeId) (name : String) (type : Ty) (value : String) : Request Nat
  /-- Declare a function. -/
  | declareFunc (scope : ScopeId) (name : String) (type : Ty) : Request Unit
  /-- Pool a literal. -/
  | intern (text : String) (type : Ty) : Request Nat
  /-- Replace the nearest descriptor of a name. -/
  | update (scope : ScopeId) (name : String) (descriptor : Descriptor) : Request Unit

namespace Request

/-- The request as an edit. -/
def edit : {α : Type} → Request α → Edit α
  | _, .declareVar scope name type => .declareVar scope name type
  | _, .declareConst scope name type value => .declareConst scope name type value
  | _, .declareFunc scope name type => .declareFunc scope name type
  | _, .intern text type => .intern text type
  | _, .update scope name descriptor => .update scope name descriptor

/-- The answer to a request, with the tree that it leads to. -/
def answer (t : ScopeTree) : {α : Type} → Request α → Except Error (α × ScopeTree)
  | _, .declareVar scope name type => t.declareVar scope name type
  | _, .declareConst scope name type value => t.declareConst scope name type value
  | _, .declareFunc scope name type => (t.declareFunc scope name type).map ((), ·)
  | _, .intern text type => t.intern text type
  | _, .update scope name descriptor => (t.update scope name descriptor).map ((), ·)

/-- **When a request is rejected**, and with which error: a declaration if the scope itself
declares the name already, a literal, of a constant as well, if the pool refuses it, and a
replacement if no scope of the chain declares the name, or if the descriptor that is seen is of
another kind. -/
def Rejected (t : ScopeTree) : {α : Type} → Request α → Error → Prop
  | _, .declareVar scope name _, e =>
    (t.scope scope).declares name ∧ e = .unplaced (.variableDeclared name)
  | _, .declareConst scope name type value, e =>
    (t.scope scope).declares name ∧ e = .unplaced (.constantDeclared name) ∨
      ¬(t.scope scope).declares name ∧ t.pool.Refuses value type e
  | _, .declareFunc scope name _, e =>
    (t.scope scope).declares name ∧ e = .unplaced (.functionDeclared name)
  | _, .intern text type, e => t.pool.Refuses text type e
  | _, .update scope name descriptor, e =>
    (∀ c ∈ t.chain scope, ¬(t.scope c).declares name) ∧ e = .unplaced (.updateFailed name) ∨
      ∃ u old, t.Exposed scope name u ∧ (t.scope u).get? name = some old ∧
        ¬old.role.sameKind descriptor.role ∧ e = .unplaced (.kindChanged name)

end Request

/-! ### When an operation fails -/

theorem intern_eq_error_iff {text : String} {type : Ty} :
    t.intern text type = .error e ↔ t.pool.Refuses text type e := by
  rw [← Pool.intern_eq_error_iff]
  unfold intern
  cases t.pool.intern text type <;> simp

theorem declareConst_eq_error_iff {type : Ty} {value : String} :
    t.declareConst id name type value = .error e ↔
      (t.scope id).declares name ∧ e = .unplaced (.constantDeclared name) ∨
        ¬(t.scope id).declares name ∧ t.pool.Refuses value type e := by
  rw [← intern_eq_error_iff]
  unfold declareConst
  by_cases hname : (t.scope id).declares name
  · simp [hname, eq_comm]
  · cases t.intern value type <;> simp [hname]

/-- **A replacement fails** where there is nothing to replace, and where it would change the kind
of what is seen. -/
theorem update_eq_error_iff {d : Descriptor} : t.update id name d = .error e ↔
    (∀ c ∈ t.chain id, ¬(t.scope c).declares name) ∧ e = .unplaced (.updateFailed name) ∨
      ∃ u old, t.Exposed id name u ∧ (t.scope u).get? name = some old ∧
        ¬old.role.sameKind d.role ∧ e = .unplaced (.kindChanged name) := by
  unfold update
  cases hs : t.declaring? id name with
  | none =>
    have hnone : ∀ c ∈ t.chain id, ¬(t.scope c).declares name :=
      find?_eq_none_iff.mp (by simp [find?, hs])
    constructor
    · intro h
      exact .inl ⟨hnone, (Except.error.inj h).symm⟩
    · rintro (⟨-, rfl⟩ | ⟨u, old, hu, hold, -⟩)
      · rfl
      · exact absurd (declares_of_get? hold) (hnone u hu.1)
  | some s =>
    obtain ⟨hmem, old, hold⟩ := declaring?_spec hs
    have hsees : ∀ u, t.Exposed id name u ∧ (t.scope u).declares name ↔ u = s := by
      intro u
      rw [← declaring?_eq_some_iff, hs, Option.some.injEq, eq_comm]
    simp only [hold]
    constructor
    · intro h
      split at h
      · cases h
      · next hkind =>
        exact .inr ⟨s, old, ((hsees s).mpr rfl).1, hold, hkind, (Except.error.inj h).symm⟩
    · rintro (⟨hnone, -⟩ | ⟨u, other, hu, hother, hkind, rfl⟩)
      · exact absurd (declares_of_get? hold) (hnone s hmem)
      · obtain rfl := (hsees u).mp ⟨hu, declares_of_get? hother⟩
        obtain rfl : old = other := Option.some.inj (hold.symm.trans hother)
        rw [if_neg hkind]

/-- **A request fails exactly when it is rejected.** -/
theorem Request.answer_eq_error_iff {α : Type} {q : Request α} :
    q.answer t = .error e ↔ q.Rejected t e := by
  cases q with
  | declareVar id name type =>
    by_cases hname : (t.scope id).declares name <;>
      simp [answer, Rejected, ScopeTree.declareVar, hname, eq_comm]
  | declareConst id name type value => exact declareConst_eq_error_iff
  | declareFunc id name type =>
    by_cases hname : (t.scope id).declares name <;>
      simp [answer, Rejected, ScopeTree.declareFunc, hname, Except.map, eq_comm]
  | intern text type => exact intern_eq_error_iff
  | update id name d =>
    refine Iff.trans ?_ update_eq_error_iff
    change (t.update id name d).map ((), ·) = .error e ↔ _
    cases t.update id name d <;> simp [Except.map]

/-! ### Changing a tree step by step -/

/-- A computation that changes one tree: it answers or fails, and what it has written by then
stays written. -/
abbrev InPlace (α : Type) : Type :=
  ExceptT Error (StateM ScopeTree) α

namespace InPlace

variable {α β : Type}

/-- What a computation makes of a tree: the answer, or the error, and the tree that is left. -/
def exec (action : InPlace α) (t : ScopeTree) : Except Error α × ScopeTree :=
  (action.run.run t).run

theorem exec_bind (action : InPlace α) (next : α → InPlace β) : (action >>= next).exec t =
    match action.exec t with
    | (.ok a, t) => (next a).exec t
    | (.error e, t) => (.error e, t) := by
  unfold exec
  rw [ExceptT.run_bind, StateT.run_bind]
  cases action.run.run t with
  | mk r t => cases r <;> rfl

@[simp] theorem exec_pure (a : α) : (pure a : InPlace α).exec t = (.ok a, t) := rfl

@[simp] theorem exec_throw : (throw e : InPlace α).exec t = (.error e, t) := rfl

@[simp] theorem exec_get : (get : InPlace ScopeTree).exec t = (.ok t, t) := rfl

/-- Looking at the tree changes nothing. -/
theorem exec_get_bind (next : ScopeTree → InPlace β) : (get >>= next).exec t = (next t).exec t :=
  rfl

@[simp] theorem exec_liftExcept (r : Except Error α) :
    (liftExcept r : InPlace α).exec t = (r, t) := by
  cases r <;> rfl

/-! ### The single writes -/

/-- Enters the descriptor of a new name in a scope. -/
def enter (id : ScopeId) (name : String) (d : Descriptor) : InPlace Unit :=
  modify fun t => t.modifyScope id fun s => s.insert name d

/-- Moves the next slot of a scope up by one. -/
def advance (id : ScopeId) : InPlace Unit :=
  modify fun t => t.modifyScope id fun s => { s with nextAddress := Scope.advance s.nextAddress 1 }

/-- Overwrites a descriptor of a scope. -/
def overwrite (id : ScopeId) (name : String) (d : Descriptor) : InPlace Unit :=
  modify fun t => t.modifyScope id fun s => s.replace name d

/-- Appends an integer literal to its sequence, and gives its offset. -/
def appendInt (text : String) : InPlace Nat := do
  let offset := (← get).pool.ints.length
  modify fun t => { t with pool := { t.pool with ints := t.pool.ints ++ [text] } }
  return offset

/-- Appends a byte literal to its sequence, and gives its offset. -/
def appendBytes (value : List UInt8) : InPlace Nat := do
  let offset := (← get).pool.byteStrings.length
  modify fun t =>
    { t with pool := { t.pool with byteStrings := t.pool.byteStrings ++ [⟨value⟩] } }
  return offset

/-- Enters the place of a text in the table of the pool. -/
def enterPlace (text : String) (place : PoolEntry) : InPlace Unit :=
  modify fun t => { t with pool := t.pool.record text place }

/-! ### The operations -/

/-- Fails if a scope itself declares a name. -/
def rejectDeclared (id : ScopeId) (name : String) (cause : Cause) : InPlace Unit := do
  if ((← get).scope id).declares name then throw (.unplaced cause)

/-- Appends a literal to the sequence for its type, and gives its offset. -/
def appendLiteral (text : String) : (type : Ty) → InPlace Nat
  | .uint64 => appendInt text
  | .bytes => do
    let value ← liftExcept (Literal.parse text)
    appendBytes value
  | type => throw (.unplaced (.unknownLiteralType type.name text))

/-- Pools a literal, and gives its offset. -/
def intern (text : String) (type : Ty) : InPlace Nat := do
  match (← get).pool.find? text with
  | some place => return place.offset
  | none =>
    let offset ← appendLiteral text type
    enterPlace text ⟨offset, type⟩
    return offset

/-- Declares a variable, and gives its slot. -/
def declareVar (id : ScopeId) (name : String) (type : Ty) : InPlace Nat := do
  rejectDeclared id name (.variableDeclared name)
  let address := ((← get).scope id).nextAddress
  enter id name ⟨name, type, .var address⟩
  advance id
  return address

/-- Declares a constant, and gives its offset. -/
def declareConst (id : ScopeId) (name : String) (type : Ty) (value : String) :
    InPlace Nat := do
  rejectDeclared id name (.constantDeclared name)
  let offset ← intern value type
  enter id name ⟨name, type, .const offset value⟩
  return offset

/-- Declares a function. -/
def declareFunc (id : ScopeId) (name : String) (type : Ty) : InPlace Unit := do
  rejectDeclared id name (.functionDeclared name)
  enter id name ⟨name, type, .func .unresolved⟩

/-- Replaces the nearest descriptor of a name. -/
def update (id : ScopeId) (name : String) (d : Descriptor) : InPlace Unit := do
  match (← get).declaring? id name with
  | none => throw (.unplaced (.updateFailed name))
  | some s =>
    match ((← get).scope s).get? name with
    | none => throw (.unplaced (.updateFailed name))
    | some old =>
      if old.role.sameKind d.role then overwrite s name d
      else throw (.unplaced (.kindChanged name))

end InPlace

/-! ### Step by step and at once -/

/-- What an operation that gives a new tree, or fails, leaves of the one that it is given. -/
def settle {α : Type} (t : ScopeTree) : Except Error (α × ScopeTree) → Except Error α × ScopeTree
  | .ok (a, t') => (.ok a, t')
  | .error e => (.error e, t)

/-- Carries a request out step by step. -/
def Request.perform : {α : Type} → Request α → InPlace α
  | _, .declareVar scope name type => InPlace.declareVar scope name type
  | _, .declareConst scope name type value => InPlace.declareConst scope name type value
  | _, .declareFunc scope name type => InPlace.declareFunc scope name type
  | _, .intern text type => InPlace.intern text type
  | _, .update scope name descriptor => InPlace.update scope name descriptor

/-- A variable is declared by entering its descriptor and moving the next slot up. -/
theorem modifyScope_declareVar {type : Ty} :
    (t.modifyScope id fun s =>
        s.insert name ⟨name, type, .var (t.scope id).nextAddress⟩).modifyScope id
        (fun s => { s with nextAddress := Scope.advance s.nextAddress 1 }) =
      t.modifyScope id fun s => s.declareVar name type := by
  refine congrArg (ScopeTree.mk · t.pool) (Array.ext (by simp [modifyScope]) fun i hi hi' => ?_)
  by_cases hid : id = i
  · subst hid
    have hlt : id < t.scopes.size := by simpa [modifyScope] using hi'
    simp [modifyScope, Array.getElem_modify, Scope.declareVar, Scope.insert, scope, Array.getD,
      hlt]
  · simp [modifyScope, Array.getElem_modify, hid]

namespace InPlace

/-- What follows the check that a name is new happens if it is. -/
theorem exec_rejectDeclared_bind {cause : Cause} {β : Type} (next : Unit → InPlace β) :
    (rejectDeclared id name cause >>= next).exec t =
      if (t.scope id).declares name then (.error (.unplaced cause), t) else (next ()).exec t := by
  unfold rejectDeclared
  rw [exec_bind, exec_get_bind]
  by_cases hname : (t.scope id).declares name
  · rw [if_pos hname, if_pos hname, exec_throw]
  · rw [if_neg hname, if_neg hname, exec_pure]

theorem exec_intern {text : String} {type : Ty} :
    (intern text type).exec t = t.settle (t.intern text type) := by
  unfold intern ScopeTree.intern Pool.intern Pool.add
  rw [exec_get_bind]
  cases t.pool.find? text with
  | some place => rfl
  | none =>
    cases type with
    | bytes =>
      dsimp only [appendLiteral]
      rw [exec_bind, exec_bind, exec_liftExcept]
      cases Literal.parse text <;> rfl
    | uint64 | unknown | invalid => rfl

theorem exec_declareVar {type : Ty} :
    (declareVar id name type).exec t = t.settle (t.declareVar id name type) := by
  unfold declareVar ScopeTree.declareVar
  rw [exec_rejectDeclared_bind]
  by_cases hname : (t.scope id).declares name
  · rw [if_pos hname, if_pos hname]
    rfl
  · rw [if_neg hname, if_neg hname, settle, ← modifyScope_declareVar]
    rfl

theorem exec_declareConst {type : Ty} {value : String} :
    (declareConst id name type value).exec t = t.settle (t.declareConst id name type value) := by
  unfold declareConst ScopeTree.declareConst
  rw [exec_rejectDeclared_bind]
  by_cases hname : (t.scope id).declares name
  · rw [if_pos hname, if_pos hname]
    rfl
  · rw [if_neg hname, if_neg hname, exec_bind, exec_intern]
    cases t.intern value type <;> rfl

theorem exec_declareFunc {type : Ty} : (declareFunc id name type).exec t =
    t.settle ((t.declareFunc id name type).map ((), ·)) := by
  unfold declareFunc ScopeTree.declareFunc
  rw [exec_rejectDeclared_bind]
  by_cases hname : (t.scope id).declares name
  · rw [if_pos hname, if_pos hname]
    rfl
  · rw [if_neg hname, if_neg hname]
    rfl

theorem exec_update {d : Descriptor} :
    (update id name d).exec t = t.settle ((t.update id name d).map ((), ·)) := by
  unfold update ScopeTree.update
  rw [exec_get_bind]
  cases t.declaring? id name with
  | none => rfl
  | some s =>
    dsimp only
    rw [exec_get_bind]
    cases (t.scope s).get? name with
    | none => rfl
    | some old =>
      dsimp only
      by_cases hkind : old.role.sameKind d.role
      · rw [if_pos hkind, if_pos hkind]
        rfl
      · rw [if_neg hkind, if_neg hkind]
        rfl

end InPlace

/-- **Changing a tree step by step comes to the same** as giving a new one, or an error. -/
theorem Request.exec_perform {α : Type} (q : Request α) :
    q.perform.exec t = t.settle (q.answer t) := by
  cases q with
  | declareVar id name type => exact InPlace.exec_declareVar
  | declareConst id name type value => exact InPlace.exec_declareConst
  | declareFunc id name type => exact InPlace.exec_declareFunc
  | intern text type => exact InPlace.exec_intern
  | update id name d => exact InPlace.exec_update

/-- The edit does what the request asks for. -/
theorem Request.apply_edit {α : Type} (q : Request α) (code : CompilationUnit) :
    code.apply q.edit = (q.answer code.scopes).map fun r => (r.1, code.withScopes r.2) := by
  cases q with
  | declareVar | declareConst | intern => rfl
  | declareFunc id name type =>
    change (code.scopes.declareFunc id name type).map _ =
      ((code.scopes.declareFunc id name type).map _).map _
    cases code.scopes.declareFunc id name type <;> rfl
  | update id name d =>
    change (code.scopes.update id name d).map _ = ((code.scopes.update id name d).map _).map _
    cases code.scopes.update id name d <;> rfl

/-- **A rejected request changes nothing**: carried out step by step, an operation on scopes fails
exactly when it is rejected, with the error that belongs to it, and then leaves all scopes and
the pool as they were; and the edit that it stands for gives the same answer, and the same tree
where there is one. -/
theorem Request.rejection {α : Type} (q : Request α) (code : CompilationUnit) :
    (∀ e, (q.perform.exec code.scopes).1 = .error e ↔ q.Rejected code.scopes e) ∧
    (∀ e t, q.perform.exec code.scopes = (.error e, t) →
      t.scopes = code.scopes.scopes ∧ t.pool = code.scopes.pool) ∧
    ∀ t r, q.perform.exec code.scopes = (r, t) →
      code.apply q.edit = r.map fun a => (a, code.withScopes t) := by
  rw [exec_perform]
  refine ⟨fun e => ?_, fun e t h => ?_, fun t r h => ?_⟩
  · rw [← answer_eq_error_iff]
    cases q.answer code.scopes <;> simp [settle]
  · cases hanswer : q.answer code.scopes with
    | ok a =>
      rw [hanswer] at h
      cases h
    | error e =>
      rw [hanswer] at h
      cases h
      exact ⟨rfl, rfl⟩
  · rw [apply_edit]
    cases hanswer : q.answer code.scopes with
    | ok a =>
      rw [hanswer] at h
      cases h
      rfl
    | error e =>
      rw [hanswer] at h
      cases h
      rfl

end ScopeTree

end ContractLang
