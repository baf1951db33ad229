import ContractLang.Check.Basic

/-!
# The effect of a computation

A computation of the checker takes a state to an answer, or the reason why there
is none, and a new state (`ContractLang.Check.exec`). This file says what each of
the operations that computations are built from does to a state; beyond it,
nothing needs to know how computations are represented.

The equation to note is the one for a sequence
(`ContractLang.Check.exec_bind`): where the first part fails, the state it leaves
is the one that remains.
-/

namespace ContractLang

namespace Check

variable {σ α β : Type}

/-- What a computation makes of a state: the answer, or why there is none, and the new
state. -/
def exec (action : Check σ α) (state : CheckState σ) : Except Halt α × CheckState σ :=
  (action.run.run state).run

variable {s : CheckState σ}

/-! ### Sequences and failures -/

@[simp] theorem exec_pure (a : α) : exec (pure a) s = (.ok a, s) := rfl

@[simp] theorem exec_throw (halt : Halt) :
    exec (throw halt : Check σ α) s = (.error halt, s) := rfl

/-- A sequence goes on from the answer and the state of its first part, or ends with
that part. -/
theorem exec_bind (action : Check σ α) (next : α → Check σ β) :
    exec (action >>= next) s =
      match exec action s with
      | (.ok a, t) => exec (next a) t
      | (.error halt, t) => (.error halt, t) := by
  unfold exec
  rw [ExceptT.run_bind, StateT.run_bind]
  cases action.run.run s with
  | mk r t => cases r <;> rfl

/-- A sequence that gives an answer has gone through all of its parts. -/
theorem exec_bind_eq_ok {action : Check σ α} {next : α → Check σ β} {b : β} {t : CheckState σ}
    (h : exec (action >>= next) s = (.ok b, t)) :
    ∃ a u, exec action s = (.ok a, u) ∧ exec (next a) u = (.ok b, t) := by
  rw [exec_bind] at h
  match hfirst : exec action s with
  | (.ok a, u) =>
    rw [hfirst] at h
    exact ⟨a, u, rfl, h⟩
  | (.error halt, u) =>
    rw [hfirst] at h
    cases h

/-- Discarding an answer is going on with nothing. -/
theorem discard_eq_bind (action : Check σ α) :
    discard action = action >>= fun _ => pure () := by
  unfold discard
  rw [map_const, Function.comp_apply, map_eq_pure_bind]

/-- A handler takes over in the state that the failure left. -/
theorem exec_tryCatch (action : Check σ α) (handler : Halt → Check σ α) :
    exec (tryCatch action handler) s =
      match exec action s with
      | (.ok a, t) => (.ok a, t)
      | (.error halt, t) => exec (handler halt) t := by
  unfold exec
  simp only [tryCatch, tryCatchThe, MonadExceptOf.tryCatch, ExceptT.tryCatch, ExceptT.run_mk]
  rw [StateT.run_bind]
  change Id.run (action.run.run s >>= _) = _
  cases action.run.run s with
  | mk r t => cases r <;> rfl

@[simp] theorem exec_fail (error : Error) :
    exec (fail error : Check σ α) s = (.error (.fault error), s) := rfl

@[simp] theorem exec_raise (cause : Cause) :
    exec (raise cause : Check σ α) s = (.error (.fault (.unplaced cause)), s) := rfl

@[simp] theorem exec_raiseAt (position : Option Position) (cause : Cause) :
    exec (raiseAt position cause : Check σ α) s = (.error (.fault ⟨cause, position⟩), s) := rfl

@[simp] theorem exec_liftExcept_ok (a : α) :
    exec (liftExcept (.ok a) : Check σ α) s = (.ok a, s) := rfl

@[simp] theorem exec_liftExcept_error (error : Error) :
    exec (liftExcept (.error error) : Check σ α) s = (.error (.fault error), s) := rfl

@[simp] theorem exec_rejectIf (bad : Prop) [Decidable bad] (failure : Check σ Unit) :
    exec (rejectIf bad failure) s = if bad then exec failure s else (.ok (), s) := by
  unfold rejectIf
  split <;> rfl

/-- Only the errors of a program are treated. -/
theorem exec_onFault (action : Check σ α) (handler : Error → Check σ α) :
    exec (action.onFault handler) s =
      match exec action s with
      | (.error (.fault error), t) => exec (handler error) t
      | r => r := by
  unfold onFault
  rw [exec_tryCatch]
  split
  · next h => rw [h]
  · next halt t h => cases halt <;> simp [h]

/-- An error is given a place, and nothing else changes. -/
theorem exec_located (position : Option Position) (action : Check σ α) :
    exec (located position action) s =
      match exec action s with
      | (.error (.fault error), t) => (.error (.fault (error.orPosition position)), t)
      | r => r := by
  unfold located
  rw [exec_onFault]
  rfl

/-- Giving errors a place changes no state. -/
theorem exec_located_snd (position : Option Position) (action : Check σ α) :
    (exec (located position action) s).2 = (exec action s).2 := by
  rw [exec_located]
  split
  · next h => rw [h]
  · rfl

/-- The outcome of a computation is always an answer. -/
@[simp] theorem exec_outcome (action : Check σ α) :
    exec action.outcome s = (.ok (exec action s).1, (exec action s).2) := by
  unfold outcome
  rw [exec_tryCatch, map_eq_pure_bind, exec_bind]
  cases exec action s with
  | mk r t => cases r <;> rfl

/-! ### Reading and refining the unit -/

@[simp] theorem exec_get : exec (get : Check σ (CheckState σ)) s = (.ok s, s) := rfl

@[simp] theorem exec_modify (f : CheckState σ → CheckState σ) :
    exec (modify f : Check σ PUnit) s = (.ok (), f s) := rfl

@[simp] theorem exec_code : exec (code : Check σ CompilationUnit) s = (.ok s.code, s) := rfl

@[simp] theorem exec_node (id : NodeId) :
    exec (node id : Check σ Node) s = (.ok (s.code.node id), s) := rfl

@[simp] theorem exec_textOf (id : NodeId) :
    exec (textOf id : Check σ String) s = (.ok (s.code.render id), s) := rfl

@[simp] theorem exec_typeMismatch (id : NodeId) (expected received : Ty) :
    exec (typeMismatch id expected received : Check σ α) s =
      (.error (.fault (.unplaced
        (.typeMismatch expected.name received.name (s.code.render id)))), s) := rfl

@[simp] theorem exec_modifyCode (f : CompilationUnit → CompilationUnit) :
    exec (modifyCode f : Check σ Unit) s = (.ok (), { s with code := f s.code }) := rfl

/-- A change of the scopes that fails leaves them as they were. -/
theorem exec_changeScopes (f : ScopeTree → Except Error ScopeTree) :
    exec (changeScopes f : Check σ Unit) s =
      match f s.code.scopes with
      | .ok scopes => (.ok (), { s with code := s.code.withScopes scopes })
      | .error error => (.error (.fault error), s) := by
  unfold changeScopes
  rw [exec_bind, exec_code]
  change exec (liftExcept (f s.code.scopes) >>= _) s = _
  cases f s.code.scopes <;> rfl

theorem exec_record (id : NodeId) (type : Ty) :
    exec (record id type : Check σ Unit) s =
      (.ok (), if type.isKnown then { s with code := s.code.setType id type } else s) := by
  unfold record
  split <;> rfl

/-- A type on record is the answer; otherwise the answer goes on record. -/
theorem exec_memo (id : NodeId) (infer : Check σ Ty) :
    exec (memo id infer) s =
      if (s.code.node id).type.isKnown then (.ok (s.code.node id).type, s)
      else
        match exec infer s with
        | (.ok type, t) =>
          (.ok type, if type.isKnown then { t with code := t.code.setType id type } else t)
        | (.error halt, t) => (.error halt, t) := by
  unfold memo
  rw [exec_bind, exec_node]
  change exec (if (s.code.node id).type.isKnown then _ else _) s = _
  split
  · rfl
  · rw [exec_bind]
    cases exec infer s with
    | mk r t =>
      cases r with
      | error halt => rfl
      | ok type =>
        change exec (record id type >>= fun _ => pure type) t = _
        rw [exec_bind, exec_record]
        rfl

end Check

end ContractLang
