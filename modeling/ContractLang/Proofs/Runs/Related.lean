import ContractLang.Proofs.Runs.Compatible

/-!
# Comparing two runs of the checker

Two runs that start from related states, and obtain definitions in related ways, stay
related and give the same answers (`ContractLang.Supply.corresponds`). The notes of
the two runs may be of different types, so that one of them can keep a record of what
it does. A relation between a run and itself is an invariant.

What the checker does to a unit of its own accord comes down to a few kinds of
entries (`ContractLang.CompilationUnit.Noted`): a relation that these preserve, and
that holds between states with the same unit only, is one that the rules carry over
(`ContractLang.Admissible`).
-/

namespace ContractLang

section

variable {σ τ α β : Type}

/-- A relation between states with the same unit that the entries of the checker
preserve. -/
structure Admissible (S : CheckState σ → CheckState τ → Prop) : Prop where
  code : ∀ {s t}, S s t → s.code = t.code
  noted : ∀ {s t c}, S s t → s.code.Noted c → S { s with code := c } { t with code := c }

/-- A relation between states with the same unit that does not depend on what the unit is. -/
structure Indifferent (S : CheckState σ → CheckState τ → Prop) : Prop where
  code : ∀ {s t}, S s t → s.code = t.code
  recode : ∀ {s t} (c : CompilationUnit), S s t → S { s with code := c } { t with code := c }

theorem Indifferent.admissible {S : CheckState σ → CheckState τ → Prop} (h : Indifferent S) :
    Admissible S :=
  ⟨h.code, fun hst _ => h.recode _ hst⟩

/-- Two outcomes are the same answer, or the same reason why there is none, with related
states. -/
structure Related (S : CheckState σ → CheckState τ → Prop)
    (out : Except Halt α × CheckState σ) (out' : Except Halt α × CheckState τ) : Prop where
  answer : out.1 = out'.1
  state : S out.2 out'.2

/-- From related states, two computations have related outcomes. -/
def Relates (S : CheckState σ → CheckState τ → Prop) (a : Check σ α) (b : Check τ α) : Prop :=
  ∀ s t, S s t → Related S (a.exec s) (b.exec t)

namespace Relates

open Check

variable {S : CheckState σ → CheckState τ → Prop} {a : Check σ α} {b : Check τ α}

/-! ### Operations -/

theorem pure (x : α) : Relates S (pure x) (pure x) := fun _ _ h => ⟨rfl, h⟩

theorem throw (halt : Halt) : Relates S (throw halt : Check σ α) (throw halt : Check τ α) :=
  fun _ _ h => ⟨rfl, h⟩

theorem fail (e : Error) : Relates S (fail e : Check σ α) (fail e : Check τ α) :=
  throw (.fault e)

theorem liftExcept (answer : Except Error α) :
    Relates S (liftExcept answer : Check σ α) (liftExcept answer : Check τ α) := by
  cases answer with
  | ok x => exact pure x
  | error e => exact fail e

/-- Sequences are related part by part. -/
theorem bind {f : α → Check σ β} {g : α → Check τ β} (h : Relates S a b)
    (hf : ∀ x, Relates S (f x) (g x)) : Relates S (a >>= f) (b >>= g) := by
  intro s t hst
  rw [exec_bind, exec_bind]
  match exec a s, exec b t, h s t hst with
  | (.ok x, s'), (_, t'), ⟨rfl, hstate⟩ => exact hf x s' t' hstate
  | (.error halt, s'), (_, t'), ⟨rfl, hstate⟩ => exact ⟨rfl, hstate⟩

theorem onFault {f : Error → Check σ α} {g : Error → Check τ α} (h : Relates S a b)
    (hf : ∀ e, Relates S (f e) (g e)) : Relates S (a.onFault f) (b.onFault g) := by
  intro s t hst
  rw [exec_onFault, exec_onFault]
  match exec a s, exec b t, h s t hst with
  | (.ok x, s'), (_, t'), ⟨rfl, hstate⟩ => exact ⟨rfl, hstate⟩
  | (.error .outOfDepth, s'), (_, t'), ⟨rfl, hstate⟩ => exact ⟨rfl, hstate⟩
  | (.error (.fault e), s'), (_, t'), ⟨rfl, hstate⟩ => exact hf e s' t' hstate

/-- The outcomes of related computations are the same. -/
theorem outcome (h : Relates S a b) : Relates S (outcome a) (outcome b) := by
  intro s t hst
  rw [exec_outcome, exec_outcome]
  exact ⟨congrArg Except.ok (h s t hst).answer, (h s t hst).state⟩

/-! ### Obtaining definitions -/

theorem changeScopes (hS : Indifferent S) (f : ScopeTree → Except Error ScopeTree) :
    Relates S (changeScopes f : Check σ Unit) (Check.changeScopes f : Check τ Unit) := by
  intro s t hst
  rw [exec_changeScopes, exec_changeScopes, ← hS.code hst]
  cases f s.code.scopes with
  | ok scopes => exact ⟨rfl, hS.recode _ hst⟩
  | error e => exact ⟨rfl, hst⟩

/-- Obtaining a definition is related if what is done meanwhile is. -/
theorem materialize (hS : Indifferent S) {source : Option (BodySource σ)}
    {source' : Option (BodySource τ)} {scope : ScopeId} {call : NodeId} {name : String}
    (h : Option.Rel (fun obtain obtain' =>
      Relates S (obtain scope call name) (obtain' scope call name)) source source') :
    Relates S (Context.materialize source scope call name)
      (Context.materialize source' scope call name) := by
  refine (changeScopes hS _).bind fun _ => (Relates.outcome ?_).bind fun obtained => ?_
  · cases h with
    | some hsource => exact hsource
    | none => exact .fail _
  · cases obtained with
    | ok definition => exact (changeScopes hS _).bind fun _ => .pure definition
    | error halt => exact (changeScopes hS _).bind fun _ => .throw _

/-! ### Reading and writing -/

/-- **A relation between states that entries preserve** is one that the rules carry over. -/
theorem compatible (hS : Admissible S) : Compatible (Relates S) where
  pure x := .pure x
  fail e := .fail e
  bind h hf := h.bind hf
  onFault h hf := h.onFault hf
  code := fun s t hst => ⟨congrArg Except.ok (hS.code hst), hst⟩
  entry := by
    intro f a b hf ha hb s t hst
    rw [ha s, hb t, ← hS.code hst]
    cases hmade : f s.code with
    | ok c =>
      rcases hf s.code c hmade with rfl | hnoted
      · refine ⟨rfl, ?_⟩
        change S s { t with code := s.code }
        rw [hS.code hst]
        exact hst
      · exact ⟨rfl, hS.noted hst hnoted⟩
    | error e => exact ⟨rfl, hst⟩

end Relates

/-! ### Rules -/

/-- Two contexts in which the rules may turn to related judgements. -/
abbrev Context.Corresponds (S : CheckState σ → CheckState τ → Prop) (ctx : Context σ)
    (ctx' : Context τ) : Prop :=
  ctx.Matches (Relates S) ctx'

/-- Two ways to obtain the definition of a function that waits for its body have related
outcomes. -/
def BodySource.Corresponds (S : CheckState σ → CheckState τ → Prop) (obtain : BodySource σ)
    (obtain' : BodySource τ) : Prop :=
  ∀ scope call name s t, S s t → s.code.scopes.binding? scope name = some .unresolved →
    Related S ((obtain scope call name).exec s) ((obtain' scope call name).exec t)

namespace Context.Corresponds

open Check

variable {S : CheckState σ → CheckState τ → Prop} (hS : Admissible S)
variable {ctx : Context σ} {ctx' : Context τ} (h : ctx.Corresponds S ctx')
variable {obtain : BodySource σ} {obtain' : BodySource τ}
variable (hobtain : BodySource.Corresponds S obtain obtain')

include hS h hobtain

/-- The rule for calls obtains a definition only where a function waits for its body. -/
theorem callType (R : List NodeId) (x : NodeId) (name : String) :
    Relates S (ctx.callType obtain R x name) (ctx'.callType obtain' R x name) := by
  have hRel := Relates.compatible hS
  intro s t hst
  unfold Context.callType
  rw [exec_bind, exec_bind, exec_node, exec_node, ← hS.code hst]
  dsimp only
  rw [exec_bind, exec_bind, exec_code, exec_code, ← hS.code hst]
  dsimp only
  cases hname : s.code.scopes.binding? (s.code.node x).scope name with
  | none =>
    dsimp only
    rw [h.spec]
    split
    · exact h.operationType hRel (s.code.node x) name s t hst
    · exact Relates.fail _ s t hst
  | some binding =>
    cases binding with
    | resolved definition => exact h.definedType hRel _ name definition s t hst
    | pending call => exact Relates.pure Ty.unknown s t hst
    | unresolved =>
      dsimp only
      have hsource := hobtain (s.code.node x).scope x name s t hst hname
      rw [exec_bind, exec_bind]
      match (obtain (s.code.node x).scope x name).exec s,
        (obtain' (s.code.node x).scope x name).exec t, hsource with
      | (.ok definition, s'), (_, t'), ⟨rfl, hstate⟩ =>
        exact h.definedType hRel _ name definition s' t' hstate
      | (.error halt, s'), (_, t'), ⟨rfl, hstate⟩ => exact ⟨rfl, hstate⟩

/-- The rules carry a relation over. -/
theorem rule (j : Judgement α) : Relates S (ctx.rule obtain j) (ctx'.rule obtain' j) :=
  Context.Matches.rule (Relates.compatible hS) h (callType hS h hobtain) j

omit hobtain in
/-- **Answers to queries carry a relation over** from judgements. -/
theorem answer (q : Query α) : Relates S (ctx.answer q) (ctx'.answer q) :=
  Context.Matches.answer (Relates.compatible hS) h q

end Context.Corresponds

/-- **The judgements of two runs are related at every depth**, by each relation of a
family, if the definitions that they obtain are, as long as the answers to queries are. -/
theorem Supply.corresponds {ι : Type} {S : ι → CheckState σ → CheckState τ → Prop}
    (hS : ∀ i, Admissible (S i)) (supply : Supply σ) (supply' : Supply τ) (spec : OpSpec)
    (hsupply : ∀ d,
      (∀ i config {β : Type} (q : Query β), Relates (S i)
        ((supply.context spec d config).answer q) ((supply'.context spec d config).answer q)) →
      ∀ i, BodySource.Corresponds (S i) (supply fun config => (supply.context spec d config).answer)
        (supply' fun config => (supply'.context spec d config).answer))
    (d : Nat) (i : ι) (config : Config) :
    (supply.context spec d config).Corresponds (S i) (supply'.context spec d config) := by
  induction d generalizing i config with
  | zero => exact ⟨rfl, rfl, fun _ => .throw .outOfDepth⟩
  -- Rules turn to one another in all directions, so only the depth can carry the induction.
  | succ d ih =>
    refine ⟨rfl, rfl, fun j => (ih i config).rule (hS i) (hsupply d (fun i config β q => ?_) i) j⟩
    exact (ih i config).answer (hS i) q

/-! ### Invariants of runs -/

/-- A relation between an earlier and a later state of a run that the entries of the checker
keep to. -/
structure Lasting (P : CheckState σ → CheckState σ → Prop) : Prop where
  refl : ∀ s, P s s
  trans : ∀ {s t u}, P s t → P t u → P s u
  noted : ∀ {s c}, s.code.Noted c → P s { s with code := c }

/-- A computation keeps to a relation between earlier and later states. -/
def Obeys (P : CheckState σ → CheckState σ → Prop) (a : Check σ α) : Prop :=
  ∀ s, P s (a.exec s).2

/-- A state that is related to an earlier one, with itself. -/
def Kept (P : CheckState σ → CheckState σ → Prop) (start : CheckState σ)
    (s t : CheckState σ) : Prop :=
  s = t ∧ P start s

section Lasting

variable {P : CheckState σ → CheckState σ → Prop} (hP : Lasting P)

include hP

theorem Lasting.admissible (start : CheckState σ) : Admissible (Kept P start) where
  code h := congrArg CheckState.code h.1
  noted := by
    rintro s _ c ⟨rfl, hs⟩ hc
    exact ⟨rfl, hP.trans hs (hP.noted hc)⟩

theorem Lasting.compatible (start : CheckState σ) : Check.Compatible (Relates (Kept P start)) :=
  Relates.compatible (hP.admissible start)

/-- What is related to itself, whatever the earlier state, keeps to the relation. -/
theorem Lasting.obeys {a : Check σ α} (h : ∀ start, Relates (Kept P start) a a) : Obeys P a :=
  fun s => (h s s s ⟨rfl, hP.refl s⟩).state.2

/-- **All judgements keep to a lasting relation** if obtaining a definition does, as long as
the answers to queries do. -/
theorem Supply.kept (supply : Supply σ) (spec : OpSpec)
    (hsupply : ∀ d,
      (∀ config {β : Type} (q : Query β), Obeys P ((supply.context spec d config).answer q)) →
      ∀ scope call name s, s.code.scopes.binding? scope name = some .unresolved →
        P s ((supply (fun config => (supply.context spec d config).answer) scope call name).exec
          s).2)
    (d : Nat) (config : Config) (start : CheckState σ) :
    (supply.context spec d config).Corresponds (Kept P start) (supply.context spec d config) := by
  refine Supply.corresponds hP.admissible supply supply spec (fun d hanswer start => ?_) d start
    config
  rintro scope call name s _ ⟨rfl, hs⟩ hname
  refine ⟨rfl, rfl, hP.trans hs ?_⟩
  exact hsupply d (fun config β q => hP.obeys fun s => hanswer s config q) scope call name s hname

end Lasting

namespace Obeys

open Check

variable {P : CheckState σ → CheckState σ → Prop} {a : Check σ α}

theorem after {r : Except Halt α} {s t : CheckState σ} (h : Obeys P a)
    (hout : exec a s = (r, t)) : P s t := by
  have hs := h s
  rwa [hout] at hs

/-- A sequence keeps to a relation if its parts do. -/
theorem bind {f : α → Check σ β} (hP : Lasting P) (h : Obeys P a) (hf : ∀ x, Obeys P (f x)) :
    Obeys P (a >>= f) := by
  intro s
  have hs := h s
  rw [exec_bind]
  generalize exec a s = out at hs
  match out, hs with
  | (.ok x, t), hs => exact hP.trans hs (hf x t)
  | (.error halt, t), hs => exact hs

theorem outcome (h : Obeys P a) : Obeys P (outcome a) := by
  intro s
  rw [exec_outcome]
  exact h s

theorem forM {γ : Type} {f : γ → Check σ Unit} (hP : Lasting P) (hf : ∀ x, Obeys P (f x))
    (xs : List γ) : Obeys P (xs.forM f) := by
  induction xs with
  | nil => exact hP.refl
  | cons x xs ih => exact (hf x).bind hP fun _ => ih

end Obeys

end

end ContractLang
