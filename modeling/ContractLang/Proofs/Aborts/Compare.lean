import ContractLang.Proofs.Runs.Related
import ContractLang.Proofs.Aborts.Mute

/-!
# Comparing return types

Functions that abort on some paths and return a value on others have the type of the value in both
configurations, unless nothing is known of it at the time
(`ContractLang.Comparison.KeepsType`). Whether that is so depends on when the return type is
determined, so it is a matter of the run. The strict checker is made to compare each return type
that it determines with the one that the lenient checker finds in the same place
(`ContractLang.comparingContext`), which changes nothing else about its run
(`ContractLang.comparingContext_corresponds`).

Of mute functions it is known beforehand what the checkers find: the type of aborts, if anything
(`ContractLang.Context.Quiet`).
-/

namespace ContractLang

open Check

/-- The configuration in which aborts are compatible with any return type. -/
def Config.lenient : Config := ⟨true⟩

/-- The type of an abort. -/
def Config.abortType (config : Config) : Ty :=
  if config.typelessAbort then .unknown else .uint64

/-- What the return type of a function is found to be, and what it would be found to be if aborts
were compatible with any type. -/
structure Comparison where
  /-- The definition of the function. -/
  function : NodeId
  /-- The return type. -/
  strict : Ty
  /-- What the lenient checker answers. -/
  lenient : Except Halt Ty

/-- The return type of a function does not come from aborts alone: if the strict checker finds one,
then so does the lenient one. -/
def Comparison.KeepsType (c : Comparison) : Prop :=
  c.strict.isKnown → ∃ type, c.lenient = .ok type ∧ type.isKnown

/-- Bodies of functions are not supplied. -/
def Supply.nothing {σ : Type} : Supply σ := fun _ => Context.materialize none

/-- Decides a judgement by `rule`, and compares the return type of a function with the one that
the lenient checker finds, nesting judgements at most `depth` levels deep. -/
def comparing (spec : OpSpec) (depth : Nat)
    (rule : {α : Type} → Judgement α → Check (List Comparison) α) :
    {α : Type} → Judgement α → Check (List Comparison) α
  | _, .returnType (f :: resolving) body => do
    let start ← code
    let type ← rule (.returnType (f :: resolving) body)
    if f = body then
      let lenient := exec ((Supply.nothing.context spec depth .lenient).judge
        (.returnType (f :: resolving) body)) ⟨start, ()⟩
      modify fun state => { state with notes := state.notes ++ [⟨f, type, lenient.1⟩] }
    return type
  | _, judgement => rule judgement

/-- The context in which the rules of the strict checker apply, and the return types of functions
are compared. -/
def comparingContext (spec : OpSpec) : (depth : Nat) → Context (List Comparison)
  | 0 => ⟨spec, .strict, fun _ => throw .outOfDepth⟩
  | depth + 1 =>
    ⟨spec, .strict, fun judgement =>
      comparing spec (depth + 1) ((comparingContext spec depth).rule (Context.materialize none))
        judgement⟩

/-- The return types of functions that the strict checker determines for a query, compared with
what the lenient one finds. -/
def Checker.comparisons {α : Type} (spec : OpSpec) (q : Query α) (code : CompilationUnit) :
    List Comparison :=
  (exec ((comparingContext spec (ownDepth code)).answer q) ⟨code, []⟩).2.notes

/-! ### Comparing changes nothing -/

section Corresponds

variable {σ τ α : Type}

/-- Two states have the same unit. -/
def SameUnit (s : CheckState σ) (t : CheckState τ) : Prop :=
  s.code = t.code

theorem SameUnit.indifferent : Indifferent (SameUnit (σ := σ) (τ := τ)) :=
  ⟨id, fun _ _ => rfl⟩

/-- Nothing is supplied to two checkers alike. -/
theorem SameUnit.materialize :
    BodySource.Corresponds (SameUnit (σ := σ) (τ := τ)) (Context.materialize none)
      (Context.materialize none) :=
  fun _ _ _ s t hst _ => Relates.materialize SameUnit.indifferent .none s t hst

/-- What is compared is decided as before. -/
theorem comparing_corresponds {spec : OpSpec} {d : Nat}
    {rule : {α : Type} → Judgement α → Check (List Comparison) α}
    {rule' : {α : Type} → Judgement α → Check τ α}
    (h : ∀ {α : Type} (j : Judgement α), Relates SameUnit (rule j) (rule' j)) (j : Judgement α) :
    Relates SameUnit (comparing spec d rule j) (rule' j) := by
  cases j with
  | returnType R b =>
    cases R with
    | nil => exact h _
    | cons f R =>
      intro s t hst
      have hrel := h (.returnType (f :: R) b) s t hst
      unfold comparing
      rw [exec_bind, exec_code]
      dsimp only
      rw [exec_bind]
      revert hrel
      generalize exec (rule (.returnType (f :: R) b)) s = out,
        exec (rule' (.returnType (f :: R) b)) t = out'
      intro hrel
      match out, out', hrel with
      | (.ok type, u), (_, u'), ⟨rfl, hstate⟩ =>
        dsimp only
        split <;> exact ⟨rfl, hstate⟩
      | (.error halt, u), (_, u'), ⟨rfl, hstate⟩ => exact ⟨rfl, hstate⟩
  | typeOf | calls | statement => exact h _

/-- **To compare return types changes nothing** about the run of the strict checker. -/
theorem comparingContext_corresponds (spec : OpSpec) (d : Nat) :
    (comparingContext spec d).Corresponds (SameUnit (τ := τ))
      (Supply.nothing.context spec d .strict) := by
  induction d with
  | zero => exact ⟨rfl, rfl, fun _ => .throw .outOfDepth⟩
  | succ d ih =>
    exact ⟨rfl, rfl, comparing_corresponds fun j =>
      ih.rule SameUnit.indifferent.admissible SameUnit.materialize j⟩

/-- The notes that a checker carries along do not matter. -/
theorem nothing_corresponds (spec : OpSpec) (d : Nat) (config : Config) :
    (Supply.nothing.context spec d config).Corresponds (SameUnit (σ := σ) (τ := τ))
      (Supply.nothing.context spec d config) :=
  Supply.corresponds (ι := Unit) (fun _ => SameUnit.indifferent.admissible) _ _ spec
    (fun _ _ _ => SameUnit.materialize) d () config

end Corresponds

/-! ### The exits of mute functions -/

section Quiet

variable {σ : Type} {w : Ty} {s : CheckState σ} {ctx : Context σ} {R : List NodeId} {b : NodeId}

/-- From a state, a computation finds no type but `w`, if any, and finds out nothing else, unless it
is nested too deeply. -/
def Check.FindsOnly (w : Ty) (s : CheckState σ) (a : Check σ Ty) : Prop :=
  (∃ t, exec a s = (.error .outOfDepth, t)) ∨
    ∃ type t, exec a s = (.ok type, t) ∧ t.code = s.code ∧ (type = .unknown ∨ type = w)

/-- All that a context finds of mute functions is the type of aborts. -/
def Context.Quiet (ctx : Context σ) : Prop :=
  ∀ R b s, s.code.Mute b → FindsOnly ctx.config.abortType s (ctx.judge (.returnType R b))

namespace Check.FindsOnly

theorem pure {type : Ty} (h : type = .unknown ∨ type = w) :
    FindsOnly w s (pure type : Check σ Ty) :=
  .inr ⟨type, s, rfl, rfl, h⟩

theorem bind {a : Check σ Ty} {f : Ty → Check σ Ty} (h : FindsOnly w s a)
    (hf : ∀ type t, t.code = s.code → (type = .unknown ∨ type = w) → FindsOnly w t (f type)) :
    FindsOnly w s (a >>= f) := by
  unfold FindsOnly
  rw [exec_bind]
  rcases h with ⟨t, hexec⟩ | ⟨type, t, hexec, ht, htype⟩
  · rw [hexec]
    exact .inl ⟨t, rfl⟩
  · rw [hexec]
    refine (hf type t ht htype).imp_right ?_
    rintro ⟨type', t', hexec', ht', htype'⟩
    exact ⟨type', t', hexec', ht'.trans ht, htype'⟩

end Check.FindsOnly

/-- A type does not clash with itself, or with none. -/
theorem Ty.not_clashes {a c : Ty} (ha : a = .unknown ∨ a = w) (hc : c = .unknown ∨ c = w) :
    ¬a.clashes c := by
  rcases ha with rfl | rfl <;> rcases hc with rfl | rfl <;> simp [Ty.clashes, Ty.isKnown]

namespace Context.Quiet

variable (h : ctx.Quiet)

include h

theorem exitType {stmt : NodeId} (hb : s.code.Mute b) (hmem : stmt ∈ s.code.children b) :
    FindsOnly ctx.config.abortType s (ctx.exitType R stmt) := by
  have hcode : ∀ f : CompilationUnit → Check σ Ty, FindsOnly ctx.config.abortType s (f s.code) →
      FindsOnly ctx.config.abortType s (code >>= f) := fun f hf => by
    unfold FindsOnly at hf ⊢
    rwa [exec_bind, exec_code]
  refine hcode _ ?_
  split
  · next hform => exact absurd hform (hb.form_ne hmem)
  · exact .pure (.inr rfl)
  · next hform => exact h R stmt s (hb.of_mem hmem (by rw [hform]; trivial))
  · next hform => exact h R stmt s (hb.of_mem hmem (by rw [hform]; trivial))
  · exact .pure (.inl rfl)

/-- **The rule finds of mute functions what its judgements do.** -/
theorem returnTypeRule (hb : s.code.Mute b) :
    FindsOnly ctx.config.abortType s (ctx.returnTypeRule R b) := by
  -- The exits so far are generalised, and so is the state, of which only the unit is known.
  suffices hfold : ∀ stmts : List NodeId, (∀ stmt ∈ stmts, stmt ∈ s.code.children b) →
      ∀ (sofar : Ty) (t : CheckState σ), t.code = s.code →
        (sofar = .unknown ∨ sofar = ctx.config.abortType) →
        FindsOnly ctx.config.abortType t (stmts.foldlM (ctx.unifyExits R) sofar) by
    have hall := hfold (s.code.children b) (fun _ => id) .unknown s rfl (.inl rfl)
    unfold FindsOnly Context.returnTypeRule at *
    rwa [exec_bind, exec_code]
  intro stmts
  induction stmts with
  | nil => exact fun _ sofar t _ hsofar => .pure hsofar
  | cons stmt rest ih =>
    intro hmem sofar t ht hsofar
    rw [List.foldlM_cons]
    have hexit : FindsOnly ctx.config.abortType t (ctx.exitType R stmt) :=
      h.exitType (ht ▸ hb) (ht ▸ hmem stmt List.mem_cons_self)
    refine .bind (.bind hexit fun type u _ htype => ?_) fun type u hu htype =>
      ih (fun other hother => hmem other (List.mem_cons_of_mem _ hother)) type u (hu.trans ht) htype
    unfold rejectIf
    rw [if_neg (Ty.not_clashes hsofar htype)]
    refine .pure ?_
    split
    · exact htype
    · exact hsofar

/-- So does the return type of a mute function that is called or defined. -/
theorem functionType (hb : s.code.Mute b) :
    FindsOnly ctx.config.abortType s (ctx.functionType R b) := by
  unfold Context.functionType
  split
  · exact .pure (.inl rfl)
  · exact h (b :: R) b s hb

end Context.Quiet

/-- Without bodies being supplied, every context is quiet. -/
theorem Supply.quiet (supply : Supply σ) (spec : OpSpec) (config : Config) (d : Nat) :
    (supply.context spec d config).Quiet := by
  induction d with
  | zero => exact fun _ _ s _ => .inl ⟨s, rfl⟩
  | succ d ih =>
    intro R b s hb
    have hconfig : ∀ d, (supply.context spec d config).config = config := fun d => by
      cases d <;> rfl
    have hrule := ih.returnTypeRule (R := R) hb
    rw [hconfig] at hrule ⊢
    exact hrule

end Quiet

/-- So is the one that compares return types. -/
theorem comparingContext_quiet (spec : OpSpec) (d : Nat) : (comparingContext spec d).Quiet := by
  intro R b s hb
  have hcontext := comparingContext_corresponds (τ := Unit) spec d
  have hrel := hcontext.judge (.returnType R b) s ⟨s.code, ()⟩ rfl
  have hquiet := Supply.nothing.quiet spec .strict d R b ⟨s.code, ()⟩ hb
  rw [hcontext.config] at hquiet
  rcases hquiet with ⟨t, hexec⟩ | ⟨type, t, hexec, ht, htype⟩
  · exact .inl ⟨_, Prod.ext (hrel.answer.trans (congrArg Prod.fst hexec)) rfl⟩
  · refine .inr ⟨type, _, Prod.ext (hrel.answer.trans (congrArg Prod.fst hexec)) rfl, ?_, htype⟩
    exact hrel.state.trans ((congrArg (fun out => out.2.code) hexec).trans ht)

end ContractLang
