import ContractLang.Proofs.Runs.Deepening
import ContractLang.Proofs.Statements.Exits

/-!
# The type that the exits of a body agree on

The return type of a body is found level by level: a nested block or conditional statement gives
one type for all exits inside it, which is then compared with those around it. The result is the
same as if all exits had been compared with one another at once
(`ContractLang.Checker.ask_returnType_of_settled`), so how the statements are nested makes no
difference to it.

The comparison asks for the types of values on its way, which can change the unit. What is assumed
of them concerns the moments at which they are asked for only
(`ContractLang.CompilationUnit.Meets`).
-/

namespace ContractLang

open Check

variable {σ : Type}

namespace Checker

open CompilationUnit

variable {checker : Checker σ} {typeOf : NodeId → Ty} {b x y : NodeId} {s u : CheckState σ}
  {xs es : List NodeId}

/-- The state after the comparison has passed an exit, for whose value it asks. -/
def pass (checker : Checker σ) (s : CheckState σ) (stmt : NodeId) : CheckState σ :=
  match s.code.form stmt with
  | .ret (some value) _ => (checker.ask (.typeOf value) s).2
  | _ => s

/-- The state after the comparison has passed some exits. -/
def passAll (checker : Checker σ) (stmts : List NodeId) (s : CheckState σ) : CheckState σ :=
  stmts.foldl checker.pass s

theorem passAll_append : checker.passAll (xs ++ es) s = checker.passAll es (checker.passAll xs s) :=
  List.foldl_append

/-- Nothing gets in the way of the comparison of exits: there is no parser, or else, whenever the
comparison comes to a statement, the statement is as it has been at first, and the depth that
the parser states is ample. -/
def Undisturbed (checker : Checker σ) (typeOf : NodeId → Ty) (b : NodeId) (s : CheckState σ) :
    Prop :=
  (checker.parser = none ∧ s.code.Acyclic) ∨
  (checker.Ample (.returnType b) s ∧
    ∀ es x, s.code.Meets checker.config typeOf b es x →
      (checker.passAll es s).code.form x = s.code.form x ∧
      (checker.passAll es s).code.children x = s.code.children x ∧
      ∀ value definition, s.code.form x = .ret (some value) definition →
        checker.Ample (.typeOf value) (checker.passAll es s))

/-- The exits of a body have types: the links below it are acyclic, and whenever the comparison
asks for the type of a value that is returned, it is given the one that `typeOf` says. -/
structure Settled (checker : Checker σ) (typeOf : NodeId → Ty) (b : NodeId) (s : CheckState σ) :
    Prop where
  acyclic : s.code.AcyclicFrom b
  undisturbed : checker.Undisturbed typeOf b s
  typed : ∀ es x, s.code.Meets checker.config typeOf b es x →
    ∀ value definition, s.code.form x = .ret (some value) definition →
      (checker.ask (.typeOf value) (checker.passAll es s)).1 = .ok (typeOf value)

/-! ### One statement after another -/

/-- At every moment of a comparison that starts in a given state, the statement that it has come to
is the one that was there at first; the value of a return statement has the type that `typeOf`
says, at any depth that is great enough. -/
def Supports (checker : Checker σ) (code : CompilationUnit) (typeOf : NodeId → Ty) (b : NodeId)
    (start : CheckState σ) : Prop :=
  ∀ es x, code.Meets checker.config typeOf b es x →
    (checker.passAll es start).code.form x = code.form x ∧
    (checker.passAll es start).code.children x = code.children x ∧
    ∀ value definition, code.form x = .ret (some value) definition →
      checker.Ample (.typeOf value) (checker.passAll es start) ∧
      (checker.ask (.typeOf value) (checker.passAll es start)).1 = .ok (typeOf value)

/-- An outcome is right for certain exits: it says what their types unify to, and leaves the state
after all of them if there is no error. -/
structure Right (checker : Checker σ) (code : CompilationUnit) (typeOf : NodeId → Ty)
    (start : CheckState σ) (es : List NodeId) (out : Except Halt Ty × CheckState σ) : Prop where
  unifies : Ty.Unifies (code.contributions checker.config typeOf es) out.1
  state : ∀ t, out.1 = .ok t → out.2 = checker.passAll es start

/-- An outcome in which a type that is not known does not matter. -/
def asKnown (out : Except Halt Ty × CheckState σ) : Except Halt Ty × CheckState σ :=
  (out.1.map Ty.orUnknown, out.2)

variable {code : CompilationUnit} {d : Nat} {start : CheckState σ} {before after new : List NodeId}

/-- A nested comparison is supported as a part of the whole one. -/
theorem Supports.nested (h : checker.Supports code typeOf b start)
    (hbody : code.children b = before ++ x :: after) (hform : (code.form x).IsBranching)
    (hes : code.ExitsOf before es)
    (hagree : Ty.Agree (code.contributions checker.config typeOf es)) :
    checker.Supports code typeOf x (checker.passAll es start) := by
  intro es' y hmeets
  rw [← passAll_append]
  exact h _ y (.inside hbody hform hes hagree hmeets)

/-- What exits unify to is known, unless there are none that have a type. -/
theorem Right.asKnown {out : Except Halt Ty × CheckState σ}
    (h : checker.Right code typeOf start es out) :
    checker.Right code typeOf start es (asKnown out) := by
  obtain ⟨hunifies, hstate⟩ := h
  match out, hunifies, hstate with
  | (.error halt, v), hunifies, _ => exact ⟨hunifies, nofun⟩
  | (.ok t, v), ⟨hagree, ht⟩, hstate =>
    refine ⟨⟨hagree, ?_⟩, fun _ _ => hstate t rfl⟩
    rw [ht]
    exact Ty.orUnknown_common fun c hc => isKnown_of_mem_contributions hc

/-- **One more statement** is compared with those before it by what it contributes itself. -/
theorem right_unifyExits (hagree : Ty.Agree (code.contributions checker.config typeOf es))
    (h : checker.Right code typeOf (checker.passAll es start) new
      (asKnown (exec ((checker.context d).exitType [] x) (checker.passAll es start)))) :
    checker.Right code typeOf start (es ++ new)
      (exec ((checker.context d).unifyExits []
        (Ty.common (code.contributions checker.config typeOf es)) x)
        (checker.passAll es start)) := by
  have hknown : ∀ c ∈ code.contributions checker.config typeOf (es ++ new), c.isKnown :=
    fun c hc => isKnown_of_mem_contributions hc
  obtain ⟨hunifies, hstate⟩ := h
  unfold Context.unifyExits
  rw [exec_bind]
  generalize exec ((checker.context d).exitType [] x) (checker.passAll es start) = out
    at hunifies hstate
  match out, hunifies, hstate with
  | (.error halt, v), hunifies, _ =>
    refine ⟨hunifies.error_mono fun c hc => ?_, nofun⟩
    rw [contributions_append]
    exact List.mem_append_right _ hc
  | (.ok a, v), ⟨hnew, hcommon⟩, hstate =>
    obtain rfl : v = _ := hstate _ rfl
    dsimp only
    rw [exec_bind, exec_rejectIf]
    rw [contributions_append] at hknown
    by_cases hclash : (Ty.common (code.contributions checker.config typeOf es)).clashes a
    · -- The common type so far and the type of the statement are both contributed.
      rw [if_pos hclash]
      obtain ⟨hsofar, ha, hne⟩ := Ty.ne_of_clashes hclash
      have hmem := Ty.common_mem hsofar
      rw [Ty.orUnknown_of_isKnown ha] at hcommon
      have hmem' : a ∈ code.contributions checker.config typeOf new := by
        rw [hcommon] at ha ⊢
        exact Ty.common_mem ha
      refine ⟨?_, nofun⟩
      rw [contributions_append]
      exact ⟨_, List.mem_append_left _ hmem, a, List.mem_append_right _ hmem', hne, rfl⟩
    · rw [if_neg hclash]
      have hclash' : ¬(Ty.common (code.contributions checker.config typeOf es)).clashes
          (Ty.common (code.contributions checker.config typeOf new)) := by
        rw [← hcommon, Ty.clashes_orUnknown]
        exact hclash
      have hall := Ty.agree_append hagree hnew hknown hclash'
      refine ⟨?_, fun t _ => passAll_append.symm⟩
      rw [contributions_append]
      refine ⟨hall, ?_⟩
      rw [Ty.common_append hall hknown, ← hcommon]
      by_cases ha : a.isKnown
      · rw [if_pos ha, Ty.orUnknown_of_isKnown ha, if_pos ha]
      · rw [if_neg ha, Ty.orUnknown_of_not_isKnown ha, if_neg (by decide)]

/-- An exit is right to give what it contributes, in the state after asking for it. -/
theorem right_of_exit {a : Ty}
    (ha : a.orUnknown = (code.contribution checker.config typeOf x).orUnknown) :
    checker.Right code typeOf u [x] (asKnown (.ok a, checker.pass u x)) :=
  ⟨⟨agree_contributions_singleton, ha.trans common_contributions_singleton.symm⟩, fun _ _ => rfl⟩

/-- **A return statement or an abort** gives what it contributes, at any depth that is great
enough. -/
theorem right_exitType (hform : u.code.form x = code.form x) (hexit : (code.form x).IsExit)
    (hvalue : ∀ value definition, code.form x = .ret (some value) definition →
      checker.Ample (.typeOf value) u ∧ (checker.ask (.typeOf value) u).1 = .ok (typeOf value))
    (hd : checker.depth u.code ≤ d) :
    checker.Right code typeOf u [x] (asKnown (exec ((checker.context d).exitType [] x) u)) := by
  unfold Context.exitType
  rw [exec_bind, exec_code]
  dsimp only
  rw [hform]
  cases hx : code.form x with
  | ret value definition =>
    cases value with
    | none =>
      have hpass : checker.pass u x = u := by rw [pass, hform, hx]
      have hright : checker.Right code typeOf u [x] (asKnown (.ok .unknown, checker.pass u x)) :=
        right_of_exit (by rw [contribution, hx])
      rwa [hpass] at hright
    | some value =>
      obtain ⟨hample, htype⟩ := hvalue value definition hx
      have hpass : checker.pass u x = (checker.ask (.typeOf value) u).2 := by rw [pass, hform, hx]
      have hasked : exec ((checker.context d).judge (.typeOf [] value)) u =
          (.ok (typeOf value), checker.pass u x) := by
        rw [hpass, ← htype]
        exact hample d hd
      change checker.Right code typeOf u [x]
        (asKnown (exec ((checker.context d).judge (.typeOf [] value)) u))
      rw [hasked]
      exact right_of_exit (by rw [contribution, hx])
  | abort =>
    have hpass : checker.pass u x = u := by rw [pass, hform, hx]
    have hright : checker.Right code typeOf u [x] (asKnown
        (.ok (if checker.config.typelessAbort then .unknown else .uint64), checker.pass u x)) :=
      right_of_exit (by rw [contribution, hx])
    rw [hpass] at hright
    rw [checker.config_context]
    exact hright
  | _ =>
    rw [hx] at hexit
    exact hexit.elim

/-- A statement that is no exit and has none inside gives nothing. -/
theorem right_of_other (hform : u.code.form x = code.form x) (hexit : ¬(code.form x).IsExit)
    (hnested : ¬(code.form x).IsBranching) :
    checker.Right code typeOf u [] (asKnown (exec ((checker.context d).exitType [] x) u)) := by
  have hout : exec ((checker.context d).exitType [] x) u = (.ok .unknown, u) := by
    unfold Context.exitType
    rw [exec_bind, exec_code]
    dsimp only
    rw [hform]
    cases hx : code.form x
    case ret | abort => exact absurd (by rw [hx]; trivial) hexit
    case branch | block => exact absurd (by rw [hx]; trivial) hnested
    all_goals rfl
  rw [hout]
  exact ⟨⟨Ty.agree_nil, rfl⟩, fun _ _ => rfl⟩

/-- A nested block or conditional statement gives what its exits do, one level further up. -/
theorem right_of_nested (hform : u.code.form x = code.form x)
    (hchildren : u.code.children x = code.children x) (hnested : (code.form x).IsBranching)
    (h : checker.Right code typeOf u new
      (exec ((code.children x).foldlM ((checker.context d).unifyExits []) .unknown) u)) :
    checker.Right code typeOf u new
      (asKnown (exec ((checker.context (d + 1)).exitType [] x) u)) := by
  have hout : exec ((checker.context (d + 1)).exitType [] x) u =
      exec ((code.children x).foldlM ((checker.context d).unifyExits []) .unknown) u := by
    have hrule : exec ((checker.context (d + 1)).judge (.returnType [] x)) u =
        exec ((u.code.children x).foldlM ((checker.context d).unifyExits []) .unknown) u := rfl
    rw [← hchildren, ← hrule]
    unfold Context.exitType
    rw [exec_bind, exec_code]
    dsimp only
    rw [hform]
    cases hx : code.form x
    case branch | block => rfl
    all_goals
      rw [hx] at hnested
      exact hnested.elim
  rw [hout]
  exact h.asKnown

/-- The comparison of statements is right if that of the first is, and that of the others wherever
what has been contributed by then agrees. -/
theorem right_cons (new : List NodeId)
    (hagree : Ty.Agree (code.contributions checker.config typeOf before))
    (hfirst : ∃ d₀, ∀ d ≥ d₀, checker.Right code typeOf (checker.passAll before start) new
      (asKnown (exec ((checker.context d).exitType [] x) (checker.passAll before start))))
    (hothers : Ty.Agree (code.contributions checker.config typeOf (before ++ new)) →
      ∃ d₀, ∀ d ≥ d₀, checker.Right code typeOf start ((before ++ new) ++ es)
        (exec (xs.foldlM ((checker.context d).unifyExits [])
          (Ty.common (code.contributions checker.config typeOf (before ++ new))))
          (checker.passAll (before ++ new) start))) :
    ∃ d₀, ∀ d ≥ d₀, checker.Right code typeOf start (before ++ (new ++ es))
      (exec ((x :: xs).foldlM ((checker.context d).unifyExits [])
        (Ty.common (code.contributions checker.config typeOf before)))
        (checker.passAll before start)) := by
  obtain ⟨d₁, hfirst⟩ := hfirst
  obtain ⟨d₂, hothers⟩ : ∃ d₀, ∀ d ≥ d₀,
      Ty.Agree (code.contributions checker.config typeOf (before ++ new)) →
      checker.Right code typeOf start ((before ++ new) ++ es)
        (exec (xs.foldlM ((checker.context d).unifyExits [])
          (Ty.common (code.contributions checker.config typeOf (before ++ new))))
          (checker.passAll (before ++ new) start)) := by
    by_cases hall : Ty.Agree (code.contributions checker.config typeOf (before ++ new))
    · obtain ⟨d₂, hothers⟩ := hothers hall
      exact ⟨d₂, fun d hd _ => hothers d hd⟩
    · exact ⟨0, fun _ _ h => absurd h hall⟩
  refine ⟨max d₁ d₂, fun d hd => ?_⟩
  have hstep := right_unifyExits hagree (hfirst d (le_trans (le_max_left _ _) hd))
  rw [List.foldlM_cons, exec_bind, ← List.append_assoc]
  generalize exec ((checker.context d).unifyExits []
    (Ty.common (code.contributions checker.config typeOf before)) x)
    (checker.passAll before start) = out at hstep
  obtain ⟨hunifies, hstate⟩ := hstep
  match out, hunifies, hstate with
  | (.error halt, v), hunifies, _ =>
    refine ⟨hunifies.error_mono fun c hc => ?_, nofun⟩
    rw [contributions_append]
    exact List.mem_append_left _ hc
  | (.ok t, v), ⟨hall, ht⟩, hstate =>
    obtain rfl : v = _ := hstate t rfl
    rw [ht]
    exact hothers d (le_trans (le_max_right _ _) hd) hall

/-- **The exits of all statements** are compared in order, at any depth that is great enough. -/
theorem right_foldlM (h : code.ExitsOf xs es) {done before : List NodeId}
    (hbody : code.children b = done ++ xs) (hdone : code.ExitsOf done before)
    (hagree : Ty.Agree (code.contributions checker.config typeOf before))
    (hsupports : checker.Supports code typeOf b start) :
    ∃ d₀, ∀ d ≥ d₀, checker.Right code typeOf start (before ++ es)
      (exec (xs.foldlM ((checker.context d).unifyExits [])
        (Ty.common (code.contributions checker.config typeOf before)))
        (checker.passAll before start)) := by
  induction h generalizing b start done before with
  | nil =>
    refine ⟨0, fun d _ => ?_⟩
    rw [List.append_nil]
    exact ⟨⟨hagree, rfl⟩, fun _ _ => rfl⟩
  | @exit x xs es hexit hrest ih =>
    obtain ⟨hform, -, hvalue⟩ := hsupports before x (.here hbody hdone hagree)
    refine right_cons [x] hagree ?_ fun hall => ?_
    · exact ⟨_, fun d hd => right_exitType hform hexit hvalue hd⟩
    · exact ih (by rw [hbody, List.append_assoc]; rfl)
        (hdone.append (.exit hexit .nil)) hall hsupports
  | @nested x xs es es' hnested hinner hrest ihinner ihrest =>
    obtain ⟨hform, hchildren, -⟩ := hsupports before x (.here hbody hdone hagree)
    refine right_cons es hagree ?_ fun hall => ?_
    · obtain ⟨d₀, hd₀⟩ := ihinner (List.nil_append _).symm .nil Ty.agree_nil
        (hsupports.nested hbody hnested hdone hagree)
      refine ⟨d₀ + 1, fun d hd => ?_⟩
      obtain ⟨e, rfl⟩ : ∃ e, d = e + 1 := ⟨d - 1, by omega⟩
      exact right_of_nested hform hchildren hnested (hd₀ e (by omega))
    · have hstmt : code.ExitsOf [x] es := by simpa using ExitsOf.nested hnested hinner .nil
      exact ihrest (by rw [hbody, List.append_assoc]; rfl)
        (hdone.append hstmt) hall hsupports
  | @other x xs es hexit hnested hrest ih =>
    obtain ⟨hform, -, -⟩ := hsupports before x (.here hbody hdone hagree)
    refine right_cons [] hagree ?_ fun hall => ?_
    · exact ⟨0, fun d _ => right_of_other hform hexit hnested⟩
    · exact ih (by rw [hbody, List.append_assoc]; rfl)
        (hdone.append (.other hexit hnested .nil)) hall hsupports

/-! ### The comparison as a whole -/

/-- Asking for the types of values only refines a unit, without a parser. -/
theorem refinesTo_passAll (hparser : checker.parser = none) (es : List NodeId)
    (s : CheckState σ) : s.code.RefinesTo (checker.passAll es s).code := by
  induction es generalizing s with
  | nil => exact .refl _
  | cons x es ih =>
    have hpass : s.code.RefinesTo (checker.pass s x).code := by
      unfold pass
      split
      · exact checker.keeps_answer hparser _ id s.code s (.refl s.code)
      · exact .refl _
    exact hpass.trans (ih _)

namespace Settled

variable (h : checker.Settled typeOf b s)

include h

/-- The comparison is supported at every moment. -/
theorem supports : checker.Supports s.code typeOf b s := by
  intro es x hmeets
  rcases h.undisturbed with ⟨hparser, hcode⟩ | ⟨-, hmoments⟩
  · have hrefines := refinesTo_passAll hparser es s
    refine ⟨hrefines.form x, hrefines.children x, fun value definition hform => ⟨?_, ?_⟩⟩
    · exact checker.ample_of_parser_none hparser (hrefines.acyclic_iff.mpr hcode) _
    · exact h.typed es x hmeets value definition hform
  · obtain ⟨hform, hchildren, hample⟩ := hmoments es x hmeets
    exact ⟨hform, hchildren, fun value definition hret =>
      ⟨hample value definition hret, h.typed es x hmeets value definition hret⟩⟩

/-- So is the answer to the query, at the depth that the checker allows for. -/
theorem right : checker.Right s.code typeOf s (s.code.exits b) (checker.ask (.returnType b) s) := by
  have hample : checker.Ample (.returnType b) s := by
    rcases h.undisturbed with ⟨hparser, hcode⟩ | ⟨hample, -⟩
    · exact checker.ample_of_parser_none hparser hcode _
    · exact hample
  obtain ⟨d, hd⟩ := right_foldlM (exitsOf_exits h.acyclic) (List.nil_append _).symm .nil
    Ty.agree_nil h.supports
  have hasked := hample (max d (checker.depth s.code) + 1)
    (Nat.le_succ_of_le (le_max_right _ _))
  rw [← hasked]
  exact hd _ (le_max_left _ _)

end Settled

/-- **The exits of a body are compared exactly.** Suppose that the exits of a body have types.
The body is found to return a known type if and only if the exits contribute some types and all of
them are that one, and an unknown type if and only if the exits contribute none. If two types
that they contribute differ, this is an error that names two such types. So the type that is
found depends on what the exits contribute only, and not on how they are nested. -/
theorem ask_returnType_of_settled (h : checker.Settled typeOf b s) :
    (∀ t, t.isKnown → ((checker.ask (.returnType b) s).1 = .ok t ↔
      s.code.contributions checker.config typeOf (s.code.exits b) ≠ [] ∧
        ∀ c ∈ s.code.contributions checker.config typeOf (s.code.exits b), c = t)) ∧
    ((checker.ask (.returnType b) s).1 = .ok .unknown ↔
      s.code.contributions checker.config typeOf (s.code.exits b) = []) ∧
    (¬Ty.Agree (s.code.contributions checker.config typeOf (s.code.exits b)) →
      ∃ a ∈ s.code.contributions checker.config typeOf (s.code.exits b),
      ∃ c ∈ s.code.contributions checker.config typeOf (s.code.exits b), a ≠ c ∧
        ∃ position, (checker.ask (.returnType b) s).1 =
          .error (.fault ⟨.blockMismatch a.name c.name, position⟩)) ∧
    ∀ {τ : Type} (other : Checker τ) (typeOf' : NodeId → Ty) (b' : NodeId) (s' : CheckState τ),
      other.Settled typeOf' b' s' →
      s'.code.contributions other.config typeOf' (s'.code.exits b') =
        s.code.contributions checker.config typeOf (s.code.exits b) →
      ∀ t, (other.ask (.returnType b') s').1 = .ok t ↔
        (checker.ask (.returnType b) s).1 = .ok t := by
  obtain ⟨hknown, hunknown, hmismatch⟩ :=
    h.right.unifies.exact fun c hc => isKnown_of_mem_contributions hc
  refine ⟨hknown, hunknown, hmismatch, fun other typeOf' b' s' h' hsame t => ?_⟩
  have hunifies' := h'.right.unifies
  rw [hsame] at hunifies'
  exact hunifies'.ok_iff h.right.unifies t

/-! ### Bodies that return literals -/

/-- A literal has its own type at any depth, and nothing else is found out. -/
theorem exec_typeOf_literal {value : NodeId} {t : Ty} {text : String}
    (hform : s.code.form value = .literal t text) {d : Nat} (hd : 0 < d) :
    exec ((checker.context d).answer (.typeOf value)) s = (.ok t, s) := by
  obtain ⟨d, rfl⟩ := Nat.exists_eq_succ_of_ne_zero hd.ne'
  change exec ((checker.context d).typeRule _ [] value) s = _
  unfold Context.typeRule
  rw [exec_bind, exec_node]
  dsimp only
  rw [show (s.code.node value).form = _ from hform]
  rfl

theorem depth_pos (checker : Checker σ) (code : CompilationUnit) : 0 < checker.depth code :=
  Nat.add_pos_left (by unfold ownDepth; positivity) _

theorem ask_typeOf_literal {value : NodeId} {t : Ty} {text : String}
    (hform : s.code.form value = .literal t text) :
    checker.ask (.typeOf value) s = (.ok t, s) := by
  rw [checker.ask_eq_exec]
  exact exec_typeOf_literal hform (checker.depth_pos s.code)

theorem ample_typeOf_literal {value : NodeId} {t : Ty} {text : String}
    (hform : s.code.form value = .literal t text) : checker.Ample (.typeOf value) s := by
  intro d hd
  rw [ask_typeOf_literal hform]
  exact exec_typeOf_literal hform (Nat.lt_of_lt_of_le (checker.depth_pos s.code) hd)

end Checker

namespace CompilationUnit

/-- The type of a literal. -/
def literalType (code : CompilationUnit) (value : NodeId) : Ty :=
  match code.form value with
  | .literal type _ => type
  | _ => .unknown

/-- All values that are returned are literals. -/
def ReturnsLiterals (code : CompilationUnit) : Prop :=
  ∀ x value definition, code.form x = .ret (some value) definition →
    ∃ t text, code.form value = .literal t text

/-- Whether a node is not a return statement or returns a literal. -/
def returnsLiteral (code : CompilationUnit) (x : NodeId) : Bool :=
  match code.form x with
  | .ret (some value) _ => (code.form value matches .literal ..)
  | _ => true

/-- Whether all values are literals is a matter of the nodes that exist. -/
theorem returnsLiterals_of_forall {code : CompilationUnit}
    (h : ∀ x < code.size, code.returnsLiteral x) : code.ReturnsLiterals := by
  intro x value definition hform
  have hvalue := h x (lt_size_of_form (by rw [hform]; nofun))
  unfold returnsLiteral at hvalue
  rw [hform] at hvalue
  dsimp only at hvalue
  split at hvalue
  · next t text hliteral => exact ⟨t, text, hliteral⟩
  · exact nomatch hvalue

variable {code : CompilationUnit} (h : code.ReturnsLiterals)

include h

theorem ReturnsLiterals.form_eq {x value : NodeId} {definition : Option NodeId}
    (hform : code.form x = .ret (some value) definition) :
    ∃ text, code.form value = .literal (code.literalType value) text := by
  obtain ⟨t, text, hliteral⟩ := h x value definition hform
  refine ⟨text, ?_⟩
  rw [literalType, hliteral]

end CompilationUnit

namespace Checker

variable {checker : Checker σ} {b : NodeId} {s : CheckState σ}

/-- Comparing exits that return literals changes nothing. -/
theorem passAll_of_literals (h : s.code.ReturnsLiterals) (es : List NodeId) :
    checker.passAll es s = s := by
  induction es with
  | nil => rfl
  | cons x es ih =>
    have hpass : checker.pass s x = s := by
      unfold pass
      split
      · next hform =>
        obtain ⟨text, hliteral⟩ := h.form_eq hform
        rw [ask_typeOf_literal hliteral]
      · rfl
    change checker.passAll es (checker.pass s x) = s
    rw [hpass, ih]

/-- Exits that return literals have types. -/
theorem settled_of_literals (h : s.code.ReturnsLiterals) (hcode : s.code.AcyclicFrom b)
    (hundisturbed : checker.Undisturbed s.code.literalType b s) :
    checker.Settled s.code.literalType b s := by
  refine ⟨hcode, hundisturbed, fun es x _ value definition hform => ?_⟩
  obtain ⟨text, hliteral⟩ := h.form_eq hform
  rw [passAll_of_literals h, ask_typeOf_literal hliteral]

/-- Nothing gets in the way of comparing them, even if there is a parser. -/
theorem undisturbed_of_literals (h : s.code.ReturnsLiterals)
    (hample : checker.Ample (.returnType b) s) : checker.Undisturbed s.code.literalType b s := by
  refine .inr ⟨hample, fun es x _ => ?_⟩
  rw [passAll_of_literals h]
  refine ⟨rfl, rfl, fun value definition hform => ?_⟩
  obtain ⟨text, hliteral⟩ := h.form_eq hform
  exact ample_typeOf_literal hliteral

/-- Three bodies. The exits of the first two contribute the same types, in branches and beside a
loop that returns something else, or in one sequence; those of the third contribute different
types. -/
def literalExits : CompilationUnit where
  nodes := #[.ofForm 0 (.literal .uint64 "1"), .ofForm 0 (.ret (some 0) none),
    { Node.ofForm 0 .block with children := [1] },
    .ofForm 0 .abort, { Node.ofForm 0 .block with children := [3] },
    .ofForm 0 (.literal .uint64 "1"), { Node.ofForm 0 (.branch 5) with children := [2, 4] },
    .ofForm 0 (.literal .bytes "\"a\""), .ofForm 0 (.ret (some 7) none),
    { Node.ofForm 0 .block with children := [8] },
    .ofForm 0 (.literal .uint64 "1"), { Node.ofForm 0 (.loop 10) with children := [9] },
    .ofForm 0 (.ret none none),
    { Node.ofForm 0 (.function "f" [] false) with children := [6, 11, 12] },
    .ofForm 0 (.literal .uint64 "2"), .ofForm 0 (.ret (some 14) none),
    .ofForm 0 .abort, { Node.ofForm 0 .block with children := [15, 16] },
    .ofForm 0 .abort, .ofForm 0 (.literal .bytes "\"b\""), .ofForm 0 (.ret (some 19) none),
    { Node.ofForm 0 .block with children := [20] },
    { Node.ofForm 0 .block with children := [18, 21] }]
  scopes := .initial "global"

/-- The first two bodies return the same type, which is found with a parser or without one, and
the exits of the third one disagree. -/
theorem ask_returnType_of_settled_literalExits :
    let checker : Checker Unit := ⟨Standard.spec, .strict, none⟩
    let s : CheckState Unit := ⟨literalExits, ()⟩
    literalExits.exits 13 = [1, 3, 12] ∧ literalExits.exits 17 = [15, 16] ∧
    (checker.ask (.returnType 13) s).1 = .ok .uint64 ∧
    (((emptyBodies 0).ask (.returnType 17) s).1 = .ok .uint64 ↔
      (checker.ask (.returnType 13) s).1 = .ok .uint64) ∧
    ∃ a c : Ty, a ≠ c ∧ ∃ position, (checker.ask (.returnType 22) s).1 =
      .error (.fault ⟨.blockMismatch a.name c.name, position⟩) := by
  intro checker s
  have hliterals : s.code.ReturnsLiterals := CompilationUnit.returnsLiterals_of_forall (by decide)
  have hacyclic : s.code.Acyclic :=
    CompilationUnit.acyclic_of_lt (CompilationUnit.link_lt_of_forall (by decide))
  have hsettled : ∀ b, checker.Settled s.code.literalType b s := fun b =>
    settled_of_literals hliterals hacyclic.acyclicFrom (.inl ⟨rfl, hacyclic⟩)
  have hexec : ∀ d, 2 ≤ d →
      exec (((emptyBodies 0).context d).answer (.returnType 17)) s = (.ok .uint64, s) := by
    intro d hd
    obtain ⟨d, rfl⟩ := Nat.exists_eq_add_of_le' hd
    rfl
  have hdepth : 2 ≤ (emptyBodies 0).depth s.code := by
    unfold depth ownDepth
    nlinarith
  have hparsed : (emptyBodies 0).Settled s.code.literalType 17 s := by
    refine settled_of_literals hliterals hacyclic.acyclicFrom
      (undisturbed_of_literals hliterals fun d hd => ?_)
    rw [ask_eq_exec, hexec d (hdepth.trans hd), hexec _ hdepth]
  obtain ⟨hknown, -, -, hsame⟩ := ask_returnType_of_settled (hsettled 13)
  obtain ⟨-, -, hmismatch, -⟩ := ask_returnType_of_settled (hsettled 22)
  have hthird : s.code.contributions checker.config s.code.literalType (s.code.exits 22) =
      [.uint64, .bytes] := by decide
  refine ⟨by decide, by decide, (hknown .uint64 rfl).mpr (by decide),
    hsame (emptyBodies 0) _ 17 s hparsed (by decide) .uint64, ?_⟩
  rw [hthird] at hmismatch
  obtain ⟨a, -, c, -, hne, herror⟩ :=
    hmismatch fun hagree => nomatch hagree .uint64 (by decide) .bytes (by decide)
  exact ⟨a, c, hne, herror⟩

end Checker

end ContractLang
