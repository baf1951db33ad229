import ContractLang.Proofs.Aborts.Follow
import ContractLang.Proofs.Statements.Depth
import ContractLang.Proofs.Statements.Refining
import ContractLang.Operation.Standard

/-!
# Leniency with aborts

To let aborts take any return type instead of that of words is meant to permit more. Of functions
that return nothing it permits less: a call of one has no type then, and most uses of a value
need one (`ContractLang.Checker.lenient_rejects`). A program that is in order for the strict checker
is in order for the lenient one if functions that return nothing are used for what they do only, and
the type of a function that returns a value is nowhere found out from aborts alone
(`ContractLang.Checker.lenient_of_strict`).

The lenient checker follows the strict one at every depth
(`ContractLang.comparingContext_followed`), by the rules for judgements of either and, where the
return type of a function comes out, by what has been found in the comparison
(`ContractLang.comparing_eq`).
-/

namespace ContractLang

open Check CompilationUnit

section Followed

variable {v : CompilationUnit} {spec : OpSpec} {d : Nat} {f b : NodeId} {R : List NodeId}
  {s s' : CheckState (List Comparison)} {type : Ty}

/-- What is compared is decided as before, and noted if it is the return type of a function. -/
theorem exec_comparing_eq_ok {rule : {α : Type} → Judgement α → Check (List Comparison) α}
    (h : exec (comparing spec d rule (.returnType (f :: R) b)) s = (.ok type, s')) :
    ∃ u, exec (rule (.returnType (f :: R) b)) s = (.ok type, u) ∧ s'.code = u.code ∧
      u.notes ⊆ s'.notes ∧ (f = b → ⟨f, type, (exec ((Supply.nothing.context spec d .lenient).judge
        (.returnType (f :: R) b)) ⟨s.code, ()⟩).1⟩ ∈ s'.notes) := by
  unfold comparing at h
  obtain ⟨start, _, hcode, h⟩ := exec_bind_eq_ok h
  cases hcode
  obtain ⟨found, u, hu, h⟩ := exec_bind_eq_ok h
  split at h
  · cases h
    exact ⟨u, hu, rfl, List.subset_append_left _ _, fun _ => List.mem_append_right _ (.head _)⟩
  · next hne =>
    cases h
    exact ⟨s', hu, rfl, List.Subset.refl _, fun heq => absurd heq hne⟩

/-- What is left of a body is followed when it is compared, too. -/
theorem comparing_fades {rule : {α : Type} → Judgement α → Check (List Comparison) α}
    {a : Check Unit Ty} (h : Simulates v Ty.Fades (rule (.returnType R b)) a) :
    Simulates v Ty.Fades (comparing spec d rule (.returnType R b)) a := by
  cases R with
  | nil => exact h
  | cons f R =>
    intro s type s' hexec hs
    obtain ⟨u, hu, hcode, hnotes, -⟩ := exec_comparing_eq_ok hexec
    obtain ⟨hbefore, hfollow⟩ := h s type u hu hs
    have hlast : Before u s' := ⟨hcode ▸ .refl _, hnotes⟩
    refine ⟨hbefore.trans hlast, fun hfair => ?_⟩
    obtain ⟨y, hy, hattains⟩ := hfollow (hfair.before hlast)
    exact ⟨y, hy, fun t ht => hcode ▸ hattains t ht⟩

/-- **The return type of a function that is not mute** has not faded if the comparison has found
one. -/
theorem comparing_eq {rule : {α : Type} → Judgement α → Check (List Comparison) α}
    (hf : ¬v.Mute f)
    (h : Simulates v Ty.Fades (rule (.returnType (f :: R) f))
      ((Supply.nothing.context spec d .lenient).judge (.returnType (f :: R) f))) :
    Simulates v Eq (comparing spec d rule (.returnType (f :: R) f))
      ((Supply.nothing.context spec d .lenient).judge (.returnType (f :: R) f)) := by
  intro s type s' hexec hs
  obtain ⟨hbefore, hfollow⟩ := comparing_fades h s type s' hexec hs
  refine ⟨hbefore, fun hfair => ?_⟩
  obtain ⟨y, hfades, hattains⟩ := hfollow hfair
  obtain ⟨u, hu, hcode, -, hnoted⟩ := exec_comparing_eq_ok hexec
  -- The comparison was made in a unit that lags behind that of the strict run, namely that one.
  obtain rfl : y = type := by
    refine hfades.resolve_right fun ⟨hword, hunknown⟩ => ?_
    obtain ⟨found, hfound, hknown⟩ := hfair.notes _ (hnoted rfl) hf (hword ▸ rfl)
    rcases hattains ⟨s.code, ()⟩ (.refl _) with ⟨_, hdepth⟩ | ⟨_, hok, -⟩
    · rw [hdepth] at hfound
      cases hfound
    · rw [hok] at hfound
      cases hfound
      exact hunknown hknown
  exact ⟨y, rfl, hattains⟩

/-- **The lenient checker follows the strict one** at every depth. -/
theorem comparingContext_followed (hv : v.Procedural spec) (d : Nat) :
    (comparingContext spec d).Followed spec v (Supply.nothing.context spec d .lenient) := by
  induction d with
  | zero =>
    have hstuck : ∀ {α : Type} {V : α → α → Prop} {b : Check Unit α},
        Simulates v V (throw .outOfDepth) b := fun _ _ _ hexec => by cases hexec
    exact {
      spec_eq := rfl
      spec_eq' := rfl
      strict := rfl
      lenient := rfl
      quiet := comparingContext_quiet spec 0
      quiet' := Supply.nothing.quiet spec .lenient 0
      typeOf := fun _ _ _ => hstuck
      typeOf_mute := fun _ _ _ => hstuck.trails
      returnType := fun _ _ => hstuck
      functionType := fun _ _ _ => hstuck
      calls := fun _ => hstuck
      statement := fun _ => hstuck }
  | succ d ih =>
    have hfades : ∀ R b, Simulates v Ty.Fades
        ((comparingContext spec d).rule (Context.materialize none) (.returnType R b))
        ((Supply.nothing.context spec (d + 1) .lenient).judge (.returnType R b)) :=
      fun _ _ => ih.returnTypeRule hv
    exact {
      spec_eq := rfl
      spec_eq' := rfl
      strict := rfl
      lenient := rfl
      quiet := comparingContext_quiet spec (d + 1)
      quiet' := Supply.nothing.quiet spec .lenient (d + 1)
      typeOf := fun _ _ hx => ih.typeRule hv hx
      typeOf_mute := fun _ _ hx => ih.typeRule_mute hv hx
      returnType := fun R b => comparing_fades (hfades R b)
      functionType := fun R f hf => comparing_eq hf (hfades (f :: R) f)
      calls := fun _ => ih.callsRule
      statement := fun _ => ih.statementRule hv }

end Followed

/-! ### Programs that abort -/

/-- A unit with a procedure that aborts, and a function that aborts or returns a number. -/
def CompilationUnit.procedures : CompilationUnit where
  nodes := #[.ofForm 0 .abort,
    { Node.ofForm 0 (.function "f" [] false) with children := [0] },
    .ofForm 0 (.call "f"), .ofForm 0 (.literal .uint64 "1"), .ofForm 0 (.ret (some 3) none),
    { Node.ofForm 0 (.function "g" [] false) with children := [0, 4] },
    .ofForm 0 (.call "g"), .ofForm 0 (.binary "+" 6 3),
    { Node.ofForm 0 .program with children := [1, 2, 5, 7] }]
  scopes := ⟨#[{ Scope.fresh "global" none 0 with
    entries := [("f", ⟨"f", .unknown, .func (.resolved 1)⟩),
      ("g", ⟨"g", .unknown, .func (.resolved 5)⟩)] }], .initial⟩

/-- A unit with the given program, which may contain the sum of a number and a call of a procedure
that aborts (4) or its name (6), or a call of a function that aborts or returns a variable (11), or
procedures (13) and functions (12, 15) of one and the same name. -/
def CompilationUnit.aborts (program : List NodeId) : CompilationUnit where
  nodes := #[.ofForm 0 .abort,
    { Node.ofForm 0 (.function "f" [] false) with children := [0] },
    .ofForm 0 (.call "f"), .ofForm 0 (.literal .uint64 "1"), .ofForm 0 (.binary "+" 2 3),
    .ofForm 0 (.ident "f"), .ofForm 0 (.binary "+" 5 3),
    .ofForm 0 (.ident "x"), .ofForm 0 (.ret (some 7) none),
    { Node.ofForm 0 (.function "g" [] false) with children := [0, 8] },
    .ofForm 0 (.call "g"), .ofForm 0 (.binary "+" 10 3),
    { Node.ofForm 0 (.function "h" [] false) with children := [8] },
    { Node.ofForm 0 (.function "h" [] false) with children := [0] },
    .ofForm 0 (.ret (some 3) none),
    { Node.ofForm 0 (.function "h" [] false) with children := [14] },
    .ofForm 0 (.literal .bytes "0x61"), .ofForm 0 (.assign (.single "x") 16),
    .ofForm 0 (.call "h"),
    { Node.ofForm 0 .program with children := program }]
  scopes := ⟨#[{ Scope.fresh "global" none 0 with
    entries := [("f", ⟨"f", .unknown, .func (.resolved 1)⟩),
      ("g", ⟨"g", .unknown, .func (.resolved 9)⟩),
      ("h", ⟨"h", .unknown, .func (.resolved 12)⟩), ("x", ⟨"x", .unknown, .var 0⟩)] }], .initial⟩

namespace CompilationUnit

section Procedures

variable {v : CompilationUnit} (h : procedures.Precedes v)

include h

theorem procedures_lt {x : NodeId} (hx : v.form x ≠ .block) : x < procedures.size :=
  lt_size_of_form (by rwa [← h.build.form])

theorem procedures_mute_iff {f : NodeId} (hf : f = 1 ∨ f = 5) : v.Mute f ↔ f = 1 := by
  refine ⟨fun hmute => hf.resolve_right ?_, ?_⟩
  · rintro rfl
    exact h.build.symm.mute hmute 3 (.here (show 4 ∈ _ by decide) rfl)
  · rintro rfl
    refine h.build.mute (mute_of_forall fun stmt hstmt => ?_)
    obtain rfl : stmt = 0 := List.mem_singleton.mp hstmt
    exact ⟨id, nofun⟩

/-- The one call of a mute function is the statement of the program. -/
theorem procedures_callsMute {x : NodeId} (hx : v.CallsMute x) : x = 2 := by
  obtain ⟨f, ⟨name, hform, hname⟩, hmute⟩ := hx
  have hcall : x = 2 ∨ x = 6 := (by decide : ∀ x < 9,
    (procedures.form x).label = "fun call" → x = 2 ∨ x = 6) x
      (procedures_lt h (by simp [hform])) (by rw [← h.build.form, hform]; rfl)
  refine hcall.resolve_right ?_
  rintro rfl
  rw [h.build.form] at hform
  cases (hform : Form.call "g" = .call name)
  have hbound : v.scopes.binding? 0 "g" = some (.resolved 5) :=
    h.scopes.binding?_eq_some rfl nofun
  rw [h.build.scope] at hname
  cases hbound.symm.trans hname
  exact absurd ((procedures_mute_iff h (.inr rfl)).mp hmute) (by decide)

theorem procedures_muteName {home : ScopeId} {name : String} (hname : v.MuteName home name) :
    name = "f" ∧ home = 0 := by
  have hhome : ∀ {x}, x < 9 → v.scopes.declaring? (v.node x).scope "f" = some home → home = 0 := by
    intro x hx hx'
    rw [h.scopes.declaring?, h.build.scope] at hx'
    have h0 : (procedures.node x).scope = 0 :=
      (by decide : ∀ x < 9, (procedures.node x).scope = 0) x hx
    rw [h0] at hx'
    exact (Option.some.inj hx').symm
  cases hname with
  | call hmute hform hdeclared =>
    obtain rfl := procedures_callsMute h hmute
    rw [h.build.form] at hform
    cases (hform : Form.call "f" = .call name)
    exact ⟨rfl, hhome (by decide) hdeclared⟩
  | @definition f params inlined hmute hform hdeclared =>
    have hlt : f < 9 := procedures_lt h (by simp [hform])
    rw [h.build.form] at hform
    have hf : f = 1 ∨ f = 5 := (by decide : ∀ f < 9,
      (procedures.form f).label = "func" → f = 1 ∨ f = 5) f hlt (by rw [hform]; rfl)
    obtain rfl := (procedures_mute_iff h hf).mp hmute
    cases (hform : Form.function "f" [] false = .function name params inlined)
    exact ⟨rfl, hhome hlt hdeclared⟩

/-- Whatever is found out about it, a procedure is used as one. -/
theorem procedures_procedural : v.Procedural Standard.spec where
  apart := by
    intro x hx y hy
    obtain rfl := procedures_callsMute h hx
    cases hy with
    | operand hmem =>
      have hlt : y < 9 := procedures_lt h fun hform => by
        rw [hform] at hmem
        cases hmem
      rw [h.build.form] at hmem
      exact (by decide : ∀ y < 9, 2 ∉ (procedures.form y).demands) y hlt hmem
    | argument hform hdependent =>
      have hnone : procedures.children y = [] := (by decide : ∀ y < 9,
        (procedures.form y).label = "fun call" → procedures.children y = []) y
          (procedures_lt h (by simp [hform])) (by rw [← h.build.form, hform]; rfl)
      rw [h.build.children, hnone] at hdependent
      obtain ⟨i, -, hi⟩ := Option.bind_eq_some_iff.mp hdependent
      cases hi
  unread := by
    intro home name _ x hform
    have hident := (by decide : ∀ x < 9, (procedures.form x).label ≠ "expr ident") x
      (procedures_lt h (by simp [hform]))
    rw [← h.build.form, hform] at hident
    exact absurd rfl hident
  unshared := by
    intro home name hname f hbinding
    obtain ⟨rfl, rfl⟩ := procedures_muteName h hname
    have hstart : procedures.scopes.binding? 0 "f" = some (.resolved 1) := rfl
    obtain ⟨home, hhome, hbound⟩ := ScopeTree.binding?_eq_some_iff.mp
      (h.scopes.binding?_eq_some hstart nofun)
    rw [h.scopes.declaring?] at hhome
    obtain rfl : home = 0 := (Option.some.inj hhome).symm
    cases hbound.symm.trans hbinding
    exact (procedures_mute_iff h (.inl rfl)).mpr rfl

end Procedures

end CompilationUnit

namespace Checker

/-- Without a parser, no bodies are supplied. -/
theorem ask_of_parser_none {σ α : Type} (spec : OpSpec) (config : Config) (q : Query α)
    (s : CheckState σ) : (⟨spec, config, none⟩ : Checker σ).ask q s =
      exec ((Supply.nothing.context spec (ownDepth s.code) config).answer q) s :=
  ask_eq_exec _ q s

/-- **To be lenient with aborts is to be more permissive** where functions that return nothing are
used for what they do only, and where the types of those that return a value do not come from aborts
alone. Without a parser, if the strict checker accepts a program without cycles, so does the lenient
one, provided that mute functions are procedures in the unit that the strict one leaves, and that
wherever it has found a return type of any other function, the lenient one finds one in its place.
The unit that the lenient one leaves is then the same but for the types of calls of mute functions
and of mute names. -/
theorem lenient_of_strict {σ : Type} (spec : OpSpec) (program : NodeId) (s s' : CheckState σ)
    (hcode : s.code.Acyclic)
    (hstrict : (⟨spec, .strict, none⟩ : Checker σ).ask (.statements program) s = (.ok (), s'))
    (hprocedural : s'.code.Procedural spec)
    (hcompared : ∀ c ∈ comparisons spec (.statements program) s.code,
      ¬s.code.Mute c.function → c.KeepsType) :
    ∃ t, (⟨spec, .lenient, none⟩ : Checker σ).ask (.statements program) s = (.ok (), t) ∧
      s'.code.Lags t.code := by
  have hrefines : s.code.RefinesTo s'.code := by
    have h : s.code.RefinesTo
        ((⟨spec, .strict, none⟩ : Checker σ).ask (.statements program) s).2.code :=
      keeps_answer _ rfl _ id s.code s (.refl s.code)
    rwa [hstrict] at h
  have hbuild : s'.code.SameBuild s.code := fun id => (hrefines.fixed id).symm
  rw [ask_of_parser_none] at hstrict ⊢
  have hcomparing := (comparingContext_corresponds (τ := σ) spec (ownDepth s.code)).answer
    SameUnit.indifferent.admissible (.statements program) ⟨s.code, []⟩ s rfl
  rw [hstrict] at hcomparing
  obtain ⟨-, hfollow⟩ := (comparingContext_followed hprocedural (ownDepth s.code)).checkChildren
    ⟨s.code, []⟩ () _ (Prod.ext hcomparing.answer rfl) hbuild
  obtain ⟨_, -, hattains⟩ := hfollow ⟨hcomparing.state ▸ .refl _,
    fun c hc hloud => hcompared c hc fun hmute => hloud (hbuild.symm.mute hmute)⟩
  have hlenient := (nothing_corresponds (σ := Unit) (τ := σ) spec (ownDepth s.code) .lenient).answer
    SameUnit.indifferent.admissible (.statements program) ⟨s.code, ()⟩ s rfl
  rcases hattains ⟨s.code, ()⟩ (.refl _) with ⟨t, hdepth⟩ | ⟨t, hok, hlags⟩
  · have hbodiless := (⟨spec, .lenient, none⟩ : Checker Unit).bodiless rfl s.code
    exact absurd (congrArg Prod.fst hdepth) (Supply.answer_ne_outOfDepth hbodiless hcode
      (Nat.le_refl _) (.statements program) ⟨s.code, ()⟩ (.refl _))
  · have hok' : exec ((Supply.nothing.context spec (ownDepth s.code) .lenient).answer
        (.statements program)) ⟨s.code, ()⟩ = (.ok (), t) := hok
    rw [hok'] at hlenient
    refine ⟨_, Prod.ext hlenient.answer.symm rfl, ?_⟩
    rw [← hlenient.state, ← hcomparing.state]
    exact hlags

/-- A program that calls a procedure and a function, and in which aborts do not matter. -/
theorem lenient_of_strict_procedures :
    let code := CompilationUnit.procedures
    let out := (⟨Standard.spec, .strict, none⟩ : Checker Unit).ask (.statements 8) ⟨code, ()⟩
    code.Acyclic ∧ out = (.ok (), out.2) ∧ out.2.code.Procedural Standard.spec ∧
      (∀ c ∈ comparisons Standard.spec (.statements 8) code,
        ¬code.Mute c.function → c.KeepsType) ∧
      ∃ t, (⟨Standard.spec, .lenient, none⟩ : Checker Unit).ask (.statements 8) ⟨code, ()⟩ =
        (.ok (), t) ∧ out.2.code.Lags t.code := by
  have hacyclic : CompilationUnit.procedures.Acyclic :=
    acyclic_of_lt (link_lt_of_forall (by decide))
  have hrefines := keeps_answer (⟨Standard.spec, .strict, none⟩ : Checker Unit) rfl
    (.statements 8) id CompilationUnit.procedures ⟨CompilationUnit.procedures, ()⟩ (.refl _)
  have hprocedural := procedures_procedural ⟨hrefines.fixed, hrefines.scopes⟩
  have hcompared : ∀ c ∈ comparisons Standard.spec (.statements 8) CompilationUnit.procedures,
      ¬CompilationUnit.procedures.Mute c.function → c.KeepsType := by
    have hnoted : comparisons Standard.spec (.statements 8) CompilationUnit.procedures =
        [⟨1, .uint64, .ok .unknown⟩, ⟨1, .uint64, .ok .unknown⟩, ⟨5, .uint64, .ok .uint64⟩,
          ⟨5, .uint64, .ok .uint64⟩] := by rfl
    have hmute : CompilationUnit.procedures.Mute 1 :=
      (procedures_mute_iff (.refl _) (.inl rfl)).mpr rfl
    have hkeeps : (⟨5, .uint64, .ok .uint64⟩ : Comparison).KeepsType := fun _ => ⟨_, rfl, rfl⟩
    rw [hnoted]
    simp [hmute, hkeeps]
  exact ⟨hacyclic, Prod.ext rfl rfl, hprocedural, hcompared,
    lenient_of_strict Standard.spec 8 _ _ hacyclic (Prod.ext rfl rfl) hprocedural hcompared⟩

/-- **To be lenient with aborts is to be less permissive** where types come from aborts alone. The
strict checker accepts a program that adds one to a call of a procedure that aborts, and the lenient
one rejects it. It also rejects the sum of one and the name of that procedure, or a call of a
function that aborts or returns a variable of which no type is known yet, and the definition of a
function by the name of a procedure that has been defined before. -/
theorem lenient_rejects :
    let strict : Checker Unit := ⟨Standard.spec, .strict, none⟩
    let lenient : Checker Unit := ⟨Standard.spec, .lenient, none⟩
    let mismatch (text : String) : Halt :=
      .fault (.unplaced (.operandMismatch "left" "uint64" "unknown" text))
    let called := CompilationUnit.aborts [4]
    let named := CompilationUnit.aborts [2, 6]
    let returned := CompilationUnit.aborts [11]
    let shared := CompilationUnit.aborts [13, 17, 18, 15]
    (called.Acyclic ∧ called.form 19 = .program ∧
      (strict.ask (.statements 19) ⟨called, ()⟩).1 = .ok () ∧
      (lenient.ask (.statements 19) ⟨called, ()⟩).1 = .error (mismatch "f() + 1")) ∧
    (named.Acyclic ∧ named.form 19 = .program ∧
      (strict.ask (.statements 19) ⟨named, ()⟩).1 = .ok () ∧
      (lenient.ask (.statements 19) ⟨named, ()⟩).1 = .error (mismatch "ident f + 1")) ∧
    (returned.Acyclic ∧ returned.form 19 = .program ∧
      (strict.ask (.statements 19) ⟨returned, ()⟩).1 = .ok () ∧
      (lenient.ask (.statements 19) ⟨returned, ()⟩).1 = .error (mismatch "g() + 1")) ∧
    shared.Acyclic ∧ shared.form 19 = .program ∧
      (strict.ask (.statements 19) ⟨shared, ()⟩).1 = .ok () ∧
      (lenient.ask (.statements 19) ⟨shared, ()⟩).1 =
        .error (.fault (.unplaced (.typeMismatch "byte[]" "uint64" "function h"))) := by
  exact ⟨⟨acyclic_of_lt (link_lt_of_forall (by decide)), rfl, rfl, rfl⟩,
    ⟨acyclic_of_lt (link_lt_of_forall (by decide)), rfl, rfl, rfl⟩,
    ⟨acyclic_of_lt (link_lt_of_forall (by decide)), rfl, rfl, rfl⟩,
    acyclic_of_lt (link_lt_of_forall (by decide)), rfl, rfl, rfl⟩

end Checker

end ContractLang
