import ContractLang.Operation.Standard
import ContractLang.Proofs.Typing.Reproduce
import ContractLang.Proofs.Typing.Validate

/-!
# The check of an expression reaches every call

Checking an expression takes two walks over it, one that types it and one that looks into its
calls, and what the first finds out is on record for the second. The second walk nevertheless
decides a property of the expression as it was in the beginning, because all answers are
reproduced: an expression is accepted if it has a type, all of its parts have one, and the
arguments of every operation in it, however deep, suit the operation
(`ContractLang.Checker.ask_expression_eq_ok_iff`).
-/

namespace ContractLang

open Check CompilationUnit Relation

/-- Throughout an expression, no calls but those of functions are connected with definitions. -/
def CompilationUnit.ConnectsOnlyFunctions (code : CompilationUnit) (x : NodeId) : Prop :=
  ∀ y name, ReflTransGen code.Part x y → code.form y = .call name →
    (code.node y).definition.isSome → (code.scopes.binding? (code.node y).scope name).isSome

namespace CompilationUnit

/-- A function is called with the digest of a number. The call of the operation that takes it has a
type on record that no answer to it would be. -/
def digestOfNumber : CompilationUnit where
  nodes := #[.ofForm 0 (.literal .uint64 "1"), .ofForm 0 (.ret (some 0) none),
    { Node.ofForm 0 (.function "f" [] false) with children := [1] },
    .ofForm 0 (.literal .uint64 "7"),
    { Node.ofForm 0 (.call "sha256") with children := [3], type := .uint64 },
    { Node.ofForm 0 (.call "f") with children := [4] }]
  scopes := ⟨#[{ Scope.fresh "global" none 0 with
    entries := [("f", ⟨"f", .uint64, .func (.resolved 2)⟩)] }], .initial⟩

namespace DigestOfNumber

variable {y : NodeId} {name : String}

theorem form_eq_call (h : digestOfNumber.form y = .call name) :
    y = 4 ∧ name = "sha256" ∨ y = 5 ∧ name = "f" := by
  have hcalls : ∀ a < 6, digestOfNumber.isCall a → a = 4 ∨ a = 5 := by decide
  have hsize : y < digestOfNumber.size := lt_size_of_form (by rw [h]; nofun)
  rcases hcalls y hsize (by rw [isCall, h]) with rfl | rfl
  · cases h
    exact .inl ⟨rfl, rfl⟩
  · cases h
    exact .inr ⟨rfl, rfl⟩

theorem form_ne_ident : digestOfNumber.form y ≠ .ident name := by
  intro h
  have hidents : ∀ a < 6, ¬(digestOfNumber.form a matches .ident _) := by decide
  have hsize : y < digestOfNumber.size := lt_size_of_form (by rw [h]; nofun)
  exact hidents y hsize (by rw [h])

end DigestOfNumber

end CompilationUnit

namespace Checker

variable {σ α : Type} {checker : Checker σ} {s : CheckState σ} {x : NodeId}

/-! ### The units that the check comes to -/

/-- The check of an expression comes to units in which nothing but answers has been learned, and
definitions have been connected with calls of functions only. -/
structure Visits (checker : Checker σ) (s : CheckState σ) (code : CompilationUnit) : Prop where
  recalls : (checker.typing s.code).RecallsAs (checker.typeIn s) code
  advances : (checker.typing s.code).Advances s.code code

/-- The check starts from one of them. -/
theorem visits_self (checker : Checker σ) (s : CheckState σ) : checker.Visits s s.code :=
  ⟨checker.recallsAs_typeIn s, .refl _ _⟩

/-- What a computation yields from every unit that has learned nothing but answers, it decides. -/
theorem decides_of_yields {action : Check σ α} {r : Except Halt α}
    (h : (checker.typing s.code).YieldsAs (checker.typeIn s) action r)
    (hne : r ≠ .error .outOfDepth) :
    Check.Decides (checker.Visits s) action fun a => r = .ok a := by
  intro t ht a
  have hend := h hne t ht.recalls
  rw [hend.answer]
  exact ⟨Iff.rfl, fun _ => ⟨hend.recalls, ht.advances.trans hend.advances⟩⟩

/-- In the units that the check comes to, a call of an operation that was not connected with a
definition still is not. -/
theorem walkable_visits
    (hlinked : ∀ name, s.code.form x = .call name → (s.code.node x).definition.isSome →
      (s.code.scopes.binding? (s.code.node x).scope name).isSome) :
    (checker.typing s.code).Walkable (checker.Visits s) x where
  alike _ hc := hc.recalls.alike
  unlinked c hc name hform hnone := by
    refine Option.not_isSome_iff_eq_none.mp fun hdef => ?_
    have hsome : (s.code.scopes.binding? (s.code.node x).scope name).isSome := by
      rcases hc.advances.proper x hdef with hdef | ⟨f, other, hother, hf⟩
      · exact hlinked name hform hdef
      · cases hform.symm.trans hother
        rw [show s.code.scopes.binding? (s.code.node x).scope name = _ from hf]
        rfl
    rw [show s.code.scopes.binding? (s.code.node x).scope name = none from hnone] at hsome
    cases hsome

/-! ### Walking over an expression -/

theorem decides_typeOf_of_part {y : NodeId} (hcode : s.code.Descends x)
    (hx : (checker.typing s.code).Settled [] x) (hy : y ∈ s.code.parts x) {d : Nat}
    (hd : s.code.span s.code.Leads x ≤ d) :
    Check.Decides (checker.Visits s) ((checker.context d).judge (.typeOf [] y)) fun type =>
      checker.typeIn s y = .ok type := by
  have hyields := yields_of_link hcode hx
    (fun R z hlead hz => reproduces (hcode.of_reaches hlead.to_reflTransGen) hz)
    (link_of_mem_parts hy)
  exact decides_of_yields (hyields.1 d hd) hyields.2

/-- **The walk over an expression decides whether the answers about its calls cohere**, at every
depth that suffices. -/
theorem decides_calls_of_settled {d : Nat} (hcode : s.code.Descends x)
    (hx : (checker.typing s.code).Settled [] x) (hlinked : s.code.ConnectsOnlyFunctions x)
    (hd : s.code.span s.code.Leads x < d) :
    Check.Decides (checker.Visits s) ((checker.context d).judge (.calls x)) fun _ =>
      (checker.typing s.code).CallsCohere (checker.typeIn s) x := by
  induction d generalizing x with
  | zero => exact absurd hd (Nat.not_lt_zero _)
  | succ d ih =>
    have hdepth := Nat.le_of_lt_succ hd
    refine Typing.decides_callsRule (Supply.spec_context checker.supply _ _ d)
      (walkable_visits fun name => hlinked x name .refl)
      (fun y hy => decides_typeOf_of_part hcode hx hy hdepth) fun y hy ⟨type, htype⟩ => ?_
    -- The walk does not go on from a definition of a function, which has no type.
    have hdef : ¬s.code.IsDefinition y := by
      intro hdef
      obtain ⟨e, he, -⟩ := checker.exists_yields_typeOf_of_isDefinition hdef
      cases he.symm.trans htype
    have hlead : s.code.Leads x y := .of_link (link_of_mem_parts hy) hdef
    exact ih (hcode.of_reaches (.single hlead)) (hx.of_leads hlead)
      (fun z name hz => hlinked z name (.head hy hz))
      ((hcode.span_lt (.single hlead)).trans_le hdepth)

/-! ### Queries -/

/-- **The check of an expression reaches every call in it.** It is accepted with a type if and only
if it has this type, every node that it is made of has one, and for each argument of each operation
in it, to any depth, the signature has an entry that does not clash with the type of the argument.
Nothing is asked of the types on record. What evaluating the expression comes to has to be acyclic,
the functions called resolved and none of them recursive, and no name may stand for a function. -/
theorem ask_expression_eq_ok_iff (checker : Checker σ) (s : CheckState σ) (x : NodeId)
    (hlinks : ∀ y, s.code.Reaches x y → ¬TransGen s.code.Link y y)
    (hresolved : ∀ call name binding, s.code.Reaches x call → s.code.form call = .call name →
      s.code.scopes.binding? (s.code.node call).scope name = some binding →
        ∃ f, binding = .resolved f)
    (hnonrecursive : ∀ f, s.code.ReachesFunction x f → ¬s.code.Recursive f)
    (hnames : ∀ y name, s.code.Reaches x y → s.code.form y = .ident name →
      s.code.scopes.binding? (s.code.node y).scope name = none)
    (hconnects : s.code.ConnectsOnlyFunctions x) (type : Ty) :
    (checker.ask (.expression x) s).1 = .ok type ↔
      (checker.ask (.typeOf x) s).1 = .ok type ∧
        (checker.typing s.code).Coheres (fun y => (checker.ask (.typeOf y) s).1) x := by
  have hcode : s.code.Descends x := descends_of_nonrecursive hlinks hnonrecursive
  have hx : (checker.typing s.code).Settled [] x :=
    ⟨fun y hy name binding => hresolved y name binding hy, hnonrecursive, nofun,
      Typing.namesSettled_of_binding? hnames⟩
  obtain ⟨d, hd, hask⟩ := checker.exists_size_le_ask_eq s
  have hspan : s.code.span s.code.Leads x < d + 1 :=
    Nat.lt_succ_of_le ((span_le_size _ _ x).trans hd)
  have hyields := reproduces hcode hx
  have hdecides : Check.Decides (checker.Visits s) ((checker.context (d + 1)).checkExpr x) _ :=
    Typing.decides_checkExpr (decides_of_yields (hyields.typeOf (d + 1) hspan) hyields.typed)
      fun _ => decides_calls_of_settled hcode hx hconnects hspan
  rw [hask]
  exact (hdecides s (checker.visits_self s) type).1

/-- The call of a function has a type, but is not accepted: its argument is the call of an
operation with an argument that does not suit it. -/
theorem ask_expression_digestOfNumber :
    let checker : Checker Unit := ⟨Standard.spec, .strict, none⟩
    (checker.ask (.typeOf 5) ⟨digestOfNumber, ()⟩).1 = .ok .uint64 ∧
      (checker.ask (.expression 5) ⟨digestOfNumber, ()⟩).1 ≠ .ok .uint64 := by
  intro checker
  refine ⟨rfl, fun haccepted => ?_⟩
  have hlower : ∀ a < digestOfNumber.size,
      ∀ b ∈ (digestOfNumber.form a).operands ++ digestOfNumber.children a, b < a := by decide
  have hcoheres := ((checker.ask_expression_eq_ok_iff ⟨digestOfNumber, ()⟩ 5
    (fun y _ => acyclic_of_lt (link_lt_of_forall hlower) y)
    (fun call name binding _ hform hname => by
      rcases DigestOfNumber.form_eq_call hform with ⟨rfl, rfl⟩ | ⟨rfl, rfl⟩
      · cases hname
      · cases hname
        exact ⟨2, rfl⟩)
    (fun f _ => not_recursive_of_lt (leads_lt_of_forall hlower (by decide)) f)
    (fun y name _ hform => absurd hform DigestOfNumber.form_ne_ident)
    (fun y name _ hform hdef => by
      rcases DigestOfNumber.form_eq_call hform with ⟨rfl, rfl⟩ | ⟨rfl, rfl⟩ <;> cases hdef)
    .uint64).mp haccepted).2
  have hpart : ReflTransGen digestOfNumber.Part 5 4 :=
    .single (show 4 ∈ [4] from List.mem_singleton_self 4)
  obtain ⟨expected, received, hexpected, hreceived, hclash⟩ :=
    (hcoheres 4 hpart).2 "sha256" rfl rfl 0 3 rfl
  cases hexpected
  cases hreceived
  exact hclash rfl

end Checker

end ContractLang
