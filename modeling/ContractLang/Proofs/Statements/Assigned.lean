import ContractLang.Operation.Standard
import ContractLang.Proofs.Runs.Deepening
import ContractLang.Proofs.Scope.Slots
import ContractLang.Proofs.Statements.Targets
import ContractLang.Proofs.Typing.Footprint

/-!
# What assignments leave behind

An assignment evaluates its value, which gives types to functions at most, and then binds its
targets. If it is accepted, it has put on record what it gives its targets, each of them has the
type that it is given, and nothing else has changed its type but functions that were called in the
value (`ContractLang.Checker.accepted_targets`).

If it is rejected, nothing goes on record for it. But the targets that were bound before the one
that is refused keep the types that they have got: the variables and constants are left as they
were exactly if none of those targets had been declared without a type
(`ContractLang.Checker.rejected_targets_iff`). A sum of double width whose low word is assigned to
a byte string is rejected, and has given the variable for the high word its type
(`ContractLang.Checker.rejected_and_patched`).
-/

namespace ContractLang

open Check

variable {σ : Type}

/-! ### What evaluation leaves alone -/

namespace ScopeTree.Completes

variable {t t' : ScopeTree} {s : ScopeId} {name : String} {d : Descriptor}

theorem declaring? (h : t.Completes t') (id : ScopeId) (name : String) :
    t'.declaring? id name = t.declaring? id name :=
  (h _).declaring? name

/-- What is declared stays declared, and only functions are given types. -/
theorem exists_get? (h : t.Completes t') (hd : (t.scope s).get? name = some d) :
    ∃ d', (t'.scope s).get? name = some d' ∧ d.Completes d' := by
  have hrel := (h [s]).get? s List.mem_cons_self name
  rw [hd] at hrel
  revert hrel
  generalize (t'.scope s).get? name = o
  rintro (hd' | _)
  exact ⟨_, rfl, hd'⟩

theorem get?_eq (h : t.Completes t') (hd : (t.scope s).get? name = some d) (hfunc : ¬d.isFunc) :
    (t'.scope s).get? name = some d := by
  obtain ⟨d', hd', hcompletes⟩ := h.exists_get? hd
  rw [hd', hcompletes.eq_of_not_isFunc hfunc]

end ScopeTree.Completes

namespace CompilationUnit

variable {code : CompilationUnit}

theorem targetTypes_entered (code : CompilationUnit) (subject : Subject) (y : NodeId) :
    ((code.entered subject).node y).targetTypes = (code.node y).targetTypes := by
  cases subject with
  | expr x =>
    unfold entered
    dsimp only
    split
    · rfl
    · exact field_opened Node.targetTypes (fun _ _ => rfl) code x y
  | body | function => rfl

/-- Putting its type on record is all that happens to nodes after that. -/
theorem targetTypes_left (code start : CompilationUnit) (subject : Subject) (type : Ty)
    (y : NodeId) :
    ((code.left start subject type).node y).targetTypes = (code.node y).targetTypes := by
  cases subject with
  | expr x =>
    unfold left
    dsimp only
    split
    · rfl
    · unfold closed
      split
      · have hput : (((code.informed x type).setType x type).node y).targetTypes =
            ((code.informed x type).node y).targetTypes :=
          field_modifyNode Node.targetTypes fun _ => rfl
        rw [hput, node_informed]
      · rfl
  | body | function => rfl

/-- A unit has become another one by evaluating expressions. -/
structure EvaluatesTo (code code' : CompilationUnit) : Prop where
  typesTo : code.TypesTo code'
  targetTypes : ∀ id, (code'.node id).targetTypes = (code.node id).targetTypes

end CompilationUnit

/-- Typing puts no types of targets on record. -/
theorem Inquiry.Ends.targetTypes {spec : OpSpec} {config : Config} {R : List NodeId} {q : Inquiry}
    {s v : CheckState σ} {e : Except Failure Ty} (h : Ends spec config R q s e v) (y : NodeId) :
    (v.code.node y).targetTypes = (s.code.node y).targetTypes := by
  induction h with
  | answer | fail | depth => rfl
  | stop first ih => exact ih.trans (CompilationUnit.targetTypes_entered _ _ y)
  | ask first rest ihfirst ihrest =>
    exact ihrest.trans ((CompilationUnit.targetTypes_left _ _ _ _ y).trans
      (ihfirst.trans (CompilationUnit.targetTypes_entered _ _ y)))

/-- **Judgements about expressions evaluate them**, at every depth. -/
theorem Supply.keepsExpr_evaluatesTo {supply : Supply σ} {spec : OpSpec} {config : Config}
    {base : CompilationUnit} (hbase : supply.Bodiless base) (d : Nat) :
    (supply.context spec d config).KeepsExpr fun s => base.EvaluatesTo s.code := by
  refine Supply.keepsExpr (fun d R x s hs => ?_) d
  have hends : Inquiry.Ends spec config R _ s _ _ :=
    ends_visit hbase d R (.expr x) s hs.typesTo.refines
  exact ⟨hs.typesTo.trans hends.typesTo, fun y => (hends.targetTypes y).trans (hs.targetTypes y)⟩

/-! ### The descriptors afterwards -/

namespace ScopeTree

variable {t t' : ScopeTree} {home : ScopeId} {name : String} {d : Descriptor}

/-- After an evaluation and the binding of targets, a descriptor has its type, or that of a target
that it is the nearest descriptor of, or it is a function that the evaluation has given a type. -/
theorem Completes.exists_get?_bound (h : t.Completes t')
    (hd : (t.scope home).get? name = some d) (scope : ScopeId) (targets : List (String × Ty)) :
    ∃ d', ((t'.bound scope targets).scope home).get? name = some d' ∧
      (d'.type = d.type ∨
        (t.declaring? scope name = some home ∧ d'.type.isKnown ∧ (name, d'.type) ∈ targets) ∨
        d.isFunc ∧ ∃ found, (t'.scope home).get? name = some found ∧ found.type = d'.type) := by
  obtain ⟨found, hfound, hcompletes⟩ := h.exists_get? hd
  obtain ⟨d', hd', -, htype⟩ := ScopeTree.exists_get?_bound hfound scope targets
  refine ⟨d', hd', ?_⟩
  rcases htype with heq | ⟨-, hhome, hknown, hmem⟩
  · rcases hcompletes.type with hsame | ⟨hfunc, -⟩
    · exact .inl (heq.trans hsame)
    · exact .inr (.inr ⟨hfunc, found, hfound, heq.symm⟩)
  · exact .inr (.inl ⟨(h.declaring? scope name).symm.trans hhome, hknown, hmem⟩)

/-- All descriptors of one tree that are no functions have the same types in another. -/
def KeepsValues (t t' : ScopeTree) : Prop :=
  ∀ home name d, (t.scope home).get? name = some d → ¬d.isFunc →
    ∃ d', (t'.scope home).get? name = some d' ∧ d'.type = d.type

/-- **When the binding of targets is without effect** on variables and constants: if those of the
targets that are given a known type have had one. -/
theorem Completes.keepsValues_bound_iff (h : t.Completes t') (scope : ScopeId)
    (targets : List (String × Ty)) : t.KeepsValues (t'.bound scope targets) ↔
      ∀ name type d, (name, type) ∈ targets → type.isKnown → t.find? scope name = some d →
        ¬d.isFunc → d.type.isKnown := by
  constructor
  · intro hkeeps name type d hmem hknown hd hfunc
    obtain ⟨home, hhome, hget⟩ := find?_eq_some_iff.mp hd
    have hfound : t'.find? scope name = some d := find?_eq_some_iff.mpr
      ⟨home, (h.declaring? scope name).trans hhome, h.get?_eq hget hfunc⟩
    obtain ⟨d', hd', hknown'⟩ := exists_isKnown_bound hfound hmem hknown
    obtain ⟨home', hhome', hget'⟩ := find?_eq_some_iff.mp hd'
    rw [declaring?_bound, h.declaring?, hhome] at hhome'
    cases hhome'
    obtain ⟨kept, hkept, htype⟩ := hkeeps home name d hget hfunc
    cases hget'.symm.trans hkept
    rwa [← htype]
  · intro hall home name d hget hfunc
    obtain ⟨d', hd', -, htype⟩ :=
      ScopeTree.exists_get?_bound (h.get?_eq hget hfunc) scope targets
    refine ⟨d', hd', htype.resolve_right fun ⟨hunknown, hhome, hknown, hmem⟩ => hunknown ?_⟩
    rw [h.declaring?] at hhome
    exact hall name d'.type d hmem hknown (find?_eq_some_iff.mpr ⟨home, hhome, hget⟩) hfunc

end ScopeTree

namespace CompilationUnit

/-- A statement binds targets to a value, by an assignment or a declaration. -/
def Assigns (code : CompilationUnit) (stmt : NodeId) (targets : Targets) (value : NodeId) : Prop :=
  code.form stmt = .assign targets value ∨ code.form stmt = .declare targets value

/-- A program that assigns the sum of two numbers, of double width, to variables that are declared
with given types. -/
def wideSum (high low : Ty) : CompilationUnit where
  nodes := #[.ofForm 0 (.literal .uint64 "1"), .ofForm 0 (.literal .uint64 "2"),
    { Node.ofForm 0 (.call "addw") with children := [0, 1] },
    .ofForm 0 (.assign (.pair "high" "low") 2),
    { Node.ofForm 0 .program with children := [3] }]
  scopes := ⟨#[{ Scope.fresh "global" none 0 with
    entries := [("high", ⟨"high", high, .var 0⟩), ("low", ⟨"low", low, .var 1⟩)] }], .initial⟩

end CompilationUnit

namespace Checker

variable {checker : Checker σ} {s t : CheckState σ} {stmt value : NodeId} {targets : Targets}
  {d : Nat}

/-- The check of an assignment is that of its targets. -/
theorem exec_statement_of_assigns (hstmt : s.code.Assigns stmt targets value) :
    exec ((checker.context (d + 1)).judge (.statement stmt)) s =
      exec (located (s.code.node stmt).position
        ((checker.context d).checkTargets stmt (s.code.node stmt).scope targets value)) s := by
  change exec ((checker.context d).statementRule stmt) s = _
  unfold Context.statementRule
  rw [exec_bind, exec_node]
  rcases hstmt with hform | hform <;>
    · rw [CompilationUnit.form] at hform
      dsimp only
      rw [hform]
      rfl

/-- So it ends in one of the ways in which that ends, apart from the place of an error. -/
theorem targetsEnd_statement (checker : Checker σ) (d : Nat)
    (hstmt : s.code.Assigns stmt targets value) :
    ∃ out, (checker.context d).TargetsEnd stmt (s.code.node stmt).scope targets value s out ∧
      (exec ((checker.context (d + 1)).judge (.statement stmt)) s).2 = out.2 ∧
      ((exec ((checker.context (d + 1)).judge (.statement stmt)) s).1 = .ok () ↔
        out.1 = .ok ()) := by
  refine ⟨_, Context.targetsEnd_exec _ _ _ _ _ _, ?_⟩
  rw [exec_statement_of_assigns hstmt, exec_located]
  generalize exec ((checker.context d).checkTargets stmt (s.code.node stmt).scope targets value) s
    = out
  rcases out with ⟨(_ | _) | _, t⟩ <;> simp

theorem evaluatesTo_of_evaluates (hparser : checker.parser = none) {u v : CheckState σ} {type : Ty}
    {types : List Ty} (h : (checker.context d).Evaluates targets value s u v type types) :
    s.code.TypesTo u.code ∧ s.code.EvaluatesTo v.code := by
  have hkeeps : (checker.context d).KeepsExpr fun u => s.code.EvaluatesTo u.code :=
    Supply.keepsExpr_evaluatesTo (checker.bodiless hparser s.code) d
  obtain ⟨first, hchecked⟩ := h.checked
  have hu := (Context.keeps_checkExpr hkeeps).after ⟨.refl _, fun _ => rfl⟩ hchecked
  exact ⟨hu.typesTo, (hkeeps.typeOf [] value).after hu h.typed⟩

/-- **What an accepted assignment records.** Without a parser, let an assignment or a declaration of
variables in an acyclic unit be accepted, wherever it stands. After its value has been checked, the
value has a type, which settles with the results of the operation that is called what the targets
are given. This goes on record. Each target that is given a known type then means something of
exactly this type. If there are several targets, the value is a call that is connected with no
definition. And a descriptor has its type of before, or it is the nearest one of a target, or a
function that has been given its type when the value was evaluated. -/
theorem accepted_targets (checker : Checker σ) (hparser : checker.parser = none)
    (hcode : s.code.Acyclic) (hstmt : s.code.Assigns stmt targets value)
    (h : exec ((checker.context d).judge (.statement stmt)) s = (.ok (), t)) :
    let scope := (s.code.node stmt).scope
    let checked := (checker.ask (.expression value) s).2
    let typed := (checker.ask (.typeOf value) checked).2
    ∃ type types, (checker.ask (.typeOf value) checked).1 = .ok type ∧
      checker.spec.GivesTargets (s.code.form value) type targets types ∧
      (t.code.node stmt).targetTypes = types ∧
      (∀ target ∈ targets.names.zip types, target.2.isKnown →
        ∃ d, t.code.scopes.find? scope target.1 = some d ∧ d.type = target.2) ∧
      (targets.arity ≠ 1 →
        (∃ op, s.code.form value = .call op) ∧ (t.code.node value).definition = none) ∧
      ∀ home name d, (s.code.scopes.scope home).get? name = some d →
        ∃ d', (t.code.scopes.scope home).get? name = some d' ∧
          (d'.type = d.type ∨
            (s.code.scopes.declaring? scope name = some home ∧ d'.type.isKnown ∧
              (name, d'.type) ∈ targets.names.zip types) ∨
            d.isFunc ∧ ∃ found, (typed.code.scopes.scope home).get? name = some found ∧
              found.type = d'.type) := by
  cases d with
  | zero => cases h
  | succ d =>
    obtain ⟨out, hend, hstate, hanswer⟩ := targetsEnd_statement checker d hstmt
    rw [h] at hstate hanswer
    have hok := hanswer.mp rfl
    cases hend with
    | refused | failed => cases hok
    | @bound u v type types hvalue hbound =>
      subst hstate
      obtain ⟨hu, hv⟩ := evaluatesTo_of_evaluates hparser hvalue
      obtain ⟨first, hfirst⟩ := hvalue.checked
      -- What has been found out at this depth is what the checker answers.
      have hchecked : checker.ask (.expression value) s = (.ok first, u) :=
        checker.ask_eq_of_exec hparser hcode (q := .expression value) hfirst nofun
      have htyped : checker.ask (.typeOf value) u = (.ok type, v) :=
        checker.ask_eq_of_exec hparser (hu.refines.acyclic_iff.mpr hcode) (q := .typeOf value)
          hvalue.typed nofun
      have hgives : checker.spec.GivesTargets (s.code.form value) type targets types := by
        have hgives := hvalue.gives
        rwa [hu.refines.form, context, Supply.spec_context] at hgives
      have hsize : stmt < v.code.size := by
        refine CompilationUnit.lt_size_of_form ?_
        rw [hv.typesTo.refines.form]
        rcases hstmt with hform | hform <;> rw [hform] <;> nofun
      dsimp only
      rw [hchecked]
      dsimp only
      rw [htyped]
      refine ⟨type, types, rfl, hgives, ?_, hbound, fun hmany => ⟨?_, ?_⟩, fun home name d hd =>
        hv.typesTo.completes.exists_get?_bound hd _ _⟩
      · rw [CompilationUnit.setTargetTypes, CompilationUnit.node_modifyNode, if_pos ⟨rfl, hsize⟩]
      · exact hgives.exists_call hmany
      · rw [CompilationUnit.setTargetTypes, CompilationUnit.node_modifyNode]
        split <;> exact hvalue.unconnected hmany

/-- The sum of two numbers, of double width, is accepted for two variables without types. -/
theorem accepted_targets_wideSum :
    let checker : Checker Unit := ⟨Standard.spec, .strict, none⟩
    let code := CompilationUnit.wideSum .unknown .unknown
    let code' := (exec ((checker.context 5).judge (.statement 3)) ⟨code, ()⟩).2.code
    code.Acyclic ∧ code.Assigns 3 (.pair "high" "low") 2 ∧
      (exec ((checker.context 5).judge (.statement 3)) ⟨code, ()⟩).1 = .ok () ∧
      (code'.node 2).definition = none ∧
      ∃ types, checker.spec.GivesTargets (.call "addw") .uint64 (.pair "high" "low") types ∧
        (code'.node 3).targetTypes = types := by
  have hcode : (CompilationUnit.wideSum .unknown .unknown).Acyclic := by
    refine CompilationUnit.acyclic_of_lt (CompilationUnit.link_lt_of_forall ?_)
    decide
  have hstmt : (CompilationUnit.wideSum .unknown .unknown).Assigns 3 (.pair "high" "low") 2 :=
    .inl rfl
  obtain ⟨type, types, htype, hgives, htypes, -, hmany, -⟩ := accepted_targets
    (s := ⟨_, ()⟩) (d := 5) (⟨Standard.spec, .strict, none⟩ : Checker Unit) rfl hcode hstmt rfl
  cases htype
  exact ⟨hcode, hstmt, rfl, (hmany (by decide)).2, types, hgives, htypes⟩

/-- **What a rejected assignment leaves behind.** Without a parser, let an assignment or a declaration
of variables be rejected, wherever it stands. Nothing goes on record for it. Some of its targets
have been bound: none, if its value is not evaluated or if there is only one target, and otherwise
those before the one that is refused, which is not declared or clashes with its value. The variables
and constants have the types of before exactly if every one of the bound targets that was given a
known type, and that is no function, had been declared with a known type. -/
theorem rejected_targets_iff (checker : Checker σ) (hparser : checker.parser = none)
    (hstmt : s.code.Assigns stmt targets value) {halt : Halt}
    (h : exec ((checker.context (d + 1)).judge (.statement stmt)) s = (.error halt, t)) :
    (t.code.node stmt).targetTypes = (s.code.node stmt).targetTypes ∧
    ∃ bound : List (String × Ty),
      (bound = [] ∨ targets.arity ≠ 1 ∧ ∃ u v type types target rest,
        (checker.context d).Evaluates targets value s u v type types ∧
        targets.names.zip types = bound ++ target :: rest ∧
        ∀ found, t.code.scopes.find? (s.code.node stmt).scope target.1 = some found →
          found.type.clashes target.2) ∧
      (s.code.scopes.KeepsValues t.code.scopes ↔
        ∀ name type found, (name, type) ∈ bound → type.isKnown →
          s.code.scopes.find? (s.code.node stmt).scope name = some found → ¬found.isFunc →
            found.type.isKnown) := by
  obtain ⟨out, hend, hstate, hanswer⟩ := targetsEnd_statement checker d hstmt
  rw [h] at hstate hanswer
  cases hend with
  | bound => cases hanswer.mpr rfl
  | @refused u v type types bound rest target e hvalue hsplit hrefuses =>
    subst hstate
    obtain ⟨-, hv⟩ := evaluatesTo_of_evaluates hparser hvalue
    refine ⟨hv.targetTypes stmt, bound, ?_, hv.typesTo.completes.keepsValues_bound_iff _ _⟩
    by_cases hmany : targets.arity = 1
    · refine .inl (List.eq_nil_of_length_eq_zero ?_)
      have hlength := congrArg List.length hsplit
      have hnames : targets.names.length = 1 := hmany
      rw [List.length_zip, List.length_append, List.length_cons, hnames] at hlength
      omega
    · exact .inr ⟨hmany, u, v, type, types, target, rest, hvalue, hsplit, hrefuses⟩
  | failed hkeeps =>
    subst hstate
    have hv := hkeeps _ (Supply.keepsExpr_evaluatesTo (checker.bodiless hparser s.code) d)
      ⟨.refl _, fun _ => rfl⟩
    refine ⟨hv.targetTypes stmt, [], .inl rfl, ?_⟩
    exact hv.typesTo.completes.keepsValues_bound_iff _ []

/-- A sum of double width is refused for a byte string. No variable loses its type or gets one, as
the variable for the high word has had one. -/
theorem rejected_targets_wideSum :
    let checker : Checker Unit := ⟨Standard.spec, .strict, none⟩
    let code := CompilationUnit.wideSum .uint64 .bytes
    let after := exec ((checker.context 5).judge (.statement 3)) ⟨code, ()⟩
    code.Assigns 3 (.pair "high" "low") 2 ∧ (∃ halt, after.1 = .error halt) ∧
      (after.2.code.node 3).targetTypes = [.unknown, .unknown] ∧
      code.scopes.KeepsValues after.2.code.scopes := by
  intro checker code after
  have hstmt : code.Assigns 3 (.pair "high" "low") 2 := .inl rfl
  obtain ⟨halt, hhalt⟩ : ∃ halt, after.1 = .error halt := ⟨_, rfl⟩
  obtain ⟨htypes, bound, -, hiff⟩ :=
    rejected_targets_iff checker rfl hstmt (s := ⟨code, ()⟩) (t := after.2) (d := 4)
      (Prod.ext hhalt rfl)
  refine ⟨hstmt, ⟨halt, hhalt⟩, htypes.trans rfl, hiff.mpr fun name type found _ _ hfound _ => ?_⟩
  -- Both variables have been declared with known types.
  obtain ⟨home, hhome, hget⟩ := ScopeTree.find?_eq_some_iff.mp hfound
  obtain rfl : home = 0 := List.mem_singleton.mp (ScopeTree.declaring?_spec hhome).1
  have hknown : ∀ entry ∈ (code.scopes.scope 0).entries, entry.2.type.isKnown := by decide
  exact hknown _ (Scope.mem_of_get? hget)

/-- **A rejected assignment can leave a type behind.** A sum of double width is refused for a byte
string. But the variable for the high word, which had no type, has one from then on. -/
theorem rejected_and_patched :
    let checker : Checker Unit := ⟨Standard.spec, .strict, none⟩
    let code := CompilationUnit.wideSum .unknown .bytes
    let after := checker.ask (.statements 4) ⟨code, ()⟩
    code.Assigns 3 (.pair "high" "low") 2 ∧ (∃ e, after.1 = .error (.fault e)) ∧
      (code.scopes.scope 0).get? "high" = some ⟨"high", .unknown, .var 0⟩ ∧
      (after.2.code.scopes.scope 0).get? "high" = some ⟨"high", .uint64, .var 0⟩ :=
  ⟨.inl rfl, ⟨_, rfl⟩, rfl, rfl⟩

end Checker

end ContractLang
