import ContractLang.Proofs.Statements.Growth
import ContractLang.Proofs.Typing.Slack

/-!
# What a function returns

The return type of a function is found by asking for the types of the values that it
returns, while the function is taken as one that is being resolved. So a value that depends
on a call of the function itself has no known type then. Later it can have one, and it can be
that there is none any more, because the call has got a type that does not fit. But no value
has a known type other than that of the function
(`ContractLang.Checker.ask_typeOf_of_returns`).

This holds of the return statements in nested blocks and conditional statements. Those inside
loops are never compared with the others.
-/

namespace ContractLang

open Check

variable {σ : Type}

/-! ### Return statements -/

/-- The statements whose parts count for what a function returns. -/
def Form.IsBranching : Form → Prop
  | .block | .branch _ => True
  | _ => False

/-- The statements that have statements as parts and belong to the function they are in. -/
def Form.IsNesting : Form → Prop
  | .block | .branch _ | .loop _ => True
  | _ => False

/-- A value is that of a return statement in a body, directly or inside nested statements
of certain forms. -/
inductive CompilationUnit.Returns (code : CompilationUnit) (through : Form → Prop) :
    NodeId → NodeId → Prop where
  | here {body stmt value : NodeId} {definition : Option NodeId} (hmem : stmt ∈ code.children body)
    (hform : code.form stmt = .ret (some value) definition) : Returns code through body value
  | inside {body stmt value : NodeId} (hmem : stmt ∈ code.children body)
    (hform : through (code.form stmt)) (h : Returns code through stmt value) :
    Returns code through body value

namespace CompilationUnit

variable {code code' : CompilationUnit} {stmt body value : NodeId}

/-- Which values are returned depends on forms and children only. -/
theorem Returns.congr {through : Form → Prop} (hform : ∀ id, code'.form id = code.form id)
    (hchildren : ∀ id, code'.children id = code.children id)
    (h : code.Returns through body value) : code'.Returns through body value := by
  induction h with
  | here hmem hret => exact .here (hchildren _ ▸ hmem) ((hform _).trans hret)
  | inside hmem hthrough _ ih => exact .inside (hchildren _ ▸ hmem) (hform _ ▸ hthrough) ih

theorem exit?_of_ret {definition : Option NodeId}
    (h : code.form stmt = .ret (some value) definition) : code.exit? stmt = some (.expr value) := by
  unfold exit?
  rw [h]

theorem exit?_of_isBranching (h : (code.form stmt).IsBranching) :
    code.exit? stmt = some (.body stmt) := by
  unfold exit?
  cases hform : code.form stmt
  case block | branch => rfl
  all_goals
    rw [hform] at h
    exact h.elim

end CompilationUnit

namespace Typing

open Inquiry

variable {T : Typing} {P : Subject → Ty → Prop} {sofar t a : Ty} {stmts : List NodeId}
  {f₀ body value : NodeId}

/-- **The exits of statements agree** if there is a common type: each of them has it, or none. -/
theorem gives_exits (h : (T.exitsInquiry sofar stmts).Gives P a) :
    (sofar.isKnown → sofar = a) ∧ ∀ stmt ∈ stmts, ∀ subject, T.code.exit? stmt = some subject →
      ∃ b, P subject b ∧ (b.isKnown → b = a) := by
  induction stmts generalizing sofar with
  | nil =>
    obtain rfl : sofar = a := h
    exact ⟨fun _ => rfl, nofun⟩
  | cons stmt rest ih =>
    obtain ⟨c, hnext, hexit⟩ := gives_exit h
    obtain ⟨hclash, hrest⟩ := hnext.of_require
    obtain ⟨hsofar, hothers⟩ := ih hrest
    have hc : c.isKnown → c = a := by
      intro hknown
      rw [if_pos hknown] at hsofar
      exact hsofar hknown
    refine ⟨fun hknown => ?_, fun other hmem subject hsubject => ?_⟩
    · by_cases hcknown : c.isKnown
      · rw [Ty.eq_of_not_clashes hknown hcknown hclash]
        exact hc hcknown
      · rw [if_neg hcknown] at hsofar
        exact hsofar hknown
    · rcases List.mem_cons.mp hmem with rfl | hmem
      · exact ⟨c, hexit subject hsubject, hc⟩
      · exact hothers other hmem subject hsubject

/-- The values that a body returns have the type of the body in a table, or none. -/
theorem Slackens.of_returns (h : Slackens T t f₀ P)
    (hvalue : T.code.Returns Form.IsBranching body value) (hbody : P (.body body) a)
    (ha : a.isKnown → a = t) : ∃ b, P (.expr value) b ∧ (b.isKnown → b = t) := by
  induction hvalue generalizing a with
  | @here body stmt value definition hmem hform =>
    obtain ⟨b, hb, hba⟩ := (gives_exits (h _ a hbody)).2 stmt hmem _
      (CompilationUnit.exit?_of_ret hform)
    refine ⟨b, hb, fun hknown => ?_⟩
    obtain rfl := hba hknown
    exact ha hknown
  | @inside body stmt value hmem hform _ ih =>
    obtain ⟨b, hb, hba⟩ := (gives_exits (h _ a hbody)).2 stmt hmem _
      (CompilationUnit.exit?_of_isBranching hform)
    refine ih hb fun hknown => ?_
    obtain rfl := hba hknown
    exact ha hknown

end Typing

/-! ### Accepted functions -/

/-- A return type that fits the name of a function may complete the descriptor of that name. -/
theorem Context.exists_of_reconcile {definition : NodeId} {name : String} {type : Ty}
    {s t : CheckState σ} (h : exec (reconcile definition name type) s = (.ok (), t)) :
    t = s ∨ ∃ scopes, type.isKnown ∧
      s.code.scopes.refine (s.code.node definition).scope name type = .ok scopes ∧
      t = { s with code := s.code.withScopes scopes } := by
  rcases exec_reconcile_eq_ok h with ⟨-, rfl⟩ | ⟨d, -, -, hcomplete⟩
  · exact .inl rfl
  rcases exec_complete_eq_ok hcomplete with ⟨-, rfl⟩ | ⟨hknown, scopes, hscopes, rfl⟩
  · exact .inl rfl
  · exact .inr ⟨scopes, hknown, hscopes, rfl⟩

theorem Context.refinesTo_of_reconcile {definition : NodeId} {name : String} {type : Ty}
    {s t : CheckState σ} (h : exec (reconcile definition name type) s = (.ok (), t)) :
    s.code.RefinesTo t.code := by
  rcases exists_of_reconcile h with rfl | ⟨scopes, hknown, hscopes, rfl⟩
  · exact .refl _
  · exact (CompilationUnit.RefinesTo.refl _).withScopes (ScopeTree.refinesTo_refine hscopes hknown)

/-- What stands for no function has stood for none before. -/
theorem CompilationUnit.RefinesTo.not_isFunc {code code' : CompilationUnit} {f x : NodeId}
    (h : code.RefinesTo code')
    (hnames : ∀ x, code'.Reaches f x → ∀ name d, code'.form x = .ident name →
      code'.scopes.find? (code'.node x).scope name = some d → ¬d.isFunc)
    (hx : code.Reaches f x) (name : String) (d : Descriptor) (hform : code.form x = .ident name)
    (hd : code.scopes.find? (code.node x).scope name = some d) : ¬d.isFunc := by
  obtain ⟨d', hd', hdd'⟩ := h.scopes.exists_find? hd
  rw [← hdd'.isFunc]
  refine hnames x (h.reaches hx) name d' ((h.form x).trans hform) ?_
  rw [h.scope]
  exact hd'

namespace Checker

open Inquiry Typing

variable {s v : CheckState σ} {t : Ty} {f : NodeId}

/-- The table of settled answers that the return type found for a body comes from. -/
theorem exists_settles_of_body {spec : OpSpec} {config : Config} {u w : CheckState σ}
    (h : Ends spec config [f] (.ask (.body f) .answer) u (.ok t) w)
    (hnamed : ∀ x, u.code.Reaches f x → ∀ name d, u.code.form x = .ident name →
      u.code.scopes.find? (u.code.node x).scope name = some d → ¬d.isFunc) :
    ∃ P, Settles ⟨spec, config, w.code⟩ w.code.scopes [f] P ∧ P (.body f) t := by
  have huw := h.typesTo
  have hclosed : u.code.Closed (u.code.Reaches f) := fun _ _ hx hlead => hx.tail hlead
  obtain ⟨P, hP, hgives⟩ := h.exists_settles rfl hclosed.encloses (.refl _)
    (within_ask_answer (show Subject.Within u.code (u.code.Reaches f) (.body f) from .refl))
    (fun x hx name d d' hform hd hd' => by
      have hreach : u.code.Reaches f x := hx.resolve_right fun ⟨_, _, _, hdefinition⟩ =>
        nomatch hform.symm.trans hdefinition
      rw [huw.completes.find?_eq fun d hd => hnamed x hreach name d hform hd, hd] at hd'
      cases hd'
      rfl) (.refl _)
  refine ⟨P, hP, (gives_ask_answer.mp hgives).resolve_right ?_⟩
  rintro ⟨⟨g, heq⟩, -⟩
  cases heq

/-- The table of answers, with slack, that the return type of an accepted function comes from. -/
theorem exists_slackens (checker : Checker σ) (hparser : checker.parser = none)
    (h : checker.ask (.function f) s = (.ok t, v)) (ht : t.isKnown)
    (hnames : ∀ x, v.code.Reaches f x → ∀ name d, v.code.form x = .ident name →
      v.code.scopes.find? (v.code.node x).scope name = some d → ¬d.isFunc) :
    ∃ P, Slackens ⟨checker.spec, checker.config, v.code⟩ t f P ∧
      Slackens.Nameless v.code P ∧ P (.body f) t := by
  rw [checker.ask_eq_exec] at h
  obtain ⟨name, -, -, -, u, w, -, -, -, -, htype, hname⟩ := Context.parts_of_checkFunction h
  have hbody : Ends checker.spec checker.config [f] (.ask (.body f) .answer) u (.ok t) w :=
    Supply.ends_of_exec (d := checker.depth s.code) htype (checker.bodiless hparser u.code)
  have huw := hbody.typesTo
  have hvw : w.code.RefinesTo v.code := Context.refinesTo_of_reconcile hname
  have huv := huw.refines.trans hvw
  obtain ⟨P, hP, hreturns⟩ := exists_settles_of_body hbody fun x hx => huv.not_isFunc hnames hx
  have hclosed : w.code.Closed (u.code.Reaches f) := fun x y hx hlead =>
    hx.tail (huw.leads_iff.mp hlead)
  have hslack := Slackens.of_settles (t := t) hP hclosed
  refine ⟨fun subject a => P subject a ∧ subject.Within w.code (u.code.Reaches f), ?_,
    fun x a hx name d hform hd => ?_, hreturns, .refl⟩
  · rcases Context.exists_of_reconcile hname with rfl | ⟨scopes, -, hscopes, rfl⟩
    · exact hslack
    · exact hslack.withScopes ht hscopes
  · rcases hx.2 with hreach | ⟨_, _, _, hdefinition⟩
    · exact hnames x (huv.reaches hreach) name d hform hd
    · rw [hvw.form] at hform
      cases hform.symm.trans hdefinition

/-- **An accepted function returns values of one type.** If it is found to return a known type, no
value that it returns, directly or inside nested blocks and conditional statements, has
another known type afterwards, as long as no name that it comes to stands for a function. -/
theorem ask_typeOf_of_returns (checker : Checker σ) (hparser : checker.parser = none)
    (h : checker.ask (.function f) s = (.ok t, v)) (ht : t.isKnown)
    (hnames : ∀ x, v.code.Reaches f x → ∀ name d, v.code.form x = .ident name →
      v.code.scopes.find? (v.code.node x).scope name = some d → ¬d.isFunc)
    {value : NodeId} (hvalue : v.code.Returns Form.IsBranching f value) {b : Ty}
    (hb : (checker.ask (.typeOf value) v).1 = .ok b) : b = t ∨ ¬b.isKnown := by
  obtain ⟨P, hslack, hnameless, hbody⟩ := checker.exists_slackens hparser h ht hnames
  obtain ⟨a, ha, hat⟩ := hslack.of_returns hvalue hbody fun _ => rfl
  have hends := checker.ends_ask_typeOf (checker.bodiless hparser v.code) value
  rw [hb] at hends
  have hbecome := (hslack.of_ends hends hnameless hbody ht).2 _ a b
    (related_ask_answer t (.expr value)) (gives_ask_answer.mpr ha) rfl
  rcases hbecome with rfl | ⟨-, rfl⟩
  · exact (em b.isKnown).imp hat id
  · exact .inl rfl

/-- A function that returns a literal, or else what it returns itself. -/
def recursiveReturn : CompilationUnit where
  nodes := #[.ofForm 0 (.literal .uint64 "1"), .ofForm 0 (.literal .uint64 "1"),
    .ofForm 0 (.ret (some 1) none), { Node.ofForm 0 .block with children := [2] },
    { Node.ofForm 0 (.branch 0) with children := [3] }, .ofForm 0 (.call "f"),
    .ofForm 0 (.ret (some 5) none),
    { Node.ofForm 0 (.function "f" [] false) with children := [4, 6] }]
  scopes := ⟨#[{ Scope.fresh "global" none 0 with
    entries := [("f", ⟨"f", .unknown, .func (.resolved 7)⟩)] }], .initial⟩

/-- Its own value has no known type while the function is checked, but that of the literal
afterwards. -/
theorem ask_typeOf_of_returns_recursiveReturn :
    let checker : Checker Unit := ⟨Standard.spec, .strict, none⟩
    let v := (checker.ask (.function 7) ⟨recursiveReturn, ()⟩).2
    v.code.Returns Form.IsBranching 7 1 ∧ v.code.Returns Form.IsBranching 7 5 ∧
      (checker.ask (.typeOf 5) v).1 = .ok .uint64 ∧
      ∀ value, v.code.Returns Form.IsBranching 7 value → ∀ b,
        (checker.ask (.typeOf value) v).1 = .ok b → b = .uint64 ∨ ¬b.isKnown := by
  intro checker v
  refine ⟨.inside (show 4 ∈ _ by decide) trivial (.inside (show 3 ∈ _ by decide) trivial
      (.here (show 2 ∈ _ by decide) rfl)), .here (show 6 ∈ _ by decide) rfl, rfl,
    fun value hvalue b hb => ?_⟩
  refine ask_typeOf_of_returns checker rfl (show checker.ask (.function 7) ⟨recursiveReturn, ()⟩ =
    (.ok .uint64, v) from Prod.ext rfl rfl) rfl (fun x _ name d hform => ?_) hvalue hb
  have hidents : ∀ a < v.code.size, ¬(v.code.form a matches .ident _) := by decide
  have hx : x < v.code.size := CompilationUnit.lt_size_of_form (by rw [hform]; nofun)
  exact absurd (by rw [hform]) (hidents x hx)

/-! ### Where types differ -/

/-- A function is accepted with a known type, but the type of a value that it returns, in a
nested statement of any form, is another one or cannot be determined. -/
def ReturnsOther (checker : Checker Unit) (code : CompilationUnit) (f value : NodeId) : Prop :=
  checker.parser = none ∧ code.Acyclic ∧
    ∃ t v, checker.ask (.function f) ⟨code, ()⟩ = (.ok t, v) ∧ t.isKnown ∧
      v.code.Returns Form.IsNesting f value ∧ (checker.ask (.typeOf value) v).1 ≠ .ok t ∧
      (checker.ask (.typeOf value) v).1 ≠ .ok .unknown

/-- A function that returns bytes inside a loop, and a number after it. -/
def loopedReturn : CompilationUnit where
  nodes := #[.ofForm 0 (.literal .uint64 "1"), .ofForm 0 (.literal .bytes "\"a\""),
    .ofForm 0 (.ret (some 1) none), { Node.ofForm 0 .block with children := [2] },
    { Node.ofForm 0 (.loop 0) with children := [3] }, .ofForm 0 (.literal .uint64 "1"),
    .ofForm 0 (.ret (some 5) none),
    { Node.ofForm 0 (.function "f" [] false) with children := [4, 6] }]
  scopes := ⟨#[{ Scope.fresh "global" none 0 with
    entries := [("f", ⟨"f", .unknown, .func (.resolved 7)⟩)] }], .initial⟩

/-- A function that returns its own value or that of a variable without a type, or else a number,
which is that of another variable. -/
def mixedReturn : CompilationUnit where
  nodes := #[.ofForm 0 (.literal .uint64 "1"), .ofForm 0 (.literal .uint64 "1"),
    .ofForm 0 (.call "f"), .ofForm 0 (.ident "y"), .ofForm 0 (.choice 1 2 3),
    .ofForm 0 (.ret (some 4) none), { Node.ofForm 0 .block with children := [5] },
    { Node.ofForm 0 (.branch 0) with children := [6] }, .ofForm 0 (.literal .uint64 "1"),
    .ofForm 0 (.assign (.single "x") 8), .ofForm 0 (.ident "x"), .ofForm 0 (.ret (some 10) none),
    { Node.ofForm 0 (.function "f" [] false) with children := [7, 9, 11] }]
  scopes := ⟨#[{ Scope.fresh "global" none 0 with
    entries := [("f", ⟨"f", .unknown, .func (.resolved 12)⟩), ("x", ⟨"x", .unknown, .var 0⟩),
      ("y", ⟨"y", .unknown, .var 1⟩)] }], .initial⟩

/-- A function that returns a literal of the invalid type, or else a number. -/
def invalidReturn : CompilationUnit where
  nodes := #[.ofForm 0 (.literal .uint64 "1"), .ofForm 0 (.literal .invalid "z"),
    .ofForm 0 (.ret (some 1) none), { Node.ofForm 0 .block with children := [2] },
    { Node.ofForm 0 (.branch 0) with children := [3] }, .ofForm 0 (.literal .uint64 "1"),
    .ofForm 0 (.ret (some 5) none),
    { Node.ofForm 0 (.function "f" [] false) with children := [4, 6] }]
  scopes := ⟨#[{ Scope.fresh "global" none 0 with
    entries := [("f", ⟨"f", .unknown, .func (.resolved 7)⟩)] }], .initial⟩

/-- A function that returns another function by its name, before a call of this one has shown that
it returns a number, or else bytes. -/
def namedReturn : CompilationUnit where
  nodes := #[.ofForm 0 (.ident "x"), .ofForm 0 (.ret (some 0) none),
    { Node.ofForm 0 (.function "g" [] false) with children := [1] },
    .ofForm 0 (.literal .uint64 "1"), .ofForm 0 (.ident "g"), .ofForm 0 (.ret (some 4) none),
    { Node.ofForm 0 .block with children := [5] },
    { Node.ofForm 0 (.branch 3) with children := [6] }, .ofForm 0 (.literal .uint64 "1"),
    .ofForm 0 (.call "g"), .ofForm 0 (.ident "z"), .ofForm 0 (.binary "or" 9 10),
    .ofForm 0 (.cast .bytes 11), .ofForm 0 (.ret (some 12) none),
    { Node.ofForm 0 .block with children := [13] },
    { Node.ofForm 0 (.branch 8) with children := [14] }, .ofForm 0 (.literal .uint64 "1"),
    .ofForm 0 (.assign (.single "x") 16), .ofForm 0 (.literal .uint64 "1"),
    .ofForm 0 (.assign (.single "z") 18), .ofForm 0 (.literal .bytes "\"a\""),
    .ofForm 0 (.ret (some 20) none),
    { Node.ofForm 0 (.function "f" [] false) with children := [7, 15, 17, 19, 21] }]
  scopes := ⟨#[{ Scope.fresh "global" none 0 with
    entries := [("f", ⟨"f", .unknown, .func (.resolved 22)⟩),
      ("g", ⟨"g", .unknown, .func (.resolved 2)⟩), ("x", ⟨"x", .unknown, .var 0⟩),
      ("z", ⟨"z", .unknown, .var 1⟩)] }], .initial⟩

/-- An operator whose operands and result can be anything. -/
def anyOperator : OpTable where
  signatures := [("or", ⟨[.unknown, .unknown], [.unknown]⟩)]
  builtins := []
  dependent := []
  fields := []

set_option maxRecDepth 2000 in
/-- **Types differ** inside loops, where the value of a choice has no type any more, for literals of
the invalid type, and for names that stand for functions. -/
theorem returnsOther :
    let checker : Checker Unit := ⟨Standard.spec, .strict, none⟩
    checker.ReturnsOther loopedReturn 7 1 ∧ checker.ReturnsOther mixedReturn 12 4 ∧
      checker.ReturnsOther invalidReturn 7 1 ∧
      Checker.ReturnsOther ⟨anyOperator.toSpec, .strict, none⟩ namedReturn 22 4 := by
  refine ⟨⟨rfl, CompilationUnit.acyclic_of_lt (CompilationUnit.link_lt_of_forall (by decide)),
      .uint64, _, Prod.ext rfl rfl, rfl, ?_, nofun, nofun⟩,
    ⟨rfl, CompilationUnit.acyclic_of_lt (CompilationUnit.link_lt_of_forall (by decide)),
      .uint64, _, Prod.ext rfl rfl, rfl, ?_, nofun, nofun⟩,
    ⟨rfl, CompilationUnit.acyclic_of_lt (CompilationUnit.link_lt_of_forall (by decide)),
      .uint64, _, Prod.ext rfl rfl, rfl, ?_, nofun, nofun⟩,
    ⟨rfl, CompilationUnit.acyclic_of_lt (CompilationUnit.link_lt_of_forall (by decide)),
      .bytes, _, Prod.ext rfl rfl, rfl, ?_, nofun, nofun⟩⟩
  · exact .inside (show 4 ∈ _ by decide) trivial (.inside (show 3 ∈ _ by decide) trivial
      (.here (show 2 ∈ _ by decide) rfl))
  · exact .inside (show 7 ∈ _ by decide) trivial (.inside (show 6 ∈ _ by decide) trivial
      (.here (show 5 ∈ _ by decide) rfl))
  · exact .inside (show 4 ∈ _ by decide) trivial (.inside (show 3 ∈ _ by decide) trivial
      (.here (show 2 ∈ _ by decide) rfl))
  · exact .inside (show 7 ∈ _ by decide) trivial (.inside (show 6 ∈ _ by decide) trivial
      (.here (show 5 ∈ _ by decide) rfl))

end Checker

end ContractLang
