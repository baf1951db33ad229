import ContractLang.CompilationUnit.Returns
import ContractLang.Proofs.Links

/-!
# Paths through a body

Whether a body always returns is judged from its last statement. What the judgement is about
are the paths through the body (`ContractLang.CompilationUnit.Path`): a return statement and an
abort leave the function, a conditional statement runs one of its branches, and a loop runs its
body any number of times.

The judgement is sound: no path reaches the end of a body that always returns. It is not
complete: a statement before the last one can leave the function on every path, a block is not
looked into, and no path leads past a conditional statement without branches. A body in which,
and in the nested branches of which, there is nothing of this kind is *live*
(`ContractLang.CompilationUnit.Live`). Some path reaches its end if it does not always return
(`ContractLang.CompilationUnit.leaves_of_alwaysReturns`).
-/

namespace ContractLang

/-- The statements that do not simply go on to the next one. -/
def Form.IsControl : Form → Prop
  | .ret .. | .abort | .breakLoop _ | .block | .branch _ | .loop _ => True
  | _ => False

namespace CompilationUnit

variable {code : CompilationUnit} {b x y last : NodeId} {pre rest stmts : List NodeId}
  {depth : Nat}

/-! ### Paths -/

/-- How a stretch of a body can end. -/
inductive Outcome where
  /-- What follows it is run next. -/
  | goesOn
  /-- The function is left. -/
  | leaves
  /-- The innermost loop is left. -/
  | breaks
  deriving DecidableEq, Repr

/-- A stretch of a body. -/
inductive Stretch where
  /-- A statement. -/
  | stmt (x : NodeId)
  /-- Statements, in order. -/
  | seq (stmts : List NodeId)
  /-- The rounds of a loop that are still to come. -/
  | rounds (x : NodeId)

variable {o : Outcome}

/-- Some path through a stretch of a body ends in a given way. -/
inductive Path (code : CompilationUnit) : Stretch → Outcome → Prop where
  | ret {x : NodeId} {value definition : Option NodeId}
    (hform : code.form x = .ret value definition) : Path code (.stmt x) .leaves
  | abort {x : NodeId} (hform : code.form x = .abort) : Path code (.stmt x) .leaves
  | breakLoop {x : NodeId} {value : Option NodeId} (hform : code.form x = .breakLoop value) :
    Path code (.stmt x) .breaks
  | block {x : NodeId} {o : Outcome} (hform : code.form x = .block)
    (h : Path code (.seq (code.children x)) o) : Path code (.stmt x) o
  | branch {x y cond : NodeId} {o : Outcome} (hform : code.form x = .branch cond)
    (hy : y ∈ code.children x) (h : Path code (.seq (code.children y)) o) : Path code (.stmt x) o
  /-- A single branch can be skipped. -/
  | skip {x cond : NodeId} (hform : code.form x = .branch cond)
    (hone : (code.children x).length = 1) : Path code (.stmt x) .goesOn
  | loop {x cond : NodeId} {o : Outcome} (hform : code.form x = .loop cond)
    (h : Path code (.rounds x) o) : Path code (.stmt x) o
  | plain {x : NodeId} (hform : ¬(code.form x).IsControl) : Path code (.stmt x) .goesOn
  | done : Path code (.seq []) .goesOn
  | next {x : NodeId} {rest : List NodeId} {o : Outcome} (hx : Path code (.stmt x) .goesOn)
    (hrest : Path code (.seq rest) o) : Path code (.seq (x :: rest)) o
  | stop {x : NodeId} {rest : List NodeId} {o : Outcome} (hx : Path code (.stmt x) o)
    (ho : o ≠ .goesOn) : Path code (.seq (x :: rest)) o
  | finish {x : NodeId} : Path code (.rounds x) .goesOn
  | again {x y : NodeId} {o : Outcome} (hy : y ∈ code.children x)
    (hround : Path code (.seq (code.children y)) .goesOn) (h : Path code (.rounds x) o) :
    Path code (.rounds x) o
  /-- A statement that breaks the loop ends its rounds, and what follows the loop is run next. -/
  | broken {x y : NodeId} (hy : y ∈ code.children x)
    (hround : Path code (.seq (code.children y)) .breaks) : Path code (.rounds x) .goesOn
  | left {x y : NodeId} (hy : y ∈ code.children x)
    (hround : Path code (.seq (code.children y)) .leaves) : Path code (.rounds x) .leaves

namespace Path

/-- A path goes past statements that can be passed. -/
theorem append (hpre : ∀ x ∈ pre, code.Path (.stmt x) .goesOn)
    (h : code.Path (.seq rest) o) : code.Path (.seq (pre ++ rest)) o := by
  induction pre with
  | nil => exact h
  | cons x pre ih =>
    exact .next (hpre x List.mem_cons_self) (ih fun z hz => hpre z (List.mem_cons_of_mem _ hz))

/-- Where the end of some statements is reached, each of them is passed. -/
theorem of_mem (h : code.Path (.seq stmts) .goesOn) (hx : x ∈ stmts) :
    code.Path (.stmt x) .goesOn := by
  induction stmts with
  | nil => exact absurd hx List.not_mem_nil
  | cons z rest ih =>
    cases h with
    | next hz hrest =>
      rcases List.mem_cons.mp hx with rfl | hmem
      · exact hz
      · exact ih hrest hmem
    | stop _ ho => exact absurd rfl ho

/-- Past a conditional statement with two branches, a path leads through one of them. -/
theorem of_branch {cond : NodeId} (h : code.Path (.stmt x) .goesOn)
    (hform : code.form x = .branch cond) (htwo : (code.children x).length = 2) :
    ∃ y ∈ code.children x, code.Path (.seq (code.children y)) .goesOn := by
  cases h with
  | branch _ hy h => exact ⟨_, hy, h⟩
  | skip _ hone => exact absurd (hone.symm.trans htwo) (by decide)
  | block hother | loop hother => exact nomatch hother.symm.trans hform
  | plain hother =>
    rw [hform] at hother
    exact absurd trivial hother

/-- No path leads past a return statement or an abort. -/
theorem not_of_exit (hform : (∃ value definition, code.form x = .ret value definition) ∨
    code.form x = .abort) : ¬code.Path (.stmt x) .goesOn := by
  intro h
  cases h with
  | block hother | branch hother | skip hother | loop hother =>
    rcases hform with ⟨value, definition, hform⟩ | hform <;>
      exact nomatch hother.symm.trans hform
  | plain hother =>
    rcases hform with ⟨value, definition, hform⟩ | hform <;>
    · rw [hform] at hother
      exact hother trivial

end Path

/-! ### The judgement -/

/-- **A body always returns** if its last statement leaves the function, or has two branches that
always return. -/
theorem alwaysReturnsWithin_succ :
    code.alwaysReturnsWithin (depth + 1) y = true ↔
      ∃ last ∈ (code.children y).getLast?,
        (∃ value definition, code.form last = .ret value definition) ∨ code.form last = .abort ∨
        (∃ cond, code.form last = .branch cond) ∧ (code.children last).length = 2 ∧
          ∀ z ∈ code.children last, code.alwaysReturnsWithin depth z = true := by
  rw [alwaysReturnsWithin]
  cases (code.children y).getLast? with
  | none => simp
  | some last => cases hform : code.form last <;> simp [hform]

/-- **No path reaches the end of a body that always returns.** -/
theorem not_path_of_alwaysReturnsWithin (h : code.alwaysReturnsWithin depth y = true) :
    ¬code.Path (.seq (code.children y)) .goesOn := by
  induction depth generalizing y with
  | zero => exact nomatch h
  | succ depth ih =>
    intro hpath
    obtain ⟨last, hlast, hends⟩ := alwaysReturnsWithin_succ.mp h
    have hpassed := hpath.of_mem (List.mem_of_getLast? hlast)
    rcases hends with hform | hform | ⟨⟨cond, hform⟩, htwo, hbranches⟩
    · exact Path.not_of_exit (.inl hform) hpassed
    · exact Path.not_of_exit (.inr hform) hpassed
    · obtain ⟨z, hz, hthrough⟩ := hpassed.of_branch hform htwo
      exact ih (hbranches z hz) hthrough

/-! ### Statements outside loops -/

/-- A body consists of its own statements and those in blocks and branches that it contains, but
for the ones inside loops. -/
inductive Contains (code : CompilationUnit) (b : NodeId) : NodeId → Prop where
  | child {x : NodeId} (hx : x ∈ code.children b) : Contains code b x
  | block {x y : NodeId} (h : Contains code b y) (hform : code.form y = .block)
    (hx : x ∈ code.children y) : Contains code b x
  | branch {x y z cond : NodeId} (h : Contains code b y) (hform : code.form y = .branch cond)
    (hz : z ∈ code.children y) (hx : x ∈ code.children z) : Contains code b x

/-- **A path does not break a loop that is outside the body**, if there is no statement that
does. -/
theorem Path.ne_breaks (hbreak : ∀ x, code.Contains b x → ∀ value, code.form x ≠ .breakLoop value)
    (h : code.Path (.seq (code.children b)) o) : o ≠ .breaks := by
  -- What is said of all stretches: a statement or statements of the body do not break a loop, and
  -- the rounds of a loop do not in any case.
  have hstretches : ∀ stretch o, code.Path stretch o →
      (match stretch with
        | .stmt x => code.Contains b x
        | .seq stmts => ∀ x ∈ stmts, code.Contains b x
        | .rounds _ => True) → o ≠ .breaks := by
    intro stretch o h
    induction h with
    | ret | abort | skip | plain | done | finish | broken | left => exact fun _ => nofun
    | breakLoop hform => exact fun hx => absurd hform (hbreak _ hx _)
    | block hform _ ih => exact fun hx => ih fun _ hz => hx.block hform hz
    | branch hform hy _ ih => exact fun hx => ih fun _ hz => hx.branch hform hy hz
    | loop _ _ ih => exact fun _ => ih trivial
    | next _ _ _ ih => exact fun hmem => ih fun z hz => hmem z (List.mem_cons_of_mem _ hz)
    | stop _ _ ih => exact fun hmem => ih (hmem _ List.mem_cons_self)
    | again _ _ _ _ ih => exact fun _ => ih trivial
  exact hstretches _ _ h fun _ => .child

/-- What holds of the statements of a body, and is passed on to those inside blocks and branches,
holds of all that the body contains. -/
theorem Contains.of_closed {P : NodeId → Prop} (hchild : ∀ x ∈ code.children b, P x)
    (hblock : ∀ y, P y → code.form y = .block → ∀ x ∈ code.children y, P x)
    (hbranch : ∀ y, P y → code.form y matches .branch _ →
      ∀ z ∈ code.children y, ∀ x ∈ code.children z, P x)
    (h : code.Contains b x) : P x := by
  induction h with
  | child hx => exact hchild _ hx
  | block _ hform hx ih => exact hblock _ ih hform _ hx
  | branch _ hform hz hx ih => exact hbranch _ ih (by rw [hform]) _ hz _ hx

/-! ### Live bodies -/

/-- The branches that are nested in a body through conditional statements, and the body itself. -/
inductive NestedIn (code : CompilationUnit) (b : NodeId) : NodeId → Prop where
  | self : NestedIn code b b
  | branch {x y z cond : NodeId} (h : NestedIn code b y) (hx : x ∈ code.children y)
    (hform : code.form x = .branch cond) (hz : z ∈ code.children x) : NestedIn code b z

/-- The statements of a nested branch belong to the body. -/
theorem NestedIn.contains (h : code.NestedIn b y) (hx : x ∈ code.children y) :
    code.Contains b x := by
  induction h generalizing x with
  | self => exact .child hx
  | branch _ hy hform hz ih => exact (ih hy).branch hform hz hx

/-- A body without statements that no path comes to, in the body or the branches that are nested
in it, nor forms of statements that the judgement does not expect there. -/
structure Live (code : CompilationUnit) (b : NodeId) : Prop where
  /-- Some path leads past every statement that another one follows. -/
  passed : ∀ y, code.NestedIn b y → ∀ pre x next post,
    code.children y = pre ++ x :: next :: post → code.Path (.stmt x) .goesOn
  /-- A conditional statement has one branch or two. -/
  branches : ∀ y, code.NestedIn b y → ∀ x ∈ code.children y, ∀ cond,
    code.form x = .branch cond → (code.children x).length = 1 ∨ (code.children x).length = 2
  /-- Blocks are not used as statements. -/
  blockless : ∀ y, code.NestedIn b y → ∀ x ∈ code.children y, code.form x ≠ .block

/-- Past the last statement of a nested branch that does not always return, there is a path, if
there is one through each branch that is nested there and does not always return. -/
theorem Live.exists_path_last (hlive : code.Live b)
    (hbreak : ∀ x, code.Contains b x → ∀ value, code.form x ≠ .breakLoop value)
    (hy : code.NestedIn b y) (hlast : last ∈ (code.children y).getLast?)
    (h : code.alwaysReturnsWithin (depth + 1) y = false)
    (ih : ∀ z ∈ code.children last, (∃ cond, code.form last = .branch cond) →
      code.alwaysReturnsWithin depth z = false → code.Path (.seq (code.children z)) .goesOn) :
    code.Path (.stmt last) .goesOn := by
  have hmem : last ∈ code.children y := List.mem_of_getLast? hlast
  have hnot := mt alwaysReturnsWithin_succ.mpr (Bool.eq_false_iff.mp h)
  cases hform : code.form last with
  | ret value definition => exact absurd ⟨last, hlast, .inl ⟨value, definition, hform⟩⟩ hnot
  | abort => exact absurd ⟨last, hlast, .inr (.inl hform)⟩ hnot
  | breakLoop value => exact absurd hform (hbreak last (hy.contains hmem) value)
  | block => exact absurd hform (hlive.blockless y hy last hmem)
  | loop cond => exact .loop hform .finish
  | branch cond =>
    rcases hlive.branches y hy last hmem cond hform with hone | htwo
    · exact .skip hform hone
    · -- One of the two branches does not always return.
      have hbranch : ∃ z ∈ code.children last, code.alwaysReturnsWithin depth z ≠ true := by
        by_contra hall
        push Not at hall
        exact hnot ⟨last, hlast, .inr (.inr ⟨⟨cond, hform⟩, htwo, hall⟩)⟩
      obtain ⟨z, hz, hreturns⟩ := hbranch
      exact .branch hform hz (ih z hz ⟨cond, hform⟩ (Bool.eq_false_iff.mpr hreturns))
  | _ => exact .plain (by rw [hform]; exact id)

/-- **Some path reaches the end of a branch that does not always return**, if it is nested in a
live body. -/
theorem Live.exists_path (hlive : code.Live b) (hcode : code.AcyclicFrom y)
    (hbreak : ∀ x, code.Contains b x → ∀ value, code.form x ≠ .breakLoop value)
    (hy : code.NestedIn b y) (hdepth : code.rank y < depth)
    (h : code.alwaysReturnsWithin depth y = false) :
    code.Path (.seq (code.children y)) .goesOn := by
  induction depth generalizing y with
  | zero => exact absurd hdepth (Nat.not_lt_zero _)
  | succ depth ih =>
    rcases List.eq_nil_or_concat' (code.children y) with hnil | ⟨pre, last, hchildren⟩
    · rw [hnil]
      exact .done
    have hmem : last ∈ code.children y := by simp [hchildren]
    have hlast : last ∈ (code.children y).getLast? := by simp [hchildren]
    have hlink : code.Link y last := .inr hmem
    have hend : code.Path (.stmt last) .goesOn := by
      refine hlive.exists_path_last hbreak hy hlast h fun z hz ⟨cond, hform⟩ hreturns => ?_
      have hlink' : code.Link last z := .inr hz
      have hdrop := hcode.rank_lt hlink
      have hdrop' := (hcode.tail hlink).rank_lt hlink'
      exact ih ((hcode.tail hlink).tail hlink') (hy.branch hmem hform hz) (by omega) hreturns
    rw [hchildren]
    refine .append (fun x hx => ?_) (.next hend .done)
    obtain ⟨before, after, rfl⟩ := List.append_of_mem hx
    -- A statement before the last one is followed by another one.
    cases after with
    | nil => exact hlive.passed y hy before x last [] (by simpa using hchildren)
    | cons next after =>
      exact hlive.passed y hy before x next (after ++ [last]) (by simpa using hchildren)

/-- **When every path leaves the function.** Take a body with acyclic links, and without
statements that break a loop around it. If it always returns, every path through it leaves the
function, so that none reaches its end. If it does not, and is live, some path reaches its end. -/
theorem leaves_of_alwaysReturns (code : CompilationUnit) (b : NodeId)
    (hcode : code.AcyclicFrom b)
    (hbreak : ∀ x, code.Contains b x → ∀ value, code.form x ≠ .breakLoop value) :
    (code.alwaysReturns b = true → ¬code.Path (.seq (code.children b)) .goesOn ∧
      ∀ o, code.Path (.seq (code.children b)) o → o = .leaves) ∧
    (code.Live b → code.alwaysReturns b = false →
      code.Path (.seq (code.children b)) .goesOn) := by
  refine ⟨fun h => ?_, fun hlive h => ?_⟩
  · have hend := not_path_of_alwaysReturnsWithin h
    refine ⟨hend, fun o hpath => ?_⟩
    cases o with
    | goesOn => exact absurd hpath hend
    | leaves => rfl
    | breaks => exact absurd rfl (hpath.ne_breaks hbreak)
  · exact hlive.exists_path hcode hbreak .self (Nat.lt_succ_of_le (code.rank_le_size b)) h

/-- Two functions. One runs a loop, out of which there is a way to break, and then returns or
aborts. The other returns, or does not, and then returns or begins an inner transaction. -/
def twoFunctions : CompilationUnit where
  nodes := #[.ofForm 0 (.literal .uint64 "1"),
    .ofForm 0 (.breakLoop none), { Node.ofForm 0 .block with children := [1] },
    { Node.ofForm 0 (.branch 0) with children := [2] }, .ofForm 0 (.ret none none),
    { Node.ofForm 0 .block with children := [3, 4] },
    { Node.ofForm 0 (.loop 0) with children := [5] },
    .ofForm 0 (.ret none none), { Node.ofForm 0 .block with children := [7] },
    .ofForm 0 .abort, { Node.ofForm 0 .block with children := [9] },
    { Node.ofForm 0 (.branch 0) with children := [8, 10] },
    { Node.ofForm 0 (.function "f" [] false) with children := [6, 11] },
    .ofForm 0 (.ret none none), { Node.ofForm 0 .block with children := [13] },
    { Node.ofForm 0 (.branch 0) with children := [14] },
    .ofForm 0 (.ret none none), { Node.ofForm 0 .block with children := [16] },
    .ofForm 0 .innerBegin, { Node.ofForm 0 .block with children := [18] },
    { Node.ofForm 0 (.branch 0) with children := [17, 19] },
    { Node.ofForm 0 (.function "g" [] false) with children := [15, 20] }]
  scopes := .initial "global"

namespace TwoFunctions

theorem acyclic : twoFunctions.Acyclic :=
  acyclic_of_lt (link_lt_of_forall (by decide))

/-- The only statement that breaks a loop is inside the loop. -/
theorem not_breakLoop (hb : b = 12 ∨ b = 21) (hx : twoFunctions.Contains b x)
    (value : Option NodeId) : twoFunctions.form x ≠ .breakLoop value := by
  have hmem : x ∈ [6, 11, 7, 9, 15, 20, 13, 16, 18] := by
    refine hx.of_closed ?_ (by decide) (by decide)
    rcases hb with rfl | rfl <;> decide
  have hforms : ∀ x ∈ [6, 11, 7, 9, 15, 20, 13, 16, 18],
      ¬(twoFunctions.form x matches .breakLoop _) := by decide
  exact fun hform => hforms x hmem (by rw [hform])

/-- The second function is live. -/
theorem live : twoFunctions.Live 21 := by
  have hnested : ∀ y, twoFunctions.NestedIn 21 y → y ∈ [21, 14, 17, 19] := by
    intro y hy
    have hclosed : ∀ y ∈ [21, 14, 17, 19], ∀ x ∈ twoFunctions.children y,
        ∀ z ∈ twoFunctions.children x, z ∈ [21, 14, 17, 19] := by decide
    induction hy with
    | self => decide
    | branch _ hx _ hz ih => exact hclosed _ ih _ hx _ hz
  refine ⟨fun y hy pre x next post hchildren => ?_, fun y hy x hx _ _ => ?_,
    fun y hy x hx => ?_⟩
  · -- Only the first statement of the function is followed by another one.
    have hlength : ∀ y ∈ [21, 14, 17, 19], 2 ≤ (twoFunctions.children y).length → y = 21 := by
      decide
    obtain rfl : y = 21 := hlength y (hnested y hy) (by
      rw [hchildren, List.length_append, List.length_cons, List.length_cons]
      omega)
    cases pre with
    | nil =>
      obtain rfl : 15 = x := (List.cons.inj hchildren).1
      exact .skip rfl rfl
    | cons first pre =>
      have hlength := congrArg List.length hchildren
      simp only [List.length_append, List.length_cons] at hlength
      change 2 = _ at hlength
      omega
  · have hbranches : ∀ y ∈ [21, 14, 17, 19], ∀ x ∈ twoFunctions.children y,
        twoFunctions.form x matches .branch _ →
        (twoFunctions.children x).length = 1 ∨ (twoFunctions.children x).length = 2 := by decide
    exact hbranches y (hnested y hy) x hx (by simp only [*])
  · have hblocks : ∀ y ∈ [21, 14, 17, 19], ∀ x ∈ twoFunctions.children y,
        twoFunctions.form x ≠ .block := by decide
    exact hblocks y (hnested y hy) x hx

end TwoFunctions

/-- Of the first function every path leaves, though not at the loop. Some path reaches the end of
the second one. -/
theorem leaves_of_alwaysReturns_twoFunctions :
    twoFunctions.alwaysReturns 12 = true ∧
    twoFunctions.Path (.stmt 6) .goesOn ∧ twoFunctions.Path (.stmt 6) .leaves ∧
    (∀ o, twoFunctions.Path (.seq (twoFunctions.children 12)) o → o = .leaves) ∧
    twoFunctions.alwaysReturns 21 = false ∧
    twoFunctions.Path (.seq (twoFunctions.children 21)) .goesOn := by
  have hreturns : twoFunctions.alwaysReturns 12 = true := by decide
  have hfalls : twoFunctions.alwaysReturns 21 = false := by decide
  have hfirst := leaves_of_alwaysReturns twoFunctions 12 TwoFunctions.acyclic.acyclicFrom
    fun x hx => TwoFunctions.not_breakLoop (.inl rfl) hx
  have hsecond := leaves_of_alwaysReturns twoFunctions 21 TwoFunctions.acyclic.acyclicFrom
    fun x hx => TwoFunctions.not_breakLoop (.inr rfl) hx
  refine ⟨hreturns, ?_, ?_, (hfirst.1 hreturns).2, hfalls, hsecond.2 TwoFunctions.live hfalls⟩
  · -- The branch that breaks the loop is taken.
    refine .loop rfl (.broken (y := 5) (by decide) (.stop ?_ nofun))
    exact .branch (y := 2) rfl (by decide) (.stop (.breakLoop rfl) nofun)
  · refine .loop rfl (.left (y := 5) (by decide) (.next (.skip rfl rfl) ?_))
    exact .stop (.ret rfl) nofun

end CompilationUnit

end ContractLang
