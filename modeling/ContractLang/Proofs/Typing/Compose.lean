import ContractLang.Proofs.Typing.Arity
import ContractLang.Proofs.Typing.Course

/-!
# Answers composed of answers about parts

An expression in which no function is called is typed by its parts alone. What the checker puts on
record on the way is what it answers about the nodes in question anyway
(`ContractLang.Typing.Learned`). So the answers about all parts are those that were given if each
of them were asked about first, and the answer about the expression is made of them by the plain
rule for its form (`ContractLang.Checker.typeIn_eq_typeRule`).
-/

namespace ContractLang

open Check Relation

/-- No call in an expression is one of a function. -/
def CompilationUnit.FreeOfFunctions (code : CompilationUnit) (x : NodeId) : Prop :=
  ∀ y, ReflTransGen code.Part x y → ∀ name, code.form y = .call name →
    code.scopes.binding? (code.node y).scope name = none

theorem CompilationUnit.FreeOfFunctions.of_part {code : CompilationUnit} {x y : NodeId}
    (hx : code.FreeOfFunctions x) (hy : code.Part x y) : code.FreeOfFunctions y :=
  fun z hz => hx z (hz.head hy)

/-- The verdicts that give expressions certain types, and have none for bodies. -/
def Verdicts.ofTypes (types : NodeId → Except Halt Ty) : Verdicts :=
  ⟨fun _ expr => types expr, fun _ _ => .error .outOfDepth⟩

variable {σ : Type}

namespace Typing

variable {T : Typing} {types : NodeId → Except Halt Ty} {code : CompilationUnit}
  {R : List NodeId} {x y : NodeId}

/-! ### What goes on record -/

/-- A unit is that of `T` with more types on record, all of which are among `types`. -/
structure Learned (T : Typing) (types : NodeId → Except Halt Ty) (code : CompilationUnit) :
    Prop where
  size : code.size = T.code.size
  retypes : T.code.Retypes code
  kept : ∀ id, T.code.IsRecorded id → code.IsRecorded id
  right : ∀ id, code.IsRecorded id → types id = .ok (code.node id).type

namespace Learned

/-- A unit reads as before. -/
theorem render (h : T.Learned types code) (id : NodeId) : code.render id = T.code.render id :=
  CompilationUnit.render_congr h.size
    (fun _ render => h.retypes.field (CompilationUnit.nodeText render) fun _ _ => rfl) id

/-- One more type is put on record, and it is the one of the node. -/
theorem setType {type : Ty} (h : T.Learned types code) (hx : types x = .ok type)
    (htype : type.isKnown) : T.Learned types (code.setType x type) where
  size := CompilationUnit.size_modifyNode.trans h.size
  retypes := h.retypes.setType type
  kept id hid := by
    have hrecorded := h.kept id hid
    unfold CompilationUnit.IsRecorded CompilationUnit.form CompilationUnit.setType at *
    rw [CompilationUnit.node_modifyNode]
    split
    · exact ⟨hrecorded.1, htype⟩
    · exact hrecorded
  right id hid := by
    unfold CompilationUnit.IsRecorded CompilationUnit.form CompilationUnit.setType at *
    rw [CompilationUnit.node_modifyNode] at hid ⊢
    split at hid
    · next hself =>
      rw [if_pos hself, hself.1]
      exact hx
    · next hother =>
      rw [if_neg hother]
      exact h.right id hid

end Learned

/-! ### Computations that give an answer -/

/-- From every unit with more types on record, a computation gives a certain answer, and it leaves
such a unit behind. -/
def Gives {α : Type} (T : Typing) (types : NodeId → Except Halt Ty) (action : Check σ α)
    (r : Except Halt α) : Prop :=
  ∀ s : CheckState σ, T.Learned types s.code →
    (exec action s).1 = r ∧ T.Learned types (exec action s).2.code

/-- To give an answer is to mirror the plain rules. -/
theorem mirrors_gives (T : Typing) (types : NodeId → Except Halt Ty) :
    T.Mirrors (T.Gives (σ := σ) types) where
  pure _ _ hs := ⟨rfl, hs⟩
  fail _ _ hs := ⟨rfl, hs⟩
  bind := by
    intro α β action r f g h hf s hs
    obtain ⟨hr, hu⟩ := h s hs
    rw [exec_bind]
    generalize exec action s = out at hr hu
    match out with
    | (.ok a, u) =>
      subst hr
      exact hf a rfl u hu
    | (.error halt, u) =>
      subst hr
      exact ⟨rfl, hu⟩
  onFault := by
    intro α action r handler f h hhandler s hs
    obtain ⟨hr, hu⟩ := h s hs
    rw [exec_onFault]
    generalize exec action s = out at hr hu
    match out with
    | (.ok a, u) | (.error .outOfDepth, u) =>
      subst hr
      exact ⟨rfl, hu⟩
    | (.error (.fault e), u) =>
      subst hr
      exact hhandler e u hu
  node h s hs := by
    rw [exec_bind, exec_node]
    obtain ⟨type, hnode⟩ := hs.retypes.node _
    exact hnode ▸ h type _ s hs
  textOf h s hs := by
    rw [exec_bind, exec_textOf, hs.render]
    exact h s hs

theorem gives_identType (scope : ScopeId) (name : String) :
    T.Gives types (Context.identType scope name : Check σ Ty) (T.identType scope name) := by
  intro s hs
  rw [exec_identType (T := T)]
  refine ⟨?_, hs⟩
  unfold identType
  rw [hs.retypes.scopes]

section Rules

variable {ctx : Context σ} (hspec : ctx.spec = T.spec) {obtain : BodySource σ}

include hspec

variable (obtain) in
theorem gives_callType {name : String}
    (hname : T.code.scopes.binding? (T.code.node x).scope name = none)
    (hparts : ∀ y ∈ T.code.children x, T.Gives types (ctx.judge (.typeOf R y)) (types y)) :
    T.Gives types (ctx.callType obtain R x name)
      (T.callType (.ofTypes types) R (T.code.node x) name) := by
  intro s hs
  obtain ⟨type, hnode⟩ := hs.retypes.node x
  rw [Context.exec_callType, hs.retypes.binding?, hname, hnode]
  unfold Context.boundType callType
  rw [hname, hspec]
  dsimp only
  split
  · exact (mirrors_gives T types).operationType (v := .ofTypes types) hspec name hparts s hs
  · exact (mirrors_gives T types).fail _ s hs

/-- From every unit with more types on record, but not that of `x`, a computation gives a certain
answer. If this is the type of `x`, then it leaves such a unit behind. -/
def Learns (T : Typing) (types : NodeId → Except Halt Ty) (x : NodeId) (action : Check σ Ty)
    (r : Except Halt Ty) : Prop :=
  ∀ s : CheckState σ, T.Learned types s.code → ¬s.code.IsRecorded x →
    (exec action s).1 = r ∧
      ((∀ type, r = .ok type → types x = .ok type) → T.Learned types (exec action s).2.code)

omit hspec

theorem learns_memo {infer : Check σ Ty} {r : Except Halt Ty} (hx : (T.code.form x).remembers)
    (h : T.Gives types infer r) : T.Learns types x (memo x infer) r := by
  intro s hs hunrecorded
  obtain ⟨hr, hu⟩ := h s hs
  rw [exec_memo, if_neg fun hknown => hunrecorded ⟨hs.retypes.form.symm ▸ hx, hknown⟩]
  generalize exec infer s = out at hr hu
  match out with
  | (.error halt, u) => exact ⟨hr, fun _ => hu⟩
  | (.ok type, u) =>
    refine ⟨hr, fun htype => ?_⟩
    dsimp only
    split
    · next hknown => exact hu.setType (htype type hr.symm) hknown
    · exact hu

theorem learns_node {f : Node → Check σ Ty} {r : Except Halt Ty}
    (h : ∀ type, T.Learns types x (f { T.code.node y with type }) r) :
    T.Learns types x (node y >>= f) r := by
  intro s hs hx
  rw [exec_bind, exec_node]
  obtain ⟨type, hnode⟩ := hs.retypes.node y
  exact hnode ▸ h type s hs hx

theorem learns_located {action : Check σ Ty} {r : Except Halt Ty} (h : T.Learns types x action r)
    (position : Option Position) :
    T.Learns types x (located position action) (mapFault (·.orPosition position) r) := by
  intro s hs hx
  obtain ⟨hr, hu⟩ := h s hs hx
  rw [exec_located]
  generalize exec action s = out at hr hu
  match out with
  | (.ok type, u) | (.error .outOfDepth, u) =>
    subst hr
    exact ⟨rfl, hu⟩
  | (.error (.fault e), u) =>
    subst hr
    exact ⟨rfl, fun _ => hu nofun⟩

include hspec

variable (obtain) in
/-- **The rule for expressions makes answers of answers about the parts.** -/
theorem learns_typeRule
    (hcall : ∀ name, T.code.form x = .call name →
      T.code.scopes.binding? (T.code.node x).scope name = none)
    (hparts : ∀ y ∈ T.code.parts x, T.Gives types (ctx.judge (.typeOf R y)) (types y)) :
    T.Learns types x (ctx.typeRule obtain R x) (T.typeRule (.ofTypes types) R x) := by
  unfold Context.typeRule typeRule
  refine learns_node fun type => learns_located ?_ _
  refine (mirrors_gives T types).formType hspec (fun h s hs _ => ⟨(h s hs).1, fun _ => (h s hs).2⟩)
    (fun hx _ infer => learns_memo hx) (fun name hname => ?_)
    fun y hy => hparts y (CompilationUnit.mem_parts_of_mem_operands hy)
  rcases hname with hname | hname
  · rw [hname]
    exact learns_node fun type =>
      learns_memo (by rw [hname]; rfl) (gives_identType (T.code.node x).scope name)
  · rw [CompilationUnit.parts_of_call hname] at hparts
    rw [hname]
    exact learns_memo (by rw [hname]; rfl) (gives_callType hspec obtain (hcall name hname) hparts)

omit hspec in
/-- Which functions are being resolved does not matter where none is called. -/
theorem typeRule_resolving (v : Verdicts) (hv : ∀ y, v.typeOf R y = v.typeOf [] y)
    (hcall : ∀ name, T.code.form x = .call name →
      T.code.scopes.binding? (T.code.node x).scope name = none) :
    T.typeRule v R x = T.typeRule v [] x := by
  refine transfers_eq.typeRule (fun _ => rfl) (.refl T.code) (fun _ _ => rfl) (fun y _ => hv y)
    fun f ⟨name, hform, hname⟩ => ?_
  rw [hcall name hform] at hname
  cases hname

end Rules

end Typing

/-! ### Queries -/

namespace Checker

variable (checker : Checker σ) (s : CheckState σ)

/-- What is answered about the type of an expression. -/
def typeIn (x : NodeId) : Except Halt Ty :=
  (checker.ask (.typeOf x) s).1

variable {s} {x : NodeId}

/-- A type on record is the answer. -/
theorem typeIn_of_isRecorded (hx : s.code.IsRecorded x) :
    checker.typeIn s x = .ok (s.code.node x).type := by
  obtain ⟨d, -, hask⟩ := checker.exists_ask_eq s
  unfold typeIn
  rw [hask]
  exact congrArg Prod.fst ((checker.context d).exec_typeRule_of_isRecorded _ [] hx)

/-- Nothing but answers is on record. -/
theorem learned_typeIn : (checker.typing s.code).Learned (checker.typeIn s) s.code :=
  ⟨rfl, .refl s.code, fun _ h => h, fun _ h => checker.typeIn_of_isRecorded h⟩

/-- An expression is answered about by the answers about its parts, at any depth. -/
theorem learns_typeOf (hx : s.code.FreeOfFunctions x) {d : Nat} {R : List NodeId}
    (hparts : ∀ y ∈ s.code.parts x, (checker.typing s.code).Gives (checker.typeIn s)
      ((checker.context d).judge (.typeOf R y)) (checker.typeIn s y)) :
    (checker.typing s.code).Learns (checker.typeIn s) x
      ((checker.context (d + 1)).judge (.typeOf R x))
      ((checker.typing s.code).typeRule (.ofTypes (checker.typeIn s)) [] x) := by
  rw [← Typing.typeRule_resolving (R := R) _ (fun _ => rfl) (hx x .refl)]
  exact Typing.learns_typeRule (Supply.spec_context _ _ _ _) _ (hx x .refl) hparts

/-- The answer about an expression is made of the answers about its parts if these are given at
every depth that suffices for them. -/
theorem typeIn_eq_of_gives (hx : s.code.FreeOfFunctions x) (hunrecorded : ¬s.code.IsRecorded x)
    (hparts : ∀ y ∈ s.code.parts x, ∀ d, s.code.rank x ≤ d →
      (checker.typing s.code).Gives (checker.typeIn s) ((checker.context d).judge (.typeOf [] y))
        (checker.typeIn s y)) :
    checker.typeIn s x =
      (checker.typing s.code).typeRule (.ofTypes (checker.typeIn s)) [] x := by
  obtain ⟨d, hd, hask⟩ := checker.exists_size_le_ask_eq s
  have hrank : s.code.rank x ≤ d := (s.code.rank_le_size x).trans hd
  have hanswer := (checker.learns_typeOf hx fun y hy => hparts y hy d hrank) s
    checker.learned_typeIn hunrecorded
  rw [← hanswer.1]
  unfold typeIn
  rw [hask]
  rfl

/-- What is answered about an expression is answered from every unit with more types on record, at
every depth that suffices. -/
theorem gives_typeOf (hcode : s.code.AcyclicFrom x) (hx : s.code.FreeOfFunctions x) {d : Nat}
    (hd : s.code.rank x < d) (R : List NodeId) :
    (checker.typing s.code).Gives (checker.typeIn s) ((checker.context d).judge (.typeOf R x))
      (checker.typeIn s x) := by
  induction hn : s.code.rank x using Nat.strong_induction_on generalizing x d R with
  | h n ih =>
    subst hn
    have hparts : ∀ y ∈ s.code.parts x, ∀ d, s.code.rank x ≤ d → ∀ R,
        (checker.typing s.code).Gives (checker.typeIn s) ((checker.context d).judge (.typeOf R y))
          (checker.typeIn s y) := by
      intro y hy d hd R
      have hlink := CompilationUnit.link_of_mem_parts hy
      have hlt := hcode.rank_lt hlink
      exact ih _ hlt (hcode.tail hlink) (hx.of_part hy) (hlt.trans_le hd) R rfl
    obtain ⟨d, rfl⟩ := Nat.exists_eq_succ_of_ne_zero (Nat.ne_zero_of_lt hd)
    intro t ht
    by_cases hrecorded : t.code.IsRecorded x
    · change (exec ((checker.context d).typeRule _ R x) t).1 = _ ∧
        Typing.Learned _ _ (exec ((checker.context d).typeRule _ R x) t).2.code
      rw [(checker.context d).exec_typeRule_of_isRecorded _ R hrecorded]
      exact ⟨(ht.right x hrecorded).symm, ht⟩
    · -- What has not been found out by now was not on record in the beginning.
      have htype := checker.typeIn_eq_of_gives hx (fun h => hrecorded (ht.kept x h))
        fun y hy d hd => hparts y hy d hd []
      have hend := (checker.learns_typeOf hx fun y hy => hparts y hy d (Nat.lt_succ_iff.mp hd) R) t
        ht hrecorded
      rw [← htype] at hend
      exact ⟨hend.1, hend.2 fun _ h => h⟩

/-- **The answer about an expression is made of the answers about its parts** by the plain rule for
its form, if it is not on record and no function is called in the expression. -/
theorem typeIn_eq_typeRule (hcode : s.code.AcyclicFrom x) (hx : s.code.FreeOfFunctions x)
    (hunrecorded : ¬s.code.IsRecorded x) :
    checker.typeIn s x =
      (checker.typing s.code).typeRule (.ofTypes (checker.typeIn s)) [] x := by
  refine checker.typeIn_eq_of_gives hx hunrecorded fun y hy d hd => ?_
  have hlink := CompilationUnit.link_of_mem_parts hy
  exact checker.gives_typeOf (hcode.tail hlink) (hx.of_part hy)
    ((hcode.rank_lt hlink).trans_le hd) []

end Checker

end ContractLang
