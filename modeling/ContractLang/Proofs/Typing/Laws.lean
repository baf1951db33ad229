import ContractLang.Proofs.Typing.Transfer
import Mathlib.Tactic.Linarith
import Mathlib.Tactic.Ring

/-!
# Laws of typing without a memory

Four comparisons of typings, each carried through the rules by
`ContractLang.Typing.Transfers`:

* more depth changes no answer (`ContractLang.Typing.typeOf_mono`);
* in an acyclic unit the depth that a unit allows for is enough
  (`ContractLang.Typing.type_ne_outOfDepth`);
* only those functions being resolved matter that are reached
  (`ContractLang.Typing.verdicts_congr_resolving`);
* units that agree on what is read agree on types, up to the errors
  (`ContractLang.Typing.verdicts_congr_code`).
-/

namespace ContractLang

namespace Typing

variable {α : Type} {T : Typing} {d d' : Nat} {R R' : List NodeId} {x b : NodeId}

/-! ### More depth -/

/-- The first answer is the second one, unless it ran out of depth. -/
def Below (r r' : Except Halt α) : Prop :=
  r = .error .outOfDepth ∨ r = r'

theorem transfers_below : Transfers True Below where
  ok _ := .inr rfl
  fault h := .inr (by rw [h trivial])
  bind := by
    rintro _ _ r _ f f' (rfl | rfl) hf
    · exact .inl rfl
    · cases r with
      | ok a => exact hf a rfl rfl
      | error e => exact .inr rfl
  mapFault := by
    rintro _ _ _ f f' (rfl | rfl) hf
    · exact .inl rfl
    · exact .inr (by rw [hf trivial])

/-- One more level of depth changes no answer. -/
theorem verdicts_below_succ (T : Typing) (d : Nat) :
    (∀ R x, Below ((T.verdicts d).typeOf R x) ((T.verdicts (d + 1)).typeOf R x)) ∧
      ∀ R b, Below ((T.verdicts d).returnType R b) ((T.verdicts (d + 1)).returnType R b) := by
  induction d with
  -- Expressions and bodies turn to one another, so the induction is on both together.
  | zero => exact ⟨fun _ _ => .inl rfl, fun _ _ => .inl rfl⟩
  | succ d ih =>
    have hcode : True → T.code = T.code := fun _ => rfl
    have halike := CompilationUnit.Alike.refl T.code
    refine ⟨fun R x => ?_, fun R b => ?_⟩
    · refine transfers_below.typeRule hcode halike (fun _ _ => .inr rfl) (fun y _ => ih.1 R y)
        fun f _ => ?_
      unfold functionType
      split
      · exact .inr rfl
      · exact ih.2 _ f
    · exact transfers_below.returnTypeRule hcode halike fun stmt _ =>
        transfers_below.exitType halike (fun value _ _ => ih.1 R value) fun _ => ih.2 R stmt

/-- **More depth changes no answer.** -/
theorem typeOf_mono (h : d ≤ d') (R : List NodeId) (x : NodeId) :
    Below ((T.verdicts d).typeOf R x) ((T.verdicts d').typeOf R x) := by
  induction h with
  | refl => exact .inr rfl
  | step _ ih =>
    rcases ih with ih | ih
    · exact .inl ih
    · rw [ih]
      exact (T.verdicts_below_succ _).1 R x

theorem returnType_mono (h : d ≤ d') (R : List NodeId) (b : NodeId) :
    Below ((T.verdicts d).returnType R b) ((T.verdicts d').returnType R b) := by
  induction h with
  | refl => exact .inr rfl
  | step _ ih =>
    rcases ih with ih | ih
    · exact .inl ih
    · rw [ih]
      exact (T.verdicts_below_succ _).2 R b

/-- Two answers that did not run out of depth are the same. -/
theorem typeOf_unique (h : (T.verdicts d).typeOf R x ≠ .error .outOfDepth)
    (h' : (T.verdicts d').typeOf R x ≠ .error .outOfDepth) :
    (T.verdicts d).typeOf R x = (T.verdicts d').typeOf R x := by
  rcases Nat.le_total d d' with hle | hle
  · exact (typeOf_mono hle R x).resolve_left h
  · exact ((typeOf_mono hle R x).resolve_left h').symm

/-! ### Enough depth -/

/-- The two answers are the same, and did not run out of depth. -/
def Answered (r r' : Except Halt α) : Prop :=
  r = r' ∧ r ≠ .error .outOfDepth

theorem transfers_answered : Transfers True Answered where
  ok _ := ⟨rfl, nofun⟩
  fault h := ⟨by rw [h trivial], nofun⟩
  bind := by
    rintro _ _ r _ f f' ⟨rfl, hr⟩ hf
    cases r with
    | ok a => exact hf a rfl rfl
    | error e =>
      refine ⟨rfl, fun h => hr ?_⟩
      cases h
      rfl
  mapFault := by
    rintro _ r _ f f' ⟨rfl, hr⟩ hf
    refine ⟨by rw [hf trivial], fun h => hr ?_⟩
    match r with
    | .error .outOfDepth => rfl

/-- Typing a name does not go further down. -/
theorem identType_ne_outOfDepth (T : Typing) (scope : ScopeId) (name : String) :
    T.identType scope name ≠ .error .outOfDepth := by
  unfold identType raise
  split
  · nofun
  · split <;> nofun

open Classical in
/-- The number of nodes that are not being resolved. -/
noncomputable def room (T : Typing) (R : List NodeId) : Nat :=
  ((Finset.range T.code.size).filter (· ∉ R)).card

theorem room_le (T : Typing) (R : List NodeId) : T.room R ≤ T.code.size := by
  classical
  exact (Finset.card_filter_le _ _).trans (Finset.card_range _).le

theorem room_cons_le (T : Typing) (R : List NodeId) (f : NodeId) :
    T.room (f :: R) ≤ T.room R := by
  classical
  exact Finset.card_le_card fun a ha => by
    rw [Finset.mem_filter] at ha ⊢
    exact ⟨ha.1, fun h => ha.2 (List.mem_cons_of_mem f h)⟩

/-- Resolving one more node takes up room. -/
theorem room_cons_lt {f : NodeId} (hsize : f < T.code.size) (hf : f ∉ R) :
    T.room (f :: R) < T.room R := by
  classical
  refine Finset.card_lt_card (Finset.ssubset_iff_subset_ne.mpr ⟨fun a ha => ?_, fun heq => ?_⟩)
  · rw [Finset.mem_filter] at ha ⊢
    exact ⟨ha.1, fun h => ha.2 (List.mem_cons_of_mem f h)⟩
  · have hmem : f ∈ (Finset.range T.code.size).filter (· ∉ R) :=
      Finset.mem_filter.mpr ⟨Finset.mem_range.mpr hsize, hf⟩
    rw [← heq, Finset.mem_filter] at hmem
    exact hmem.2 List.mem_cons_self

/-- The depth below which a node cannot be typed: the nodes below it, and as many again
for every function that can still be entered. -/
noncomputable def need (T : Typing) (R : List NodeId) (x : NodeId) : Nat :=
  T.room R * (T.code.size + 1) + T.code.rank x

theorem need_lt_of_link (hcode : T.code.Acyclic) (h : T.code.Link x b) :
    T.need R b < T.need R x :=
  Nat.add_lt_add_left (CompilationUnit.rank_lt_of_link hcode h) _

/-- Entering a function needs less depth than the call. A number that belongs to no node
takes up no room, but has no rank either. -/
theorem need_cons_lt {f : NodeId} (hcall : T.code.Calls x f) (hf : f ∉ R) :
    T.need (f :: R) f < T.need R x := by
  unfold need
  have hx : 0 < T.code.rank x := CompilationUnit.rank_pos hcall.lt_size
  rcases Nat.lt_or_ge f T.code.size with hlt | hge
  -- Room for one function less is worth more than any rank.
  · have hroom := room_cons_lt (T := T) hlt hf
    have hrank := T.code.rank_le_size f
    calc T.room (f :: R) * (T.code.size + 1) + T.code.rank f
        < T.room (f :: R) * (T.code.size + 1) + (T.code.size + 1) := by omega
      _ = (T.room (f :: R) + 1) * (T.code.size + 1) := by ring
      _ ≤ T.room R * (T.code.size + 1) := Nat.mul_le_mul_right _ hroom
      _ ≤ _ := Nat.le_add_right _ _
  -- There is as much room as before, but the rank drops to nothing.
  · have hrank : T.code.rank f = 0 := CompilationUnit.rank_of_size_le hge
    have hroom := Nat.mul_le_mul_right (T.code.size + 1) (T.room_cons_le R f)
    omega

/-- No node needs more depth than all nodes once for every function. -/
theorem need_lt (T : Typing) (R : List NodeId) (x : NodeId) :
    T.need R x < (T.code.size + 1) * (T.code.size + 1) := by
  have hroom := Nat.mul_le_mul_right (T.code.size + 1) (T.room_le R)
  have hrank := T.code.rank_le_size x
  unfold need
  nlinarith

/-- The depth that a unit allows for is more than any of its nodes needs. -/
theorem need_lt_ownDepth (T : Typing) (R : List NodeId) (x : NodeId) :
    T.need R x < Checker.ownDepth T.code := by
  have hneed := T.need_lt R x
  unfold Checker.ownDepth
  nlinarith

/-- **Depth beyond the need of a node is enough** to type it. -/
theorem verdicts_answered (hcode : T.code.Acyclic) (d : Nat) :
    (∀ R x, T.need R x < d → (T.verdicts d).typeOf R x ≠ .error .outOfDepth) ∧
      ∀ R b, T.need R b < d → (T.verdicts d).returnType R b ≠ .error .outOfDepth := by
  induction d with
  | zero => exact ⟨fun _ _ h => absurd h (Nat.not_lt_zero _),
      fun _ _ h => absurd h (Nat.not_lt_zero _)⟩
  | succ d ih =>
    have hsame : True → T.code = T.code := fun _ => rfl
    have halike := CompilationUnit.Alike.refl T.code
    have htype : ∀ {R x y}, T.need R x < d + 1 → T.code.Link x y →
        Answered ((T.verdicts d).typeOf R y) ((T.verdicts d).typeOf R y) := by
      intro R x y h hlink
      have hlt := need_lt_of_link (R := R) hcode hlink
      exact ⟨rfl, ih.1 R y (by omega)⟩
    refine ⟨fun R x h => ?_, fun R b h => ?_⟩
    -- The relation says of an answer compared with itself that there is one.
    · suffices Answered ((T.verdicts (d + 1)).typeOf R x) ((T.verdicts (d + 1)).typeOf R x) from
        this.2
      refine transfers_answered.typeRule hsame halike
        (fun name _ => ⟨rfl, T.identType_ne_outOfDepth _ name⟩) (fun y hy => htype h hy)
        fun f hf => ?_
      unfold functionType
      split
      · exact ⟨rfl, nofun⟩
      · next hmem =>
        have hlt := need_cons_lt hf (by simpa using hmem)
        exact ⟨rfl, ih.2 _ f (by omega)⟩
    · suffices Answered ((T.verdicts (d + 1)).returnType R b)
        ((T.verdicts (d + 1)).returnType R b) from this.2
      refine transfers_answered.returnTypeRule hsame halike fun stmt hstmt => ?_
      have hstmt' := need_lt_of_link (R := R) hcode (.inr hstmt)
      exact transfers_answered.exitType halike
        (fun value definition hform => htype (Nat.lt_trans hstmt' h) (.of_ret hform))
        fun _ => ⟨rfl, ih.2 R stmt (by omega)⟩

/-- **Every node of an acyclic unit is typed** at the depth that the unit allows for. -/
theorem type_ne_outOfDepth (hcode : T.code.Acyclic) (x : NodeId) :
    T.type x ≠ .error .outOfDepth :=
  (verdicts_answered hcode _).1 [] x (T.need_lt_ownDepth [] x)

theorem returnType_ne_outOfDepth (hcode : T.code.Acyclic) (f : NodeId) :
    T.returnType f ≠ .error .outOfDepth :=
  (verdicts_answered hcode _).2 [f] f (T.need_lt_ownDepth [f] f)

/-- The verdict on an expression is its type if there was enough depth. -/
theorem verdict_eq_type (hcode : T.code.Acyclic) (h : T.need [] x < d) :
    (T.verdicts d).typeOf [] x = T.type x :=
  typeOf_unique ((verdicts_answered hcode d).1 [] x h) (type_ne_outOfDepth hcode x)

theorem verdict_eq_returnType {f : NodeId} (hcode : T.code.Acyclic) (h : T.need [f] f < d) :
    (T.verdicts d).returnType [f] f = T.returnType f := by
  have hne := (verdicts_answered hcode d).2 [f] f h
  have hne' := returnType_ne_outOfDepth hcode f
  rcases Nat.le_total d (Checker.ownDepth T.code) with hle | hle
  · exact (returnType_mono hle [f] f).resolve_left hne
  · exact ((returnType_mono hle [f] f).resolve_left hne').symm

/-! ### Functions being resolved -/

theorem transfers_eq : Transfers True (fun {_} r r' => r = r') where
  ok _ := rfl
  fault h := by rw [h trivial]
  bind := by
    rintro _ _ r _ f f' rfl hf
    cases r with
    | ok a => exact hf a rfl rfl
    | error e => rfl
  mapFault := by
    rintro _ r _ f f' rfl hf
    rw [hf trivial]

/-- The functions that are reached from a node are being resolved in `R` if and only if
they are in `R'`. -/
def SameResolving (T : Typing) (R R' : List NodeId) (x : NodeId) : Prop :=
  ∀ f, T.code.ReachesFunction x f → (f ∈ R ↔ f ∈ R')

namespace SameResolving

theorem of_leads (h : T.SameResolving R R' x) (hlead : T.code.Leads x b) :
    T.SameResolving R R' b :=
  fun f hf => h f (hf.head hlead)

theorem cons {f : NodeId} (h : T.SameResolving R R' x) (hcall : T.code.Calls x f) :
    T.SameResolving (f :: R) (f :: R') f := fun g hg => by
  simp only [List.mem_cons, h g (hg.head (.of_calls hcall))]

end SameResolving

/-- **Only the functions that are reached matter** among those being resolved. -/
theorem verdicts_congr_resolving (T : Typing) (d : Nat) :
    (∀ R R' x, T.SameResolving R R' x →
      (T.verdicts d).typeOf R x = (T.verdicts d).typeOf R' x) ∧
    ∀ R R' b, T.SameResolving R R' b →
      (T.verdicts d).returnType R b = (T.verdicts d).returnType R' b := by
  induction d with
  | zero => exact ⟨fun _ _ _ _ => rfl, fun _ _ _ _ => rfl⟩
  | succ d ih =>
    have hsame : True → T.code = T.code := fun _ => rfl
    have halike := CompilationUnit.Alike.refl T.code
    have htype : ∀ {R R' x y}, T.SameResolving R R' x → T.code.Link x y →
        (T.verdicts d).typeOf R y = (T.verdicts d).typeOf R' y := by
      intro R R' x y h hlink
      -- Evaluation does not lead to a definition from above, but typing one fails in any case.
      by_cases hdef : T.code.IsDefinition y
      · cases d with
        | zero => rfl
        | succ d => exact transfers_eq.typeRule_of_isDefinition hsame halike hdef
      · exact ih.1 R R' y (h.of_leads (.of_link hlink hdef))
    refine ⟨fun R R' x h => ?_, fun R R' b h => ?_⟩
    · refine transfers_eq.typeRule hsame halike (fun _ _ => rfl) (fun y hy => htype h hy)
        fun f hf => ?_
      -- A function that is entered is being resolved in both lists from then on.
      unfold functionType
      simp only [List.contains_iff_mem, h f (.of_calls hf)]
      split
      · rfl
      · exact ih.2 _ _ f (h.cons hf)
    · refine transfers_eq.returnTypeRule hsame halike fun stmt hstmt => ?_
      by_cases hdef : T.code.IsDefinition stmt
      · obtain ⟨name, params, inlined, hform⟩ := hdef
        simp only [exitType, hform]
      · have hbody := h.of_leads (.of_link (.inr hstmt) hdef)
        exact transfers_eq.exitType halike
          (fun value definition hform => htype hbody (.of_ret hform)) fun _ => ih.2 R R' stmt hbody

/-- A node from which no function is reached that is being resolved is typed as if none
were. -/
theorem typeOf_resolving (h : ∀ f, T.code.ReachesFunction x f → f ∉ R) :
    (T.verdicts d).typeOf R x = (T.verdicts d).typeOf [] x :=
  (T.verdicts_congr_resolving d).1 R [] x fun f hf => by simp [h f hf]

/-! ### Other units -/

theorem transfers_toOption :
    Transfers False (fun {_} r r' => r.toOption = r'.toOption) where
  ok _ := rfl
  fault _ := rfl
  bind := by
    rintro _ _ (e | a) (e' | a') f f' h hf
    · rfl
    · cases h
    · cases h
    · cases h
      exact hf a rfl rfl
  mapFault := by
    rintro _ (e | a) (e' | a') f f' h _
    · cases e <;> cases e' <;> rfl
    · cases h
    · cases h
    · exact h

/-- Answers that are the same up to the errors are the same types. -/
theorem eq_ok_iff_of_toOption {r r' : Except Halt α} {a : α} (h : r.toOption = r'.toOption) :
    r = .ok a ↔ r' = .ok a := by
  rcases r with e | b <;> rcases r' with e' | b'
  · exact ⟨nofun, nofun⟩
  · cases h
  · cases h
  · cases h
    exact Iff.rfl

/-- Two units give the same type to every name that is reached from a node. -/
def SameIdents (T : Typing) (code' : CompilationUnit) (x : NodeId) : Prop :=
  ∀ y, T.code.Reaches x y → ∀ name, T.code.form y = .ident name →
    (T.identType (T.code.node y).scope name).toOption =
      ({ T with code := code' }.identType (T.code.node y).scope name).toOption

theorem SameIdents.of_leads {code' : CompilationUnit} (h : T.SameIdents code' x)
    (hlead : T.code.Leads x b) : T.SameIdents code' b :=
  fun y hy => h y (.head hlead hy)

/-- **Units that agree on what is read agree on types**, if they do so on the types of
the names that are reached. -/
theorem verdicts_congr_code {code' : CompilationUnit} (halike : T.code.Alike code') (d : Nat) :
    (∀ R x, T.SameIdents code' x → ((T.verdicts d).typeOf R x).toOption =
      (({ T with code := code' }.verdicts d).typeOf R x).toOption) ∧
    ∀ R b, T.SameIdents code' b → ((T.verdicts d).returnType R b).toOption =
      (({ T with code := code' }.verdicts d).returnType R b).toOption := by
  induction d with
  | zero => exact ⟨fun _ _ _ => rfl, fun _ _ _ => rfl⟩
  | succ d ih =>
    have htype : ∀ {R x y}, T.SameIdents code' x → T.code.Link x y →
        ((T.verdicts d).typeOf R y).toOption =
          (({ T with code := code' }.verdicts d).typeOf R y).toOption := by
      intro R x y h hlink
      by_cases hdef : T.code.IsDefinition y
      · cases d with
        | zero => rfl
        | succ d => exact transfers_toOption.typeRule_of_isDefinition nofun halike hdef
      · exact ih.1 R y (h.of_leads (.of_link hlink hdef))
    refine ⟨fun R x h => ?_, fun R b h => ?_⟩
    · refine transfers_toOption.typeRule nofun halike (h x .refl) (fun y hy => htype h hy)
        fun f hf => ?_
      unfold functionType
      split
      · rfl
      · exact ih.2 _ f (h.of_leads (.of_calls hf))
    · refine transfers_toOption.returnTypeRule nofun halike fun stmt hstmt => ?_
      by_cases hdef : T.code.IsDefinition stmt
      · obtain ⟨name, params, inlined, hform⟩ := hdef
        simp only [exitType, halike.form, hform]
      · have hbody := h.of_leads (.of_link (.inr hstmt) hdef)
        exact transfers_toOption.exitType halike
          (fun value definition hform => htype hbody (.of_ret hform)) fun _ => ih.2 R stmt hbody

variable {code' : CompilationUnit} (hsize : code'.size = T.code.size)
  (halike : T.code.Alike code')

include hsize halike

theorem type_congr_code (hx : T.SameIdents code' x) :
    ({ T with code := code' }.type x).toOption = (T.type x).toOption := by
  unfold type Checker.ownDepth
  rw [hsize]
  exact ((verdicts_congr_code halike _).1 [] x hx).symm

theorem returnType_congr_code (hb : T.SameIdents code' b) :
    ({ T with code := code' }.returnType b).toOption = (T.returnType b).toOption := by
  unfold returnType Checker.ownDepth
  rw [hsize]
  exact ((verdicts_congr_code halike _).2 [b] b hb).symm

end Typing

end ContractLang
