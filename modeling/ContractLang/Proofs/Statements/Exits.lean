import ContractLang.Proofs.Statements.Returns

/-!
# The exits of a body

The exits of a body are its return statements and aborts, at any depth of nested blocks and
conditional statements, but not inside loops (`ContractLang.CompilationUnit.exits`). What an exit
contributes to the return type of the body is the type of its value if that is known, and the type
of a word if it is an abort and aborts have a type
(`ContractLang.CompilationUnit.contributions`).

The types that are contributed may agree on a common one (`ContractLang.Ty.Agree`). An outcome of
their comparison is right if it says which (`ContractLang.Ty.Unifies`).
-/

namespace ContractLang

/-! ### Types that agree -/

/-- No two types of a list are different. -/
def Ty.Agree (types : List Ty) : Prop :=
  ∀ a ∈ types, ∀ c ∈ types, a = c

/-- The type that all types of a list are, if there are any and they agree. -/
def Ty.common (types : List Ty) : Ty :=
  types.headD .unknown

/-- A type, or the unknown one if it is not known. -/
def Ty.orUnknown (t : Ty) : Ty :=
  if t.isKnown then t else .unknown

/-- An outcome is the type that known types agree on, or names two of them that do not. -/
def Ty.Unifies (types : List Ty) : Except Halt Ty → Prop
  | .ok t => Agree types ∧ t = common types
  | .error (.fault e) => ∃ a ∈ types, ∃ c ∈ types, a ≠ c ∧ e.cause = .blockMismatch a.name c.name
  | .error .outOfDepth => False

namespace Ty

variable {types more : List Ty} {a c t : Ty} {r : Except Halt Ty}

theorem agree_nil : Agree [] :=
  fun _ ha => absurd ha List.not_mem_nil

theorem common_eq_of_mem (h : Agree types) (ha : a ∈ types) : common types = a := by
  cases types with
  | nil => exact absurd ha List.not_mem_nil
  | cons c rest => exact h c List.mem_cons_self a ha

/-- A common type is known only if there is a type that it is. -/
theorem common_mem (h : (common types).isKnown) : common types ∈ types := by
  cases types with
  | nil => exact nomatch h
  | cons c rest => exact List.mem_cons_self

/-- Types that agree go together if their common types do not clash. -/
theorem agree_append (h : Agree types) (h' : Agree more) (hknown : ∀ c ∈ types ++ more, c.isKnown)
    (hclash : ¬(common types).clashes (common more)) : Agree (types ++ more) := by
  have hcross : ∀ a ∈ types, ∀ c ∈ more, a = c := by
    intro a ha c hc
    rw [common_eq_of_mem h ha, common_eq_of_mem h' hc] at hclash
    exact eq_of_not_clashes (hknown a (List.mem_append_left _ ha))
      (hknown c (List.mem_append_right _ hc)) hclash
  intro a ha c hc
  rcases List.mem_append.mp ha with ha | ha <;> rcases List.mem_append.mp hc with hc | hc
  · exact h a ha c hc
  · exact hcross a ha c hc
  · exact (hcross c hc a ha).symm
  · exact h' a ha c hc

/-- The common type of all is that of the later ones, if these have one. -/
theorem common_append (h : Agree (types ++ more)) (hknown : ∀ c ∈ types ++ more, c.isKnown) :
    common (types ++ more) = if (common more).isKnown then common more else common types := by
  cases more with
  | nil => rw [List.append_nil]; rfl
  | cons c rest =>
    rw [if_pos (show (common (c :: rest)).isKnown from
      hknown c (List.mem_append_right _ List.mem_cons_self))]
    exact common_eq_of_mem h (List.mem_append_right _ List.mem_cons_self)

/-- Types that clash are both among those that do not agree. -/
theorem ne_of_clashes (h : a.clashes c) : a.isKnown ∧ c.isKnown ∧ a ≠ c := by
  unfold clashes at h
  simp only [Bool.and_eq_true, bne_iff_ne] at h
  exact ⟨h.1.1, h.1.2, h.2⟩

theorem orUnknown_of_isKnown (h : a.isKnown) : a.orUnknown = a :=
  if_pos h

theorem orUnknown_of_not_isKnown (h : ¬a.isKnown) : a.orUnknown = .unknown :=
  if_neg h

/-- A type that is not known clashes with nothing. -/
theorem clashes_orUnknown : a.clashes c.orUnknown = a.clashes c := by
  cases a <;> cases c <;> rfl

/-- The common type of known types is known, or there are none. -/
theorem orUnknown_common (h : ∀ c ∈ types, c.isKnown) :
    (common types).orUnknown = common types := by
  cases types with
  | nil => rfl
  | cons c rest => exact if_pos (h c List.mem_cons_self)

/-- Types that are found to disagree do so among more types. -/
theorem Unifies.error_mono {halt : Halt} (h : Unifies types (.error halt))
    (hsub : ∀ c ∈ types, c ∈ more) : Unifies more (.error halt) := by
  cases halt with
  | outOfDepth => exact h.elim
  | fault e =>
    obtain ⟨a, ha, c, hc, hne, hcause⟩ := h
    exact ⟨a, hsub a ha, c, hsub c hc, hne, hcause⟩

/-- Two outcomes that are right for the same types give the same type, or none. -/
theorem Unifies.ok_iff {r' : Except Halt Ty} (h : Unifies types r) (h' : Unifies types r')
    (t : Ty) : r = .ok t ↔ r' = .ok t := by
  -- Whether there is a type is a matter of whether the types agree, and so is which one it is.
  have hok : ∀ {r}, Unifies types r → (r = .ok t ↔ Agree types ∧ t = common types) := by
    intro r h
    match r, h with
    | .ok a, ⟨hagree, ha⟩ =>
      subst ha
      exact ⟨fun heq => ⟨hagree, (Except.ok.inj heq).symm⟩, fun ⟨_, ht⟩ => congrArg _ ht.symm⟩
    | .error (.fault e), ⟨a, ha, c, hc, hne, _⟩ =>
      exact ⟨nofun, fun ⟨hagree, _⟩ => absurd (hagree a ha c hc) hne⟩
  exact (hok h).trans (hok h').symm

/-- **What an outcome says of the types**: a known type is the one that all of them are, an unknown
one says that there are none, and an error names two that differ. -/
theorem Unifies.exact (h : Unifies types r) (hknown : ∀ c ∈ types, c.isKnown) :
    (∀ t, t.isKnown → (r = .ok t ↔ types ≠ [] ∧ ∀ c ∈ types, c = t)) ∧
    (r = .ok .unknown ↔ types = []) ∧
    (¬Agree types → ∃ a ∈ types, ∃ c ∈ types, a ≠ c ∧
      ∃ position, r = .error (.fault ⟨.blockMismatch a.name c.name, position⟩)) := by
  match r, h with
  | .ok t, ⟨hagree, ht⟩ =>
    subst ht
    refine ⟨fun t ht => ⟨fun heq => ?_, fun ⟨hne, hall⟩ => ?_⟩, ⟨fun heq => ?_, ?_⟩,
      fun hnot => absurd hagree hnot⟩
    · obtain rfl := Except.ok.inj heq
      refine ⟨List.ne_nil_of_mem (common_mem ht), fun c hc => (common_eq_of_mem hagree hc).symm⟩
    · obtain ⟨c, hc⟩ := List.exists_mem_of_ne_nil types hne
      rw [common_eq_of_mem hagree hc, hall c hc]
    · by_contra hne
      obtain ⟨c, hc⟩ := List.exists_mem_of_ne_nil types hne
      have hunknown := hknown c hc
      rw [← common_eq_of_mem hagree hc, Except.ok.inj heq] at hunknown
      exact nomatch hunknown
    · rintro rfl
      rfl
  | .error (.fault ⟨cause, position⟩), ⟨a, ha, c, hc, hne, hcause⟩ =>
    refine ⟨fun t ht => ⟨nofun, fun ⟨_, hall⟩ => ?_⟩, ⟨nofun, ?_⟩,
      fun _ => ⟨a, ha, c, hc, hne, position, ?_⟩⟩
    · exact absurd ((hall a ha).trans (hall c hc).symm) hne
    · rintro rfl
      exact absurd ha List.not_mem_nil
    · rw [show cause = _ from hcause]

end Ty

/-! ### Exits -/

/-- The statements that leave a function. -/
def Form.IsExit : Form → Prop
  | .ret .. | .abort => True
  | _ => False

namespace CompilationUnit

variable {code : CompilationUnit} {b x y : NodeId} {xs es es' : List NodeId} {depth : Nat}

/-- The exits of a body, following at most `depth` links downwards. -/
def exitsWithin (code : CompilationUnit) : (depth : Nat) → NodeId → List NodeId
  | 0, _ => []
  | depth + 1, body => (code.children body).flatMap fun stmt =>
    match code.form stmt with
    | .ret .. | .abort => [stmt]
    | .branch _ | .block => code.exitsWithin depth stmt
    | _ => []

/-- The exits of a body, in order: the return statements and aborts among its statements and
among those of nested blocks and conditional statements. -/
def exits (code : CompilationUnit) (body : NodeId) : List NodeId :=
  code.exitsWithin (code.size + 1) body

/-- The exits of some statements, in order. -/
inductive ExitsOf (code : CompilationUnit) : List NodeId → List NodeId → Prop where
  | nil : ExitsOf code [] []
  | exit {x : NodeId} {xs es : List NodeId} (hform : (code.form x).IsExit)
    (hrest : ExitsOf code xs es) : ExitsOf code (x :: xs) (x :: es)
  | nested {x : NodeId} {xs es es' : List NodeId} (hform : (code.form x).IsBranching)
    (hinner : ExitsOf code (code.children x) es) (hrest : ExitsOf code xs es') :
    ExitsOf code (x :: xs) (es ++ es')
  | other {x : NodeId} {xs es : List NodeId} (hexit : ¬(code.form x).IsExit)
    (hnested : ¬(code.form x).IsBranching) (hrest : ExitsOf code xs es) : ExitsOf code (x :: xs) es

/-- One list of exits after the other. -/
theorem ExitsOf.append {xs' : List NodeId} (h : code.ExitsOf xs es) (h' : code.ExitsOf xs' es') :
    code.ExitsOf (xs ++ xs') (es ++ es') := by
  induction h with
  | nil => exact h'
  | exit hform _ ih => exact .exit hform ih
  | nested hform hinner _ _ ih =>
    rw [List.append_assoc]
    exact .nested hform hinner ih
  | other hexit hnested _ ih => exact .other hexit hnested ih

/-- The exits of a body with acyclic links. -/
theorem exitsOf_exitsWithin (hcode : code.AcyclicFrom y) (hdepth : code.rank y < depth) :
    code.ExitsOf (code.children y) (code.exitsWithin depth y) := by
  induction depth generalizing y with
  | zero => exact absurd hdepth (Nat.not_lt_zero _)
  | succ depth ih =>
    rw [exitsWithin]
    -- The statements one after another, each of them a child of the body.
    suffices hall : ∀ xs, (∀ x ∈ xs, x ∈ code.children y) → code.ExitsOf xs
        (xs.flatMap fun stmt => match code.form stmt with
          | .ret .. | .abort => [stmt]
          | .branch _ | .block => code.exitsWithin depth stmt
          | _ => []) from hall _ fun _ => id
    intro xs hxs
    induction xs with
    | nil => exact .nil
    | cons x xs ihxs =>
      have hlink : code.Link y x := .inr (hxs x List.mem_cons_self)
      have hinner : code.ExitsOf (code.children x) (code.exitsWithin depth x) :=
        ih (hcode.tail hlink) (by have := hcode.rank_lt hlink; omega)
      have hrest := ihxs fun z hz => hxs z (List.mem_cons_of_mem _ hz)
      rw [List.flatMap_cons]
      cases hform : code.form x with
      | ret value definition => exact .exit (by rw [hform]; trivial) hrest
      | abort => exact .exit (by rw [hform]; trivial) hrest
      | branch cond => exact .nested (by rw [hform]; trivial) hinner hrest
      | block => exact .nested (by rw [hform]; trivial) hinner hrest
      | _ => exact .other (by rw [hform]; exact id) (by rw [hform]; exact id) hrest

theorem exitsOf_exits (hcode : code.AcyclicFrom b) :
    code.ExitsOf (code.children b) (code.exits b) :=
  exitsOf_exitsWithin hcode (Nat.lt_succ_of_le (code.rank_le_size b))

/-! ### Contributions -/

/-- The type that an exit contributes, where the values that are returned have certain types. -/
def contribution (code : CompilationUnit) (config : Config) (typeOf : NodeId → Ty)
    (stmt : NodeId) : Ty :=
  match code.form stmt with
  | .ret (some value) _ => typeOf value
  | .abort => if config.typelessAbort then .unknown else .uint64
  | _ => .unknown

/-- The known types that exits contribute, in order. -/
def contributions (code : CompilationUnit) (config : Config) (typeOf : NodeId → Ty)
    (stmts : List NodeId) : List Ty :=
  (stmts.map (code.contribution config typeOf)).filter Ty.isKnown

variable {config : Config} {typeOf : NodeId → Ty}

theorem contributions_append : code.contributions config typeOf (es ++ es') =
    code.contributions config typeOf es ++ code.contributions config typeOf es' := by
  rw [contributions, List.map_append, List.filter_append]
  rfl

theorem isKnown_of_mem_contributions {c : Ty} (h : c ∈ code.contributions config typeOf es) :
    c.isKnown :=
  (List.mem_filter.mp h).2

/-- A single exit agrees with itself. -/
theorem agree_contributions_singleton : Ty.Agree (code.contributions config typeOf [x]) := by
  have hall : ∀ c ∈ code.contributions config typeOf [x], c = code.contribution config typeOf x :=
    fun c hc => List.mem_singleton.mp (List.mem_filter.mp hc).1
  exact fun a ha c hc => (hall a ha).trans (hall c hc).symm

/-- Its type is that which it contributes, if it is known. -/
theorem common_contributions_singleton : Ty.common (code.contributions config typeOf [x]) =
    (code.contribution config typeOf x).orUnknown := by
  rw [contributions, List.map_singleton, Ty.orUnknown]
  by_cases h : (code.contribution config typeOf x).isKnown
  · rw [List.filter_cons_of_pos h, if_pos h]
    rfl
  · rw [List.filter_cons_of_neg h, if_neg h]
    rfl

/-! ### The moments of the comparison -/

/-- The comparison of the exits of a body comes to a statement after certain exits. At each level,
those that it has met by then agree. -/
inductive Meets (code : CompilationUnit) (config : Config) (typeOf : NodeId → Ty) :
    NodeId → List NodeId → NodeId → Prop where
  | here {body x : NodeId} {before after es : List NodeId}
    (hbody : code.children body = before ++ x :: after) (hes : code.ExitsOf before es)
    (hagree : Ty.Agree (code.contributions config typeOf es)) : Meets code config typeOf body es x
  | inside {body x y : NodeId} {before after es es' : List NodeId}
    (hbody : code.children body = before ++ x :: after) (hform : (code.form x).IsBranching)
    (hes : code.ExitsOf before es) (hagree : Ty.Agree (code.contributions config typeOf es))
    (h : Meets code config typeOf x es' y) : Meets code config typeOf body (es ++ es') y

end CompilationUnit

end ContractLang
