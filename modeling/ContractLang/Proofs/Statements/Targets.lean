import ContractLang.Proofs.Statements.Walk
import ContractLang.Proofs.Typing.Slack

/-!
# What an assignment gives, and what it does to its targets

An assignment has a type for each of its targets: that of its value, if there is one target,
and otherwise those of the results of an operation
(`ContractLang.OpSpec.GivesTargets`). Then it binds the targets one after another, each in the
scopes that binding the ones before it has left (`ContractLang.ScopeTree.bound`).

* `ContractLang.ScopeTree.exists_get?_bound`: what has changed its type by that is the nearest
  descriptor of a target, and has the type of the target.
* `ContractLang.Context.exec_bindTargets`: binding the targets ends with all of them bound and of
  the types that they are given, or at one that is refused, with those before it bound.
* `ContractLang.Context.targetsEnd_exec`: so the check of an assignment ends in one of three ways
  (`ContractLang.Context.TargetsEnd`), the third one being that the value is not evaluated.
-/

namespace ContractLang

open Check

/-! ### The types that are given -/

namespace OpSpec

/-- `r` lists the types of the first `count` results of an operation, in the order of the
signature; the first unknown one of them is replaced by `type`. -/
def Results (spec : OpSpec) (op : String) (type : Ty) (count : Nat) (r : Nat → Ty) : Prop :=
  ∀ i < count, ∃ slot, spec.resultType op i = .ok slot ∧
    r i = if slot = .unknown ∧ ∀ j < i, spec.resultType op j ≠ .ok .unknown then type else slot

/-- An assignment of a value of the given form and type gives its targets the types in `types`. A
single target gets the type of the value. Two targets get the first two results of the operation
that is called; four of them get the first four, from the last to the first. -/
def GivesTargets (spec : OpSpec) (form : Form) (type : Ty) : Targets → List Ty → Prop
  | .single _, types => types = [type]
  | .pair .., types =>
    ∃ op r, form = .call op ∧ spec.Results op type 2 r ∧ types = [r 0, r 1]
  | .quadruple .., types =>
    ∃ op r, form = .call op ∧ spec.Results op type 4 r ∧ types = [r 3, r 2, r 1, r 0]

end OpSpec

/-- A list of answers is a list of the answers for its elements. -/
theorem forall₂_of_mapM_eq_ok {ε α β : Type} {f : α → Except ε β} {as : List α} {bs : List β}
    (h : as.mapM f = .ok bs) : List.Forall₂ (fun a b => f a = .ok b) as bs := by
  induction as generalizing bs with
  | nil =>
    rw [List.mapM_nil] at h
    cases h
    exact .nil
  | cons a as ih =>
    rw [List.mapM_cons] at h
    cases hfirst : f a with
    | error e => rw [hfirst] at h; cases h
    | ok b =>
      cases hrest : as.mapM f with
      | error e => rw [hfirst, hrest] at h; cases h
      | ok bs' =>
        rw [hfirst, hrest] at h
        cases h
        exact .cons hfirst (ih hrest)

namespace OpSpec

variable {spec : OpSpec} {op : String} {type : Ty} {count i : Nat} {slots : List Ty}

/-- Several targets are given the results of a call. -/
theorem GivesTargets.exists_call {form : Form} {targets : Targets} {types : List Ty}
    (h : spec.GivesTargets form type targets types) (hmany : targets.arity ≠ 1) :
    ∃ op, form = .call op := by
  cases targets with
  | single => exact absurd rfl hmany
  | pair | quadruple =>
    obtain ⟨op, -, hform, -⟩ := h
    exact ⟨op, hform⟩

theorem length_of_resultTypes (h : spec.resultTypes op count = .ok slots) :
    slots.length = count := by
  rw [← (forall₂_of_mapM_eq_ok h).length_eq, List.length_range]

/-- The types of the results stand in their places. -/
theorem getElem?_of_resultTypes (h : spec.resultTypes op count = .ok slots) (hi : i < count) :
    ∃ slot, slots[i]? = some slot ∧ spec.resultType op i = .ok slot := by
  obtain ⟨hlength, hget⟩ := List.forall₂_iff_get.mp (forall₂_of_mapM_eq_ok h)
  rw [List.length_range] at hlength
  have hslot : i < slots.length := hlength ▸ hi
  refine ⟨slots[i], List.getElem?_eq_getElem hslot, ?_⟩
  have hplace := hget i (by rwa [List.length_range]) hslot
  rwa [List.get_eq_getElem, List.getElem_range] at hplace

/-- The list is filled at the first place where it is unknown, and nowhere else. -/
theorem getElem?_fillUnknown (type : Ty) (slots : List Ty) (i : Nat) :
    (Context.fillUnknown type slots)[i]? = slots[i]?.map fun slot =>
      if slot = .unknown ∧ ∀ j < i, slots[j]? ≠ some .unknown then type else slot := by
  induction slots generalizing i with
  | nil => rfl
  | cons first rest ih =>
    by_cases hfirst : first = .unknown
    · subst hfirst
      cases i with
      | zero => simp [Context.fillUnknown]
      | succ i =>
        have hlate : ¬∀ j < i + 1, (Ty.unknown :: rest)[j]? ≠ some .unknown :=
          fun h => h 0 (Nat.succ_pos i) rfl
        simp only [Context.fillUnknown, List.getElem?_cons_succ, hlate, and_false, if_false]
        cases rest[i]? <;> rfl
    · have hcons : Context.fillUnknown type (first :: rest) =
          first :: Context.fillUnknown type rest := by
        cases first <;> first | rfl | exact absurd rfl hfirst
      rw [hcons]
      cases i with
      | zero => simp [hfirst]
      | succ i =>
        have hshift : (∀ j < i + 1, (first :: rest)[j]? ≠ some .unknown) ↔
            ∀ j < i, rest[j]? ≠ some .unknown := by
          refine ⟨fun h j hj => h (j + 1) (Nat.succ_lt_succ hj), fun h j hj => ?_⟩
          cases j with
          | zero => simpa using hfirst
          | succ j => exact h j (Nat.lt_of_succ_lt_succ hj)
        rw [List.getElem?_cons_succ, List.getElem?_cons_succ, ih]
        simp only [hshift]

/-- The types of the results, where the first unknown one is replaced. -/
theorem exists_results (h : spec.resultTypes op count = .ok slots) (type : Ty) :
    ∃ r, spec.Results op type count r ∧
      Context.fillUnknown type slots = (List.range count).map r := by
  have hfilled : ∀ i < count, ∃ slot, spec.resultType op i = .ok slot ∧
      (Context.fillUnknown type slots)[i]? = some
        (if slot = .unknown ∧ ∀ j < i, spec.resultType op j ≠ .ok .unknown then type else slot) := by
    intro i hi
    obtain ⟨slot, hslot, hresult⟩ := getElem?_of_resultTypes h hi
    have hbefore : (∀ j < i, slots[j]? ≠ some .unknown) ↔
        ∀ j < i, spec.resultType op j ≠ .ok .unknown := by
      refine forall₂_congr fun j hj => not_congr ?_
      obtain ⟨other, hother, hresult⟩ := getElem?_of_resultTypes h (Nat.lt_trans hj hi)
      rw [hother, hresult, Option.some_inj, Except.ok.injEq]
    refine ⟨slot, hresult, ?_⟩
    rw [getElem?_fillUnknown, hslot, Option.map_some]
    simp only [hbefore]
  refine ⟨fun i => (Context.fillUnknown type slots)[i]?.getD .unknown, fun i hi => ?_,
    List.ext_getElem? fun i => ?_⟩
  · obtain ⟨slot, hresult, hget⟩ := hfilled i hi
    exact ⟨slot, hresult, by dsimp only; rw [hget, Option.getD_some]⟩
  · rw [List.getElem?_map]
    by_cases hi : i < count
    · obtain ⟨slot, -, hget⟩ := hfilled i hi
      rw [List.getElem?_range hi, Option.map_some, hget, Option.getD_some]
    · have hlength := length_of_resultTypes h
      rw [getElem?_fillUnknown, List.getElem?_eq_none (by omega),
        List.getElem?_eq_none (by rw [List.length_range]; omega)]
      rfl

end OpSpec

/-! ### Binding the targets -/

namespace ScopeTree

variable {t : ScopeTree} {id s : ScopeId} {name n : String} {type : Ty} {d d' : Descriptor}
  {targets : List (String × Ty)}

/-- The tree in which the nearest descriptor of a name takes a type over, if the type is a known
one and the descriptor has none. -/
def offered (t : ScopeTree) (id : ScopeId) (name : String) (type : Ty) : ScopeTree :=
  if type.isKnown then t.completed id name type else t

/-- The tree in which targets have been bound to values of their types, one after another. -/
def bound (t : ScopeTree) (id : ScopeId) (targets : List (String × Ty)) : ScopeTree :=
  targets.foldl (fun t target => t.offered id target.1 target.2) t

@[simp] theorem bound_nil (t : ScopeTree) (id : ScopeId) : t.bound id [] = t := rfl

@[simp] theorem bound_cons (t : ScopeTree) (id : ScopeId) (target : String × Ty)
    (targets : List (String × Ty)) :
    t.bound id (target :: targets) = (t.offered id target.1 target.2).bound id targets := rfl

/-- **A type is offered to the nearest descriptor of the name**, and to no other one. -/
theorem get?_offered (t : ScopeTree) (id : ScopeId) (name : String) (type : Ty) (s : ScopeId)
    (n : String) :
    ((t.offered id name type).scope s).get? n = ((t.scope s).get? n).map fun d =>
      if (n = name ∧ t.declaring? id name = some s) ∧ type.isKnown ∧ ¬d.type.isKnown
      then { d with type } else d := by
  have hsame : ∀ {p : Descriptor → Prop} [DecidablePred p], (∀ d, (t.scope s).get? n = some d → ¬p d) →
      (t.scope s).get? n = ((t.scope s).get? n).map fun d => if p d then { d with type } else d := by
    intro p _ hp
    cases hd : (t.scope s).get? n with
    | none => rfl
    | some d => rw [Option.map_some, if_neg (hp d hd)]
  unfold offered
  split
  · next htype =>
    unfold completed
    cases hhome : t.declaring? id name with
    | none =>
      rw [show t.refine id name type = .error _ from by
        unfold refine lookup find?; rw [hhome]; rfl]
      exact hsame fun d hd h => nomatch h.1.2
    | some home =>
      obtain ⟨-, found, hfound⟩ := declaring?_spec hhome
      rw [refine_eq_ok hhome hfound]
      dsimp only
      split
      · next hknown =>
        refine hsame fun d hd h => ?_
        obtain ⟨⟨rfl, hplace⟩, -, hunknown⟩ := h
        cases hplace
        rw [hfound] at hd
        cases hd
        exact hunknown hknown
      · next hunknown =>
        rw [get?_modifyScope_replace]
        split
        · next hplace =>
          obtain ⟨rfl, rfl⟩ := hplace
          rw [hfound]
          simp [htype, hunknown]
        · next hplace =>
          refine hsame fun d hd h => hplace ?_
          obtain ⟨⟨rfl, heq⟩, -⟩ := h
          exact ⟨(Option.some.inj heq).symm, rfl⟩
  · next htype => exact hsame fun d hd h => htype h.2.1

theorem parent_offered (t : ScopeTree) (id : ScopeId) (name : String) (type : Ty) (s : ScopeId) :
    ((t.offered id name type).scope s).parent = (t.scope s).parent := by
  unfold offered
  split
  · unfold completed
    split
    · next hrefine =>
      obtain ⟨d, hd⟩ := found_of_refine hrefine
      obtain ⟨home, hhome, hget⟩ := find?_eq_some_iff.mp hd
      rw [refine_eq_ok hhome hget] at hrefine
      obtain rfl := Except.ok.inj hrefine
      split
      · rfl
      · exact parent_replace
    · rfl
  · rfl

/-- Names are declared where they were. -/
theorem declaring?_offered (t : ScopeTree) (id : ScopeId) (name : String) (type : Ty) (s : ScopeId)
    (n : String) : (t.offered id name type).declaring? s n = t.declaring? s n := by
  refine Agree.declaring? (P := fun _ _ => True)
    ⟨fun s _ => parent_offered t id name type s, fun s _ n => ?_⟩ n
  rw [get?_offered]
  cases (t.scope s).get? n with
  | none => exact .none
  | some d => exact .some trivial

/-- What is offered is taken over by a descriptor that has no known type. -/
theorem find?_offered (hd : t.find? id name = some d) (htype : type.isKnown) :
    (t.offered id name type).find? id name =
      some (if d.type.isKnown then d else { d with type }) := by
  obtain ⟨home, hhome, hget⟩ := find?_eq_some_iff.mp hd
  refine find?_eq_some_iff.mpr ⟨home, (declaring?_offered ..).trans hhome, ?_⟩
  rw [get?_offered, hget, Option.map_some]
  by_cases hknown : d.type.isKnown
  · rw [if_neg fun h => h.2.2 hknown, if_pos hknown]
  · rw [if_pos ⟨⟨rfl, hhome⟩, htype, hknown⟩, if_neg hknown]

/-- The nearest descriptor of a name remains; if it has a known type, as it was. -/
theorem exists_find?_offered (hd : t.find? s n = some d) (id : ScopeId) (name : String)
    (type : Ty) :
    ∃ d', (t.offered id name type).find? s n = some d' ∧ (d.type.isKnown → d' = d) := by
  obtain ⟨home, hhome, hget⟩ := find?_eq_some_iff.mp hd
  have hoffered := get?_offered t id name type home n
  rw [hget, Option.map_some] at hoffered
  exact ⟨_, find?_eq_some_iff.mpr ⟨home, (declaring?_offered ..).trans hhome, hoffered⟩,
    fun hknown => if_neg fun h => h.2.2 hknown⟩

theorem declaring?_bound (t : ScopeTree) (id : ScopeId) (targets : List (String × Ty))
    (s : ScopeId) (n : String) : (t.bound id targets).declaring? s n = t.declaring? s n := by
  induction targets generalizing t with
  | nil => rfl
  | cons target rest ih => rw [bound_cons, ih, declaring?_offered]

/-- A descriptor remains, with its type or with that of a target. **What has changed its type is the
nearest descriptor of a target**, has had no known type, and has the type of the target. -/
theorem exists_get?_bound (hd : (t.scope s).get? n = some d) (id : ScopeId)
    (targets : List (String × Ty)) :
    ∃ d', ((t.bound id targets).scope s).get? n = some d' ∧ d'.role = d.role ∧
      (d'.type = d.type ∨ ¬d.type.isKnown ∧ t.declaring? id n = some s ∧
        d'.type.isKnown ∧ (n, d'.type) ∈ targets) := by
  induction targets generalizing t d with
  | nil => exact ⟨d, hd, rfl, .inl rfl⟩
  | cons target rest ih =>
    have hfirst := get?_offered t id target.1 target.2 s n
    rw [hd, Option.map_some] at hfirst
    obtain ⟨d', hd', hrole, htype⟩ := ih hfirst
    rw [declaring?_offered] at htype
    refine ⟨d', hd', ?_, ?_⟩
    · rw [hrole]
      split <;> rfl
    · by_cases htaken : (n = target.1 ∧ t.declaring? id target.1 = some s) ∧ target.2.isKnown ∧
          ¬d.type.isKnown
      · simp only [if_pos htaken] at htype
        obtain ⟨⟨rfl, hhome⟩, hknown, hunknown⟩ := htaken
        have hsame : d'.type = target.2 := htype.resolve_right fun h => h.1 hknown
        rw [hsame]
        exact .inr ⟨hunknown, hhome, hknown, List.mem_cons_self⟩
      · simp only [if_neg htaken] at htype
        exact htype.imp_right fun ⟨hunknown, hhome, hknown, hmem⟩ =>
          ⟨hunknown, hhome, hknown, List.mem_cons_of_mem _ hmem⟩

/-- The nearest descriptor of a name with a known type is the same afterwards. -/
theorem find?_bound_of_isKnown (hd : t.find? id n = some d) (hknown : d.type.isKnown) :
    (t.bound id targets).find? id n = some d := by
  induction targets generalizing t with
  | nil => exact hd
  | cons target rest ih =>
    obtain ⟨d', hd', hsame⟩ := exists_find?_offered hd id target.1 target.2
    exact ih (hsame hknown ▸ hd')

/-- The nearest descriptor of a target that is given a known type has a known type afterwards. -/
theorem exists_isKnown_bound (hd : t.find? id name = some d) (hmem : (name, type) ∈ targets)
    (htype : type.isKnown) :
    ∃ d', (t.bound id targets).find? id name = some d' ∧ d'.type.isKnown := by
  induction targets generalizing t d with
  | nil => cases hmem
  | cons target rest ih =>
    by_cases hknown : d.type.isKnown
    · exact ⟨d, find?_bound_of_isKnown hd hknown, hknown⟩
    rcases List.mem_cons.mp hmem with rfl | hmem
    · have hoffered := find?_offered hd htype
      rw [if_neg hknown] at hoffered
      rw [bound_cons]
      exact ⟨_, find?_bound_of_isKnown hoffered htype, htype⟩
    · obtain ⟨d', hd', -⟩ := exists_find?_offered hd id target.1 target.2
      exact ih hd' hmem

end ScopeTree

/-- The state in which targets have been bound. -/
def CheckState.bound {σ : Type} (s : CheckState σ) (scope : ScopeId)
    (targets : List (String × Ty)) : CheckState σ :=
  { s with code := s.code.withScopes (s.code.scopes.bound scope targets) }

namespace Context

variable {σ : Type} {ctx : Context σ} {s t u v : CheckState σ} {stmt value : NodeId}
  {scope : ScopeId} {name : String} {type : Ty} {targets : Targets} {types : List Ty}

/-- A target is refused if it is not declared, or has another known type than its value. -/
def Refuses (tree : ScopeTree) (scope : ScopeId) (target : String × Ty) : Prop :=
  ∀ d, tree.find? scope target.1 = some d → d.type.clashes target.2

/-- **Binding one target**: it is refused, or its type is offered to it. -/
theorem exec_bindTarget (stmt : NodeId) (scope : ScopeId) (target : String × Ty)
    (s : CheckState σ) :
    (Refuses s.code.scopes scope target ∧
      ∃ e, exec (bindTarget stmt scope target.1 target.2) s = (.error (.fault e), s)) ∨
    ∃ d, s.code.scopes.find? scope target.1 = some d ∧ ¬d.type.clashes target.2 ∧
      exec (bindTarget stmt scope target.1 target.2) s = (.ok (), { s with
        code := s.code.withScopes (s.code.scopes.offered scope target.1 target.2) }) := by
  unfold bindTarget
  rw [exec_bind, exec_code]
  dsimp only
  rw [exec_bind]
  cases hd : s.code.scopes.find? scope target.1 with
  | none =>
    refine .inl ⟨fun d hd' => (nomatch hd.symm.trans hd'), ?_⟩
    unfold ScopeTree.lookup
    rw [hd]
    exact ⟨_, rfl⟩
  | some d =>
    rw [ScopeTree.lookup_of_find? hd, exec_liftExcept_ok]
    dsimp only
    rw [exec_bind, exec_rejectIf]
    by_cases hclash : d.type.clashes target.2
    · rw [if_pos hclash]
      refine .inl ⟨fun d' hd' => ?_, _, rfl⟩
      cases hd.symm.trans hd'
      exact hclash
    · rw [if_neg hclash]
      refine .inr ⟨d, rfl, hclash, ?_⟩
      unfold complete ScopeTree.offered
      dsimp only
      split
      · obtain ⟨home, hhome, hget⟩ := ScopeTree.find?_eq_some_iff.mp hd
        rw [exec_changeScopes, ScopeTree.completed, ScopeTree.refine_eq_ok hhome hget]
      · rfl

/-- **Binding the targets, one after another.** It ends with all of them bound, and each that is
given a known type means something of this type; or it ends at one that is refused, with those
before it bound. -/
theorem exec_bindTargets (stmt : NodeId) (scope : ScopeId) (targets : List (String × Ty))
    (s : CheckState σ) :
    (exec (targets.forM fun (name, type) => bindTarget stmt scope name type) s =
        (.ok (), s.bound scope targets) ∧
      ∀ target ∈ targets, target.2.isKnown →
        ∃ d, (s.code.scopes.bound scope targets).find? scope target.1 = some d ∧
          d.type = target.2) ∨
    ∃ bound target rest e, targets = bound ++ target :: rest ∧
      exec (targets.forM fun (name, type) => bindTarget stmt scope name type) s =
        (.error (.fault e), s.bound scope bound) ∧
      Refuses (s.code.scopes.bound scope bound) scope target := by
  induction targets generalizing s with
  | nil => exact .inl ⟨rfl, nofun⟩
  | cons first rest ih =>
    have hcons : exec ((first :: rest).forM fun (name, type) => bindTarget stmt scope name type) s =
        exec (bindTarget stmt scope first.1 first.2 >>= fun _ =>
          rest.forM fun (name, type) => bindTarget stmt scope name type) s := rfl
    rw [hcons, exec_bind]
    rcases exec_bindTarget stmt scope first s with ⟨hrefuses, e, hexec⟩ | ⟨d, hd, hclash, hexec⟩
    · rw [hexec]
      exact .inr ⟨[], first, rest, e, rfl, rfl, hrefuses⟩
    · rw [hexec]
      dsimp only
      rcases ih _ with ⟨hrest, hall⟩ | ⟨bound, target, rest', e, heq, hrest, hrefuses⟩
      · refine .inl ⟨hrest, List.forall_mem_cons.mpr ⟨fun hknown => ?_, hall⟩⟩
        rw [ScopeTree.bound_cons]
        -- The first target has its type from here on.
        have hoffered := ScopeTree.find?_offered hd hknown
        by_cases hdknown : d.type.isKnown
        · rw [if_pos hdknown] at hoffered
          exact ⟨d, ScopeTree.find?_bound_of_isKnown hoffered hdknown,
            Ty.eq_of_not_clashes hdknown hknown hclash⟩
        · rw [if_neg hdknown] at hoffered
          exact ⟨_, ScopeTree.find?_bound_of_isKnown hoffered hknown, rfl⟩
      · exact .inr ⟨first :: bound, target, rest', e, by rw [heq]; rfl, hrest, hrefuses⟩

/-! ### What an assignment has for its targets -/

theorem exec_callName_eq_ok (h : exec (callName value : Check σ String) s = (.ok name, t)) :
    s.code.form value = .call name ∧ t = s := by
  unfold callName at h
  rw [exec_bind, exec_code] at h
  dsimp only at h
  split at h
  · next hform =>
    cases h
    exact ⟨hform, rfl⟩
  · cases h

/-- Several values are given by a call that is not connected with a definition. -/
theorem exec_multiValue_eq_ok {count : Nat}
    (h : exec (ctx.multiValue value count) s = (.ok types, v)) :
    ∃ op type r, s.code.form value = .call op ∧
      exec (ctx.judge (.typeOf [] value)) s = (.ok type, v) ∧
      (v.code.node value).definition = none ∧ ctx.spec.Results op type count r ∧
      types = (List.range count).map r := by
  obtain ⟨op, s', hname, hrest⟩ := exec_bind_eq_ok h
  obtain ⟨hform, rfl⟩ := exec_callName_eq_ok hname
  obtain ⟨type, w, htype, hlast⟩ := exec_bind_eq_ok hrest
  rw [exec_bind, exec_node] at hlast
  dsimp only at hlast
  obtain ⟨hdefinition, hlast⟩ := exec_rejectIf_bind_eq_ok (by simp) hlast
  cases hslots : ctx.spec.resultTypes op count with
  | error e =>
    rw [hslots] at hlast
    cases hlast
  | ok slots =>
    rw [hslots] at hlast
    cases hlast
    obtain ⟨r, hr, hfilled⟩ := OpSpec.exists_results hslots type
    exact ⟨op, type, r, hform, htype, Option.not_isSome_iff_eq_none.mp hdefinition, hr, hfilled⟩

/-- The value of an assignment is evaluated: it is checked, and the types that the assignment has
for its targets are determined. -/
structure Evaluates (ctx : Context σ) (targets : Targets) (value : NodeId) (s u v : CheckState σ)
    (type : Ty) (types : List Ty) : Prop where
  /-- The value is in order. -/
  checked : ∃ first, exec (ctx.checkExpr value) s = (.ok first, u)
  /-- After that it has a type. -/
  typed : exec (ctx.judge (.typeOf [] value)) u = (.ok type, v)
  gives : ctx.spec.GivesTargets (u.code.form value) type targets types
  /-- What gives several values is connected with no definition. -/
  unconnected : targets.arity ≠ 1 → (v.code.node value).definition = none

/-- **An assignment has for its targets what it gives them.** -/
theorem evaluates_of_exec {first : Ty} (hchecked : exec (ctx.checkExpr value) s = (.ok first, u))
    (h : exec (ctx.valueTypes targets value) u = (.ok types, v)) :
    ∃ type, ctx.Evaluates targets value s u v type types := by
  cases targets with
  | single name =>
    obtain ⟨type, w, htype, hend⟩ := exec_bind_eq_ok h
    cases hend
    exact ⟨type, ⟨first, hchecked⟩, htype, rfl, fun hmany => absurd rfl hmany⟩
  | pair high low =>
    obtain ⟨op, type, r, hform, htype, hdefinition, hr, rfl⟩ := exec_multiValue_eq_ok h
    exact ⟨type, ⟨first, hchecked⟩, htype, ⟨op, r, hform, hr, rfl⟩, fun _ => hdefinition⟩
  | quadruple high low remHigh remLow =>
    obtain ⟨_, w, hmany, hend⟩ := exec_bind_eq_ok h
    cases hend
    obtain ⟨op, type, r, hform, htype, hdefinition, hr, rfl⟩ := exec_multiValue_eq_ok hmany
    exact ⟨type, ⟨first, hchecked⟩, htype, ⟨op, r, hform, hr, rfl⟩, fun _ => hdefinition⟩

/-! ### How the check of an assignment ends -/

/-- How the check of an assignment ends, and in which state. -/
inductive TargetsEnd (ctx : Context σ) (stmt : NodeId) (scope : ScopeId) (targets : Targets)
    (value : NodeId) (s : CheckState σ) : Except Halt Unit × CheckState σ → Prop
  /-- All targets are bound, and what they have been given goes on record. -/
  | bound {u v : CheckState σ} {type : Ty} {types : List Ty}
    (hvalue : ctx.Evaluates targets value s u v type types)
    (hbound : ∀ target ∈ targets.names.zip types, target.2.isKnown →
      ∃ d, (v.code.scopes.bound scope (targets.names.zip types)).find? scope target.1 = some d ∧
        d.type = target.2) :
    TargetsEnd ctx stmt scope targets value s (.ok (),
      ⟨(v.bound scope (targets.names.zip types)).code.setTargetTypes stmt types, v.notes⟩)
  /-- A target is refused, when those before it have been bound. -/
  | refused {u v : CheckState σ} {type : Ty} {types : List Ty} {bound rest : List (String × Ty)}
    {target : String × Ty} {e : Error} (hvalue : ctx.Evaluates targets value s u v type types)
    (hsplit : targets.names.zip types = bound ++ target :: rest)
    (hrefuses : Refuses (v.code.scopes.bound scope bound) scope target) :
    TargetsEnd ctx stmt scope targets value s (.error (.fault e), v.bound scope bound)
  /-- The value is not evaluated. -/
  | failed {halt : Halt} {v : CheckState σ}
    (h : ∀ K : CheckState σ → Prop, ctx.KeepsExpr K → K s → K v) :
    TargetsEnd ctx stmt scope targets value s (.error halt, v)

/-- **The check of an assignment ends in one of these ways.** -/
theorem targetsEnd_exec (ctx : Context σ) (stmt : NodeId) (scope : ScopeId) (targets : Targets)
    (value : NodeId) (s : CheckState σ) :
    ctx.TargetsEnd stmt scope targets value s
      (exec (ctx.checkTargets stmt scope targets value) s) := by
  unfold checkTargets
  rw [discard_eq_bind, bind_assoc, exec_bind]
  rcases hfirst : exec (ctx.checkExpr value) s with ⟨halt | first, u⟩
  · exact .failed fun K hctx hs => (keeps_checkExpr hctx).after hs hfirst
  dsimp only
  rw [pure_bind, exec_bind]
  rcases htypes : exec (ctx.valueTypes targets value) u with ⟨halt | types, v⟩
  · exact .failed fun K hctx hs =>
      (keeps_valueTypes hctx targets).after ((keeps_checkExpr hctx).after hs hfirst) htypes
  dsimp only
  obtain ⟨type, hvalue⟩ := evaluates_of_exec hfirst htypes
  rw [exec_bind]
  rcases exec_bindTargets stmt scope (targets.names.zip types) v with
    ⟨hexec, hbound⟩ | ⟨bound, target, rest, e, hsplit, hexec, hrefuses⟩
  · rw [hexec]
    exact .bound hvalue hbound
  · rw [hexec]
    exact .refused hvalue hsplit hrefuses

end Context

end ContractLang
