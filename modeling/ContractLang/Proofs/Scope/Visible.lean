import ContractLang.Proofs.Scope.Chain

/-!
# What is visible from a scope

A name means, seen from a scope, what the first scope of the chain that declares it says. So a
descriptor that is written in a scope is seen from those scopes whose chains come to it before
they come to another declaration of the name (`ContractLang.ScopeTree.Exposed`), and from
nowhere else.

Every operation is described by one equation for all look-ups that follow it. Declaring a name
and replacing its descriptor are both writes (`ContractLang.ScopeTree.Writes`); they differ in
that the scope of a descriptor that is replaced has declared the name before. A scope that has
just been opened shows what its parent does.
-/

namespace ContractLang

/-- A search that has come to accept one more element finds that, unless it finds another one in
front of it. -/
theorem find?_of_accepted {α : Type} [DecidableEq α] {l : List α} {q q' : α → Bool} {a : α}
    (ha : q' a) (hother : ∀ b, b ≠ a → q' b = q b) :
    l.find? q' = if a ∈ l ∧ ∀ b ∈ l.takeWhile (· != a), ¬q b then some a else l.find? q := by
  induction l with
  | nil => simp
  | cons b l ih =>
    by_cases hba : b = a
    · simp [hba, ha]
    · have hab : a ≠ b := fun h => hba h.symm
      rw [List.find?_cons, List.find?_cons, hother b hba, ih]
      cases hb : q b <;> simp [hba, hab, hb]

namespace ScopeTree

variable {t t' : ScopeTree} {s u c p : ScopeId} {n m : String} {d : Descriptor}

/-! ### Where a name is found -/

/-- What a scope declares under a name is seen from another one: it is on the chain of that, and
no scope before it declares the name. -/
def Exposed (t : ScopeTree) (s : ScopeId) (n : String) (u : ScopeId) : Prop :=
  u ∈ t.chain s ∧ ∀ c ∈ (t.chain s).takeWhile (· != u), ¬(t.scope c).declares n

instance : Decidable (t.Exposed s n u) :=
  inferInstanceAs (Decidable (_ ∧ _))

theorem declares_of_get? (h : (t.scope u).get? n = some d) : (t.scope u).declares n := by
  unfold Scope.declares
  rw [h]
  rfl

/-- **The nearest scope that declares a name** is the one that is exposed. -/
theorem declaring?_eq_some_iff :
    t.declaring? s n = some u ↔ t.Exposed s n u ∧ (t.scope u).declares n := by
  unfold declaring? Exposed
  induction t.chain s with
  | nil => simp
  | cons c chain ih =>
    rw [List.find?_cons, List.mem_cons, List.takeWhile_cons]
    by_cases hcu : c = u
    · subst hcu
      cases hdeclares : (t.scope c).declares n with
      | true => simp
      | false =>
        -- The search goes on, but cannot stop at a scope that does not declare the name.
        rw [ih]
        simp [hdeclares]
    · have huc : u ≠ c := fun h => hcu h.symm
      cases hdeclares : (t.scope c).declares n <;> simp [hcu, huc, hdeclares, ih]

/-- A look-up gives what is exposed. -/
theorem lookup_eq_ok_iff_exposed :
    t.lookup s n = .ok d ↔ ∃ u, t.Exposed s n u ∧ (t.scope u).get? n = some d := by
  rw [lookup_eq_ok_iff, find?_eq_some_iff]
  refine exists_congr fun u => ⟨fun ⟨hu, hget⟩ => ?_, fun ⟨hu, hget⟩ => ?_⟩
  · exact ⟨(declaring?_eq_some_iff.mp hu).1, hget⟩
  · exact ⟨declaring?_eq_some_iff.mpr ⟨hu, declares_of_get? hget⟩, hget⟩

theorem find?_eq_none_iff : t.find? s n = none ↔ ∀ c ∈ t.chain s, ¬(t.scope c).declares n := by
  rw [← List.find?_eq_none]
  change _ ↔ t.declaring? s n = none
  cases hs : t.declaring? s n with
  | none => simp [find?, hs]
  | some u =>
    obtain ⟨-, d, hget⟩ := declaring?_spec hs
    simp [find?, hs, hget]

/-- A look-up fails in one way, and just if no scope of the chain declares the name. -/
theorem lookup_eq_error_iff {e : Error} : t.lookup s n = .error e ↔
    e = .unplaced (.identNotDefined n) ∧ ∀ c ∈ t.chain s, ¬(t.scope c).declares n := by
  rw [← find?_eq_none_iff]
  unfold lookup
  cases t.find? s n with
  | none => exact ⟨fun h => ⟨(Except.error.inj h).symm, rfl⟩, fun h => by rw [h.1]⟩
  | some d => simp

theorem lookup_congr {r : ScopeId} (h : t'.find? r m = t.find? s m) :
    t'.lookup r m = t.lookup s m := by
  unfold lookup
  rw [h]

/-! ### Writes -/

/-- Look-ups in a tree are those in an earlier one, but where a name of a scope is exposed they
give a new descriptor. -/
def Shows (t t' : ScopeTree) (u : ScopeId) (n : String) (d : Descriptor) : Prop :=
  ∀ s m, t'.lookup s m = if m = n ∧ t.Exposed s n u then .ok d else t.lookup s m

/-- A tree has become another one by a descriptor that has been written under a name in one
scope. -/
structure Writes (t t' : ScopeTree) (u : ScopeId) (n : String) (d : Descriptor) : Prop where
  parent : ∀ c, (t'.scope c).parent = (t.scope c).parent
  get? : ∀ c m, (t'.scope c).get? m = if c = u ∧ m = n then some d else (t.scope c).get? m

namespace Writes

variable (h : t.Writes t' u n d)

include h

theorem declares (c : ScopeId) (m : String) : (t'.scope c).declares m =
    if c = u ∧ m = n then true else (t.scope c).declares m := by
  unfold Scope.declares
  rw [h.get?]
  split <;> rfl

theorem declaring?_of_exposed (hu : t.Exposed s n u) : t'.declaring? s n = some u := by
  unfold ScopeTree.declaring?
  rw [chain_congr h.parent, find?_of_accepted (a := u) (by simp [h.declares])
    (fun c hc => by rw [h.declares, if_neg fun heq => hc heq.1])]
  exact if_pos hu

theorem declaring?_of_not (hm : ¬(m = n ∧ t.Exposed s n u)) :
    t'.declaring? s m = t.declaring? s m := by
  unfold ScopeTree.declaring?
  rw [chain_congr h.parent]
  by_cases hmn : m = n
  · subst hmn
    rw [find?_of_accepted (a := u) (by simp [h.declares])
      (fun c hc => by rw [h.declares, if_neg fun heq => hc heq.1])]
    exact if_neg fun hu => hm ⟨rfl, hu⟩
  · simp [h.declares, hmn]

/-- **A write is seen where it is exposed**, and changes no other look-up. -/
theorem shows : t.Shows t' u n d := by
  intro s m
  by_cases hm : m = n ∧ t.Exposed s n u
  · obtain ⟨rfl, hu⟩ := hm
    have hget : (t'.scope u).get? m = some d := by rw [h.get?, if_pos ⟨rfl, rfl⟩]
    rw [if_pos ⟨rfl, hu⟩]
    exact lookup_of_find? (find?_eq_some_iff.mpr ⟨u, h.declaring?_of_exposed hu, hget⟩)
  · rw [if_neg hm]
    refine lookup_congr ?_
    unfold ScopeTree.find?
    rw [h.declaring?_of_not hm]
    cases hs : t.declaring? s m with
    | none => rfl
    | some c =>
      -- The name is found in another scope than the one that is written.
      refine (h.get? c m).trans (if_neg fun ⟨hc, hn⟩ => hm ⟨hn, ?_⟩)
      rw [← hc, ← hn]
      exact (declaring?_eq_some_iff.mp hs).1

end Writes

theorem writes_insert (hu : u < t.scopes.size) (hnew : ¬(t.scope u).declares n)
    {f : Scope → Scope} (hparent : ∀ scope, (f scope).parent = scope.parent)
    (hf : ∀ m, (f (t.scope u)).get? m = ((t.scope u).get? m).or (if m = n then some d else none)) :
    t.Writes (t.modifyScope u f) u n d where
  parent c := parent_modifyScope hparent
  get? c m := by
    have hnone : (t.scope u).get? n = none := by
      simpa [Scope.declares] using hnew
    rw [scope_modifyScope]
    by_cases hc : c = u
    · subst hc
      rw [if_pos ⟨rfl, hu⟩, hf]
      by_cases hm : m = n
      · simp [hm, hnone]
      · simp [hm]
    · simp [hc]

theorem writes_declareVar {type : Ty} {slot : Nat} (hu : u < t.scopes.size)
    (h : t.declareVar u n type = .ok (slot, t')) : t.Writes t' u n ⟨n, type, .var slot⟩ := by
  unfold declareVar at h
  split at h
  · cases h
  · next hnew =>
    cases h
    exact writes_insert hu hnew (fun _ => rfl) fun _ => Scope.get?_declareVar

theorem writes_declareConst {type : Ty} {value : String} {offset : Nat} (hu : u < t.scopes.size)
    (h : t.declareConst u n type value = .ok (offset, t')) :
    t.Writes t' u n ⟨n, type, .const offset value⟩ := by
  unfold declareConst intern at h
  split at h
  · cases h
  · next hnew =>
    cases hpool : t.pool.intern value type with
    | ok r =>
      rw [hpool] at h
      cases h
      have hwrites := writes_insert (t := { t with pool := r.2 })
        (f := fun scope => scope.insert n ⟨n, type, .const r.1 value⟩) hu hnew (fun _ => rfl)
        fun _ => Scope.get?_insert
      exact ⟨hwrites.parent, hwrites.get?⟩
    | error e =>
      rw [hpool] at h
      cases h

theorem writes_declareFunc {type : Ty} (hu : u < t.scopes.size)
    (h : t.declareFunc u n type = .ok t') : t.Writes t' u n ⟨n, type, .func .unresolved⟩ := by
  unfold declareFunc at h
  split at h
  · cases h
  · next hnew =>
    cases h
    exact writes_insert hu hnew (fun _ => rfl) fun _ => Scope.get?_insert

theorem writes_update (h : t.update s n d = .ok t') :
    ∃ u, t.declaring? s n = some u ∧ t.Writes t' u n d := by
  obtain ⟨u, old, hu, hold, -, rfl⟩ := exists_of_update h
  refine ⟨u, hu, fun _ => parent_replace, fun c m => ?_⟩
  rw [get?_modifyScope_replace]
  split
  · next heq => rw [heq.1, heq.2, hold, Option.map_some]
  · rfl

/-- A descriptor that is replaced is seen from where the name was found in the same scope. -/
theorem lookup_update (h : t.update u n d = .ok t') (s : ScopeId) (m : String) :
    t'.lookup s m =
      if m = n ∧ t.declaring? s n = t.declaring? u n then .ok d else t.lookup s m := by
  obtain ⟨c, hc, hwrites⟩ := writes_update h
  have hexposed : t.Exposed s n c ↔ t.declaring? s n = t.declaring? u n := by
    rw [hc, declaring?_eq_some_iff]
    exact (and_iff_left (declaring?_eq_some_iff.mp hc).2).symm
  simp only [hwrites.shows s m, hexposed]

/-! ### Opening a scope -/

theorem get?_openScope {name : String} :
    ((t.openScope name p).1.scope c).get? m = (t.scope c).get? m := by
  rw [scope_openScope]
  split
  · next hc =>
    rw [scope_of_size_le (Nat.le_of_eq hc.symm)]
    rfl
  · rfl

theorem declares_openScope {name : String} :
    ((t.openScope name p).1.scope c).declares m = (t.scope c).declares m := by
  unfold Scope.declares
  rw [get?_openScope]

namespace Rooted

variable (h : t.Rooted)

include h

/-- The chains of scopes do not change when another one is opened. -/
theorem chain_openScope {name : String} (hp : p < t.scopes.size) (hs : s < t.scopes.size) :
    (t.openScope name p).1.chain s = t.chain s := by
  have hopened : (t.openScope name p).1.Descending := (h.openScope hp).descending
  induction s using h.descending.parentInduction with
  | hbottom s hbottom =>
    rw [chain_of_bottom hbottom, chain_of_bottom]
    rw [scope_openScope, if_neg (Nat.ne_of_lt hs), hbottom]
  | hparent s q hq ih =>
    rw [h.descending.chain_of_parent hq, hopened.chain_of_parent (p := q),
      ih (Nat.lt_trans (h.descending s q hq) hs)]
    rw [scope_openScope, if_neg (Nat.ne_of_lt hs), hq]

/-- **Opening a scope** changes no look-up in the others. -/
theorem lookup_openScope {name : String} (hp : p < t.scopes.size) (hs : s < t.scopes.size)
    (m : String) : (t.openScope name p).1.lookup s m = t.lookup s m := by
  refine lookup_congr ?_
  simp only [find?, declaring?, h.chain_openScope hp hs, declares_openScope, get?_openScope]

/-- **A scope that has been opened** sees what its parent sees. -/
theorem lookup_opened {name : String} (hp : p < t.scopes.size) (m : String) :
    (t.openScope name p).1.lookup t.scopes.size m = t.lookup p m := by
  have hchain : (t.openScope name p).1.chain t.scopes.size = t.scopes.size :: t.chain p := by
    rw [(h.openScope hp).descending.chain_of_parent (p := p), h.chain_openScope hp hp]
    rw [scope_openScope, if_pos rfl]
    rfl
  have hnew : (t.scope t.scopes.size).declares m = false := by
    rw [scope_of_size_le (Nat.le_refl _)]
    rfl
  refine lookup_congr ?_
  simp only [find?, declaring?, hchain, declares_openScope, get?_openScope, List.find?_cons, hnew]

end Rooted

end ScopeTree

namespace CompilationUnit

open ScopeTree

variable {code : CompilationUnit}

/-- **Names mean what their nearest declarations say, and writes are visible where they should
be.** In a unit that edits of existing scopes have built, a chain goes from a scope to the root,
from parent to parent and with decreasing numbers. A look-up gives the descriptor in the first
scope on the chain that declares the name, and fails just if there is none. A descriptor that
is declared is seen where its scope is exposed and nowhere else, one that is replaced is seen
from where the name was found in the same scope as it is, and a scope that is opened sees what
its parent sees and changes nothing for the others. -/
theorem lookups_of_built (h : code.Built Edit.Sited) :
    let t := code.scopes
    (∀ s < t.scopes.size,
      (t.chain s).head? = some s ∧ (t.chain s).getLast? = some root ∧
      (t.scope root).parent = none ∧
      ((t.chain s).IsChain fun c p => (t.scope c).parent = some p) ∧
      (t.chain s).Pairwise (· > ·)) ∧
    (∀ s n,
      (∀ d, t.lookup s n = .ok d ↔ ∃ u, t.Exposed s n u ∧ (t.scope u).get? n = some d) ∧
      ∀ e, t.lookup s n = .error e ↔
        e = .unplaced (.identNotDefined n) ∧ ∀ c ∈ t.chain s, ¬(t.scope c).declares n) ∧
    (∀ u < t.scopes.size, ∀ n type t',
      (∀ slot, t.declareVar u n type = .ok (slot, t') → t.Shows t' u n ⟨n, type, .var slot⟩) ∧
      (∀ value offset, t.declareConst u n type value = .ok (offset, t') →
        t.Shows t' u n ⟨n, type, .const offset value⟩) ∧
      (t.declareFunc u n type = .ok t' → t.Shows t' u n ⟨n, type, .func .unresolved⟩)) ∧
    (∀ u n d t', t.update u n d = .ok t' → ∀ s m, t'.lookup s m =
      if m = n ∧ t.declaring? s n = t.declaring? u n then .ok d else t.lookup s m) ∧
    ∀ p < t.scopes.size, ∀ name t' new, t.openScope name p = (t', new) →
      (∀ s < t.scopes.size, ∀ m, t'.lookup s m = t.lookup s m) ∧
      ∀ m, t'.lookup new m = t.lookup p m := by
  have hrooted := h.rooted
  have hdescending := hrooted.descending
  refine ⟨fun s hs => ?_, fun s n => ?_, fun u hu n type t' => ?_, fun u n d t' => lookup_update,
    fun p hp name t' new hopen => ?_⟩
  · exact ⟨rfl, hrooted.getLast?_chain hs, hrooted.parent_root, hdescending.isChain_chain s,
      hdescending.pairwise_chain s⟩
  · exact ⟨fun d => lookup_eq_ok_iff_exposed, fun e => lookup_eq_error_iff⟩
  · exact ⟨fun slot hvar => (writes_declareVar hu hvar).shows,
      fun value offset hconst => (writes_declareConst hu hconst).shows,
      fun hfunc => (writes_declareFunc hu hfunc).shows⟩
  · cases hopen
    exact ⟨fun s hs => hrooted.lookup_openScope hp hs, hrooted.lookup_opened hp⟩

/-- A unit in which a scope inside the root hides a variable of it, from itself and from a scope
that it contains, but not from its sibling. -/
def shadowed : CompilationUnit :=
  initial
    |>.edited (.declareVar 0 "x" .uint64)
    |>.edited (.openScope "outer" 0)
    |>.edited (.openScope "sibling" 0)
    |>.edited (.declareVar 1 "x" .bytes)
    |>.edited (.openScope "inner" 1)

theorem built_shadowed : shadowed.Built Edit.Sited :=
  Built.initial "global"
    |>.edit (e := .declareVar 0 "x" .uint64) (by decide : 0 < 1)
    |>.edit (e := .openScope "outer" 0) (by decide : 0 < 1)
    |>.edit (e := .openScope "sibling" 0) (by decide : 0 < 2)
    |>.edit (e := .declareVar 1 "x" .bytes) (by decide : 1 < 3)
    |>.edit (e := .openScope "inner" 1) (by decide : 1 < 3)

/-- A constant of the same name that the sibling declares is not seen from the inner scope. What
replaces the variable from within that is seen from the outer scope, but not from the root. -/
theorem lookups_of_shadowed :
    let t := shadowed.scopes
    t.chain 3 = [3, 1, 0] ∧ (t.chain 3).getLast? = some root ∧
    (∃ t', t.declareConst 2 "x" .uint64 "1" = .ok (1, t') ∧
      t'.lookup 2 "x" = .ok ⟨"x", .uint64, .const 1 "1"⟩ ∧ t'.lookup 3 "x" = t.lookup 3 "x") ∧
    ∃ t', t.update 3 "x" ⟨"x", .uint64, .var 7⟩ = .ok t' ∧
      t'.lookup 1 "x" = .ok ⟨"x", .uint64, .var 7⟩ ∧ t'.lookup 0 "x" = t.lookup 0 "x" := by
  obtain ⟨hchain, -, hdeclare, hupdate, -⟩ := lookups_of_built built_shadowed
  refine ⟨by decide, (hchain 3 (by decide)).2.1, ⟨_, rfl, ?_, ?_⟩, ⟨_, rfl, ?_, ?_⟩⟩
  · exact ((hdeclare 2 (by decide) "x" .uint64 _).2.1 "1" 1 rfl 2 "x").trans
      (if_pos (by decide))
  · exact ((hdeclare 2 (by decide) "x" .uint64 _).2.1 "1" 1 rfl 3 "x").trans
      (if_neg (by decide))
  · exact (hupdate 3 "x" ⟨"x", .uint64, .var 7⟩ _ rfl 1 "x").trans (if_pos (by decide))
  · exact (hupdate 3 "x" ⟨"x", .uint64, .var 7⟩ _ rfl 0 "x").trans (if_neg (by decide))

end CompilationUnit

end ContractLang
