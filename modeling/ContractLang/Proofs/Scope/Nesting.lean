import ContractLang.Proofs.Scope.Chain

/-!
# The slots of nested scopes

A scope begins at the slot that the next variable of its parent would have been given. So
as long as nothing more is declared in a scope after another one has been opened in it, the
two do not meet, and the variables along a chain of scopes fill the stack from its bottom
without a gap. If a variable does share its slot with one of an enclosing scope, then the
outer one came later: it was declared when the scope on the way to the inner one had been
opened already.

Addresses are counted round the end of the address space, so this takes fewer variables than
there are addresses. Any unit that fits into memory has fewer
(`ContractLang.ScopeTree.varCount`), and as nothing is moved, the slots of a scope then end
below the number of all variables.

That a variable came later speaks about the course of events, so it is shown of units together with the
edits that have led to them (`ContractLang.CompilationUnit.History`). What a single edit does
to a tree comes down to two facts: scopes keep their places, and are opened at the end of
their parents (`ContractLang.ScopeTree.Expands`), and a variable that is new is the one that
the edit declares (`ContractLang.Edit.Changes.slot?_or`).
-/

namespace ContractLang

/-- A name that stands for no variable is given no slot. -/
theorem Scope.slot?_insert {scope : Scope} {name other : String} {d : Descriptor}
    (hslot : d.role.slot? = none) : (scope.insert name d).slot? other = scope.slot? other := by
  unfold slot?
  rw [get?_insert]
  cases scope.get? other with
  | some old => rfl
  | none => by_cases hname : other = name <;> simp [hname, hslot]

namespace ScopeTree

variable {t t' : ScopeTree} {id s c p : ScopeId} {v w : String} {a : Nat}

theorem slot?_modifyScope {f : Scope → Scope} (hf : ∀ scope, (f scope).slot? v = scope.slot? v) :
    ((t.modifyScope id f).scope s).slot? v = (t.scope s).slot? v :=
  field_modifyScope (g := fun scope => scope.slot? v) hf

/-! ### Chains -/

/-- The way from a scope to the root begins with the scope and goes on from its parent. -/
theorem exists_of_ancestry_eq_cons {count : Nat} {rest : List ScopeId}
    (h : t.ancestry count id = s :: rest) : id = s ∧
      (rest ≠ [] → ∃ p count', (t.scope s).parent = some p ∧ t.ancestry count' p = rest) := by
  cases count with
  | zero => simp [ancestry] at h
  | succ count =>
    obtain ⟨rfl, hrest⟩ := List.cons_eq_cons.mp h
    refine ⟨rfl, fun hne => ?_⟩
    cases hparent : (t.scope id).parent with
    | none => simp [hparent, hne.symm] at hrest
    | some p =>
      rw [hparent] at hrest
      exact ⟨p, count, rfl, hrest⟩

/-- It goes from scope to parent. -/
theorem parent_of_ancestry {count : Nat} {inner outer : List ScopeId}
    (h : t.ancestry count id = inner ++ c :: p :: outer) : (t.scope c).parent = some p := by
  induction inner generalizing count id with
  | nil =>
    obtain ⟨q, count', hparent, hrest⟩ := (exists_of_ancestry_eq_cons h).2 nofun
    rw [hparent, (exists_of_ancestry_eq_cons hrest).1]
  | cons x inner ih =>
    obtain ⟨q, count', -, hrest⟩ := (exists_of_ancestry_eq_cons h).2 (by simp)
    exact ih hrest

/-! ### Counting variables -/

/-- The number of the variables of all scopes. -/
def varCount (t : ScopeTree) : Nat :=
  (t.scopes.toList.flatMap Scope.slots).length

/-- Replacing an element of a list changes the length of what the list expands to by what it changes
for the element. -/
theorem length_flatMap_modify {α β : Type} {f : α → α} (g : α → List β) {l : List α} {i : Nat}
    (hi : i < l.length) : ((l.modify i f).flatMap g).length + (g l[i]).length =
      (l.flatMap g).length + (g (f l[i])).length := by
  induction l generalizing i with
  | nil => cases hi
  | cons x l ih =>
    cases i with
    | zero =>
      simp only [List.modify_zero_cons, List.flatMap_cons, List.length_append,
        List.getElem_cons_zero]
      omega
    | succ i =>
      have hrest := ih (Nat.lt_of_succ_lt_succ hi)
      simp only [List.modify_succ_cons, List.flatMap_cons, List.length_append,
        List.getElem_cons_succ]
      omega

theorem modifyScope_of_size_le {f : Scope → Scope} (hid : t.scopes.size ≤ id) :
    t.modifyScope id f = t := by
  have hsame : t.scopes.modify id f = t.scopes := Array.ext (by simp) fun i hi hi' => by
    rw [Array.getElem_modify, if_neg (Nat.ne_of_gt (Nat.lt_of_lt_of_le hi' hid))]
  rw [modifyScope, hsame]

theorem varCount_modifyScope {f : Scope → Scope} (hid : id < t.scopes.size) :
    (t.modifyScope id f).varCount + (t.scope id).varCount =
      t.varCount + (f (t.scope id)).varCount := by
  have hscope : t.scope id = t.scopes.toList[id] := by simp [scope, Array.getD, hid]
  rw [hscope, ← Scope.length_slots, ← Scope.length_slots, varCount, varCount, modifyScope,
    Array.toList_modify]
  exact length_flatMap_modify Scope.slots hid

theorem varCount_openScope {name : String} {parent : ScopeId} :
    (t.openScope name parent).1.varCount = t.varCount := by
  simp [varCount, openScope, Scope.slots, Scope.fresh]

/-! ### Scopes inside others -/

/-- **Scopes lie inside their parents**: their slots are dense, a scope has a greater number
than its parent, and begins not before it and not after its next slot. What has no parent
begins at the bottom. Fewer variables than there are addresses take up all slots from the
bottom to the end of a scope. -/
structure Nested (t : ScopeTree) : Prop where
  dense : t.Dense
  few : t.varCount < Scope.addressSpace
  counted : ∀ s, (t.scope s).entryAddress + (t.scope s).varCount ≤ t.varCount
  parent_lt : ∀ {s p}, (t.scope s).parent = some p → p < s
  bottom : ∀ {s}, (t.scope s).parent = none → (t.scope s).entryAddress = 0
  inside : ∀ {s p}, (t.scope s).parent = some p →
    (t.scope p).entryAddress ≤ (t.scope s).entryAddress ∧
      (t.scope s).entryAddress ≤ (t.scope p).nextAddress

namespace Nested

section Chain

variable (h : t.Nested)

include h

theorem fits (s : ScopeId) : (t.scope s).Fits :=
  Nat.lt_of_le_of_lt (h.counted s) h.few

theorem filled (s : ScopeId) : (t.scope s).Filled :=
  (h.dense s).filled (h.fits s)

theorem slot_bounds (hv : (t.scope s).slot? v = some a) :
    (t.scope s).entryAddress ≤ a ∧ a < (t.scope s).nextAddress :=
  (h.dense s).slot_bounds (h.fits s) hv

theorem slot_inj (hv : (t.scope s).slot? v = some a) (hw : (t.scope s).slot? w = some a) : v = w :=
  (h.dense s).slot_inj (Nat.le_of_lt (Nat.lt_of_le_of_lt (Nat.le_add_left _ _) (h.fits s))) hv hw

theorem descending : t.Descending :=
  fun _ _ => h.parent_lt

/-- Entry addresses grow from the outside to the inside. -/
theorem entry_le_of_mem_chain (hc : c ∈ t.chain s) :
    (t.scope c).entryAddress ≤ (t.scope s).entryAddress := by
  induction s using h.descending.parentInduction with
  | hbottom s hs =>
    rw [chain_of_bottom hs, List.mem_singleton] at hc
    exact Nat.le_of_eq (by rw [hc])
  | hparent s p hs ih =>
    rw [h.descending.chain_of_parent hs, List.mem_cons] at hc
    rcases hc with rfl | hc
    · exact Nat.le_refl _
    · exact Nat.le_trans (ih hc) (h.inside hs).1

/-- **Scopes that follow one upon the other fill the stack**: the variables along the chain
are in different slots, which are all those below the next one. -/
theorem slots_of_adjacent (hadjacent : ∀ c ∈ t.chain s, ∀ p, (t.scope c).parent = some p →
      (t.scope c).entryAddress = (t.scope p).nextAddress) :
    (∀ x ∈ t.chain s, ∀ y ∈ t.chain s, ∀ v w a, (t.scope x).slot? v = some a →
      (t.scope y).slot? w = some a → x = y ∧ v = w) ∧
    ∀ a, (∃ x ∈ t.chain s, ∃ v, (t.scope x).slot? v = some a) ↔ a < (t.scope s).nextAddress := by
  induction s using h.descending.parentInduction with
  | hbottom s hs =>
    simp only [chain_of_bottom hs, List.mem_singleton, forall_eq, exists_eq_left, true_and]
    refine ⟨fun v w a hv hw => h.slot_inj hv hw, fun a => ?_⟩
    rw [(h.dense s).exists_slot_iff_of_fits (h.fits s), h.bottom hs]
    omega
  | hparent s p hs ih =>
    rw [h.descending.chain_of_parent hs] at hadjacent ⊢
    obtain ⟨hdistinct, hfilled⟩ := ih fun c hc => hadjacent c (List.mem_cons_of_mem s hc)
    have hentry := hadjacent s List.mem_cons_self p hs
    have houter : ∀ x ∈ t.chain p, ∀ v a, (t.scope x).slot? v = some a →
        a < (t.scope s).entryAddress :=
      fun x hx v a hv => hentry ▸ (hfilled a).mp ⟨x, hx, v, hv⟩
    have hinner : ∀ v a, (t.scope s).slot? v = some a → (t.scope s).entryAddress ≤ a :=
      fun v a hv => (h.slot_bounds hv).1
    constructor
    · intro x hx y hy v w a hv hw
      rcases List.mem_cons.mp hx with hx | hx <;> rcases List.mem_cons.mp hy with hy | hy
      · rw [hx] at hv
        rw [hy] at hw
        exact ⟨hx.trans hy.symm, h.slot_inj hv hw⟩
      · exact absurd (houter y hy w a hw) (Nat.not_lt.mpr (hinner v a (hx ▸ hv)))
      · exact absurd (houter x hx v a hv) (Nat.not_lt.mpr (hinner w a (hy ▸ hw)))
      · exact hdistinct x hx y hy v w a hv hw
    · intro a
      simp only [List.mem_cons, exists_eq_or_imp]
      rw [hfilled, (h.dense s).exists_slot_iff_of_fits (h.fits s), hentry]
      have hgrows := (h.filled s).entry_le_next
      omega

end Chain

end Nested

/-! ### What an edit does to a tree -/

/-- A tree has become another one in which scopes are where they were, but may hold more
variables, and new ones have been opened at the ends of their parents. -/
structure Expands (t t' : ScopeTree) : Prop where
  parent : ∀ s < t.scopes.size, (t'.scope s).parent = (t.scope s).parent
  entry : ∀ s < t.scopes.size, (t'.scope s).entryAddress = (t.scope s).entryAddress
  grows : ∀ s, (t.scope s).varCount ≤ (t'.scope s).varCount
  varCount_le : t.varCount ≤ t'.varCount
  share : ∀ s, (t'.scope s).varCount - (t.scope s).varCount ≤ t'.varCount - t.varCount
  opened : ∀ s, t.scopes.size ≤ s → t'.scope s = default ∨ ∃ p < t.scopes.size,
    ∃ name, t'.scope s = .fresh name (some p) (t.scope p).nextAddress

namespace Expands

theorem refl (t : ScopeTree) : t.Expands t :=
  ⟨fun _ _ => rfl, fun _ _ => rfl, fun _ => Nat.le_refl _, Nat.le_refl _, fun _ => by omega,
    fun _ hs => .inl (scope_of_size_le hs)⟩

theorem modifyScope {f : Scope → Scope} (hparent : ∀ scope, (f scope).parent = scope.parent)
    (hentry : ∀ scope, (f scope).entryAddress = scope.entryAddress)
    (hcount : ∀ scope, scope.varCount ≤ (f scope).varCount) :
    t.Expands (t.modifyScope id f) := by
  rcases Nat.lt_or_ge id t.scopes.size with hid | hid
  · have htotal := varCount_modifyScope (f := f) hid
    have hgrows := hcount (t.scope id)
    refine ⟨fun s _ => parent_modifyScope hparent,
      fun s _ => field_modifyScope (g := Scope.entryAddress) hentry, fun s => ?_, by omega,
      fun s => ?_, fun s hs => .inl ?_⟩ <;> rw [scope_modifyScope]
    · split
      · exact hcount _
      · exact Nat.le_refl _
    · split
      · next h =>
        rw [h.1]
        omega
      · omega
    · rw [if_neg fun hs' => Nat.not_lt.mpr hs hs'.2]
      exact scope_of_size_le hs
  · rw [modifyScope_of_size_le hid]
    exact .refl t

theorem openScope {name : String} {parent : ScopeId} (hparent : parent < t.scopes.size) :
    t.Expands (t.openScope name parent).1 := by
  have hold : ∀ s < t.scopes.size, (t.openScope name parent).1.scope s = t.scope s :=
    fun s hs => by rw [scope_openScope, if_neg (Nat.ne_of_lt hs)]
  have hcount : ∀ s, ((t.openScope name parent).1.scope s).varCount = (t.scope s).varCount := by
    intro s
    rw [scope_openScope]
    split
    · next hs => rw [scope_of_size_le hs.ge]; rfl
    · rfl
  refine ⟨fun s hs => by rw [hold s hs], fun s hs => by rw [hold s hs],
    fun s => Nat.le_of_eq (hcount s).symm, Nat.le_of_eq varCount_openScope.symm,
    fun s => by rw [hcount]; omega, fun s hs => ?_⟩
  rw [scope_openScope]
  split
  · exact .inr ⟨parent, hparent, name, rfl⟩
  · exact .inl (scope_of_size_le hs)

/-- The literals do not matter. -/
theorem congr {u : ScopeTree} (h : t.Expands t') (hu : u.scopes = t'.scopes) : t.Expands u := by
  obtain ⟨scopes, pool⟩ := u
  cases hu
  exact ⟨h.parent, h.entry, h.grows, h.varCount_le, h.share, h.opened⟩

/-- Scopes stay inside their parents. -/
theorem nested (h : t.Expands t') (ht : t.Nested) (hdense : t'.Dense)
    (hfew : t'.varCount < Scope.addressSpace) : t'.Nested := by
  have hcounted : ∀ s, (t'.scope s).entryAddress + (t'.scope s).varCount ≤ t'.varCount := by
    intro s
    have hbefore := ht.counted s
    have hshare := h.share s
    have hle := h.varCount_le
    rcases Nat.lt_or_ge s t.scopes.size with hs | hs
    · rw [h.entry s hs]
      omega
    · rcases h.opened s hs with hmissing | ⟨p, -, name, hnew⟩
      · rw [hmissing]
        exact Nat.zero_le _
      · have hparent := ht.counted p
        rw [hnew, Scope.fresh, (ht.filled p).next_eq]
        exact hparent.trans hle
  have hfilled : ∀ s, (t'.scope s).Filled := fun s =>
    (hdense s).filled (Nat.lt_of_le_of_lt (hcounted s) hfew)
  refine ⟨hdense, hfew, hcounted, fun {s p} hparent => ?_, fun {s} hbottom => ?_,
    fun {s p} hparent => ?_⟩ <;> rcases Nat.lt_or_ge s t.scopes.size with hs | hs
  · exact ht.parent_lt ((h.parent s hs).symm.trans hparent)
  · rcases h.opened s hs with hmissing | ⟨q, hq, name, hnew⟩
    · rw [hmissing] at hparent
      cases hparent
    · rw [hnew] at hparent
      cases hparent
      exact Nat.lt_of_lt_of_le hq hs
  · exact (h.entry s hs).trans (ht.bottom ((h.parent s hs).symm.trans hbottom))
  · rcases h.opened s hs with hmissing | ⟨q, -, name, hnew⟩
    · rw [hmissing]
      rfl
    · rw [hnew] at hbottom
      cases hbottom
  · have hold := (h.parent s hs).symm.trans hparent
    have hp : p < t.scopes.size := Nat.lt_trans (ht.parent_lt hold) hs
    have hinside := ht.inside hold
    have hgrows := h.grows p
    rw [(ht.filled p).next_eq] at hinside
    rw [(hfilled p).next_eq, h.entry s hs, h.entry p hp]
    omega
  · rcases h.opened s hs with hmissing | ⟨q, hq, name, hnew⟩
    · rw [hmissing] at hparent
      cases hparent
    · rw [hnew] at hparent ⊢
      cases hparent
      have hgrows := h.grows p
      change (t'.scope p).entryAddress ≤ (t.scope p).nextAddress ∧
        (t.scope p).nextAddress ≤ (t'.scope p).nextAddress
      rw [(hfilled p).next_eq, h.entry p hq, (ht.filled p).next_eq]
      omega

end Expands

theorem parent_initial {name : String} : ((ScopeTree.initial name).scope s).parent = none := by
  obtain ⟨label, hfresh⟩ := exists_scope_initial name s
  rw [hfresh]
  rfl

theorem nested_initial (name : String) : (ScopeTree.initial name).Nested := by
  refine ⟨.initial name, Scope.addressSpace_pos, fun s => ?_, fun {s p} hparent => ?_, fun {s} _ => ?_,
    fun {s p} hparent => ?_⟩
  · obtain ⟨label, hfresh⟩ := exists_scope_initial name s
    rw [hfresh]
    exact Nat.zero_le _
  · cases parent_initial.symm.trans hparent
  · obtain ⟨label, hfresh⟩ := exists_scope_initial name s
    rw [hfresh]
    rfl
  · cases parent_initial.symm.trans hparent

end ScopeTree

namespace Edit

open ScopeTree

/-- An edit opens scopes in existing ones only, and neither overwrites descriptors nor moves
variables. -/
def Builds (t : ScopeTree) {α : Type} : Edit α → Prop
  | .openScope _ parent => parent < t.scopes.size
  | .update .. => False
  | .remap .. => False
  | _ => True

/-- An edit, whatever it answers with. -/
structure Step where
  /-- The type of the answer. -/
  {answer : Type}
  /-- The edit. -/
  edit : Edit answer

namespace Changes

variable {t t' : ScopeTree} {α : Type} {e : Edit α} {p : ScopeId} {v : String} {a : Nat}

theorem dense (h : e.Changes t t') (he : e.Builds t) (ht : t.Dense) : t'.Dense :=
  ht.changes (fun hoverwrites => by cases e <;> trivial) h

theorem expands (h : e.Changes t t') (he : e.Builds t) : t.Expands t' := by
  cases h with
  | unchanged => exact .refl t
  | openScope => exact .openScope he
  | declareVar =>
    exact .modifyScope (fun _ => rfl) (fun _ => rfl) fun _ =>
      Scope.varCount_declareVar ▸ Nat.le_succ _
  | @declareConst id name value type offset pool =>
    have hdeclared : t.Expands (t.modifyScope id fun s =>
        s.insert name ⟨name, type, .const offset value⟩) :=
      .modifyScope (fun _ => rfl) (fun _ => rfl) fun _ =>
        Nat.le_of_eq (Scope.varCount_insert rfl).symm
    exact hdeclared.congr rfl
  | declareFunc =>
    exact .modifyScope (fun _ => rfl) (fun _ => rfl) fun _ =>
      Nat.le_of_eq (Scope.varCount_insert rfl).symm
  | update | remap => exact he.elim
  | intern => exact (Expands.refl t).congr rfl

/-- **A variable that is there after an edit** was there before, in the same slot, or is the one
that the edit declares, and then the edit opens no scope. -/
theorem slot?_or (h : e.Changes t t') (he : e.Builds t) (hslot : (t'.scope p).slot? v = some a) :
    (t.scope p).slot? v = some a ∨ ∃ type, Step.mk e = ⟨.declareVar p v type⟩ ∧
      ¬(t.scope p).declares v ∧ t'.scopes.size = t.scopes.size := by
  cases h with
  | unchanged => exact .inl hslot
  | openScope =>
    rw [scope_openScope] at hslot
    split at hslot
    · cases hslot
    · exact .inl hslot
  | @declareVar id name type hnew =>
    rw [scope_modifyScope] at hslot
    split at hslot
    · next hp =>
      rw [← hp.1] at hnew ⊢
      by_cases hname : v = name
      · exact .inr ⟨type, by rw [hname], hname ▸ hnew, size_modifyScope⟩
      · refine .inl ?_
        simpa [Scope.slot?, Scope.get?_declareVar, hname] using hslot
    · exact .inl hslot
  | declareConst => exact .inl ((slot?_modifyScope fun _ => Scope.slot?_insert rfl).symm.trans hslot)
  | declareFunc => exact .inl ((slot?_modifyScope fun _ => Scope.slot?_insert rfl).symm.trans hslot)
  | update | remap => exact he.elim
  | intern => exact .inl hslot

end Changes

end Edit

/-! ### Histories -/

namespace CompilationUnit

variable {root : String} {steps : List Edit.Step} {code : CompilationUnit}

/-- The edits that have led, one after the other and whether they succeeded or failed, from a
unit with a root scope only to another one. -/
inductive History (root : String) : List Edit.Step → CompilationUnit → Prop
  | start : History root [] ⟨#[], .initial root⟩
  | step {steps : List Edit.Step} {code : CompilationUnit} {α : Type} {e : Edit α}
      (h : History root steps code) (he : e.Builds code.scopes) :
      History root (steps ++ [⟨e⟩]) (code.edited e)

/-- In the course of a history, a variable was declared in a scope when another scope had been
opened already. -/
def DeclaredAfter (root : String) (steps : List Edit.Step) (p : ScopeId) (v : String)
    (c : ScopeId) : Prop :=
  ∃ before type after code, steps = before ++ ⟨.declareVar p v type⟩ :: after ∧
    History root before code ∧ c < code.scopes.scopes.size ∧ ¬(code.scopes.scope p).declares v

theorem DeclaredAfter.append {p c : ScopeId} {v : String} (h : DeclaredAfter root steps p v c)
    (step : Edit.Step) : DeclaredAfter root (steps ++ [step]) p v c := by
  obtain ⟨before, type, after, code, rfl, hcode⟩ := h
  exact ⟨before, type, after ++ [step], code, by simp, hcode⟩

namespace History

theorem nested (h : History root steps code) (hfew : code.scopes.varCount < Scope.addressSpace) :
    code.scopes.Nested := by
  induction h with
  | start => exact ScopeTree.nested_initial root
  | @step steps code α e _ he ih =>
    have hchanges := code.changes_edited e
    have hexpands := hchanges.expands he
    have hbefore := ih (Nat.lt_of_le_of_lt hexpands.varCount_le hfew)
    exact hexpands.nested hbefore (hchanges.dense he hbefore.dense) hfew

/-- **What lies beyond the entry of a scope in its parent came later**: the scope was opened at
the end of the parent as it was then. -/
theorem declaredAfter (h : History root steps code)
    (hfew : code.scopes.varCount < Scope.addressSpace) {c p : ScopeId} {v : String} {a : Nat}
    (hparent : (code.scopes.scope c).parent = some p)
    (hslot : (code.scopes.scope p).slot? v = some a)
    (hentry : (code.scopes.scope c).entryAddress ≤ a) : DeclaredAfter root steps p v c := by
  induction h with
  | start => cases ScopeTree.parent_initial.symm.trans hparent
  | @step steps code α e hearlier he ih =>
    have hchanges := code.changes_edited e
    have hexpands := hchanges.expands he
    have hbefore := Nat.lt_of_le_of_lt hexpands.varCount_le hfew
    rcases hchanges.slot?_or he hslot with hold | ⟨type, hstep, hnew, hsize⟩
    · rcases Nat.lt_or_ge c code.scopes.scopes.size with hc | hc
      · rw [hexpands.parent c hc] at hparent
        rw [hexpands.entry c hc] at hentry
        exact (ih hbefore hparent hold hentry).append ⟨e⟩
      -- A scope that has just been opened begins past all variables of its parent.
      · rcases hexpands.opened c hc with hmissing | ⟨q, -, name, hnew⟩
        · rw [hmissing] at hparent
          cases hparent
        · rw [hnew] at hparent hentry
          cases hparent
          have hbounds := (hearlier.nested hbefore).slot_bounds hold
          exact absurd hbounds.2 (Nat.not_lt.mpr hentry)
    · have hc := ScopeTree.lt_size_of_parent hparent
      exact ⟨steps, type, [], code, by rw [hstep], hearlier, hsize ▸ hc, hnew⟩

/-- **Nested scopes share a slot only if the outer variable came later.** If a variable of a
scope shares its slot with one of an enclosing scope, then the latter was declared when the
scope below that one on the chain had been opened; and if all scopes on the chain begin
where their parents end, then their variables are in different slots, which are all those
below the next one. A unit that fits into memory has fewer variables than there are
addresses. -/
theorem slots_of_nested (h : History root steps code)
    (hfew : code.scopes.varCount < Scope.addressSpace) (s : ScopeId) :
    (∀ inner c p outer w v a, code.scopes.chain s = inner ++ c :: p :: outer →
      (code.scopes.scope s).slot? w = some a → (code.scopes.scope p).slot? v = some a →
      DeclaredAfter root steps p v c) ∧
    ((∀ c ∈ code.scopes.chain s, ∀ p, (code.scopes.scope c).parent = some p →
        (code.scopes.scope c).entryAddress = (code.scopes.scope p).nextAddress) →
      (∀ x ∈ code.scopes.chain s, ∀ y ∈ code.scopes.chain s, ∀ v w a,
        (code.scopes.scope x).slot? v = some a → (code.scopes.scope y).slot? w = some a →
          x = y ∧ v = w) ∧
      ∀ a, (∃ x ∈ code.scopes.chain s, ∃ v, (code.scopes.scope x).slot? v = some a) ↔
        a < (code.scopes.scope s).nextAddress) := by
  have hnested := h.nested hfew
  refine ⟨fun inner c p outer w v a hchain hw hv => ?_, hnested.slots_of_adjacent⟩
  have hentry : (code.scopes.scope c).entryAddress ≤ (code.scopes.scope s).entryAddress :=
    hnested.entry_le_of_mem_chain (by simp [hchain])
  have hinner := (hnested.slot_bounds hw).1
  exact h.declaredAfter hfew (ScopeTree.parent_of_ancestry hchain) hv (Nat.le_trans hentry hinner)

end History

/-- A unit in which a scope is opened before the variable of the root that it shares a slot with
is declared, and another one after it. -/
def siblings : CompilationUnit :=
  initial
    |>.edited (.openScope "early" 0)
    |>.edited (.declareVar 0 "x" .uint64)
    |>.edited (.declareVar 1 "y" .uint64)
    |>.edited (.openScope "late" 0)
    |>.edited (.declareVar 2 "z" .uint64)

theorem history_siblings : History "global" [⟨.openScope "early" 0⟩,
    ⟨.declareVar 0 "x" .uint64⟩, ⟨.declareVar 1 "y" .uint64⟩, ⟨.openScope "late" 0⟩,
    ⟨.declareVar 2 "z" .uint64⟩] siblings :=
  History.start
    |>.step (e := .openScope "early" 0) (by decide : 0 < 1)
    |>.step (e := .declareVar 0 "x" .uint64) trivial
    |>.step (e := .declareVar 1 "y" .uint64) trivial
    |>.step (e := .openScope "late" 0) (by decide : 0 < 2)
    |>.step (e := .declareVar 2 "z" .uint64) trivial

/-- The variable of the early scope shares its slot with that of the root, which came later, and
that of the late one does not. -/
theorem slots_of_nested_siblings :
    (siblings.scopes.scope 1).slot? "y" = some 0 ∧ (siblings.scopes.scope 0).slot? "x" = some 0 ∧
    DeclaredAfter "global" [⟨.openScope "early" 0⟩, ⟨.declareVar 0 "x" .uint64⟩,
      ⟨.declareVar 1 "y" .uint64⟩, ⟨.openScope "late" 0⟩, ⟨.declareVar 2 "z" .uint64⟩] 0 "x" 1 ∧
    siblings.scopes.chain 2 = [2, 0] ∧
    ∀ a, (∃ x ∈ siblings.scopes.chain 2, ∃ v, (siblings.scopes.scope x).slot? v = some a) ↔
      a < 2 := by
  have hadjacent : ∀ c ∈ siblings.scopes.chain 2, ∀ p,
      (siblings.scopes.scope c).parent = some p →
        (siblings.scopes.scope c).entryAddress = (siblings.scopes.scope p).nextAddress := by
    intro c hc p hp
    rw [show siblings.scopes.chain 2 = [2, 0] from rfl] at hc
    rcases List.mem_cons.mp hc with rfl | hc
    · cases hp
      rfl
    · rw [List.mem_singleton.mp hc] at hp
      cases hp
  exact ⟨by decide, by decide,
    (history_siblings.slots_of_nested (by decide) 1).1 [] 1 0 [] "y" "x" 0 (by decide) (by decide) (by decide),
    by decide, ((history_siblings.slots_of_nested (by decide) 2).2 hadjacent).2⟩

end CompilationUnit

end ContractLang
