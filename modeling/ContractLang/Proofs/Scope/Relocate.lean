import ContractLang.Proofs.Scope.Chain
import Mathlib.Data.List.Nodup

/-!
# Relocating a scope

A function that is inlined has its variables moved past those of the scope that calls it. Moving
concerns one scope: the scopes inside it keep their slots, which were given out from its old
base, and so does the root. So the variables that are visible together stay apart just if none
of those that are left in place is in one of the slots that the scope is moved to
(`ContractLang.ScopeTree.apart_remap_iff`).

The root gives no trouble if the calling scope has a variable: that one was apart from the
variables of the root, so these end before it. This takes that no address is counted past the
last one, after which the bottom of the stack would come again. Scopes inside the function can
be in the way whatever the caller is like.
-/

namespace ContractLang

/-- After moving a scope its slots are those from the new base on. -/
theorem Scope.Dense.mem_slots_remap_iff {scope : Scope} {a base : Nat} (h : scope.Dense) :
    a ∈ (scope.remap base).slots ↔ ∃ k < scope.varCount, advance base k = a := by
  simp only [(h.remap base).mem_slots_iff_advance, varCount_remap, advance_entryAddress_remap]

namespace ScopeTree

variable {t : ScopeTree} {f m s : ScopeId} {base : Nat}

/-- The variables that are visible from a scope, or hidden by others that are, are in different
slots. -/
def Apart (t : ScopeTree) (s : ScopeId) : Prop :=
  ((t.chain s).flatMap fun c => (t.scope c).slots).Nodup

instance : Decidable (t.Apart s) :=
  inferInstanceAs (Decidable (List.Nodup _))

/-- Variables are in different slots just if those of each scope are, and different scopes share
none. -/
theorem apart_iff (hdescending : t.Descending) :
    t.Apart s ↔ (∀ c ∈ t.chain s, (t.scope c).slots.Nodup) ∧
      ∀ c ∈ t.chain s, ∀ c' ∈ t.chain s, c ≠ c' →
        (t.scope c).slots.Disjoint (t.scope c').slots := by
  unfold Apart
  rw [List.nodup_flatMap]
  have hsymm : Std.Symm (Function.onFun List.Disjoint fun c => (t.scope c).slots) :=
    ⟨fun _ _ h _ ha ha' => h ha' ha⟩
  exact and_congr_right fun _ => ⟨fun h c hc c' hc' => h.forall hc hc',
    fun h => (hdescending.nodup_chain s).pairwise_of_forall_ne fun c hc c' hc' => h c hc c' hc'⟩

theorem apart_of_size_le (h : t.scopes.size ≤ s) : t.Apart s := by
  have hscope : t.scope s = default := scope_of_size_le h
  rw [Apart, chain_of_bottom (hscope ▸ rfl), List.flatMap_singleton, hscope]
  exact List.nodup_nil

/-- Variables are apart everywhere if they are along the chains of the scopes that exist. -/
theorem apart_of_forall_lt (h : ∀ s < t.scopes.size, t.Apart s) (s : ScopeId) : t.Apart s :=
  (Nat.lt_or_ge s t.scopes.size).elim (h s) apart_of_size_le

/-! ### Moving one scope -/

theorem parent_remap : ((t.remap f base).scope s).parent = (t.scope s).parent :=
  parent_modifyScope (f := fun scope => scope.remap base) fun _ => rfl

theorem chain_remap : (t.remap f base).chain s = t.chain s :=
  chain_congr (fun _ => parent_remap) s

theorem scope_remap_self (hf : f < t.scopes.size) :
    (t.remap f base).scope f = (t.scope f).remap base := by
  rw [remap, scope_modifyScope, if_pos ⟨rfl, hf⟩]

theorem scope_remap_of_ne {c : ScopeId} (hc : c ≠ f) : (t.remap f base).scope c = t.scope c := by
  rw [remap, scope_modifyScope, if_neg fun h => hc h.1]

/-- **Moving a scope keeps variables apart just if there is room**: none of those that stay where
they are is in a slot that a variable of the scope is moved to. -/
theorem apart_remap_iff (hdescending : t.Descending) (hdense : t.Dense) (hf : f < t.scopes.size)
    (hmem : f ∈ t.chain s) (hapart : t.Apart s) :
    (t.remap f base).Apart s ↔ ∀ c ∈ t.chain s, c ≠ f → ∀ a ∈ (t.scope c).slots,
      ¬∃ k < (t.scope f).varCount, Scope.advance base k = a := by
  have hdescending' : (t.remap f base).Descending := fun c p hp =>
    hdescending c p (parent_remap.symm.trans hp)
  obtain ⟨hnodup, hdisjoint⟩ := (apart_iff hdescending).mp hapart
  have hnodup' : ∀ c ∈ t.chain s, ((t.remap f base).scope c).slots.Nodup := by
    intro c hc
    by_cases hcf : c = f
    · subst hcf
      rw [scope_remap_self hf, ((hdense c).remap base).nodup_slots_iff, Scope.varCount_remap,
        ← (hdense c).nodup_slots_iff]
      exact hnodup c hc
    · rw [scope_remap_of_ne hcf]
      exact hnodup c hc
  rw [apart_iff hdescending', chain_remap, and_iff_right hnodup']
  constructor
  · intro h c hc hcf a ha hmoved
    refine h c hc f hmem hcf (a := a) ?_ ?_
    · rwa [scope_remap_of_ne hcf]
    · rw [scope_remap_self hf]
      exact (hdense f).mem_slots_remap_iff.mpr hmoved
  · intro h c hc c' hc' hne
    -- At most one of the two scopes is the one that is moved.
    by_cases hcf : c = f
    · subst hcf
      rw [scope_remap_self hf, scope_remap_of_ne hne.symm]
      intro a ha ha'
      exact h c' hc' hne.symm a ha' ((hdense c).mem_slots_remap_iff.mp ha)
    · by_cases hcf' : c' = f
      · subst hcf'
        rw [scope_remap_self hf, scope_remap_of_ne hcf]
        intro a ha ha'
        exact h c hc hcf a ha ((hdense c').mem_slots_remap_iff.mp ha')
      · rw [scope_remap_of_ne hcf, scope_remap_of_ne hcf']
        exact hdisjoint c hc c' hc' hne

/-- **The root ends before a scope with a variable** that is apart from it does, if it begins at
the bottom and the scope does not go past the last address. -/
theorem lt_next_of_mem_root (hrooted : t.Rooted) (hdense : t.Dense) (hm : m < t.scopes.size)
    (hapart : t.Apart m) (hbottom : (t.scope root).entryAddress = 0)
    (hvar : 0 < (t.scope m).varCount) (hfits : (t.scope m).Fits) {a : Nat}
    (ha : a ∈ (t.scope root).slots) : a < (t.scope m).nextAddress := by
  obtain ⟨hnodup, hdisjoint⟩ := (apart_iff hrooted.descending).mp hapart
  have hroot := hrooted.root_mem_chain hm
  -- The root has no more variables than addresses, so its slots are the numbers below their count.
  have hslots : ∀ b, b ∈ (t.scope root).slots ↔ b < (t.scope root).varCount := by
    intro b
    have hcount := (hdense root).nodup_slots_iff.mp (hnodup root hroot)
    have hzero : ∀ k < (t.scope root).varCount, Scope.advance 0 k = k := fun k hk => by
      rw [Scope.advance_of_lt (by omega), Nat.zero_add]
    rw [(hdense root).mem_slots_iff_advance, hbottom]
    exact ⟨fun ⟨k, hk, hb⟩ => (hzero k hk).symm.trans hb ▸ hk, fun hb => ⟨b, hb, hzero b hb⟩⟩
  have hfilled := (hdense m).filled hfits
  by_cases heq : m = root
  · subst heq
    exact (hfilled.mem_slots.mp ha).2
  · by_contra hlt
    -- The first variable of the scope would be in a slot of the root.
    have hnext := hfilled.next_eq
    have hbelow := (hslots a).mp ha
    have hfirst : (t.scope m).entryAddress ∈ (t.scope m).slots :=
      hfilled.mem_slots.mpr ⟨Nat.le_refl _, by omega⟩
    have hshared : (t.scope m).entryAddress ∈ (t.scope root).slots :=
      (hslots _).mpr (by omega)
    exact hdisjoint m List.mem_cons_self root hroot heq hfirst hshared

end ScopeTree

namespace CompilationUnit

open ScopeTree

variable {code : CompilationUnit}

theorem Built.rooted_dense (h : code.Built Edit.LaysOut) : code.scopes.Rooted ∧ code.scopes.Dense :=
  h.invariant (I := fun t => t.Rooted ∧ t.Dense) (fun name => ⟨.initial name, .initial name⟩)
    fun ht he hchanges => ⟨ht.1.changes he.1 hchanges, ht.2.changes he.2 hchanges⟩

/-- **A function can be relocated just if nothing is in its way.** In a unit where the variables
along every chain are apart, let a function, whose scope lies in the root, be moved to the end of
another scope. Along the chain of a scope in the function, the variables stay apart just if none
of those left in place, which belong to the root and to scopes inside the function, is in one
of the slots, counted from the end of the other scope on, that the variables of the function are
moved to. Those of the root are not if the root begins at the bottom, the other scope has a
variable and does not go past the last address, and neither do the new slots of the function; so
then the function itself keeps its variables apart from those of the root. -/
theorem apart_of_relocated (h : code.Built Edit.LaysOut) (hapart : ∀ s, code.scopes.Apart s)
    {f m : ScopeId} (hf : (code.scopes.scope f).parent = some root)
    (hm : m < code.scopes.scopes.size) :
    let t := code.scopes
    let base := (t.scope m).nextAddress
    let moved := (code.edited (.remap f base)).scopes
    (∀ s, f ∈ t.chain s → (moved.Apart s ↔ ∀ c ∈ t.chain s, c ≠ f → ∀ a ∈ (t.scope c).slots,
      ¬∃ k < (t.scope f).varCount, Scope.advance base k = a)) ∧
    ((t.scope root).entryAddress = 0 → 0 < (t.scope m).varCount → (t.scope m).Fits →
      base + (t.scope f).varCount ≤ Scope.addressSpace →
      (∀ a ∈ (t.scope root).slots, a < base) ∧ moved.Apart f) := by
  obtain ⟨hrooted, hdense⟩ := h.rooted_dense
  have hdescending := hrooted.descending
  have hiff : ∀ s, f ∈ code.scopes.chain s →
      ((code.scopes.remap f (code.scopes.scope m).nextAddress).Apart s ↔ _) := fun s hs =>
    apart_remap_iff hdescending hdense (lt_size_of_parent hf) hs (hapart s)
  refine ⟨hiff, fun hbottom hvar hfits hroom => ?_⟩
  have hbelow : ∀ a ∈ (code.scopes.scope root).slots, a < (code.scopes.scope m).nextAddress :=
    fun a => lt_next_of_mem_root hrooted hdense hm (hapart m) hbottom hvar hfits
  refine ⟨hbelow, (hiff f List.mem_cons_self).mpr fun c hc hne a ha ⟨k, hk, hmoved⟩ => ?_⟩
  -- The root is the only other scope on the chain of the function.
  rw [hdescending.chain_of_parent hf, chain_of_bottom hrooted.parent_root] at hc
  obtain rfl : c = root := by simpa [hne] using hc
  have hlt := hbelow a ha
  rw [Scope.advance_of_lt (by omega)] at hmoved
  omega

/-- A function with a block in it, and a scope that has as many variables as the function. -/
def tightInlinee : CompilationUnit :=
  initial
    |>.edited (.openScope "f" 0)
    |>.edited (.declareVar 1 "x" .uint64)
    |>.edited (.openScope "block" 1)
    |>.edited (.declareVar 2 "y" .uint64)
    |>.edited (.openScope "main" 0)
    |>.edited (.declareVar 3 "v" .uint64)

theorem built_tightInlinee : tightInlinee.Built Edit.LaysOut :=
  Built.initial "global"
    |>.edit (e := .openScope "f" 0) ⟨(by decide : 0 < 1), id⟩
    |>.edit (e := .declareVar 1 "x" .uint64) ⟨(by decide : 1 < 2), id⟩
    |>.edit (e := .openScope "block" 1) ⟨(by decide : 1 < 2), id⟩
    |>.edit (e := .declareVar 2 "y" .uint64) ⟨(by decide : 2 < 3), id⟩
    |>.edit (e := .openScope "main" 0) ⟨(by decide : 0 < 3), id⟩
    |>.edit (e := .declareVar 3 "v" .uint64) ⟨(by decide : 3 < 4), id⟩

/-- A scope without variables that was opened before the root got one, and a function. -/
def lateInlinee : CompilationUnit :=
  initial
    |>.edited (.openScope "main" 0)
    |>.edited (.declareVar 0 "g" .uint64)
    |>.edited (.openScope "f" 0)
    |>.edited (.declareVar 2 "x" .uint64)

theorem built_lateInlinee : lateInlinee.Built Edit.LaysOut :=
  Built.initial "global"
    |>.edit (e := .openScope "main" 0) ⟨(by decide : 0 < 1), id⟩
    |>.edit (e := .declareVar 0 "g" .uint64) ⟨(by decide : 0 < 2), id⟩
    |>.edit (e := .openScope "f" 0) ⟨(by decide : 0 < 2), id⟩
    |>.edit (e := .declareVar 2 "x" .uint64) ⟨(by decide : 2 < 3), id⟩

/-- A root with a variable, a scope whose only variable has been moved to the last slot but one,
and a function with two variables. -/
def highInlinee : CompilationUnit :=
  initial
    |>.edited (.declareVar 0 "g" .uint64)
    |>.edited (.openScope "main" 0)
    |>.edited (.declareVar 1 "v" .uint64)
    |>.edited (.remap 1 (Scope.addressSpace - 2))
    |>.edited (.openScope "f" 0)
    |>.edited (.declareVar 2 "x" .uint64)
    |>.edited (.declareVar 2 "y" .uint64)

theorem built_highInlinee : highInlinee.Built Edit.LaysOut :=
  Built.initial "global"
    |>.edit (e := .declareVar 0 "g" .uint64) ⟨(by decide : 0 < 1), id⟩
    |>.edit (e := .openScope "main" 0) ⟨(by decide : 0 < 1), id⟩
    |>.edit (e := .declareVar 1 "v" .uint64) ⟨(by decide : 1 < 2), id⟩
    |>.edit (e := .remap 1 (Scope.addressSpace - 2)) ⟨(by decide : 1 < 2), id⟩
    |>.edit (e := .openScope "f" 0) ⟨(by decide : 0 < 2), id⟩
    |>.edit (e := .declareVar 2 "x" .uint64) ⟨(by decide : 2 < 3), id⟩
    |>.edit (e := .declareVar 2 "y" .uint64) ⟨(by decide : 2 < 3), id⟩

/-- **A function that is moved to the end of another scope can meet variables that stay.** In the
first unit its variable comes to the slot of the one in its own block, and in the second unit
to that of the root, although the variables were apart along all chains. In the third unit its
second variable comes past the last address, and so to the slot of the one in the root. -/
theorem not_apart_of_relocated :
    (tightInlinee.Built Edit.LaysOut ∧ (∀ s, tightInlinee.scopes.Apart s) ∧
      (tightInlinee.scopes.scope 1).parent = some root ∧ 1 ∉ tightInlinee.scopes.chain 3 ∧
      1 ∈ tightInlinee.scopes.chain 2 ∧
      ¬(tightInlinee.edited
        (.remap 1 (tightInlinee.scopes.scope 3).nextAddress)).scopes.Apart 2) ∧
    (lateInlinee.Built Edit.LaysOut ∧ (∀ s, lateInlinee.scopes.Apart s) ∧
      (lateInlinee.scopes.scope 2).parent = some root ∧ 2 ∉ lateInlinee.scopes.chain 1 ∧
      2 ∈ lateInlinee.scopes.chain 2 ∧
      ¬(lateInlinee.edited
        (.remap 2 (lateInlinee.scopes.scope 1).nextAddress)).scopes.Apart 2) ∧
    (highInlinee.Built Edit.LaysOut ∧ (∀ s, highInlinee.scopes.Apart s) ∧
      (highInlinee.scopes.scope 2).parent = some root ∧ 2 ∉ highInlinee.scopes.chain 1 ∧
      (highInlinee.scopes.scope root).entryAddress = 0 ∧ 0 < (highInlinee.scopes.scope 1).varCount ∧
      2 ∈ highInlinee.scopes.chain 2 ∧
      ¬(highInlinee.edited
        (.remap 2 (highInlinee.scopes.scope 1).nextAddress)).scopes.Apart 2) :=
  ⟨⟨built_tightInlinee, apart_of_forall_lt (by decide), rfl, by decide, by decide, by decide⟩,
    ⟨built_lateInlinee, apart_of_forall_lt (by decide), rfl, by decide, by decide, by decide⟩,
    built_highInlinee, apart_of_forall_lt (by decide), rfl, by decide, rfl, by decide, by decide,
    by decide⟩

/-- Where the other scope has a variable more than the function, there is room for both. -/
theorem apart_of_relocated_inlinee :
    let roomy := tightInlinee.edited (.declareVar 3 "w" .uint64)
    let moved := (roomy.edited (.remap 1 (roomy.scopes.scope 3).nextAddress)).scopes
    (moved.scope 1).slot? "x" = some 2 ∧ (moved.scope 2).slot? "y" = some 1 ∧
    1 ∉ roomy.scopes.chain 3 ∧ moved.Apart 2 ∧ moved.Apart 1 := by
  obtain ⟨hiff, hself⟩ := apart_of_relocated
    (built_tightInlinee.edit (e := .declareVar 3 "w" .uint64) ⟨(by decide : 3 < 4), id⟩)
    (apart_of_forall_lt (by decide)) (f := 1) (m := 3) rfl (by decide)
  exact ⟨by decide, by decide, by decide, (hiff 2 (by decide)).mpr (by decide),
    (hself rfl (by decide) (by decide) (by decide)).2⟩

end CompilationUnit

end ContractLang
