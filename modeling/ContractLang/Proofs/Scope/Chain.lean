import ContractLang.Proofs.Scope.Layout
import Mathlib.Data.List.Chain

/-!
# Chains

The chain of a scope is computed with a bound on its length. The bound does not cut anything
off as long as scopes have greater numbers than their parents
(`ContractLang.ScopeTree.Descending`), since then a chain goes from a scope on to the chain of
its parent.

Trees come to be in this way if every edit concerns scopes that exist
(`ContractLang.Edit.Sited`). In the units that such edits lead to
(`ContractLang.CompilationUnit.Built`) all scopes lie in the root
(`ContractLang.ScopeTree.Rooted`).
-/

namespace ContractLang

namespace ScopeTree

variable {t t' : ScopeTree} {id s c p : ScopeId}

/-! ### Descending numbers -/

/-- Scopes have greater numbers than their parents. -/
def Descending (t : ScopeTree) : Prop :=
  ∀ s p, (t.scope s).parent = some p → p < s

theorem ancestry_congr (h : ∀ c, (t'.scope c).parent = (t.scope c).parent) (count : Nat)
    (s : ScopeId) : t'.ancestry count s = t.ancestry count s := by
  induction count generalizing s with
  | zero => rfl
  | succ count ih =>
    unfold ancestry
    rw [h s]
    cases (t.scope s).parent with
    | none => rfl
    | some p => exact congrArg (s :: ·) (ih p)

/-- Chains depend on nothing but parents. -/
theorem chain_congr (h : ∀ c, (t'.scope c).parent = (t.scope c).parent) (s : ScopeId) :
    t'.chain s = t.chain s :=
  ancestry_congr h (s + 1) s

theorem chain_of_bottom (hparent : (t.scope s).parent = none) : t.chain s = [s] := by
  simp [chain, ancestry, hparent]

namespace Descending

variable (h : t.Descending)

include h

/-- A bound past the number of a scope is as good as any other. -/
theorem ancestry_eq_chain {count : Nat} (hcount : id < count) :
    t.ancestry count id = t.chain id := by
  induction id using Nat.strongRecOn generalizing count with
  | ind id ih =>
    obtain ⟨count, rfl⟩ := Nat.exists_eq_add_one_of_ne_zero (Nat.ne_zero_of_lt hcount)
    unfold chain ancestry
    cases hparent : (t.scope id).parent with
    | none => rfl
    | some p =>
      have hp : p < id := h id p hparent
      have hp' : p < count := Nat.lt_of_lt_of_le hp (Nat.le_of_lt_succ hcount)
      exact congrArg _ ((ih p hp hp').trans (ih p hp hp).symm)

/-- **A chain goes on** with that of the parent. -/
theorem chain_of_parent (hparent : (t.scope s).parent = some p) :
    t.chain s = s :: t.chain p := by
  rw [← h.ancestry_eq_chain (h s p hparent)]
  simp only [chain, ancestry, hparent]

/-- What is shown of a scope from what holds of its parent holds of all scopes. -/
theorem parentInduction {P : ScopeId → Prop} (hbottom : ∀ s, (t.scope s).parent = none → P s)
    (hparent : ∀ s p, (t.scope s).parent = some p → P p → P s) (s : ScopeId) : P s := by
  induction s using Nat.strongRecOn with
  | ind s ih =>
    cases hs : (t.scope s).parent with
    | none => exact hbottom s hs
    | some p => exact hparent s p hs (ih p (h s p hs))

omit h in
theorem head?_chain (t : ScopeTree) (s : ScopeId) : (t.chain s).head? = some s :=
  rfl

theorem le_of_mem_chain (hc : c ∈ t.chain s) : c ≤ s := by
  induction s using h.parentInduction with
  | hbottom s hs =>
    rw [chain_of_bottom hs, List.mem_singleton] at hc
    exact Nat.le_of_eq hc
  | hparent s p hs ih =>
    rw [h.chain_of_parent hs, List.mem_cons] at hc
    rcases hc with rfl | hc
    · exact Nat.le_refl _
    · exact Nat.le_trans (ih hc) (Nat.le_of_lt (h s p hs))

/-- **The numbers on a chain decrease.** -/
theorem pairwise_chain (s : ScopeId) : (t.chain s).Pairwise (· > ·) := by
  induction s using h.parentInduction with
  | hbottom s hs =>
    rw [chain_of_bottom hs]
    exact List.pairwise_singleton _ s
  | hparent s p hs ih =>
    rw [h.chain_of_parent hs]
    exact List.pairwise_cons.mpr
      ⟨fun c hc => Nat.lt_of_le_of_lt (h.le_of_mem_chain hc) (h s p hs), ih⟩

theorem nodup_chain (s : ScopeId) : (t.chain s).Nodup :=
  (h.pairwise_chain s).imp Nat.ne_of_gt

/-- A chain goes from scope to parent. -/
theorem isChain_chain (s : ScopeId) :
    (t.chain s).IsChain fun c p => (t.scope c).parent = some p := by
  induction s using h.parentInduction with
  | hbottom s hs =>
    rw [chain_of_bottom hs]
    exact List.isChain_singleton s
  | hparent s p hs ih =>
    rw [h.chain_of_parent hs]
    refine List.isChain_cons.mpr ⟨fun q hq => ?_, ih⟩
    rw [head?_chain, Option.mem_some] at hq
    exact hq ▸ hs

end Descending

/-! ### Trees with a root -/

/-- All scopes but the root lie in others with smaller numbers. -/
structure Rooted (t : ScopeTree) : Prop where
  root_lt : root < t.scopes.size
  parent_root : (t.scope root).parent = none
  exists_parent : ∀ {s}, s < t.scopes.size → s ≠ root → ∃ p < s, (t.scope s).parent = some p

namespace Rooted

theorem initial (name : String) : (ScopeTree.initial name).Rooted where
  root_lt := Nat.zero_lt_one
  parent_root := rfl
  exists_parent hs hne := absurd (Nat.lt_one_iff.mp hs) hne

section

variable (h : t.Rooted)

include h

theorem descending : t.Descending := by
  intro s p hparent
  rcases Nat.eq_zero_or_pos s with rfl | hs
  · cases h.parent_root.symm.trans hparent
  · obtain ⟨q, hq, hparent'⟩ := h.exists_parent (lt_size_of_parent hparent) (Nat.ne_of_gt hs)
    cases hparent'.symm.trans hparent
    exact hq

/-- **A chain ends at the root.** -/
theorem getLast?_chain (hs : s < t.scopes.size) : (t.chain s).getLast? = some root := by
  induction s using h.descending.parentInduction with
  | hbottom s hbottom =>
    rw [chain_of_bottom hbottom, List.getLast?_singleton]
    by_contra hne
    obtain ⟨p, -, hparent⟩ := h.exists_parent hs fun heq => hne (congrArg some heq)
    cases hbottom.symm.trans hparent
  | hparent s p hparent ih =>
    have hp := ih (Nat.lt_trans (h.descending s p hparent) hs)
    rw [h.descending.chain_of_parent hparent, List.getLast?_cons, hp, Option.getD_some]

theorem root_mem_chain (hs : s < t.scopes.size) : root ∈ t.chain s :=
  List.mem_of_getLast? (h.getLast?_chain hs)

theorem congr (hsize : t'.scopes.size = t.scopes.size)
    (hparent : ∀ s, (t'.scope s).parent = (t.scope s).parent) : t'.Rooted where
  root_lt := hsize ▸ h.root_lt
  parent_root := (hparent root).trans h.parent_root
  exists_parent {s} hs hne := by
    rw [hparent]
    exact h.exists_parent (hsize ▸ hs) hne

theorem openScope {name : String} (hp : p < t.scopes.size) : (t.openScope name p).1.Rooted := by
  have hsize : (t.openScope name p).1.scopes.size = t.scopes.size + 1 := Array.size_push ..
  refine ⟨hsize ▸ Nat.lt_succ_of_lt h.root_lt, ?_, fun {s} hs hne => ?_⟩
  · rw [scope_openScope, if_neg (Nat.ne_of_lt h.root_lt)]
    exact h.parent_root
  · rw [scope_openScope]
    split
    · next heq => exact ⟨p, heq ▸ hp, rfl⟩
    · next hold =>
      rw [hsize] at hs
      exact h.exists_parent (Nat.lt_of_le_of_ne (Nat.le_of_lt_succ hs) hold) hne

end

end Rooted

end ScopeTree

/-! ### Edits of existing scopes -/

/-- An edit concerns scopes that exist. -/
def Edit.Sited {α : Type} (t : ScopeTree) : Edit α → Prop
  | .openScope _ parent => parent < t.scopes.size
  | .declareVar scope _ _ => scope < t.scopes.size
  | .declareConst scope _ _ _ => scope < t.scopes.size
  | .declareFunc scope _ _ => scope < t.scopes.size
  | .update scope _ _ => scope < t.scopes.size
  | .remap scope _ => scope < t.scopes.size
  | _ => True

/-- An edit lays out scopes that exist, and overwrites no descriptor. -/
def Edit.LaysOut {α : Type} (t : ScopeTree) (e : Edit α) : Prop :=
  e.Sited t ∧ ¬e.Overwrites

/-- Edits of existing scopes keep all scopes in the root. -/
theorem ScopeTree.Rooted.changes {t t' : ScopeTree} {α : Type} {e : Edit α} (h : t.Rooted)
    (he : e.Sited t) (hchanges : e.Changes t t') : t'.Rooted := by
  cases hchanges with
  | unchanged | intern => exact h.congr rfl fun _ => rfl
  | openScope => exact h.openScope he
  | declareConst =>
    exact h.congr size_modifyScope
      fun _ => parent_modifyScope (t := { t with pool := _ }) fun _ => rfl
  | declareVar | declareFunc | update | remap =>
    exact h.congr size_modifyScope fun _ => parent_modifyScope fun _ => rfl

namespace CompilationUnit

/-- A unit to which edits lead from one with a root scope only, each of which is allowed in the
tree of scopes that it is made in. -/
inductive Built (allowed : ∀ {α : Type}, ScopeTree → Edit α → Prop) : CompilationUnit → Prop
  | initial (name : String) : Built @allowed ⟨#[], .initial name⟩
  | edit {code : CompilationUnit} {α : Type} (h : Built @allowed code) {e : Edit α}
      (he : allowed code.scopes e) : Built @allowed (code.edited e)

/-- **What holds at first and is kept up by edits holds of all units that they build.** -/
theorem Built.invariant {allowed : ∀ {α : Type}, ScopeTree → Edit α → Prop} {I : ScopeTree → Prop}
    (hinitial : ∀ name, I (.initial name))
    (hedit : ∀ {t t' : ScopeTree} {α : Type} {e : Edit α}, I t → allowed t e →
      e.Changes t t' → I t')
    {code : CompilationUnit} (h : code.Built allowed) : I code.scopes := by
  induction h with
  | initial name => exact hinitial name
  | edit _ he ih => exact hedit ih he (changes_edited _ _)

theorem Built.rooted {code : CompilationUnit} (h : code.Built Edit.Sited) : code.scopes.Rooted :=
  h.invariant .initial .changes

end CompilationUnit

end ContractLang
