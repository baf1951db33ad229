import ContractLang.Proofs.Runs.Lifecycle
import ContractLang.Proofs.Scope.Layout

/-!
# Reachable units

A unit is reachable if edits and questions to checkers, in any order and whether they
succeed or fail, lead to it from a unit with a root scope only
(`ContractLang.CompilationUnit.Reachable`). What the scopes of all reachable units have in
common is shown of the initial tree, of every edit, and of the two ways in which a checker
replaces descriptors (`ContractLang.ScopeTree.Sustained`).

So the slots of every scope of a reachable unit are dense, if no edit overwrites a
descriptor (`ContractLang.CompilationUnit.slots_of_reachable`). They are a range of numbers
unless they are counted past the last address, which moving a scope can bring about
(`ContractLang.CompilationUnit.slots_of_overrun`).
-/

namespace ContractLang

/-- A property of trees of scopes that replacing descriptors in the way of the checker keeps
up. -/
structure ScopeTree.Sustained (I : ScopeTree → Prop) : Prop where
  refine : ∀ {t t' : ScopeTree} {id : ScopeId} {name : String} {type : Ty}, I t →
    t.refine id name type = .ok t' → I t'
  setBinding : ∀ {t t' : ScopeTree} {id : ScopeId} {name : String} {b : Binding}, I t →
    t.setBinding id name b = .ok t' → I t'

theorem ScopeTree.sustained_dense : Sustained Dense :=
  ⟨Dense.refine, Dense.setBinding⟩

section

variable {σ : Type} {I : ScopeTree → Prop}

/-- A later state has a property of its scopes if an earlier one has. -/
def HandsOn (I : ScopeTree → Prop) (s t : CheckState σ) : Prop :=
  I s.code.scopes → I t.code.scopes

variable (hI : ScopeTree.Sustained I)

include hI

namespace ScopeTree.Sustained

open Check

theorem lasting : Lasting (HandsOn (σ := σ) I) where
  refl _ := id
  trans h h' hs := h' (h hs)
  noted h hs := by
    cases h with
    | type | targetTypes | field | definition => exact hs
    | completed h => exact hI.refine hs h
    | bound _ h => exact hI.setBinding hs h

theorem setsBinding (scope : ScopeId) (name : String) (b : Binding) :
    Obeys (HandsOn (σ := σ) I) (changeScopes fun scopes => scopes.setBinding scope name b) := by
  intro s hs
  rw [exec_changeScopes]
  cases h : s.code.scopes.setBinding scope name b with
  | ok scopes => exact hI.setBinding hs h
  | error e => exact hs

/-- **What checkers sustain holds after every question**, however it is answered, if the
edits of the parser keep it up as well. -/
theorem ask {allowed : ∀ {β : Type}, Edit β → Prop}
    (hedit : ∀ {t t' : ScopeTree} {β : Type} {e : Edit β}, I t → allowed e → e.Changes t t' → I t')
    {checker : Checker σ} (hparser : checker.Restricted fun _ _ e => allowed e) {α : Type}
    (q : Query α) : Obeys (HandsOn I) (checker.answer q) := by
  have hscript : ∀ d, (∀ config {β : Type} (q : Query β),
      Obeys (HandsOn I) ((checker.supply.context checker.spec d config).answer q)) →
      ∀ scope call name, Obeys (HandsOn I)
        (checker.supply (fun config => (checker.supply.context checker.spec d config).answer)
          scope call name) := by
    intro d hanswer scope call name
    refine Context.obeys_materialize hI.lasting hI.setsBinding ?_
    cases hsource : checker.parser with
    | none => exact hI.lasting.refl
    | some parser =>
      refine Obeys.bind hI.lasting (fun s hs => ?_) fun obtained s => ?_
      · exact Script.invariant (I := fun code => I code.scopes)
          (fun {_ e code _ _} he h hcode => hedit hcode he
            (CompilationUnit.edited_of_apply h ▸ code.changes_edited e))
          (fun config _ q s => hanswer config q s) _ (hparser parser hsource d scope call name s) hs
      · cases obtained <;> exact id
  intro s
  exact hI.lasting.obeys (fun start => (Supply.kept hI.lasting checker.supply checker.spec
    (fun d hanswer scope call name s _ => hscript d hanswer scope call name s)
    (checker.depth s.code) checker.config start).answer (hI.lasting.admissible start) q) s

end ScopeTree.Sustained

end

/-! ### Histories -/

/-- A unit to which edits of some kinds, and questions to checkers whose parsers make no
others, lead from one with a root scope only. -/
inductive CompilationUnit.Reachable (allowed : ∀ {α : Type}, Edit α → Prop) :
    CompilationUnit → Prop
  | initial (name : String) : Reachable @allowed ⟨#[], .initial name⟩
  | edit {code : CompilationUnit} {α : Type} (h : Reachable @allowed code) {e : Edit α}
      (he : allowed e) : Reachable @allowed (code.edited e)
  | ask {σ α : Type} {s : CheckState σ} (h : Reachable @allowed s.code) {checker : Checker σ}
      (hparser : checker.Restricted fun _ _ e => allowed e) (q : Query α) :
      Reachable @allowed (checker.ask q s).2.code

namespace CompilationUnit

variable {code : CompilationUnit}

/-- **What holds at first and is kept up holds of all reachable units.** -/
theorem Reachable.invariant {allowed : ∀ {α : Type}, Edit α → Prop} {I : ScopeTree → Prop}
    (hinitial : ∀ name, I (.initial name)) (hI : ScopeTree.Sustained I)
    (hedit : ∀ {t t' : ScopeTree} {β : Type} {e : Edit β}, I t → allowed e → e.Changes t t' → I t')
    (h : code.Reachable allowed) : I code.scopes := by
  induction h with
  | initial name => exact hinitial name
  | edit _ he ih => exact hedit ih he (changes_edited _ _)
  | @ask σ α s _ checker hparser q ih => exact hI.ask hedit hparser q s ih

/-- All scopes of a unit are dense if no descriptor has been overwritten on the way to it. -/
theorem Reachable.dense (h : code.Reachable fun e => ¬e.Overwrites) : code.scopes.Dense :=
  h.invariant .initial ScopeTree.sustained_dense ScopeTree.Dense.changes

/-- **The slots of a scope are dense and unique**: if no edit overwrites a descriptor, then in
every reachable unit the variables of a scope are in different slots, which are those counted
from its entry on up to the next one, and every descriptor goes by the name that it is found
under. If the count does not pass the last address, then they are the numbers from the entry
up to the next slot. -/
theorem slots_of_reachable (h : code.Reachable fun e => ¬e.Overwrites) (s : ScopeId) :
    let scope := code.scopes.scope s
    (scope.varCount ≤ Scope.addressSpace → ∀ name other a, scope.slot? name = some a →
      scope.slot? other = some a → name = other) ∧
    (∀ a, (∃ name, scope.slot? name = some a) ↔
      ∃ k < scope.varCount, Scope.advance scope.entryAddress k = a) ∧
    scope.nextAddress = Scope.advance scope.entryAddress scope.varCount ∧
    (scope.Fits → ∀ a, (∃ name, scope.slot? name = some a) ↔
      scope.entryAddress ≤ a ∧ a < scope.nextAddress) ∧
    ∀ name d, scope.get? name = some d → d.name = name :=
  ⟨fun hcount _ _ _ => (h.dense s).slot_inj hcount, fun _ => (h.dense s).exists_slot_iff,
    (h.dense s).next, fun hfits _ => (h.dense s).exists_slot_iff_of_fits hfits,
    fun _ _ => (h.dense s).name_eq⟩

/-- A unit whose root scope has been moved between two declarations, with one failed in the
end. -/
def relocated : CompilationUnit :=
  initial
    |>.edited (.declareVar 0 "x" .uint64)
    |>.edited (.declareFunc 0 "f" .unknown)
    |>.edited (.declareVar 0 "y" .bytes)
    |>.edited (.remap 0 10)
    |>.edited (.declareVar 0 "z" .uint64)
    |>.edited (.declareVar 0 "x" .bytes)
    |>.edited (.create 0 (.call "f") [])
    |>.edited (.create 0 .program [0])

theorem reachable_relocated : relocated.Reachable fun e => ¬e.Overwrites :=
  Reachable.initial "global"
    |>.edit (e := .declareVar 0 "x" .uint64) id
    |>.edit (e := .declareFunc 0 "f" .unknown) id
    |>.edit (e := .declareVar 0 "y" .bytes) id
    |>.edit (e := .remap 0 10) id
    |>.edit (e := .declareVar 0 "z" .uint64) id
    |>.edit (e := .declareVar 0 "x" .bytes) id
    |>.edit (e := .create 0 (.call "f") []) id
    |>.edit (e := .create 0 .program [0]) id

/-- When the function has been given a body in addition, the three variables are in the slots
from the new entry on. -/
theorem slots_of_reachable_relocated :
    let code := ((Checker.emptyBodies 1).ask (.statements 1) ⟨relocated, ()⟩).2.code
    code.scopes.bindingAt 0 "f" = some (.resolved 2) ∧
    (code.scopes.scope 0).slot? "x" = some 10 ∧ (code.scopes.scope 0).slot? "y" = some 11 ∧
    (code.scopes.scope 0).slot? "z" = some 12 ∧
    ¬∃ name, (code.scopes.scope 0).slot? name = some 13 := by
  refine ⟨by decide, by decide, by decide, by decide, fun hslot => ?_⟩
  have hreachable := reachable_relocated.ask (s := ⟨relocated, ()⟩)
    (Checker.emptyBodies_restricted 1 (fun _ _ _ => id) fun _ _ => id) (.statements 1)
  have hbounds := ((slots_of_reachable hreachable 0).2.2.2.1 (by decide) 13).mp hslot
  exact absurd hbounds.2 (by decide)

/-- A unit whose only variable has been moved to the last address. -/
def overrun : CompilationUnit :=
  initial
    |>.edited (.declareVar 0 "x" .uint64)
    |>.edited (.remap 0 (Scope.addressSpace - 1))

/-- **Past the last address the slots are no range**: after a variable in the last slot comes
slot 0, so that there is no number from the entry on that is less than the next slot. -/
theorem slots_of_overrun :
    overrun.Reachable (fun e => ¬e.Overwrites) ∧
    (overrun.scopes.scope 0).slot? "x" = some (Scope.addressSpace - 1) ∧
    (overrun.scopes.scope 0).entryAddress = Scope.addressSpace - 1 ∧
    (overrun.scopes.scope 0).nextAddress = 0 ∧
    ¬∀ a, (∃ name, (overrun.scopes.scope 0).slot? name = some a) ↔
      (overrun.scopes.scope 0).entryAddress ≤ a ∧ a < (overrun.scopes.scope 0).nextAddress := by
  have hreachable : overrun.Reachable fun e => ¬e.Overwrites :=
    Reachable.initial "global"
      |>.edit (e := .declareVar 0 "x" .uint64) id
      |>.edit (e := .remap 0 (Scope.addressSpace - 1)) id
  have hslot : (overrun.scopes.scope 0).slot? "x" = some (Scope.addressSpace - 1) := by decide
  have hnext : (overrun.scopes.scope 0).nextAddress = 0 := by decide
  refine ⟨hreachable, hslot, by decide, hnext, fun hrange => ?_⟩
  have hbounds := (hrange _).mp ⟨"x", hslot⟩
  rw [hnext] at hbounds
  exact Nat.not_lt_zero _ hbounds.2

end CompilationUnit

end ContractLang
