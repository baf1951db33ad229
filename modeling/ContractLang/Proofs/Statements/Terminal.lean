import ContractLang.Proofs.Runs.Observe
import ContractLang.Proofs.Statements.Flow

/-!
# Types that are entered where determining one has failed

A type is entered in a descriptor that has no known type. There are two reasons why a descriptor has
none, and entering a type does not tell them apart: the type may not have been determined yet, or
determining one may have failed. So the invalid type is not terminal. What can be said of a run is
that it is a flow of types as a whole (`ContractLang.Checker.flow_performAll`), in which every
descriptor is given a type once at most (`ContractLang.CheckState.Flow.at_place`). The invalid
type is terminal in it exactly if none of the entries has found it, and this is so for sure if
nothing that a statement gives a type, and nothing that is called, is invalid in the beginning
(`ContractLang.Checker.terminal_iff`).
-/

namespace ContractLang

open Check

/-- From one tree of scopes to another one, the invalid type is terminal: a descriptor of this type
keeps it, and only descriptors of unknown type are given another one. -/
structure ScopeTree.Terminal (t t' : ScopeTree) : Prop where
  kept : ∀ s n d, (t.scope s).get? n = some d → d.type = .invalid →
    ∃ d', (t'.scope s).get? n = some d' ∧ d'.type = .invalid
  given : ∀ s n d d', (t.scope s).get? n = some d → (t'.scope s).get? n = some d' →
    d'.type ≠ d.type → d.type = .unknown

namespace CheckState

variable {σ : Type} {contexts contexts' : Context σ → Prop} {first middle t : CheckState σ}
  {entries entries' : List TypeEntry} {e : TypeEntry}

namespace Flow

/-! ### One flow after the other -/

theorem mono (h : Flow contexts first entries t) (hcontexts : ∀ ctx, contexts ctx → contexts' ctx) :
    Flow contexts' first entries t := by
  induction h with
  | start => exact .start
  | noted _ hscopes halike ih => exact ih.noted hscopes halike
  | bound _ hb ih => exact ih.bound hb
  | entered _ _ htype hhome hfound hunknown hknown ihstart ih =>
    refine ihstart.entered ih ?_ hhome hfound hunknown hknown
    cases htype with
    | statement hctx hfinds => exact .statement (hcontexts _ hctx) hfinds
    | call hctx hform hfunc hends => exact .call (hcontexts _ hctx) hform hfunc hends

/-- **One flow of types after the other** is a flow of types. -/
theorem append (h : Flow contexts first entries middle) (h' : Flow contexts middle entries' t) :
    Flow contexts first (entries ++ entries') t := by
  induction h' with
  | start => rwa [List.append_nil]
  | noted _ hscopes halike ih => exact ih.noted hscopes halike
  | bound _ hb ih => exact ih.bound hb
  | entered _ _ htype hhome hfound hunknown hknown ihstart ih =>
    rw [← List.append_assoc]
    exact ihstart.entered ih htype hhome hfound hunknown hknown

/-! ### What is entered in a descriptor -/

/-- What is entered is a known type, in a descriptor that had none. -/
theorem isKnown (h : Flow contexts first entries t) (he : e ∈ entries) :
    ¬e.found.type.isKnown ∧ e.type.isKnown := by
  obtain ⟨before, s, -, -, -, -, hunknown, hknown⟩ := h.exists_moment he
  exact ⟨hunknown, hknown⟩

/-- A type is entered where the name means something in the beginning. -/
theorem declaring? (h : Flow contexts first entries t) (he : e ∈ entries) :
    first.code.scopes.declaring? (first.code.node e.giver).scope e.name = some e.home := by
  obtain ⟨before, s, hs, -, hhome, -⟩ := h.exists_moment he
  rw [← hs.writtenAlike.scope]
  exact ((hs.revises.agree _).declaring? _).symm.trans hhome

/-- A known type is not replaced. -/
theorem type_eq (h : Flow contexts first entries t) {s : ScopeId} {n : String} {d d' : Descriptor}
    (hd : (first.code.scopes.scope s).get? n = some d)
    (hd' : (t.code.scopes.scope s).get? n = some d') (hknown : d.type.isKnown) :
    d'.type = d.type := by
  induction h generalizing d' with
  | start =>
    cases hd.symm.trans hd'
    rfl
  | noted _ hscopes _ ih =>
    rw [hscopes] at hd'
    exact ih hd'
  | bound _ hb ih =>
    obtain ⟨old, hold, htype⟩ := ScopeTree.exists_get?_of_setBinding hb hd'
    exact htype.trans (ih hold)
  | entered _ _ _ _ hfound hunknown _ _ ih =>
    rw [get?_enter] at hd'
    split at hd'
    · next hplace =>
      obtain ⟨rfl, rfl⟩ := hplace
      exact absurd (ih hfound ▸ hknown) hunknown
    · exact ih hd'

/-- **A descriptor is given a type once.** What an entry has found is as it was in the beginning,
and what it gives is there in the end. -/
theorem at_place (h : Flow contexts first entries t) (he : e ∈ entries) :
    (∃ d, (first.code.scopes.scope e.home).get? e.name = some d ∧ d.type = e.found.type) ∧
      ∀ d', (t.code.scopes.scope e.home).get? e.name = some d' → d'.type = e.type := by
  induction h with
  | start => cases he
  | noted _ hscopes _ ih =>
    rw [hscopes]
    exact ih he
  | bound _ hb ih =>
    refine (ih he).imp_right fun hlast d' hd' => ?_
    obtain ⟨old, hold, htype⟩ := ScopeTree.exists_get?_of_setBinding hb hd'
    exact htype.trans (hlast old hold)
  | @entered _ entries _ s new _ hflow _ hhome hfound hunknown hknown _ ih =>
    rcases List.mem_append.mp he with he | he
    · refine (ih he).imp_right fun hlast d' hd' => ?_
      rw [get?_enter] at hd'
      split at hd'
      -- The place has been given a type before, so that nothing is entered there again.
      · next hplace =>
        rw [← hplace.1, ← hplace.2] at hfound
        exact absurd (hlast _ hfound ▸ (hflow.isKnown he).2) hunknown
      · exact hlast d' hd'
    · obtain rfl := List.mem_singleton.mp he
      have hdeclares := hflow.revises.declares (ScopeTree.declares_of_get? hfound)
      obtain ⟨d, hd⟩ := Option.isSome_iff_exists.mp hdeclares
      refine ⟨⟨d, hd, ?_⟩, fun d' hd' => ?_⟩
      · by_contra hne
        obtain ⟨e', he', -, -, htype'⟩ := hflow.exists_entry hd hfound (Ne.symm hne)
        exact hunknown (htype' ▸ (hflow.isKnown he').2)
      · rw [get?_enter, if_pos ⟨rfl, rfl⟩, hfound] at hd'
        cases hd'
        rfl

/-- **When the invalid type is terminal**: if no type has been entered in its place. -/
theorem terminal_iff_unknown (h : Flow contexts first entries t) :
    first.code.scopes.Terminal t.code.scopes ↔ ∀ e ∈ entries, e.found.type = .unknown := by
  -- A descriptor that is given another type is as the entry has found it.
  have hgiven : (∀ e ∈ entries, e.found.type = .unknown) → ∀ s n d d',
      (first.code.scopes.scope s).get? n = some d → (t.code.scopes.scope s).get? n = some d' →
      d'.type ≠ d.type → d.type = .unknown := by
    intro hunknown s n d d' hd hd' hne
    obtain ⟨e, he, rfl, rfl, -⟩ := h.exists_entry hd hd' hne
    obtain ⟨⟨old, hold, htype⟩, -⟩ := h.at_place he
    cases hd.symm.trans hold
    rw [htype, hunknown e he]
  refine ⟨fun hterminal e he => ?_, fun hunknown => ⟨fun s n d hd hinvalid => ?_, hgiven hunknown⟩⟩
  · obtain ⟨⟨d, hd, htype⟩, hlast⟩ := h.at_place he
    obtain ⟨hfound, hknown⟩ := h.isKnown he
    cases hold : e.found.type with
    | unknown => rfl
    | invalid =>
      obtain ⟨d', hd', hinvalid⟩ := hterminal.kept _ _ d hd (htype.trans hold)
      rw [← hlast d' hd', hinvalid] at hknown
      cases hknown
    | uint64 | bytes =>
      rw [hold] at hfound
      exact absurd rfl hfound
  · have hdeclares := h.revises.retains.declares (ScopeTree.declares_of_get? hd)
    obtain ⟨d', hd'⟩ := Option.isSome_iff_exists.mp hdeclares
    refine ⟨d', hd', ?_⟩
    by_contra hne
    have hunknown' := hgiven hunknown s n d d' hd hd' (hinvalid ▸ hne)
    cases hinvalid.symm.trans hunknown'

end Flow

end CheckState

namespace Checker

variable {σ : Type} (checker : Checker σ)

/-- The contexts in which the rules of a checker may apply, at whatever depth, if it is made as lenient
as one likes. -/
def MayUse (ctx : Context σ) : Prop :=
  ∃ config, (checker.withConfig config).Uses ctx

/-- **A run of requests is a flow of types**, if there is no parser. -/
theorem flow_performAll (hparser : checker.parser = none) (requests : List Request)
    (s : CheckState σ) : s.Flows checker.MayUse (checker.performAll requests s) := by
  induction requests generalizing s with
  | nil => exact ⟨[], .start⟩
  | cons request requests ih =>
    obtain ⟨first, hfirst⟩ := (checker.withConfig request.config).flows_ask hparser request.query s
    obtain ⟨rest, hrest⟩ := ih (checker.perform s request)
    exact ⟨first ++ rest, (hfirst.mono fun _ hctx => ⟨request.config, hctx⟩).append hrest⟩

/-- **When the invalid type is terminal.** Without a parser, any run of requests is a flow of types.
Known types are kept in it. The invalid type is terminal exactly if all descriptors in which a type
is entered are found to be of unknown type. For this it is enough that no invalid descriptor is what
a statement gives a type to by its name, and none is called, in the beginning. -/
theorem terminal_iff (hparser : checker.parser = none) (requests : List Request)
    (s : CheckState σ) :
    let t := (checker.performAll requests s).code.scopes
    ∃ entries, s.Flow checker.MayUse entries (checker.performAll requests s) ∧
      (∀ scope name d d', (s.code.scopes.scope scope).get? name = some d →
        (t.scope scope).get? name = some d' → d.type.isKnown → d'.type = d.type) ∧
      (s.code.scopes.Terminal t ↔ ∀ e ∈ entries, e.found.type = .unknown) ∧
      ((∀ x name d, s.code.GivesType x name ∨ s.code.form x = .call name →
        s.code.scopes.find? (s.code.node x).scope name = some d → d.type ≠ .invalid) →
        s.code.scopes.Terminal t) := by
  intro t
  obtain ⟨entries, hflow⟩ := checker.flow_performAll hparser requests s
  refine ⟨entries, hflow, fun _ _ _ _ => hflow.type_eq, hflow.terminal_iff_unknown,
    fun hvalid => ?_⟩
  refine hflow.terminal_iff_unknown.mpr fun e he => ?_
  obtain ⟨⟨d, hd, htype⟩, -⟩ := hflow.at_place he
  have hnamed : s.code.GivesType e.giver e.name ∨ s.code.form e.giver = .call e.name :=
    (hflow.gives he).imp_right fun hcall => hcall.1
  have hfound := ScopeTree.find?_eq_some_iff.mpr ⟨e.home, hflow.declaring? he, hd⟩
  have hne := htype ▸ hvalid e.giver e.name d hnamed hfound
  have hunknown := (hflow.isKnown he).1
  cases htype' : e.found.type with
  | unknown => rfl
  | invalid => exact absurd htype' hne
  | uint64 | bytes =>
    rw [htype'] at hunknown
    exact absurd rfl hunknown

/-- In a run of two requests a variable of unknown type is given one, and nothing is invalid. -/
theorem terminal_iff_oneAssignment :
    let checker : Checker Unit := ⟨Standard.spec, .strict, none⟩
    let code := CompilationUnit.oneAssignment ⟨"x", .unknown, .var 0⟩
    let t := (checker.performAll [⟨.strict, .statements 2⟩, ⟨.strict, .typeOf 0⟩] ⟨code, ()⟩).code
    code.scopes.Terminal t.scopes ∧
      (t.scopes.scope 0).get? "x" = some ⟨"x", .uint64, .var 0⟩ := by
  intro checker code t
  obtain ⟨-, -, -, -, hterminal⟩ := checker.terminal_iff rfl
    [⟨.strict, .statements 2⟩, ⟨.strict, .typeOf 0⟩] ⟨code, ()⟩
  refine ⟨hterminal fun x name d _ hd => ?_, rfl⟩
  obtain ⟨home, -, hget⟩ := ScopeTree.find?_eq_some_iff.mp hd
  obtain rfl : home = 0 := Nat.lt_one_iff.mp (ScopeTree.lt_size_of_get? hget)
  obtain ⟨e, he, rfl⟩ := ScopeTree.mem_of_lookup hget
  rw [List.mem_singleton.mp he]
  nofun

/-- **The invalid type is not terminal.** The check of a program whose only statement assigns a
number to a variable of invalid type succeeds, and gives the variable the type of the number. -/
theorem not_terminal :
    let checker : Checker Unit := ⟨Standard.spec, .strict, none⟩
    let code := CompilationUnit.oneAssignment ⟨"x", .invalid, .var 0⟩
    (checker.ask (.statements 2) ⟨code, ()⟩).1 = .ok () ∧
      (code.scopes.scope 0).get? "x" = some ⟨"x", .invalid, .var 0⟩ ∧
      ((checker.performAll [⟨.strict, .statements 2⟩] ⟨code, ()⟩).code.scopes.scope 0).get? "x" =
        some ⟨"x", .uint64, .var 0⟩ ∧
      ¬code.scopes.Terminal
        (checker.performAll [⟨.strict, .statements 2⟩] ⟨code, ()⟩).code.scopes := by
  refine ⟨rfl, rfl, rfl, fun hterminal => ?_⟩
  obtain ⟨d, hd, hinvalid⟩ := hterminal.kept 0 "x" _ rfl rfl
  cases hd
  cases hinvalid

end Checker

end ContractLang
