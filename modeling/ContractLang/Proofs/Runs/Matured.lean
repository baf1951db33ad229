import ContractLang.Proofs.Runs.Moments
import ContractLang.Proofs.Scope.Mature

/-!
# Maturing in the course of a run

If the scripts of a parser respect the names that they find declared, the scopes of a unit mature in
the course of a run, whatever is asked of the checker (`ContractLang.Checker.matured`). And a type
that has been known at some moment is known in the end, if it is that of a name which was there when
the run began.

A function that is waiting for its body is pending while that is being obtained, and is found again
then, because the name of it is one that is to be respected.
-/

namespace ContractLang

open Check ScopeTree

variable {σ : Type}

/-- A later state of an observed run: the scopes have matured, and what has been known in between
of the types of names that were there is still known. -/
structure Matured (s t : CheckState (Observed σ)) : Prop where
  scopes : s.code.scopes.Matures t.code.scopes
  moments : ∃ events, t.notes.2 = s.notes.2 ++ events ∧ ∀ e ∈ events, ∀ n,
    s.code.scopes.Mentions n → e.code.scopes.KeepsTypes t.code.scopes n

namespace Matured

variable {s t u : CheckState (Observed σ)}

theorem of_matures {code : CompilationUnit} (h : s.code.scopes.Matures code.scopes) :
    Matured s { s with code } :=
  ⟨h, [], (List.append_nil _).symm, nofun⟩

theorem trans (h : Matured s t) (h' : Matured t u) : Matured s u := by
  obtain ⟨events, hevents, hkept⟩ := h.moments
  obtain ⟨events', hevents', hkept'⟩ := h'.moments
  refine ⟨h.scopes.trans h'.scopes, events ++ events', ?_, fun e he n hn => ?_⟩
  · rw [hevents', hevents, List.append_assoc]
  · rcases List.mem_append.mp he with he | he
    · exact (hkept e he n hn).trans (h'.scopes.keepsTypes n)
    · exact hkept' e he n (h.scopes.mentions hn)

/-- What the checker enters lets the scopes mature. -/
theorem lasting : Lasting (Matured (σ := σ)) where
  refl _ := of_matures (.refl _)
  trans := trans
  noted h := by
    refine of_matures ?_
    cases h with
    | type | targetTypes | field | definition => exact .refl _
    | completed h => exact .refine h
    | @bound scope name definition scopes hname hset =>
      obtain ⟨home, hs, hold⟩ := binding?_eq_some_iff.mp hname
      obtain ⟨u, hu, hrebinds⟩ := exists_rebinds hs hold (.resolved definition)
      cases hu.symm.trans hset
      exact Matures.rebinds (.refl _) hold hrebinds

theorem mark (h : Matured s t) (event : CompilationUnit → Event)
    (hevent : ∀ c, (event c).code = c) : Matured s (t.mark event) := by
  refine h.trans ⟨.refl _, [event t.code], rfl, fun e he n _ => ?_⟩
  rw [List.mem_singleton.mp he, hevent]
  exact .refl _ n

/-- Neither do scripts stop the scopes from maturing, if they respect the names that they find. -/
theorem keptByScripts :
    KeptByScripts (fun s _ e => e.Respects s.code.scopes) (Matured (σ := σ)) where
  mark h := h.mark .step fun _ => rfl
  edit {_ t _ e _ _} he hedit h := by
    have hchanges := CompilationUnit.edited_of_apply hedit ▸ t.code.changes_edited e
    obtain ⟨events, hevents, hkept⟩ := h.moments
    refine ⟨h.scopes.changes he hchanges, events, hevents, fun e he' n hn => ?_⟩
    exact (hkept e he' n hn).trans (.changes hn he hchanges)
  write _ h := ⟨h.scopes, h.moments⟩

end Matured

namespace Checker

variable (checker : Checker σ)
  (hrespects : checker.Restricted fun s _ e => e.Respects s.code.scopes)

include hrespects

/-- **An attempt to obtain a body** lets the scopes mature, if the answers to queries do, and ends
with the function connected, if it succeeds. -/
theorem exists_observedSupply (d : Nat)
    (hobeys : ∀ config {β : Type} (q : Query β),
      Obeys Matured ((checker.observedSupply.context checker.spec d config).answer q))
    (scope : ScopeId) (call : NodeId) (name : String) (s : CheckState (Observed σ))
    (hname : s.code.scopes.binding? scope name = some .unresolved) :
    ∃ home occasion r v,
      exec (checker.observedSupply
        (fun config => (checker.observedSupply.context checker.spec d config).answer) scope call
        name) s = (r, v.mark (.closed occasion r)) ∧
      s.code.scopes.declaring? scope name = some home ∧ Matured s v ∧
      ∀ f, r = .ok f → v.code.scopes.bindingAt home name = some (.resolved f) := by
  obtain ⟨home, t, hfound, hbefore, hfirst, hmaterialize⟩ := Context.exec_materialize
    (checker.parser.map fun parser => parser.traced.source fun config =>
      (checker.observedSupply.context checker.spec d config).answer)
    call (s.mark (.opened ⟨scope, call, name, s.code.scopes.declaring? scope name⟩)) hname
  rw [exec_observedSupply]
  generalize (⟨scope, call, name, s.code.scopes.declaring? scope name⟩ : Occasion) = o
    at hmaterialize ⊢
  have hrun := Matured.keptByScripts.attempt Matured.lasting
    (fun event hevent h => h.mark event hevent) checker hrespects d hobeys scope call name
    { s.mark (.opened o) with code := s.code.withScopes t }
  generalize hinner : exec (Context.attempt _ scope call name) _ = inner at hrun
  have hset : s.code.scopes.Matures t := Matures.rebinds (.refl _) hbefore hfirst
  -- The name leads to the same scope as before, so that the right function is taken up again.
  obtain ⟨u, hlast, hout⟩ := hmaterialize inner hinner
    (hrun.scopes.declaring? (hfirst.declaring? hfound))
    (hrun.scopes.holds home name _ nofun hfirst.bindingAt_self)
  rw [hout]
  have hmatures : s.code.scopes.Matures u := (hset.trans hrun.scopes).rebinds hbefore hlast
  refine ⟨home, o, _, _, rfl, hfound, ⟨hmatures, ?_⟩, fun f hf => ?_⟩
  · obtain ⟨events, hevents, hkept⟩ := hrun.moments
    refine ⟨.opened o s.code :: events, ?_, fun e he n hn => ?_⟩
    · change inner.2.notes.2 = _
      rw [hevents]
      exact List.append_assoc _ _ _
    · rcases List.mem_cons.mp he with rfl | he
      · exact hmatures.keepsTypes n
      · exact (hkept e he n (hset.mentions hn)).trans (.rebinds hlast)
  · have hself := hlast.bindingAt_self
    rw [← Context.bindingAfter_mapError inner.1 (Context.unresolvedBy name)] at hself
    exact hself.trans (congrArg (fun r => some (Context.bindingAfter r)) hf)

theorem matured_corresponds (d : Nat) (config : Config) (start : CheckState (Observed σ)) :
    (checker.observedSupply.context checker.spec d config).Corresponds (Kept Matured start)
      (checker.observedSupply.context checker.spec d config) := by
  refine Supply.kept Matured.lasting _ _ (fun d hobeys scope call name s hname => ?_) d config start
  obtain ⟨home, o, r, v, hexec, -, hmatured, -⟩ :=
    checker.exists_observedSupply hrespects d hobeys scope call name s hname
  rw [hexec]
  exact hmatured.mark _ fun _ => rfl

/-- **The scopes mature** in the course of whatever judgements are passed. -/
theorem matured (d : Nat) (config : Config) {α : Type} (j : Judgement α) :
    Obeys Matured ((checker.observedSupply.context checker.spec d config).judge j) :=
  Matured.lasting.obeys fun start => (checker.matured_corresponds hrespects d config start).judge j

/-- And in the course of the answers to queries. -/
theorem matured_answer (d : Nat) (config : Config) {α : Type} (q : Query α) :
    Obeys Matured ((checker.observedSupply.context checker.spec d config).answer q) :=
  Matured.lasting.obeys fun start => (checker.matured_corresponds hrespects d config start).answer
    (Matured.lasting.admissible start) q

/-- **A type that has been known is known in the end**, whatever is asked, if it is that of a name
that was there in the beginning. -/
theorem keepsTypes_moments {α : Type} (q : Query α) {s : CheckState σ} {n : String}
    (hn : s.code.scopes.Mentions n) : ∀ code ∈ s.code :: checker.moments q s,
      code.scopes.KeepsTypes (checker.ask q s).2.code.scopes n := by
  intro code hcode
  have hmatured : Matured s.watched (checker.watch s.watched ⟨checker.config, q⟩) :=
    checker.matured_answer hrespects _ checker.config q s.watched
  rw [← checker.code_watch]
  rcases List.mem_cons.mp hcode with rfl | hcode
  · exact hmatured.scopes.keepsTypes n
  · obtain ⟨e, he, rfl⟩ := List.mem_map.mp hcode
    obtain ⟨events, hevents, hkept⟩ := hmatured.moments
    rw [hevents] at he
    exact hkept e he n hn

end Checker

end ContractLang
