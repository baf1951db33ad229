import ContractLang.Proofs.Runs.Lifecycle
import ContractLang.Proofs.Scope.Retain
import Mathlib.Data.List.Chain

/-!
# Moment by moment

A run consists of edits and of questions to checkers, which may have a parser that makes edits
and puts questions on its own. It is described by the units that it goes through
(`ContractLang.CompilationUnit.Run`), those inside the scripts of parsers among them, as they are
observed (`ContractLang.Checker.moments`).

What is said of neighbouring moments (`ContractLang.CompilationUnit.Follows`) is that the scopes
retain what they declare, and that a name is new to a scope only if the later unit is the earlier
one after a declaration of that name. Between the events of a script the checker changes
descriptors at most, so it is enough to keep track of the last moment
(`ContractLang.Recorded`). That declarations are permanent
(`ContractLang.CompilationUnit.Run.permanent`) follows for any two moments of a run.
-/

namespace ContractLang

/-! ### Neighbouring moments -/

/-- A unit comes next after another one: what that declares is retained, and a name is new to a
scope only by a declaration of it, which leads from the one unit to the other. -/
structure CompilationUnit.Follows (code code' : CompilationUnit) : Prop where
  retains : code.scopes.Retains code'.scopes
  added : ∀ s n, (code'.scopes.scope s).declares n → (code.scopes.scope s).declares n ∨
    ∃ (α : Type) (e : Edit α) (value : α), e.Declares s n ∧ code.apply e = .ok (value, code')

namespace CompilationUnit.Follows

variable {code code' : CompilationUnit}

theorem of_revises (h : code.scopes.Revises code'.scopes) : code.Follows code' :=
  ⟨h.retains, fun _ _ hn => .inl (h.declares hn)⟩

theorem of_apply {α : Type} {e : Edit α} {value : α} (h : code.apply e = .ok (value, code')) :
    code.Follows code' := by
  have hchanges : e.Changes code.scopes code'.scopes := edited_of_apply h ▸ code.changes_edited e
  obtain ⟨hretains, hadded⟩ := hchanges.retains
  exact ⟨hretains, fun s n hn => (hadded s n hn).imp_right fun he => ⟨α, e, value, he, h⟩⟩

theorem edited {α : Type} (e : Edit α) : code.Follows (code.edited e) := by
  cases h : code.apply e with
  | ok r => exact edited_of_apply h ▸ of_apply h
  | error error =>
    have hsame : code.edited e = code := by
      unfold CompilationUnit.edited
      rw [h]
    exact hsame.symm ▸ of_revises (.refl _)

end CompilationUnit.Follows

open CompilationUnit (Follows)

section

variable {σ : Type}

/-! ### The record of a run -/

/-- The moments of a run that have been observed, after those in `past`. -/
def CheckState.moments (past : List CompilationUnit) (s : CheckState (Observed σ)) :
    List CompilationUnit :=
  past ++ s.notes.2.map Event.code

/-- The moments of a run so far follow one another, and since the last of them the checker has
changed descriptors at most. -/
structure Recorded (past : List CompilationUnit) (s : CheckState (Observed σ)) : Prop where
  chain : (s.moments past).IsChain Follows
  last : ∃ code ∈ (s.moments past).getLast?, code.scopes.Revises s.code.scopes

/-- The moments of a run so far follow one another, and the last of them is now. -/
structure UpToDate (past : List CompilationUnit) (s : CheckState (Observed σ)) : Prop where
  chain : (s.moments past).IsChain Follows
  last : s.code ∈ (s.moments past).getLast?

/-- What is observed later is on record if what has been observed before is. -/
def GoesOn (s t : CheckState (Observed σ)) : Prop :=
  ∀ past, Recorded past s → Recorded past t

section Recorded

open Check

variable {past : List CompilationUnit} {s t : CheckState (Observed σ)}
  {event : CompilationUnit → Event}

theorem UpToDate.recorded (h : UpToDate past s) : Recorded past s :=
  ⟨h.chain, s.code, h.last, .refl _⟩

theorem moments_mark (hevent : ∀ c, (event c).code = c) :
    (s.mark event).moments past = s.moments past ++ [s.code] := by
  simp [CheckState.moments, CheckState.mark, hevent]

/-- One more moment goes on record if it follows the last one. -/
theorem UpToDate.of_follows (hchain : (s.moments past).IsChain Follows)
    (hlast : ∃ code ∈ (s.moments past).getLast?, code.Follows s.code)
    (hevent : ∀ c, (event c).code = c) : UpToDate past (s.mark event) := by
  obtain ⟨code, hcode, hfollows⟩ := hlast
  refine ⟨?_, ?_⟩
  · rw [moments_mark hevent, List.isChain_append]
    refine ⟨hchain, .singleton _, fun c hc c' hc' => ?_⟩
    cases hc'
    obtain rfl := Option.mem_unique hcode hc
    exact hfollows
  · rw [moments_mark hevent, List.getLast?_append_of_ne_nil _ (by simp)]
    rfl

theorem Recorded.mark (h : Recorded past s) (hevent : ∀ c, (event c).code = c) :
    UpToDate past (s.mark event) := by
  obtain ⟨code, hcode, hrevises⟩ := h.last
  exact .of_follows h.chain ⟨code, hcode, .of_revises hrevises⟩ hevent

/-- **What an edit makes of a unit** goes on record, if the unit has. -/
theorem UpToDate.apply (h : UpToDate past s) {α : Type} {e : Edit α} {value : α}
    {code : CompilationUnit} (hedit : s.code.apply e = .ok (value, code)) :
    UpToDate past (({ s with code } : CheckState (Observed σ)).mark .step) :=
  .of_follows h.chain ⟨s.code, h.last, .of_apply hedit⟩ fun _ => rfl

theorem Recorded.revises (h : Recorded past s) {code : CompilationUnit}
    (hcode : s.code.scopes.Revises code.scopes) : Recorded past { s with code } := by
  obtain ⟨last, hlast, hrevises⟩ := h.last
  exact ⟨h.chain, last, hlast, hrevises.trans hcode⟩

/-- The entries of the checker need no record. -/
theorem GoesOn.lasting : Lasting (GoesOn (σ := σ)) where
  refl _ _ := id
  trans h h' past hs := h' past (h past hs)
  noted h past hs := by
    cases h with
    | type | targetTypes | field | definition => exact hs.revises (.refl _)
    | completed h => exact hs.revises (.refine h)
    | bound _ h => exact hs.revises (.setBinding h)

theorem goesOn_setBinding (scope : ScopeId) (name : String) (b : Binding) :
    Obeys (GoesOn (σ := σ)) (changeScopes fun scopes => scopes.setBinding scope name b) := by
  intro s past hs
  rw [exec_changeScopes]
  cases h : s.code.scopes.setBinding scope name b with
  | ok scopes => exact hs.revises (.setBinding h)
  | error e => exact hs

variable {answer : Config → {β : Type} → Query β → Check (Observed σ) β}

/-- **The moments of a script** are on record if those in the answers to its questions are. -/
theorem recorded_traced {α : Type}
    (hanswer : ∀ config {β : Type} (q : Query β), Obeys GoesOn (answer config q))
    (script : Script σ α) (h : UpToDate past s) :
    Recorded past (exec (script.traced.run answer) s).2 := by
  induction script generalizing s with
  | done value => exact h.recorded
  | edit e next ih =>
    rw [Script.exec_run_traced_edit]
    cases hedit : s.code.apply e with
    | ok r => exact ih _ (h.apply hedit)
    | error error => exact ih _ (h.recorded.mark fun _ => rfl)
  | query config q next ih =>
    have hafter := hanswer config q s past h.recorded
    rw [Script.exec_run_traced_query]
    rcases hasked : exec (answer config q) s with ⟨(error | _) | value, t⟩ <;>
      rw [hasked] at hafter
    · exact ih _ (hafter.mark fun _ => rfl)
    · exact hafter
    · exact ih _ (hafter.mark fun _ => rfl)
  | read next ih =>
    rw [Script.exec_run_traced_read]
    exact ih s.plain h
  | write notes next ih =>
    rw [Script.exec_run_traced_write]
    exact ih ⟨h.chain, h.last⟩

end Recorded

/-! ### The questions of a run -/

namespace Checker

open Check

variable (checker : Checker σ)

theorem goesOn_attempt (answer : Config → {β : Type} → Query β → Check (Observed σ) β)
    (hanswer : ∀ config {β : Type} (q : Query β), Obeys GoesOn (answer config q))
    (scope : ScopeId) (call : NodeId) (name : String) :
    Obeys GoesOn (Context.attempt
      (checker.parser.map fun parser => parser.traced.source answer) scope call name) := by
  cases checker.parser with
  | none => exact GoesOn.lasting.refl
  | some parser =>
    intro s past hs
    change Recorded past (exec (parser.traced.source answer scope call name) s).2
    rw [parser.exec_source_traced]
    have hinvoked : UpToDate past (s.mark (.invoked scope call name)) := hs.mark fun _ => rfl
    have hscript := recorded_traced hanswer (parser.parse scope call name) hinvoked
    rcases hran : exec ((parser.parse scope call name).traced.run answer)
      (s.mark (.invoked scope call name)) with ⟨halt | result, t⟩ <;> rw [hran] at hscript
    · exact hscript
    · exact (hscript.mark fun _ => rfl).recorded

/-- Obtaining a body leaves nothing off the record. -/
theorem goesOn_observedSupply (answer : Config → {β : Type} → Query β → Check (Observed σ) β)
    (hanswer : ∀ config {β : Type} (q : Query β), Obeys GoesOn (answer config q))
    (scope : ScopeId) (call : NodeId) (name : String) :
    Obeys GoesOn (checker.observedSupply answer scope call name) := by
  intro s past hs
  rw [exec_observedSupply]
  have hopened : Recorded past (s.mark
      (.opened ⟨scope, call, name, s.code.scopes.declaring? scope name⟩)) :=
    (hs.mark fun _ => rfl).recorded
  have hbody := Context.obeys_materialize GoesOn.lasting goesOn_setBinding
    (checker.goesOn_attempt answer hanswer scope call name) _ past hopened
  exact (hbody.mark fun _ => rfl).recorded

/-- Observed questions leave nothing off the record. -/
theorem goesOn_watch (request : Request) (s : CheckState (Observed σ)) :
    GoesOn s (checker.watch s request) :=
  GoesOn.lasting.obeys
    (fun start => (Supply.kept GoesOn.lasting _ _
      (fun d hanswer scope call name s _ => checker.goesOn_observedSupply
        (fun config => (checker.observedSupply.context checker.spec d config).answer) hanswer scope
        call name s)
      (checker.depth s.code) request.config start).answer (GoesOn.lasting.admissible start)
      request.query) s

/-- The units that a checker goes through when it is asked something: at the beginning and the
end of every attempt to obtain a body, when the parser is asked for it and returns, and after every
step of the script in between. -/
def moments {α : Type} (q : Query α) (s : CheckState σ) : List CompilationUnit :=
  (checker.watch s.watched ⟨checker.config, q⟩).notes.2.map Event.code

/-- What is asked last leaves the unit that an observer sees in the end. -/
theorem code_watch {α : Type} (q : Query α) (s : CheckState σ) :
    (checker.watch s.watched ⟨checker.config, q⟩).code = (checker.ask q s).2.code :=
  congrArg CheckState.code (checker.related_watch s.watched checker.config q).state

end Checker

end

/-! ### Runs -/

namespace CompilationUnit

/-- A run of edits and of questions to checkers, from a unit to another one, with the units that
it goes through before it comes to the last. -/
inductive Run (first : CompilationUnit) : List CompilationUnit → CompilationUnit → Prop
  /-- Nothing has happened. -/
  | start : Run first [] first
  /-- An edit is carried out, or fails. -/
  | edit {past : List CompilationUnit} {code : CompilationUnit} {α : Type}
    (h : Run first past code) (e : Edit α) : Run first (past ++ [code]) (code.edited e)
  /-- A checker is asked something. -/
  | ask {past : List CompilationUnit} {σ α : Type} {s : CheckState σ} (h : Run first past s.code)
    (checker : Checker σ) (q : Query α) :
    Run first (past ++ s.code :: checker.moments q s) (checker.ask q s).2.code

namespace Run

variable {first code : CompilationUnit} {past : List CompilationUnit}

/-- **The moments of a run follow one another.** -/
theorem isChain (h : Run first past code) : (past ++ [code]).IsChain Follows := by
  induction h with
  | start => exact .singleton _
  | @edit past code α _ e ih =>
    rw [List.isChain_append]
    refine ⟨ih, .singleton _, fun c hc c' hc' => ?_⟩
    cases hc'
    rw [List.getLast?_append_of_ne_nil _ (by simp)] at hc
    cases hc
    exact .edited e
  | @ask past σ α s _ checker q ih =>
    have hbefore : Recorded (past ++ [s.code]) s.watched := by
      have hmoments : s.watched.moments (past ++ [s.code]) = past ++ [s.code] :=
        List.append_nil _
      refine ⟨by rwa [hmoments], s.code, ?_, .refl _⟩
      rw [hmoments, List.getLast?_append_of_ne_nil _ (by simp)]
      rfl
    obtain ⟨hchain, last, hlast, hrevises⟩ :=
      checker.goesOn_watch ⟨checker.config, q⟩ s.watched _ hbefore
    have hmoments : (checker.watch s.watched ⟨checker.config, q⟩).moments (past ++ [s.code]) =
        past ++ s.code :: checker.moments q s :=
      List.append_assoc _ _ _
    rw [hmoments] at hchain hlast
    rw [checker.code_watch] at hrevises
    rw [List.isChain_append]
    refine ⟨hchain, .singleton _, fun c hc c' hc' => ?_⟩
    cases hc'
    obtain rfl := Option.mem_unique hlast hc
    exact .of_revises hrevises

/-- Any later moment of a run retains what an earlier one declares. -/
theorem retains (h : Run first past code) {i j : Nat} {c c' : CompilationUnit} (hij : i ≤ j)
    (hi : (past ++ [code])[i]? = some c) (hj : (past ++ [code])[j]? = some c') :
    c.scopes.Retains c'.scopes := by
  have : IsTrans CompilationUnit fun c c' => c.scopes.Retains c'.scopes :=
    ⟨fun _ _ _ h h' => h.trans h'⟩
  have hpairs := (h.isChain.imp fun _ _ hfollows => hfollows.retains).pairwise
  rcases Nat.eq_or_lt_of_le hij with rfl | hlt
  · cases hi.symm.trans hj
    exact .refl _
  · obtain ⟨hi', rfl⟩ := List.getElem?_eq_some_iff.mp hi
    obtain ⟨hj', rfl⟩ := List.getElem?_eq_some_iff.mp hj
    exact List.pairwise_iff_getElem.mp hpairs i j hi' hj' hlt

end Run

end CompilationUnit

end ContractLang
