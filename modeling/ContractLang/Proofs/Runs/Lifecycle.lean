import ContractLang.Proofs.Runs.Observe
import ContractLang.Proofs.Scope.Evolve

/-!
# The life of a lazy binding

A function that waits for its body is unresolved; while the body is being obtained on
behalf of a call it is pending; afterwards it is resolved, and stays so, or unresolved
again. Bodies are obtained by scripts that may put queries to the checker, so that
attempts nest, and functions can also be resolved by checking a definition.

What is shown is that the events of a run are orderly (`ContractLang.Orderly`): every
attempt begins with the function unresolved, the parser is asked for it at most once, and
in between the function is pending and no other attempt is made for it. In the end it is
connected with the definition that the parser has returned, and if there is none it is
unresolved (`ContractLang.Attempt`). The bindings of the course of a run are related step by
step (`ContractLang.Course`), and so a function that is resolved once is so for ever
(`ContractLang.Checker.lifecycle`).

This depends on what the scripts do: they may declare names only in scopes that have
been opened since they were started (`ContractLang.Checker.Confined`), lest an attempt
end for another function than it began for.
-/

namespace ContractLang

open ScopeTree

/-! ### Orderly events -/

/-- What is observed of an attempt to obtain the body of a function, between its beginning and its
end, and what it comes to: the answer on behalf of the call, and the binding of the function. The
events while the script of the parser is run are `inner`. -/
inductive Attempt (occasion : Occasion) :
    (inner between : List Event) → Except Halt NodeId → Binding → Prop
  /-- There is no parser. -/
  | parserless : Attempt occasion [] []
    (.error (.fault (.unplaced
      (.functionNotResolved occasion.name "no function parser configured")))) .unresolved
  /-- The script of the parser comes to no end. -/
  | endless {inner : List Event} {first : CompilationUnit} :
    Attempt occasion inner
      (.invoked occasion.scope occasion.call occasion.name first :: inner)
      (.error .outOfDepth) .unresolved
  /-- The parser returns an error. -/
  | failed {inner : List Event} {first last : CompilationUnit} {error : Error} :
    Attempt occasion inner
      (.invoked occasion.scope occasion.call occasion.name first ::
        (inner ++ [.returned (.error error) last]))
      (.error (Context.unresolvedBy occasion.name (.fault error))) .unresolved
  /-- The parser returns a definition. -/
  | parsed {inner : List Event} {first last : CompilationUnit} {definition : NodeId} :
    Attempt occasion inner
      (.invoked occasion.scope occasion.call occasion.name first ::
        (inner ++ [.returned (.ok definition) last]))
      (.ok definition) (.resolved definition)

/-- A list of events in which attempts are nested properly, and each of them begins with its
function unresolved, keeps it pending, makes no other attempt for it, and ends with the
binding that belongs to what the parser has returned. -/
inductive Orderly : List Event → Prop
  | nil : Orderly []
  | step {code : CompilationUnit} {events : List Event} (h : Orderly events) :
      Orderly (.step code :: events)
  | attempt {occasion : Occasion} {home : ScopeId} {before after : CompilationUnit}
      {inner between rest : List Event} {outcome : Except Halt NodeId} {binding : Binding}
      (hhome : occasion.home = some home)
      (hfound : before.scopes.declaring? occasion.scope occasion.name = some home)
      (hbefore : before.scopes.bindingAt home occasion.name = some .unresolved)
      (hbetween : Attempt occasion inner between outcome binding)
      (hpending : ∀ e ∈ between,
        e.code.scopes.bindingAt home occasion.name = some (.pending occasion.call))
      (honce : ∀ other code, .opened other code ∈ between →
        ¬(other.home = some home ∧ other.name = occasion.name))
      (hafter : after.scopes.bindingAt home occasion.name = some binding)
      (hinner : Orderly inner) (hrest : Orderly rest) :
      Orderly (.opened occasion before :: (between ++ .closed occasion outcome after :: rest))

/-- An event is the beginning or the end of an attempt. -/
def Event.Delimits : Event → Prop
  | .opened .. | .closed .. => True
  | _ => False

/-- An event is the end of a successful attempt for a function. -/
def Event.Defines (home : ScopeId) (name : String) : Event → Prop
  | .closed occasion (.ok _) _ => occasion.home = some home ∧ occasion.name = name
  | _ => False

theorem Event.Defines.delimits {home : ScopeId} {name : String} {e : Event}
    (h : e.Defines home name) : e.Delimits := by
  cases e with
  | opened | closed => trivial
  | _ => exact h

namespace Attempt

variable {occasion : Occasion} {inner between : List Event} {outcome : Except Halt NodeId}
  {binding : Binding} {e : Event}

/-- Attempts begin and end while the script is run only. -/
theorem mem_inner (h : Attempt occasion inner between outcome binding) (he : e ∈ between)
    (hdelimits : e.Delimits) : e ∈ inner := by
  cases h with
  | parserless => exact he
  | endless =>
    rcases List.mem_cons.mp he with rfl | he
    · exact hdelimits.elim
    · exact he
  | failed | parsed =>
    rcases List.mem_cons.mp he with rfl | he
    · exact hdelimits.elim
    · rcases List.mem_append.mp he with he | he
      · exact he
      · rw [List.mem_singleton.mp he] at hdelimits
        exact hdelimits.elim

theorem inner_sublist (h : Attempt occasion inner between outcome binding) :
    inner.Sublist between := by
  cases h with
  | parserless => exact .refl _
  | endless => exact List.sublist_cons_self _ _
  | failed | parsed => exact (List.sublist_append_left _ _).cons _

/-- What is to hold of any two beginnings or ends holds of an attempt if it does while the script is
run. -/
theorem pairwise {R : Event → Event → Prop} (h : Attempt occasion inner between outcome binding)
    (hinner : inner.Pairwise R) (hR : ∀ e e', ¬(e.Delimits ∧ e'.Delimits) → R e e') :
    between.Pairwise R := by
  cases h with
  | parserless => exact hinner
  | endless => exact List.pairwise_cons.mpr ⟨fun e' _ => hR _ e' fun h => h.1, hinner⟩
  | failed | parsed =>
    refine List.pairwise_cons.mpr ⟨fun e' _ => hR _ e' fun h => h.1,
      List.pairwise_append.mpr ⟨hinner, List.pairwise_singleton _ _, fun e _ e' he' => ?_⟩⟩
    rw [List.mem_singleton.mp he']
    exact hR e _ fun h => h.2

theorem binding_eq (h : Attempt occasion inner between outcome binding) :
    binding = .unresolved ∨ ∃ d, binding = .resolved d := by
  cases h with
  | parsed => exact .inr ⟨_, rfl⟩
  | _ => exact .inl rfl

end Attempt

namespace Orderly

variable {events events' : List Event} {e : Event} {home : ScopeId} {name : String}

theorem append (h : Orderly events) (h' : Orderly events') : Orderly (events ++ events') := by
  induction h with
  | nil => exact h'
  | step _ ih => exact .step ih
  | attempt hhome hfound hbefore hbetween hpending honce hafter hinner _ _ ih =>
    rw [List.cons_append, List.append_assoc, List.cons_append]
    exact .attempt hhome hfound hbefore hbetween hpending honce hafter hinner ih

/-- Attempts begin with the function unresolved. -/
theorem bindingAt_of_opened (h : Orderly events) {occasion : Occasion} {code : CompilationUnit}
    (hmem : .opened occasion code ∈ events) : ∃ home, occasion.home = some home ∧
      code.scopes.bindingAt home occasion.name = some .unresolved := by
  induction h with
  | nil => cases hmem
  | step _ ih =>
    rcases List.mem_cons.mp hmem with heq | hmem
    · cases heq
    · exact ih hmem
  | attempt hhome _ hbefore hbetween _ _ _ _ _ ihinner ihrest =>
    rcases List.mem_cons.mp hmem with heq | hmem
    · cases heq
      exact ⟨_, hhome, hbefore⟩
    · rcases List.mem_append.mp hmem with hmem | hmem
      · exact ihinner (hbetween.mem_inner hmem trivial)
      · rcases List.mem_cons.mp hmem with heq | hmem
        · cases heq
        · exact ihrest hmem

/-- A successful attempt ends with the function resolved, and began when it was not. -/
theorem bindingAt_of_defines (h : Orderly events) (hmem : e ∈ events)
    (hdefines : e.Defines home name) :
    (∃ d, e.code.scopes.bindingAt home name = some (.resolved d)) ∧
      ∃ o ∈ events, o.code.scopes.bindingAt home name = some .unresolved := by
  induction h with
  | nil => cases hmem
  | step _ ih =>
    rcases List.mem_cons.mp hmem with rfl | hmem
    · exact hdefines.elim
    · obtain ⟨hd, o, ho, hbefore⟩ := ih hmem
      exact ⟨hd, o, List.mem_cons_of_mem _ ho, hbefore⟩
  | attempt hhome _ hbefore hbetween _ _ hafter _ _ ihinner ihrest =>
    rcases List.mem_cons.mp hmem with rfl | hmem
    · exact hdefines.elim
    · rcases List.mem_append.mp hmem with hmem | hmem
      · obtain ⟨hd, o, ho, hopen⟩ := ihinner (hbetween.mem_inner hmem hdefines.delimits)
        refine ⟨hd, o, List.mem_cons_of_mem _ (List.mem_append_left _ ?_), hopen⟩
        exact hbetween.inner_sublist.subset ho
      · rcases List.mem_cons.mp hmem with rfl | hmem
        · cases hbetween with
          | parsed =>
            obtain ⟨hhome', rfl⟩ := hdefines
            cases hhome.symm.trans hhome'
            exact ⟨⟨_, hafter⟩, _, List.mem_cons_self, hbefore⟩
          | _ => exact hdefines.elim
        · obtain ⟨hd, o, ho, hopen⟩ := ihrest hmem
          refine ⟨hd, o, List.mem_cons_of_mem _ (List.mem_append_right _ ?_), hopen⟩
          exact List.mem_cons_of_mem _ ho

/-- **No function is obtained twice** in orderly events between which resolved functions keep
their definitions. -/
theorem pairwise_defines (h : Orderly events)
    (hpairs : events.Pairwise fun e e' => e.code.scopes.Persists e'.code.scopes)
    (home : ScopeId) (name : String) :
    events.Pairwise fun e e' => ¬(e.Defines home name ∧ e'.Defines home name) := by
  -- What begins later finds the function resolved, so it is not an attempt for it.
  have hlater : ∀ {e : Event} {rest : List Event}, Orderly rest →
      (∀ e' ∈ rest, e.code.scopes.Persists e'.code.scopes) →
      (∃ d, e.code.scopes.bindingAt home name = some (.resolved d)) →
      ∀ e' ∈ rest, ¬e'.Defines home name := by
    rintro e rest hrest hpersists ⟨d, hd⟩ e' hmem hdefines
    obtain ⟨-, o, ho, hopen⟩ := hrest.bindingAt_of_defines hmem hdefines
    cases (hpersists o ho home name d hd).symm.trans hopen
  induction h with
  | nil => exact .nil
  | step _ ih =>
    rw [List.pairwise_cons] at hpairs ⊢
    exact ⟨fun _ _ h => h.1, ih hpairs.2⟩
  | attempt hhome hfound hbefore hbetween hpending honce hafter hinner hrest ihinner ihrest =>
    have hself := Orderly.attempt hhome hfound hbefore hbetween hpending honce hafter hinner hrest
    rw [List.pairwise_cons] at hpairs ⊢
    refine ⟨fun _ _ h => h.1, ?_⟩
    rw [List.pairwise_append, List.pairwise_cons] at hpairs ⊢
    obtain ⟨-, hin, ⟨hlast, hout⟩, hcross⟩ := hpairs
    refine ⟨?_, ⟨fun e' hmem h => ?_, ihrest hout⟩, fun e he e' hmem h => ?_⟩
    · refine hbetween.pairwise (ihinner ?_) fun e e' hnot h => hnot ⟨h.1.delimits, h.2.delimits⟩
      exact hin.sublist hbetween.inner_sublist
    · obtain ⟨hresolved, -⟩ := hself.bindingAt_of_defines
        (List.mem_cons_of_mem _ (List.mem_append_right _ List.mem_cons_self)) h.1
      exact hlater hrest hlast hresolved e' hmem h.2
    · obtain ⟨⟨d, hd⟩, -⟩ :=
        hinner.bindingAt_of_defines (hbetween.mem_inner he h.1.delimits) h.1
      rcases List.mem_cons.mp hmem with rfl | hrestmem
      · cases hbetween with
        | parsed =>
          obtain ⟨hhome', rfl⟩ := h.2
          cases hhome.symm.trans hhome'
          cases (hpending e he).symm.trans hd
        | _ => exact h.2
      · exact hlater hrest (fun e' he' => hcross e he e' (List.mem_cons_of_mem _ he')) ⟨d, hd⟩ e'
          hrestmem h.2

end Orderly

/-! ### The course of a run -/

/-- From one tree of scopes to another one past some moments: nothing that is pending or resolved at
first is touched by then, and what is resolved at some moment is so ever after. -/
structure Passes (t t' : ScopeTree) (events : List Event) : Prop where
  evolves : t.Evolves t'
  held : ∀ e ∈ events, t.Holds e.code.scopes
  lasting : ∀ e ∈ events, e.code.scopes.Persists t'
  pairwise : events.Pairwise fun e e' => e.code.scopes.Persists e'.code.scopes

/-- From one tree of scopes to another one in the course of orderly events. -/
structure Course (t t' : ScopeTree) (events : List Event) : Prop extends Passes t t' events where
  orderly : Orderly events

namespace Passes

variable {t t' t'' : ScopeTree} {events events' : List Event}

/-- Nothing happens, but functions may have been resolved. -/
theorem of_evolves (h : t.Evolves t') : Passes t t' [] :=
  ⟨h, nofun, nofun, .nil⟩

theorem trans (h : Passes t t' events) (h' : Passes t' t'' events') :
    Passes t t'' (events ++ events') where
  evolves := h.evolves.trans h'.evolves
  held e he := by
    rcases List.mem_append.mp he with he | he
    · exact h.held e he
    · exact h.evolves.holds.trans (h'.held e he)
  lasting e he := by
    rcases List.mem_append.mp he with he | he
    · exact (h.lasting e he).trans h'.evolves.holds.persists
    · exact h'.lasting e he
  pairwise := by
    refine List.pairwise_append.mpr ⟨h.pairwise, h'.pairwise, fun e he e' he' => ?_⟩
    exact (h.lasting e he).trans (h'.held e' he').persists

/-- At a moment things are as they are. -/
theorem moment (e : Event) : Passes e.code.scopes e.code.scopes [e] where
  evolves := .refl _
  held e' he' := by
    rw [List.mem_singleton.mp he']
    exact (Evolves.refl _).holds
  lasting e' he' := by
    rw [List.mem_singleton.mp he']
    exact (Evolves.refl _).holds.persists
  pairwise := List.pairwise_singleton _ _

end Passes

namespace Course

variable {t t' t'' : ScopeTree} {events events' : List Event}

theorem of_evolves (h : t.Evolves t') : Course t t' [] :=
  ⟨.of_evolves h, .nil⟩

theorem trans (h : Course t t' events) (h' : Course t' t'' events') :
    Course t t'' (events ++ events') :=
  ⟨h.toPasses.trans h'.toPasses, h.orderly.append h'.orderly⟩

/-- A step leaves things as they are at that moment. -/
theorem step (code : CompilationUnit) : Course code.scopes code.scopes [.step code] :=
  ⟨.moment (.step code), .step .nil⟩

/-- Names may be declared past the scopes that a course started from. -/
theorem grows (h : Course t t' events) (hgrows : t'.Grows t.scopes.size t'') :
    Course t t'' events where
  orderly := h.orderly
  evolves := hgrows.evolves h.evolves
  held := h.held
  lasting e he := (h.lasting e he).trans hgrows.holds.persists
  pairwise := h.pairwise

/-- **An attempt to obtain a body**: the function is set aside, then the parser is asked for it, and
then the function gets the binding that belongs to what the parser has returned. -/
theorem attempt {before after : CompilationUnit} {home : ScopeId} {occasion : Occasion}
    {inner between : List Event} {outcome : Except Halt NodeId} {binding : Binding}
    (hhome : occasion.home = some home)
    (hfound : before.scopes.declaring? occasion.scope occasion.name = some home)
    (hbefore : before.scopes.bindingAt home occasion.name = some .unresolved)
    (hfirst : before.scopes.Rebinds t home occasion.name (.pending occasion.call))
    (hbetween : Attempt occasion inner between outcome binding) (hpasses : Passes t t' between)
    (hinner : Orderly inner) (hlast : t'.Rebinds after.scopes home occasion.name binding) :
    Course before.scopes after.scopes
      (.opened occasion before :: (between ++ [.closed occasion outcome after])) := by
  -- What is set aside at first is held by all that comes after.
  have hpending : ∀ e ∈ between,
      e.code.scopes.bindingAt home occasion.name = some (.pending occasion.call) :=
    fun e he => hpasses.held e he home occasion.name _ nofun hfirst.bindingAt_self
  have hset : t'.bindingAt home occasion.name = some (.pending occasion.call) :=
    hpasses.evolves.holds home occasion.name _ nofun hfirst.bindingAt_self
  have hevolves : before.scopes.Evolves after.scopes :=
    hfirst.evolves hbefore hpasses.evolves hlast hbetween.binding_eq
  have hheld : ∀ e ∈ between, before.scopes.Holds e.code.scopes :=
    fun e he => (hfirst.holds hbefore).trans (hpasses.held e he)
  have hlasting : ∀ e ∈ between, e.code.scopes.Persists after.scopes :=
    fun e he => (hpasses.lasting e he).trans (hlast.persists hset)
  refine ⟨⟨hevolves, fun e he => ?_, fun e he => ?_, ?_⟩, .attempt hhome hfound hbefore hbetween
    hpending (fun other code hother h => ?_) hlast.bindingAt_self hinner .nil⟩
  · rcases List.mem_cons.mp he with rfl | he
    · exact (Evolves.refl _).holds
    · rcases List.mem_append.mp he with he | he
      · exact hheld e he
      · rw [List.mem_singleton.mp he]
        exact hevolves.holds
  · rcases List.mem_cons.mp he with rfl | he
    · exact hevolves.holds.persists
    · rcases List.mem_append.mp he with he | he
      · exact hlasting e he
      · rw [List.mem_singleton.mp he]
        exact (Evolves.refl _).holds.persists
  · refine List.pairwise_cons.mpr ⟨fun e he => ?_, List.pairwise_append.mpr
      ⟨hpasses.pairwise, List.pairwise_singleton _ _, fun e he e' he' => ?_⟩⟩
    · rcases List.mem_append.mp he with he | he
      · exact (hheld e he).persists
      · rw [List.mem_singleton.mp he]
        exact hevolves.holds.persists
    · rw [List.mem_singleton.mp he']
      exact hlasting e he
  -- An attempt begins with its function unresolved, and this one is pending.
  · obtain ⟨home', hhome', hopen⟩ :=
      hinner.bindingAt_of_opened (hbetween.mem_inner hother trivial)
    cases h.1.symm.trans hhome'
    rw [h.2] at hopen
    cases (hpending _ hother).symm.trans hopen

end Course

/-! ### Attempts -/

section

variable {σ : Type}

namespace Context

open Check

/-- The binding of a function after an attempt to obtain its body. -/
def bindingAfter : Except Halt NodeId → Binding
  | .ok definition => .resolved definition
  | .error _ => .unresolved

theorem bindingAfter_mapError (outcome : Except Halt NodeId) (f : Halt → Halt) :
    bindingAfter (outcome.mapError f) = bindingAfter outcome := by
  cases outcome <;> rfl

/-- What is done to obtain a body while the function is set aside. -/
def attempt (source : Option (BodySource σ)) : BodySource σ := fun scope call name =>
  match source with
  | some source => source scope call name
  | none => raise (.functionNotResolved name "no function parser configured")

theorem materialize_eq_attempt (source : Option (BodySource σ)) (scope : ScopeId) (call : NodeId)
    (name : String) :
    materialize source scope call name = (do
      changeScopes fun scopes => scopes.setBinding scope name (.pending call)
      match ← outcome (attempt source scope call name) with
      | .ok definition =>
        changeScopes fun scopes => scopes.setBinding scope name (.resolved definition)
        return definition
      | .error halt =>
        changeScopes fun scopes => scopes.setBinding scope name .unresolved
        throw (unresolvedBy name halt)) := by
  cases source <;> rfl

/-- Obtaining a body keeps to a relation if giving bindings does, and what is done while the
function is set aside. -/
theorem obeys_materialize {P : CheckState σ → CheckState σ → Prop} (hP : Lasting P)
    (hset : ∀ scope name b,
      Obeys P (changeScopes fun scopes => scopes.setBinding scope name b))
    {source : Option (BodySource σ)} {scope : ScopeId} {call : NodeId} {name : String}
    (h : Obeys P (attempt source scope call name)) :
    Obeys P (materialize source scope call name) := by
  rw [materialize_eq_attempt]
  refine (hset scope name _).bind hP fun _ => h.outcome.bind hP fun obtained => ?_
  cases obtained with
  | ok definition => exact (hset scope name _).bind hP fun _ => hP.refl
  | error halt => exact (hset scope name _).bind hP fun _ => hP.refl

/-- **The effect of obtaining a body** for a function that waits for it, if the name still leads to
the function when that is done, and the function is still pending: it is set aside first, and gets
the binding that belongs to the outcome in the end. -/
theorem exec_materialize (source : Option (BodySource σ)) (call : NodeId) (s : CheckState σ)
    {scope : ScopeId} {name : String}
    (hname : s.code.scopes.binding? scope name = some .unresolved) :
    ∃ home t, s.code.scopes.declaring? scope name = some home ∧
      s.code.scopes.bindingAt home name = some .unresolved ∧
      s.code.scopes.Rebinds t home name (.pending call) ∧
      ∀ out, exec (attempt source scope call name) { s with code := s.code.withScopes t } = out →
        out.2.code.scopes.declaring? scope name = some home →
        out.2.code.scopes.bindingAt home name = some (.pending call) →
          ∃ u, out.2.code.scopes.Rebinds u home name (bindingAfter out.1) ∧
            exec (materialize source scope call name) s =
              (out.1.mapError (unresolvedBy name),
                { out.2 with code := out.2.code.withScopes u }) := by
  obtain ⟨home, hs, hbefore⟩ := binding?_eq_some_iff.mp hname
  obtain ⟨t, ht, hfirst⟩ := exists_rebinds hs hbefore (.pending call)
  refine ⟨home, t, hs, hbefore, hfirst, fun out hout hfound hpending => ?_⟩
  obtain ⟨u, hu, hlast⟩ := exists_rebinds hfound hpending (bindingAfter out.1)
  refine ⟨u, hlast, ?_⟩
  rw [materialize_eq_attempt, exec_bind, exec_changeScopes, ht]
  dsimp only
  rw [exec_bind, exec_outcome, hout]
  obtain ⟨r, s'⟩ := out
  cases r with
  | ok definition =>
    dsimp only [bindingAfter] at hu ⊢
    rw [exec_bind, exec_changeScopes, hu]
    rfl
  | error halt =>
    dsimp only [bindingAfter] at hu ⊢
    rw [exec_bind, exec_changeScopes, hu]
    rfl

end Context

/-! ### Scripts, step by step -/

/-- A relation between an earlier and a later state of an observed run that is kept to by what
scripts do of their own accord, if it is allowed in view of the earlier state. -/
structure KeptByScripts (allowed : CheckState σ → ∀ {β : Type}, Edit β → Prop)
    (P : CheckState (Observed σ) → CheckState (Observed σ) → Prop) : Prop where
  mark : ∀ {s t}, P s t → P s (t.mark .step)
  edit : ∀ {s t : CheckState (Observed σ)} {β : Type} {e : Edit β} {value : β}
    {code : CompilationUnit}, allowed s.plain e → t.code.apply e = .ok (value, code) → P s t →
    P s { t with code }
  write : ∀ {s t : CheckState (Observed σ)} (notes : σ), P s t →
    P s { t with notes := (notes, t.notes.2) }

section KeptByScripts

open Check

variable {allowed : CheckState σ → ∀ {β : Type}, Edit β → Prop}
  {P : CheckState (Observed σ) → CheckState (Observed σ) → Prop} (hP : Lasting P)
  (hscripts : KeptByScripts allowed P)

include hP hscripts

/-- **The run of a script** keeps to the relation with an earlier state, if the answers to its queries
do. -/
theorem KeptByScripts.run {α : Type} {answer : Config → {β : Type} → Query β → Check (Observed σ) β}
    {answer' : Config → {β : Type} → Query β → Check σ β}
    (hplain : ∀ config {β : Type} (q : Query β), Relates Plain (answer config q) (answer' config q))
    (hobeys : ∀ config {β : Type} (q : Query β), Obeys P (answer config q))
    (script : Script σ α) {start s : CheckState (Observed σ)} (hs : P start s)
    (hrestricted : script.Restricted answer' (allowed start.plain) s.plain) :
    P start (exec (script.traced.run answer) s).2 := by
  induction script generalizing s with
  | done value => exact hs
  | edit e next ih =>
    rw [Script.Restricted, s.code_plain] at hrestricted
    obtain ⟨he, hnext⟩ := hrestricted
    rw [Script.exec_run_traced_edit]
    cases hedit : s.code.apply e with
    | ok r =>
      rw [hedit] at hnext
      exact ih _ (hscripts.mark (hscripts.edit he hedit hs)) hnext
    | error error =>
      rw [hedit] at hnext
      exact ih _ (hscripts.mark hs) hnext
  | query config q next ih =>
    have hrelated := hplain config q s s.plain rfl
    have hafter := hP.trans hs (hobeys config q s)
    rw [Script.Restricted] at hrestricted
    rw [Script.exec_run_traced_query]
    generalize exec (answer config q) s = out at hrelated hafter ⊢
    generalize exec (answer' config q) s.plain = out' at hrelated hrestricted
    -- What the question is answered with is the same with and without the events.
    obtain ⟨r, s'⟩ := out
    obtain ⟨r', t'⟩ := out'
    obtain ⟨rfl, rfl⟩ := hrelated
    rcases r with (error | _) | value
    · exact ih _ (hscripts.mark hafter) hrestricted
    · exact hafter
    · exact ih _ (hscripts.mark hafter) hrestricted
  | read next ih =>
    rw [Script.exec_run_traced_read]
    exact ih s.plain hs hrestricted
  | write notes next ih =>
    rw [Script.exec_run_traced_write]
    exact ih (hscripts.write notes hs) hrestricted

/-- **The run of the script of a parser** keeps to the relation, if the answers to queries do. -/
theorem KeptByScripts.parse (checker : Checker σ) (hrestricted : checker.Restricted allowed)
    {parser : BodyParser σ} (hparser : checker.parser = some parser) (d : Nat)
    (hobeys : ∀ config {β : Type} (q : Query β),
      Obeys P ((checker.observedSupply.context checker.spec d config).answer q))
    (scope : ScopeId) (call : NodeId) (name : String) :
    Obeys P ((parser.parse scope call name).traced.run fun config =>
      (checker.observedSupply.context checker.spec d config).answer) := by
  have hplain : ∀ config {β : Type} (q : Query β), Relates Plain
      ((checker.observedSupply.context checker.spec d config).answer q)
      ((checker.supply.context checker.spec d config).answer q) := fun config _ q =>
    (checker.observed_corresponds d config).answer Plain.indifferent.admissible q
  exact fun s => hscripts.run hP hplain hobeys _ (hP.refl s)
    (hrestricted parser hparser d scope call name s.plain)

/-- **What is done while the function is set aside** keeps to a relation that events do not matter
for, if the answers to queries do. -/
theorem KeptByScripts.attempt
    (hmark : ∀ {s t} (event : CompilationUnit → Event), (∀ c, (event c).code = c) → P s t →
      P s (t.mark event))
    (checker : Checker σ) (hrestricted : checker.Restricted allowed) (d : Nat)
    (hobeys : ∀ config {β : Type} (q : Query β),
      Obeys P ((checker.observedSupply.context checker.spec d config).answer q))
    (scope : ScopeId) (call : NodeId) (name : String) :
    Obeys P (Context.attempt
      (checker.parser.map fun parser => parser.traced.source fun config =>
        (checker.observedSupply.context checker.spec d config).answer) scope call name) := by
  intro s
  cases hparser : checker.parser with
  | none => exact hP.refl s
  | some parser =>
    change P s (exec (parser.traced.source _ scope call name) s).2
    rw [parser.exec_source_traced]
    have hinvoked : P s (s.mark (.invoked scope call name)) := hmark _ (fun _ => rfl) (hP.refl s)
    have hrun := hP.trans hinvoked
      (hscripts.parse hP checker hrestricted hparser d hobeys scope call name _)
    revert hrun
    rcases exec ((parser.parse scope call name).traced.run _) _ with ⟨halt | result, t⟩
    · exact id
    · exact hmark _ fun _ => rfl

end KeptByScripts

/-! ### What scripts may do -/

/-- The scripts of a checker's parser declare names only in scopes opened since they were
started, replace no descriptor and move no variable. -/
def Checker.Confined (checker : Checker σ) : Prop :=
  checker.Restricted fun s _ e => e.DeclaresFrom s.code.scopes.scopes.size

/-! ### Runs -/

/-- A state that a run has come to in the course of some events, from a tree of scopes and
a list of events. -/
def Since (start : ScopeTree) (log : List Event) (s : CheckState (Observed σ)) : Prop :=
  ∃ events, s.notes.2 = log ++ events ∧ Course start s.code.scopes events

/-- A later state of a run. -/
def Continues (s t : CheckState (Observed σ)) : Prop :=
  Since s.code.scopes s.notes.2 t

section Since

open Check

variable {start : ScopeTree} {log : List Event} {s t : CheckState (Observed σ)}

theorem Since.trans (h : Since start log s) (h' : Continues s t) : Since start log t := by
  obtain ⟨events, hevents, hcourse⟩ := h
  obtain ⟨events', hevents', hcourse'⟩ := h'
  exact ⟨events ++ events', by rw [hevents', hevents, List.append_assoc], hcourse.trans hcourse'⟩

theorem Since.mark (h : Since start log s) : Since start log (s.mark .step) :=
  h.trans ⟨[.step s.code], rfl, .step s.code⟩

theorem Since.grows {c : CompilationUnit} (h : Since start log s)
    (hgrows : s.code.scopes.Grows start.scopes.size c.scopes) :
    Since start log { s with code := c } := by
  obtain ⟨events, hevents, hcourse⟩ := h
  exact ⟨events, hevents, hcourse.grows hgrows⟩

theorem Continues.of_evolves {c : CompilationUnit} (h : s.code.scopes.Evolves c.scopes) :
    Continues s { s with code := c } :=
  ⟨[], (List.append_nil _).symm, .of_evolves h⟩

/-- The entries of the checker continue a run. -/
theorem Continues.lasting : Lasting (Continues (σ := σ)) where
  refl _ := of_evolves (.refl _)
  trans := Since.trans
  noted h := by
    cases h with
    | type | targetTypes | field | definition => exact of_evolves (.refl _)
    | completed h => exact of_evolves (evolves_refine h)
    | bound hname h => exact of_evolves (evolves_bound hname h)

/-- A run is continued by what confined scripts do: they declare past the scopes of the start, and
not only past those that they find. -/
theorem Continues.keptByScripts :
    KeptByScripts (fun s _ e => e.DeclaresFrom s.code.scopes.scopes.size) (Continues (σ := σ)) where
  mark := Since.mark
  edit he hedit h := by
    obtain ⟨events, hevents, hcourse⟩ := id h
    exact h.grows (CompilationUnit.grows_apply hedit he hcourse.evolves.size)
  write _ h := h

end Since

namespace Checker

open Check

variable (checker : Checker σ) (hconfined : checker.Confined)

include hconfined

/-- What is observed while a function is set aside: the parser is asked for it, runs its script, and
returns something, unless there is none or its script comes to no end. -/
theorem exists_attempt (d : Nat)
    (hobeys : ∀ config {β : Type} (q : Query β),
      Obeys Continues ((checker.observedSupply.context checker.spec d config).answer q))
    (o : Occasion) (s : CheckState (Observed σ)) :
    let out := exec (Context.attempt
      (checker.parser.map fun parser => parser.traced.source fun config =>
        (checker.observedSupply.context checker.spec d config).answer) o.scope o.call o.name) s
    ∃ inner between, Attempt o inner between (out.1.mapError (Context.unresolvedBy o.name))
        (Context.bindingAfter out.1) ∧
      out.2.notes.2 = s.notes.2 ++ between ∧ Passes s.code.scopes out.2.code.scopes between ∧
      Orderly inner := by
  intro out
  cases hparser : checker.parser with
  | none =>
    have hout : out = (.error (.fault (.unplaced
        (.functionNotResolved o.name "no function parser configured"))), s) := by
      simp only [out, hparser]
      rfl
    rw [hout]
    exact ⟨[], [], .parserless, (List.append_nil _).symm, .of_evolves (.refl _), .nil⟩
  | some parser =>
    let s' := s.mark (.invoked o.scope o.call o.name)
    have hout : out = exec (parser.traced.source (fun config =>
        (checker.observedSupply.context checker.spec d config).answer) o.scope o.call o.name) s := by
      simp only [out, hparser]
      rfl
    rw [parser.exec_source_traced] at hout
    obtain ⟨inner, hinner, hcourse⟩ := Continues.keptByScripts.parse Continues.lasting checker
      hconfined hparser d hobeys o.scope o.call o.name s'
    have hinvoked : Passes s.code.scopes s'.code.scopes [.invoked o.scope o.call o.name s.code] :=
      .moment (.invoked o.scope o.call o.name s.code)
    have hpasses := hinvoked.trans hcourse.toPasses
    change _ = s.notes.2 ++ [_] ++ inner at hinner
    rw [List.append_assoc] at hinner
    generalize hrun : exec ((parser.parse o.scope o.call o.name).traced.run _) s' = run
      at hout hinner hcourse hpasses
    obtain ⟨halt | result, t⟩ := run
    · obtain rfl := Script.eq_outOfDepth_of_exec_run _ hrun
      rw [hout]
      exact ⟨inner, _, .endless, hinner, hpasses, hcourse.orderly⟩
    · rw [hout]
      have hend := hpasses.trans (.moment (.returned result t.code))
      have hnotes : (t.mark (.returned result)).notes.2 =
          s.notes.2 ++ (.invoked o.scope o.call o.name s.code ::
            (inner ++ [.returned result t.code])) := by
        change t.notes.2 ++ _ = _
        rw [hinner, List.append_assoc]
        rfl
      cases result with
      | ok definition => exact ⟨inner, _, .parsed, hnotes, hend, hcourse.orderly⟩
      | error error => exact ⟨inner, _, .failed, hnotes, hend, hcourse.orderly⟩

/-- An observed attempt to obtain a body continues a run, if the answers to queries do. -/
theorem continues_observedSupply (d : Nat)
    (hobeys : ∀ config {β : Type} (q : Query β),
      Obeys Continues ((checker.observedSupply.context checker.spec d config).answer q))
    (scope : ScopeId) (call : NodeId) (name : String) (s : CheckState (Observed σ))
    (hname : s.code.scopes.binding? scope name = some .unresolved) :
    Continues s (exec (checker.observedSupply
      (fun config => (checker.observedSupply.context checker.spec d config).answer) scope call name)
      s).2 := by
  let o : Occasion := ⟨scope, call, name, s.code.scopes.declaring? scope name⟩
  obtain ⟨home, t, hfound, hbefore, hfirst, hmaterialize⟩ := Context.exec_materialize
    (checker.parser.map fun parser => parser.traced.source fun config =>
      (checker.observedSupply.context checker.spec d config).answer)
    call (s.mark (.opened o)) hname
  obtain ⟨inner, between, hattempt, hnotes, hpasses, hinner⟩ := checker.exists_attempt hconfined d
    hobeys o { s.mark (.opened o) with code := s.code.withScopes t }
  rw [exec_observedSupply]
  generalize hout : exec (Context.attempt _ o.scope o.call o.name) _ = out
    at hattempt hnotes hpasses
  -- The name leads to the same scope as before, so that the right function is taken up again.
  obtain ⟨u, hlast, hend⟩ := hmaterialize out hout
    (hpasses.evolves.declaring? (hfirst.declaring? hfound))
    (hpasses.evolves.holds home name _ nofun hfirst.bindingAt_self)
  dsimp only
  rw [hend]
  refine ⟨.opened o s.code :: (between ++ [.closed o (out.1.mapError (Context.unresolvedBy name))
    (out.2.code.withScopes u)]), ?_,
    .attempt hfound hfound hbefore hfirst hattempt hpasses hinner hlast⟩
  change out.2.notes.2 ++ _ = _
  rw [hnotes]
  change (s.notes.2 ++ _) ++ _ ++ _ = _
  rw [List.append_assoc, List.append_assoc]
  rfl

/-- **Runs continue**: whatever is asked of the checker, one request after the other. -/
theorem continues_watchAll (requests : List Request) (s : CheckState (Observed σ)) :
    Continues s (checker.watchAll requests s) := by
  induction requests generalizing s with
  | nil => exact Continues.lasting.refl s
  | cons request requests ih =>
    have hkept := fun start => Supply.kept Continues.lasting _ _
      (checker.continues_observedSupply hconfined) (checker.depth s.code) request.config start
    have hfirst : Continues s (checker.watch s request) := Continues.lasting.obeys
      (fun start => (hkept start).answer (Continues.lasting.admissible start) request.query) s
    exact hfirst.trans (ih _)

/-- **The life of lazy bindings.** Take a checker whose parser is confined, any sequence of
requests, and a unit in which nothing is pending. The run is not changed by being
observed, and its events are orderly: a body is obtained for a function only while it is
unresolved, the function is pending throughout the attempt and no other attempt is made
for it meanwhile, and afterwards it is resolved or unresolved as the outcome says. What is
resolved at some moment is so ever after, so that no function is obtained twice, and in the
end nothing is pending. -/
theorem lifecycle (requests : List Request) (s : CheckState σ)
    (hs : s.code.scopes.NoPending) :
    let t := checker.watchAll requests s.watched
    t.plain = checker.performAll requests s ∧
      Orderly t.notes.2 ∧
      (s.code :: (t.notes.2.map Event.code ++ [t.code])).Pairwise
        (fun code code' => code.scopes.Persists code'.scopes) ∧
      (∀ home name, t.notes.2.Pairwise fun e e' => ¬(e.Defines home name ∧ e'.Defines home name)) ∧
      t.code.scopes.NoPending := by
  intro t
  obtain ⟨events, hevents, hcourse⟩ := checker.continues_watchAll hconfined requests s.watched
  have hlog : t.notes.2 = events := hevents
  rw [hlog]
  refine ⟨checker.plain_watchAll requests s.watched, hcourse.orderly, ?_,
    hcourse.orderly.pairwise_defines hcourse.pairwise, hcourse.evolves.noPending hs⟩
  rw [List.pairwise_cons, List.pairwise_append, List.pairwise_map]
  refine ⟨fun code hcode => ?_, hcourse.pairwise, List.pairwise_singleton _ _,
    fun code hcode code' hcode' => ?_⟩
  · rcases List.mem_append.mp hcode with hcode | hcode
    · obtain ⟨e, he, rfl⟩ := List.mem_map.mp hcode
      exact (hcourse.held e he).persists
    · rw [List.mem_singleton.mp hcode]
      exact hcourse.evolves.holds.persists
  · obtain ⟨e, he, rfl⟩ := List.mem_map.mp hcode
    rw [List.mem_singleton.mp hcode']
    exact hcourse.lasting e he

end Checker

end

/-- The life of the one function of a program: its body is obtained for a call, in two steps, and
then the function is connected with the definition that the parser has returned. -/
theorem Checker.lifecycle_unresolvedCall :
    let t := (emptyBodies 1).watchAll [⟨.strict, .typeOf 0⟩]
      (CheckState.watched ⟨.unresolvedCall, ()⟩)
    (t.plain = (emptyBodies 1).performAll [⟨.strict, .typeOf 0⟩] ⟨.unresolvedCall, ()⟩ ∧
      Orderly t.notes.2 ∧
      (CompilationUnit.unresolvedCall :: (t.notes.2.map Event.code ++ [t.code])).Pairwise
        (fun code code' => code.scopes.Persists code'.scopes) ∧
      (∀ home name, t.notes.2.Pairwise fun e e' => ¬(e.Defines home name ∧ e'.Defines home name)) ∧
      t.code.scopes.NoPending) ∧
    CompilationUnit.unresolvedCall.scopes.bindingAt 0 "f" = some .unresolved ∧
    (∃ invoked first last returned after, t.notes.2 =
        [.opened ⟨0, 0, "f", some 0⟩ .unresolvedCall, .invoked 0 0 "f" invoked, .step first,
          .step last, .returned (.ok 2) returned, .closed ⟨0, 0, "f", some 0⟩ (.ok 2) after] ∧
      invoked.scopes.bindingAt 0 "f" = some (.pending 0) ∧
      returned.scopes.bindingAt 0 "f" = some (.pending 0)) ∧
    t.code.scopes.bindingAt 0 "f" = some (.resolved 2) := by
  refine ⟨lifecycle _ (emptyBodies_restricted 1 (fun _ _ _ => trivial) fun _ _ => trivial) _
    ⟨.unresolvedCall, ()⟩ ?_, by decide, ⟨_, _, _, _, _, rfl, by decide, by decide⟩, by decide⟩
  intro scope name call h
  have hscope : scope < 1 := lt_size_of_bindingAt h
  obtain rfl : scope = 0 := Nat.lt_one_iff.mp hscope
  change (List.lookup name [("f", _)]).bind Descriptor.binding? = _ at h
  rw [List.lookup_cons] at h
  cases hname : name == "f" with
  | true =>
    rw [hname] at h
    cases h
  | false =>
    rw [hname] at h
    cases h

end ContractLang
