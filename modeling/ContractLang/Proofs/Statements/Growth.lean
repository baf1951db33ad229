import ContractLang.Proofs.Links
import ContractLang.Proofs.Runs.Related
import ContractLang.Proofs.Runs.Scripts
import ContractLang.Proofs.Typing.Answers

/-!
# Programs that grow while they are checked

A parser may add the functions that it defines to the program that is just being
checked. The statements that are then checked are still those that the program had when
the check began. Of the functions in an accepted program, these are the ones that are
known to be in order (`ContractLang.Checker.accepted_of_ask_statements`): each of them
returns on all paths, and its statements have been accepted at some moment, since when
they have not changed.

A function that has been added meanwhile need not be in order
(`ContractLang.Checker.unchecked_unresolvedCall`).
-/

namespace ContractLang

open Relation

/-! ### Units that grow -/

/-- From a unit to a later one: nodes keep their forms, and they keep their children, except
that more of them may come after those of `p`. -/
structure CompilationUnit.GrowsAt (p : NodeId) (code code' : CompilationUnit) : Prop where
  size : code.size ≤ code'.size
  form : ∀ a < code.size, code'.form a = code.form a
  children : ∀ a < code.size, a ≠ p → code'.children a = code.children a
  added : code.children p <+: code'.children p

/-- An edit adds children to `p` and to nodes from number `n` on only. -/
def Edit.AddsAt (p n : NodeId) : {α : Type} → Edit α → Prop
  | _, .append parent _ => parent = p ∨ n ≤ parent
  | _, .addFunction program _ => program = p ∨ n ≤ program
  | _, _ => True

namespace CompilationUnit

variable {code code' code'' : CompilationUnit} {p a f id : NodeId}

namespace GrowsAt

theorem refl (p : NodeId) (code : CompilationUnit) : code.GrowsAt p code :=
  ⟨Nat.le_refl _, fun _ _ => rfl, fun _ _ _ => rfl, List.prefix_refl _⟩

theorem trans (h : code.GrowsAt p code') (h' : code'.GrowsAt p code'') :
    code.GrowsAt p code'' where
  size := Nat.le_trans h.size h'.size
  form a ha := (h'.form a (Nat.lt_of_lt_of_le ha h.size)).trans (h.form a ha)
  children a ha hp :=
    (h'.children a (Nat.lt_of_lt_of_le ha h.size) hp).trans (h.children a ha hp)
  added := h.added.trans h'.added

/-- The scopes do not matter. -/
theorem withScopes (h : code.GrowsAt p code') (scopes : ScopeTree) :
    code.GrowsAt p (code'.withScopes scopes) :=
  ⟨h.size, h.form, h.children, h.added⟩

/-- A node may be changed if it keeps its form, and gets no children unless it is `p` or has
been created meanwhile. -/
theorem modifyNode (h : code.GrowsAt p code') {g : Node → Node}
    (hform : ∀ node, (g node).form = node.form)
    (hextends : ∀ node, node.children <+: (g node).children)
    (hchildren : id < code.size → id ≠ p → ∀ node, (g node).children = node.children) :
    code.GrowsAt p (code'.modifyNode id g) where
  size := by
    rw [size_modifyNode]
    exact h.size
  form a ha := by
    rw [← h.form a ha]
    exact field_modifyNode Node.form hform
  children a ha hp := by
    rw [← h.children a ha hp]
    unfold CompilationUnit.children
    rw [node_modifyNode]
    split
    · next hid => exact hchildren (hid.1 ▸ ha) (hid.1 ▸ hp) _
    · rfl
  added := by
    refine h.added.trans ?_
    unfold CompilationUnit.children
    rw [node_modifyNode]
    split
    · exact hextends _
    · exact List.prefix_refl _

/-- What is put on record for a node adds no children. -/
theorem note (h : code.GrowsAt p code') {g : Node → Node}
    (hform : ∀ node, (g node).form = node.form)
    (hchildren : ∀ node, (g node).children = node.children) :
    code.GrowsAt p (code'.modifyNode id g) :=
  h.modifyNode hform (fun node => by rw [hchildren]) fun _ _ => hchildren

theorem append (h : code.GrowsAt p code') {parent : NodeId} (child : NodeId)
    (hparent : parent = p ∨ code.size ≤ parent) : code.GrowsAt p (code'.append parent child) := by
  have hadopted : code.GrowsAt p (code'.adopt parent child) := h.note (fun _ => rfl) fun _ => rfl
  refine hadopted.modifyNode (fun _ => rfl) (fun _ => List.prefix_append _ _) fun hlt hne => ?_
  rcases hparent with heq | hle
  · exact absurd heq hne
  · exact absurd hlt (Nat.not_lt.mpr hle)

/-- A new node comes after those that are there. -/
theorem push (h : code.GrowsAt p code') (node : Node) :
    code.GrowsAt p { code' with nodes := code'.nodes.push node } := by
  have hold : ∀ a < code'.size,
      ({ code' with nodes := code'.nodes.push node } : CompilationUnit).node a = code'.node a := by
    intro a ha
    have ha' : a < code'.nodes.size := ha
    simp [CompilationUnit.node, Array.getD, ha', Nat.lt_succ_of_lt ha', Array.getElem_push_lt]
  refine ⟨?_, fun a ha => ?_, fun a ha hp => ?_, ?_⟩
  · exact h.size.trans (by simp [CompilationUnit.size])
  · unfold CompilationUnit.form
    rw [hold a (Nat.lt_of_lt_of_le ha h.size)]
    exact h.form a ha
  · unfold CompilationUnit.children
    rw [hold a (Nat.lt_of_lt_of_le ha h.size)]
    exact h.children a ha hp
  · by_cases hp : p < code'.size
    · unfold CompilationUnit.children
      rw [hold p hp]
      exact h.added
    -- The number `p` has belonged to no node so far.
    · have hnone : code.children p = [] := by
        unfold CompilationUnit.children
        rw [node_of_size_le (h.size.trans (Nat.le_of_not_lt hp))]
        rfl
      rw [hnone]
      exact List.nil_prefix

theorem create (h : code.GrowsAt p code') (scope : ScopeId) (form : Form)
    (children : List NodeId) : code.GrowsAt p (code'.create scope form children).1 := by
  unfold CompilationUnit.create
  dsimp only
  refine List.foldlRecOn children _ (List.foldlRecOn form.operands _ (h.push _) ?_) ?_
  · exact fun code hcode operand _ => hcode.note (fun _ => rfl) fun _ => rfl
  · exact fun code hcode child _ => hcode.append child (.inr h.size)

/-- **What such an edit makes of a unit.** -/
theorem apply {α : Type} {e : Edit α} {value : α} (h : code.GrowsAt p code')
    (he : e.AddsAt p code.size) (hedited : code'.apply e = .ok (value, code'')) :
    code.GrowsAt p code'' := by
  cases e with
  | create scope form children =>
    cases hedited
    exact h.create scope form children
  | append parent child =>
    cases hedited
    exact h.append child he
  | addFunction program definition =>
    cases hedited
    refine (h.append definition he).note (fun node => ?_) fun node => ?_
    · simp only [apply_ite Node.form, ite_self]
    · simp only [apply_ite Node.children, ite_self]
  | setPosition node position =>
    cases hedited
    exact h.note (fun _ => rfl) fun _ => rfl
  | setField call field =>
    cases hedited
    split
    · exact h.note (fun _ => rfl) fun _ => rfl
    · exact h
  | openScope name parent =>
    cases hedited
    exact h.withScopes _
  | remap scope base =>
    cases hedited
    exact h.withScopes _
  | declareVar | declareConst | declareFunc | update | intern =>
    obtain ⟨r, -, heq⟩ := exists_of_map_eq_ok hedited
    cases heq
    exact h.withScopes _

end GrowsAt

/-! ### Bodies that always return -/

/-- A body that always returns, of a part of a unit that does not have `p` in it, does so when
the unit has grown. -/
theorem GrowsAt.alwaysReturnsWithin (h : code.GrowsAt p code') {d d' : Nat} (hd : d ≤ d')
    (hp : ∀ b, ReflTransGen code.Link a b → b ≠ p)
    (hreturns : code.alwaysReturnsWithin d a) : code'.alwaysReturnsWithin d' a := by
  induction d generalizing a d' with
  | zero => cases hreturns
  | succ d ih =>
    obtain ⟨d', rfl⟩ : ∃ k, d' = k + 1 := Nat.exists_eq_add_of_le' (Nat.zero_lt_of_lt hd)
    rw [CompilationUnit.alwaysReturnsWithin] at hreturns ⊢
    cases hlast : (code.children a).getLast? with
    | none =>
      rw [hlast] at hreturns
      cases hreturns
    | some last =>
      -- The last statement and its branches are below the body, so they are other nodes than `p`.
      have hlink : code.Link a last := .inr (List.mem_of_getLast? hlast)
      rw [hlast] at hreturns
      rw [h.children a hlink.lt_size (hp a .refl), hlast]
      dsimp only at hreturns ⊢
      have hlt : last < code.size := lt_size_of_form fun hblock => by
        rw [hblock] at hreturns
        cases hreturns
      rw [h.form last hlt, h.children last hlt (hp last (.single hlink))]
      split at hreturns
      · rfl
      · rfl
      · rw [Bool.and_eq_true, List.all_eq_true] at hreturns ⊢
        refine ⟨hreturns.1, fun branch hbranch => ?_⟩
        refine ih (Nat.le_of_succ_le_succ hd) (fun b hreach => hp b ?_) (hreturns.2 branch hbranch)
        exact .head hlink (.head (.inr hbranch) hreach)
      · cases hreturns

/-- The parts of a program exist, and the program is not one of them. -/
structure Proper (code : CompilationUnit) (program : NodeId) : Prop where
  exists_of_link : ∀ a b, code.Link a b → b < code.size
  apart : ¬TransGen code.Link program program

/-- When a unit has grown, nothing has come in between a program and the statements that it
already had: these still do not have the program in them. -/
theorem GrowsAt.ne_of_reach (h : code.GrowsAt p code') (hp : code.Proper p)
    (hf : f ∈ code.children p) (hreach : ReflTransGen code'.Link f a) : a ≠ p := by
  have hall : a < code.size ∧ TransGen code.Link p a := by
    induction hreach with
    | refl => exact ⟨hp.exists_of_link _ _ (.inr hf), .single (.inr hf)⟩
    | @tail b c _ hlink ih =>
      obtain ⟨hb, hbelow⟩ := ih
      -- Up to `b` the path is one of the first unit, where it leads away from `p`.
      have hne : b ≠ p := fun heq => hp.apart (heq ▸ hbelow)
      have hold : code.Link b c := by
        unfold Link at hlink ⊢
        rwa [h.form b hb, h.children b hb hne] at hlink
      exact ⟨hp.exists_of_link _ _ hold, hbelow.tail hold⟩
  exact fun heq => hp.apart (heq ▸ hall.2)

end CompilationUnit

/-! ### Accepted parts of a run -/

section

variable {σ α : Type} {s t : CheckState σ}

open Check

/-- A loop that has come to its end has come through each of its rounds. -/
theorem exists_of_exec_forM {γ : Type} {f : γ → Check σ Unit} {xs : List γ}
    (h : exec (xs.forM f) s = (.ok (), t)) {x : γ} (hx : x ∈ xs) :
    ∃ before after u v, xs = before ++ x :: after ∧ exec (before.forM f) s = (.ok (), u) ∧
      exec (f x) u = (.ok (), v) ∧ exec (after.forM f) v = (.ok (), t) := by
  induction xs generalizing s with
  | nil => cases hx
  | cons y ys ih =>
    obtain ⟨⟨⟩, w, hfirst, hrest⟩ := exec_bind_eq_ok h
    rcases List.mem_cons.mp hx with rfl | hx
    · exact ⟨[], ys, s, w, rfl, rfl, hfirst, hrest⟩
    · obtain ⟨before, after, u, v, rfl, hbefore, hround, hafter⟩ := ih hrest hx
      refine ⟨y :: before, after, u, v, rfl, ?_, hround, hafter⟩
      change exec (f y >>= fun _ => before.forM f) s = _
      rw [exec_bind, hfirst]
      exact hbefore

variable {ctx : Context σ}

/-- A function is in order if its statements are, once it is bound, if it always returns, and if
its return type fits its name. -/
theorem Context.parts_of_checkFunction {f : NodeId} {type : Ty}
    (h : exec (ctx.checkFunction f) s = (.ok type, t)) :
    ∃ name params inlined u v w, s.code.form f = .function name params inlined ∧
      exec (bindDefinition (s.code.node f).scope name f) s = (.ok (), u) ∧
      exec (ctx.checkChildren f) u = (.ok (), v) ∧ v.code.alwaysReturns f ∧
      exec (ctx.functionType [] f) v = (.ok type, w) ∧
      exec (reconcile f name type) w = (.ok (), t) := by
  unfold Context.checkFunction at h
  obtain ⟨node, _, hnode, h⟩ := exec_bind_eq_ok h
  cases hnode
  split at h
  · next name params inlined hform =>
    obtain ⟨⟨⟩, u, hbound, h⟩ := exec_bind_eq_ok h
    obtain ⟨⟨⟩, v, hbody, h⟩ := exec_bind_eq_ok h
    obtain ⟨_, _, hcode, h⟩ := exec_bind_eq_ok h
    cases hcode
    obtain ⟨hreturns, h⟩ := exec_rejectIf_bind_eq_ok (by simp) h
    obtain ⟨type, w, htype, h⟩ := exec_bind_eq_ok h
    obtain ⟨⟨⟩, _, hname, h⟩ := exec_bind_eq_ok h
    cases h
    exact ⟨name, params, inlined, u, v, w, hform, hbound, hbody, not_not.mp hreturns, htype, hname⟩
  · cases h

/-- A function that is in order always returns, and its statements have been accepted before
that was found. -/
theorem Context.exists_of_checkFunction {P : CheckState σ → CheckState σ → Prop}
    (hP : Lasting P) (hctx : ∀ start, ctx.Corresponds (Kept P start) ctx) {f : NodeId} {type : Ty}
    (h : exec (ctx.checkFunction f) s = (.ok type, t)) :
    ∃ name u v, exec (bindDefinition (s.code.node f).scope name f) s = (.ok (), u) ∧
      exec (ctx.checkChildren f) u = (.ok (), v) ∧ v.code.alwaysReturns f ∧ P v t := by
  obtain ⟨name, -, -, u, v, w, -, hbound, hbody, hreturns, htype, hname⟩ :=
    parts_of_checkFunction h
  have hw : P v w := Obeys.after
    (hP.obeys fun start => (hctx start).functionType (hP.compatible start) f) htype
  have ht : P w t :=
    Obeys.after (hP.obeys fun start => Matches.reconcile (hP.compatible start) name type) hname
  exact ⟨name, u, v, hbound, hbody, hreturns, hP.trans hw ht⟩

/-- A statement is accepted by its form. -/
theorem Context.exec_checkForm_of_statementRule {x : NodeId}
    (h : exec (ctx.statementRule x) s = (.ok (), t)) :
    exec (ctx.checkForm x (s.code.node x).scope (s.code.form x)) s = (.ok (), t) := by
  unfold Context.statementRule at h
  obtain ⟨node, _, hnode, h⟩ := exec_bind_eq_ok h
  cases hnode
  rw [exec_located] at h
  change exec (ctx.checkForm x (s.code.node x).scope (s.code.node x).form) s = _
  generalize exec (ctx.checkForm x (s.code.node x).scope (s.code.node x).form) s = out at h ⊢
  match out, h with
  | (.ok (), _), rfl => rfl

/-- The statement that defines a function is accepted if the function is in order. -/
theorem Context.exists_of_statementRule {f : NodeId} (hf : s.code.IsDefinition f)
    (h : exec (ctx.statementRule f) s = (.ok (), t)) :
    ∃ type, exec (ctx.checkFunction f) s = (.ok type, t) := by
  obtain ⟨name, params, inlined, hform⟩ := hf
  have hcheck := exec_checkForm_of_statementRule h
  rw [hform, Context.checkForm, discard_eq_bind] at hcheck
  obtain ⟨type, u, hfunction, hpure⟩ := exec_bind_eq_ok hcheck
  cases hpure
  exact ⟨type, hfunction⟩

/-! ### Accepted programs -/

/-- The scripts of a checker's parser may add children to `p` and to nodes created since they
were started. -/
def Checker.AddsAt (checker : Checker σ) (p : NodeId) : Prop :=
  checker.Restricted fun s _ e => e.AddsAt p s.code.size

/-- In the check of a program, which leads from one state to another, the statements of a
function have been accepted when it was its turn; and these are still its statements. -/
inductive Checker.Accepts (checker : Checker σ) (p f : NodeId) (s t : CheckState σ) : Prop
  | intro {d : Nat} {name : String} {before after : List NodeId} {u u' v v' : CheckState σ}
      (hdepth : checker.depth s.code = d + 1)
      (hchildren : s.code.children p = before ++ f :: after)
      (hbefore : exec (before.forM fun x => (checker.context (d + 1)).judge (.statement x)) s =
        (.ok (), u))
      (hjudged : exec ((checker.context (d + 1)).judge (.statement f)) u = (.ok (), v))
      (hafter : exec (after.forM fun x => (checker.context (d + 1)).judge (.statement x)) v =
        (.ok (), t))
      (hbound : exec (Context.bindDefinition (u.code.node f).scope name f) u = (.ok (), u'))
      (hbody : exec ((checker.context d).checkChildren f) u' = (.ok (), v'))
      (hsame : u'.code.children f = t.code.children f) : checker.Accepts p f s t

/-- The entries of the checker add no nodes and no children. -/
theorem lasting_growsAt (p : NodeId) :
    Lasting fun s t : CheckState σ => s.code.GrowsAt p t.code where
  refl s := .refl p s.code
  trans := CompilationUnit.GrowsAt.trans
  noted {s _} h := by
    have hrefl := CompilationUnit.GrowsAt.refl p s.code
    cases h with
    | type | targetTypes | field | definition => exact hrefl.note (fun _ => rfl) fun _ => rfl
    | completed | bound => exact hrefl.withScopes _

namespace Checker

variable {checker : Checker σ} {p : NodeId}

/-- To obtain a body adds children to `p` only, if the answers to queries do. -/
theorem AddsAt.materialize (h : checker.AddsAt p) (d : Nat)
    (hanswer : ∀ config {β : Type} (q : Query β),
      Obeys (fun s t => s.code.GrowsAt p t.code)
        ((checker.supply.context checker.spec d config).answer q))
    (scope : ScopeId) (call : NodeId) (name : String) :
    Obeys (fun s t => s.code.GrowsAt p t.code)
      (checker.supply (fun config => (checker.supply.context checker.spec d config).answer) scope
        call name) := by
  have hP := lasting_growsAt (σ := σ) p
  have hscopes : ∀ f, Obeys (fun s t : CheckState σ => s.code.GrowsAt p t.code)
      (changeScopes f) := by
    intro f s
    rw [exec_changeScopes]
    split
    · exact (CompilationUnit.GrowsAt.refl p s.code).withScopes _
    · exact .refl p s.code
  refine (hscopes _).bind hP fun _ => (Obeys.outcome ?_).bind hP fun obtained => ?_
  · cases hparser : checker.parser with
    | none => exact fun s => .refl p s.code
    | some parser =>
      refine Obeys.bind hP (fun s => ?_) fun result => ?_
      · exact Script.invariant (I := fun code => s.code.GrowsAt p code) (fun he hedited hs =>
          hs.apply he hedited) (fun config _ q s hs => hs.trans (hanswer config q s)) _
          (h parser hparser d scope call name s) (.refl p s.code)
      · cases result <;> exact fun s => .refl p s.code
  · cases obtained with
    | ok definition => exact (hscopes _).bind hP fun _ s => .refl p s.code
    | error halt => exact (hscopes _).bind hP fun _ s => .refl p s.code

/-- **Which functions of an accepted program are in order**: those that it had when the check
began. They return on all paths, and their statements have been accepted. -/
theorem accepted_of_ask_statements (hchecker : checker.AddsAt p) {s t : CheckState σ}
    (hp : s.code.Proper p) (h : checker.ask (.statements p) s = (.ok (), t)) :
    s.code.children p <+: t.code.children p ∧
      ∀ f ∈ s.code.children p, s.code.IsDefinition f →
        t.code.alwaysReturns f ∧ checker.Accepts p f s t := by
  have hP := lasting_growsAt (σ := σ) p
  have hctx : ∀ d start, (checker.context d).Corresponds (Kept _ start) (checker.context d) :=
    fun d start => Supply.kept hP _ _ (fun d hanswer scope call name s _ =>
      hchecker.materialize d hanswer scope call name s) d checker.config start
  have hstatement : ∀ d x, Obeys (fun s t => s.code.GrowsAt p t.code)
      ((checker.context d).judge (.statement x)) :=
    fun d x => hP.obeys fun start => (hctx d start).judge (.statement x)
  have hchildren : ∀ d x, Obeys (fun s t => s.code.GrowsAt p t.code)
      ((checker.context d).checkChildren x) :=
    fun d x => hP.obeys fun start => (hctx d start).checkChildren (hP.compatible start)
  -- The children are those of the unit at the beginning.
  change exec ((s.code.children p).forM fun x =>
    (checker.context (checker.depth s.code)).judge (.statement x)) s = _ at h
  refine ⟨((Obeys.forM hP (hstatement _) _).after h).added, fun f hf hdefinition => ?_⟩
  obtain ⟨before, after, u, v, hsplit, hbefore, hjudged, hafter⟩ := exists_of_exec_forM h hf
  have hu : s.code.GrowsAt p u.code := (Obeys.forM hP (hstatement _) _).after hbefore
  have hv : v.code.GrowsAt p t.code := (Obeys.forM hP (hstatement _) _).after hafter
  have hlt : f < s.code.size := hp.exists_of_link _ _ (.inr hf)
  have hne : f ≠ p := by
    rintro rfl
    exact hp.apart (.single (.inr hf))
  cases hd : checker.depth s.code with
  | zero =>
    rw [hd] at hjudged
    cases hjudged
  | succ d =>
    rw [hd] at hbefore hjudged hafter
    have hruled : exec ((checker.context d).statementRule f) u = (.ok (), v) := hjudged
    obtain ⟨type, hfunction⟩ := Context.exists_of_statementRule
      (by rwa [CompilationUnit.IsDefinition, hu.form f hlt]) hruled
    obtain ⟨name, u', v', hbound, hbody, hreturns, hv'⟩ :=
      Context.exists_of_checkFunction hP (hctx d) hfunction
    have hu' : s.code.GrowsAt p u'.code := hu.trans <| Obeys.after (hP.obeys fun start =>
      Context.Matches.bindDefinition (hP.compatible start) _ name) hbound
    have hfirst : s.code.GrowsAt p v'.code := hu'.trans ((hchildren d f).after hbody)
    have hlast : v'.code.GrowsAt p t.code := hv'.trans hv
    refine ⟨?_, .intro hd hsplit hbefore hjudged hafter hbound hbody ?_⟩
    · refine hlast.alwaysReturnsWithin (Nat.succ_le_succ hlast.size) (fun b hreach => ?_) hreturns
      exact hfirst.ne_of_reach hp hf hreach
    · rw [hu'.children f hlt hne, (hfirst.trans hlast).children f hlt hne]

end Checker

end

namespace Checker

open CompilationUnit

/-- The one function of a program. -/
theorem accepted_oneCall :
    let s : CheckState Unit := ⟨oneCall, ()⟩
    let t := ((emptyBodies 5).ask (.statements 5) s).2
    s.code.children 5 <+: t.code.children 5 ∧
      ∀ f ∈ s.code.children 5, s.code.IsDefinition f →
        t.code.alwaysReturns f ∧ (emptyBodies 5).Accepts 5 f s t := by
  refine accepted_of_ask_statements
    (emptyBodies_restricted 5 (fun _ _ _ => trivial) fun _ _ => .inl rfl) ⟨fun a b h => ?_, ?_⟩ rfl
  · exact (OneCall.link_lt h).trans h.lt_size
  · exact acyclic_of_lt (fun _ _ => OneCall.link_lt) 5

/-- A program is accepted although a function that has been added to it meanwhile does not
return. -/
theorem unchecked_unresolvedCall :
    (emptyBodies 1).AddsAt 1 ∧ unresolvedCall.Proper 1 ∧
      ∃ t, (emptyBodies 1).ask (.statements 1) ⟨unresolvedCall, ()⟩ = (.ok (), t) ∧
        ∃ f ∈ t.code.children 1, t.code.IsDefinition f ∧ ¬t.code.alwaysReturns f := by
  have hlink : ∀ a b, unresolvedCall.Link a b → b < a := by
    intro a b h
    have hdrops : ∀ a < 2, ∀ b ∈ (unresolvedCall.form a).operands ++ unresolvedCall.children a,
        b < a := by decide
    exact hdrops a h.lt_size b (List.mem_append.mpr h)
  refine ⟨emptyBodies_restricted 1 (fun _ _ _ => trivial) fun _ _ => .inl rfl,
    ⟨fun a b h => (hlink a b h).trans h.lt_size, acyclic_of_lt hlink 1⟩, _, rfl, 2, ?_,
    ⟨"f", [], false, rfl⟩, ?_⟩
  · decide
  · decide

end Checker

end ContractLang
