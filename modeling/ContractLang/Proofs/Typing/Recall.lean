import ContractLang.Proofs.Scope.Lookup
import ContractLang.Proofs.Typing.Laws

/-!
# What the checker remembers

While it types expressions, the checker puts types on record, connects calls with
definitions and completes the descriptors of functions. None of this matters to
typing as long as what is on record is right: the unit then *recalls* the one that
typing started from (`ContractLang.Typing.Recalls`). In particular it reads the same,
so that the messages of errors are the same.

A computation of the checker *yields* an answer (`ContractLang.Typing.Yields`) if it
gives this answer from every unit that recalls the first one, and leaves another such
unit behind. Answers of typing without a memory are compared with computations of the
checker in this way, one operation after the other; running out of depth is no answer.

What is right to have on record need not be the types found without a memory. All of this is
stated for any table of types that goes on record (`ContractLang.Typing.RecallsAs`,
`ContractLang.Typing.YieldsAs`).
-/

namespace ContractLang

/-- Nodes of the form have their type put on record. -/
def Form.remembers : Form → Bool
  | .ident _ | .binary .. | .unary .. | .choice .. | .call _ => true
  | .runtimeField .. | .runtimeArg .. => true
  | _ => false

/-- What a node is apart from all that typing puts on record for it. -/
def Node.bare (node : Node) : Node :=
  { node with type := .unknown, definition := none }

/-- Nodes that are the same apart from what typing puts on record agree on whatever does
not depend on that. -/
theorem Node.congr_bare {α : Type} {node node' : Node} (f : Node → α)
    (hf : ∀ node, f node.bare = f node) (h : node.bare = node'.bare) : f node = f node' := by
  rw [← hf node, h, hf node']

/-- They are the same up to that. -/
theorem Node.exists_eq_of_bare {node node' : Node} (h : node.bare = node'.bare) :
    ∃ type definition, node = { node' with type, definition } := by
  cases node
  cases node'
  cases h
  exact ⟨_, _, rfl⟩

/-- Nothing but the texts of nodes, given those of other nodes, decides how a unit reads. -/
theorem CompilationUnit.render_congr {code code' : CompilationUnit} (hsize : code'.size = code.size)
    (hnode : ∀ id render, nodeText render (code'.node id) = nodeText render (code.node id))
    (id : NodeId) : code'.render id = code.render id := by
  unfold render
  rw [hsize]
  generalize code.size + 1 = depth
  induction depth generalizing id with
  | zero => rfl
  | succ depth ih =>
    unfold renderWithin
    rw [funext ih, hnode]

/-- A type is on record for an expression. -/
def CompilationUnit.IsRecorded (code : CompilationUnit) (id : NodeId) : Prop :=
  (code.form id).remembers ∧ (code.node id).type.isKnown

instance (code : CompilationUnit) (id : NodeId) : Decidable (code.IsRecorded id) :=
  inferInstanceAs (Decidable (_ ∧ _))

theorem CompilationUnit.Calls.remembers {code : CompilationUnit} {x f : NodeId}
    (h : code.Calls x f) : (code.form x).remembers := by
  obtain ⟨name, hform, -⟩ := h
  rw [hform]
  rfl

/-- A descriptor has become another one: it has at most been given a type, being that of
a function and of no known type. -/
structure Descriptor.Completes (d d' : Descriptor) : Prop where
  name : d'.name = d.name
  role : d'.role = d.role
  type : d'.type = d.type ∨ (d.isFunc ∧ ¬d.type.isKnown)

namespace Context

open Check

variable {σ : Type} {ctx : Context σ} {s : CheckState σ} {x : NodeId}

/-- A type on record is the answer, and nothing happens. -/
theorem exec_typeRule_of_isRecorded (obtain : BodySource σ) (R : List NodeId)
    (hx : s.code.IsRecorded x) :
    exec (ctx.typeRule obtain R x) s = (.ok (s.code.node x).type, s) := by
  have hmemo : ∀ infer : Check σ Ty,
      exec (memo x infer) s = (.ok (s.code.node x).type, s) := fun infer => by
    rw [exec_memo, if_pos hx.2]
  have hform : exec (ctx.formType obtain R x (s.code.form x)) s =
      (.ok (s.code.node x).type, s) := by
    have hremembers := hx.1
    cases hform : s.code.form x <;> rw [hform] at hremembers
    case ident name => exact hmemo (identType (s.code.node x).scope name)
    case binary | unary | choice | call | runtimeField | runtimeArg => exact hmemo _
    all_goals cases hremembers
  unfold typeRule
  rw [exec_bind, exec_node]
  dsimp only
  rw [exec_located, show (s.code.node x).form = s.code.form x from rfl, hform]

end Context

namespace Typing

open Check ScopeTree

/-- A unit is the one that is typed, up to types on record that are among `types`, definitions,
and the types of functions. What was on record still is. -/
structure RecallsAs (T : Typing) (types : NodeId → Except Halt Ty) (code : CompilationUnit) :
    Prop where
  size : code.size = T.code.size
  bare : ∀ id, (code.node id).bare = (T.code.node id).bare
  agree : ∀ ids, Agree Descriptor.Completes ids T.code.scopes code.scopes
  retained : ∀ id, T.code.IsRecorded id → code.IsRecorded id
  sound : ∀ id, (code.form id).remembers → (code.node id).type.isKnown →
    types id = .ok (code.node id).type

/-- What is on record are the types found without a memory. -/
abbrev Recalls (T : Typing) (code : CompilationUnit) : Prop :=
  T.RecallsAs T.type code

/-- No name that is reached from a node stands for a function of unknown type. -/
def NamesSettled (T : Typing) (x : NodeId) : Prop :=
  ∀ y, T.code.Reaches x y → ∀ name d, T.code.form y = .ident name →
    T.code.scopes.find? (T.code.node y).scope name = some d → d.isFunc → d.type.isKnown

/-- What typing does to a unit. Types go on record only for nodes that have them put there,
definitions are connected with calls of functions only, and a call of a function whose
type goes on record is connected with one. -/
structure Advances (T : Typing) (code code' : CompilationUnit) : Prop where
  learned : ∀ id, (code'.node id).type.isKnown →
    (code.node id).type.isKnown ∨ T.NamesSettled id
  kept : ∀ id, ¬(T.code.form id).remembers → (code'.node id).type = (code.node id).type
  persists : ∀ id, (code.node id).definition.isSome → (code'.node id).definition.isSome
  proper : ∀ id, (code'.node id).definition.isSome →
    (code.node id).definition.isSome ∨ ∃ f, T.code.Calls id f
  linked : ∀ id f, T.code.Calls id f → (code'.node id).type.isKnown →
    (code.node id).type.isKnown ∨ (code'.node id).definition.isSome

namespace Advances

variable {T : Typing} {c c' c'' : CompilationUnit}

theorem refl (T : Typing) (c : CompilationUnit) : T.Advances c c :=
  ⟨fun _ h => .inl h, fun _ _ => rfl, fun _ h => h, fun _ h => .inl h, fun _ _ _ h => .inl h⟩

theorem trans (h : T.Advances c c') (h' : T.Advances c' c'') : T.Advances c c'' where
  learned id hid := (h'.learned id hid).elim (h.learned id) .inr
  kept id hid := (h'.kept id hid).trans (h.kept id hid)
  persists id hid := h'.persists id (h.persists id hid)
  proper id hid := (h'.proper id hid).elim (h.proper id) .inr
  linked id f hf hid := by
    rcases h'.linked id f hf hid with hknown | hdef
    · exact (h.linked id f hf hknown).imp_right (h'.persists id)
    · exact .inr hdef

/-- The scopes do not matter. -/
theorem withScopes (T : Typing) (c : CompilationUnit) (scopes : ScopeTree) :
    T.Advances c (c.withScopes scopes) :=
  ⟨fun _ h => .inl h, fun _ _ => rfl, fun _ h => h, fun _ h => .inl h, fun _ _ _ h => .inl h⟩

end Advances

namespace RecallsAs

variable {T : Typing} {types : NodeId → Except Halt Ty} {code : CompilationUnit}
  (h : T.RecallsAs types code) {id : NodeId}

include h

theorem form (id : NodeId) : code.form id = T.code.form id :=
  Node.congr_bare Node.form (fun _ => rfl) (h.bare id)

theorem scope (id : NodeId) : (code.node id).scope = (T.code.node id).scope :=
  Node.congr_bare Node.scope (fun _ => rfl) (h.bare id)

theorem children (id : NodeId) : code.children id = T.code.children id :=
  Node.congr_bare Node.children (fun _ => rfl) (h.bare id)

theorem field (id : NodeId) : (code.node id).field = (T.code.node id).field :=
  Node.congr_bare Node.field (fun _ => rfl) (h.bare id)

/-- The nearest descriptor of a name is the same, up to its completion. -/
theorem find? (scope : ScopeId) (name : String) :
    Option.Rel Descriptor.Completes (T.code.scopes.find? scope name)
      (code.scopes.find? scope name) :=
  (h.agree _).find? name

theorem binding? (scope : ScopeId) (name : String) :
    code.scopes.binding? scope name = T.code.scopes.binding? scope name := by
  have hrel := h.find? scope name
  unfold ScopeTree.binding?
  revert hrel
  generalize T.code.scopes.find? scope name = o, code.scopes.find? scope name = o'
  rintro (hd | _)
  · simp only [Option.bind_some, Descriptor.binding?, hd.role]
  · rfl

theorem alike : T.code.Alike code :=
  ⟨h.form, h.scope, h.children, h.field, h.binding?⟩

/-- A unit reads like the one it recalls. -/
theorem render (id : NodeId) : code.render id = T.code.render id :=
  CompilationUnit.render_congr h.size
    (fun id render => Node.congr_bare (CompilationUnit.nodeText render) (fun _ => rfl) (h.bare id))
    id

/-- The type of a name that stands for no function of unknown type is the same. -/
theorem identType {scope : ScopeId} {name : String}
    (hname : ∀ d, T.code.scopes.find? scope name = some d → d.isFunc → d.type.isKnown) :
    { T with code }.identType scope name = T.identType scope name := by
  have hrel := h.find? scope name
  unfold Typing.identType ScopeTree.lookup
  revert hrel hname
  generalize T.code.scopes.find? scope name = o, code.scopes.find? scope name = o'
  rintro hname (hd | _)
  -- Only the descriptor of a function of unknown type can have been completed.
  · rcases hd.type with htype | ⟨hfunc, hunknown⟩
    · simp only [htype]
    · exact absurd (hname _ rfl hfunc) hunknown
  · rfl

/-- A node is given the same type by a unit that recalls the first one, up to the errors. -/
theorem type_toOption {x : NodeId} (hx : T.NamesSettled x) :
    ({ T with code }.type x).toOption = (T.type x).toOption := by
  refine type_congr_code h.size h.alike fun y hy name hform => ?_
  rw [h.identType fun d => hx y hy name d hform]

end RecallsAs

/-! ### What is put on record -/

section Record

variable {T : Typing} {types : NodeId → Except Halt Ty} {code : CompilationUnit} {id f : NodeId}
  {type : Ty}

/-- A change to what is on record for a node, if it is right, makes no difference. -/
theorem RecallsAs.modifyNode {g : Node → Node} (h : T.RecallsAs types code)
    (hbare : ∀ node, (g node).bare = node.bare)
    (hretained : (code.node id).type.isKnown → (g (code.node id)).type.isKnown)
    (hsound : (code.form id).remembers → (g (code.node id)).type.isKnown →
      types id = .ok (g (code.node id)).type) : T.RecallsAs types (code.modifyNode id g) := by
  have hform : ∀ other, (code.modifyNode id g).form other = code.form other := by
    intro other
    exact CompilationUnit.field_modifyNode Node.form fun node =>
      Node.congr_bare Node.form (fun _ => rfl) (hbare node)
  refine ⟨CompilationUnit.size_modifyNode.trans h.size, fun other => ?_, h.agree,
    fun other hother => ?_, fun other => ?_⟩
  · exact (CompilationUnit.field_modifyNode Node.bare hbare).trans (h.bare other)
  · have hrecorded := h.retained other hother
    refine ⟨(hform other).symm ▸ hrecorded.1, ?_⟩
    rw [CompilationUnit.node_modifyNode]
    split
    · next heq =>
      obtain rfl := heq.1
      exact hretained hrecorded.2
    · exact hrecorded.2
  · rw [hform, CompilationUnit.node_modifyNode]
    split
    · next hother =>
      rw [hother.1]
      exact hsound
    · exact h.sound other

/-- Connecting a call with a definition makes no difference to typing. -/
theorem RecallsAs.setDefinition (h : T.RecallsAs types code) :
    T.RecallsAs types (code.setDefinition id f) :=
  h.modifyNode (fun _ => rfl) (fun hknown => hknown) (h.sound id)

/-- Putting a type on record makes no difference to typing if it is the right one. -/
theorem RecallsAs.setType (h : T.RecallsAs types code) (hknown : type.isKnown)
    (htype : types id = .ok type) : T.RecallsAs types (code.setType id type) :=
  h.modifyNode (fun _ => rfl) (fun _ => hknown) fun _ _ => htype

/-- Completing the descriptor of a function makes no difference to typing. -/
theorem RecallsAs.refine {scope : ScopeId} {name : String} {binding : Binding}
    (h : T.RecallsAs types code) (hname : T.code.scopes.binding? scope name = some binding) :
    ∃ scopes, code.scopes.refine scope name type = .ok scopes ∧
      T.RecallsAs types (code.withScopes scopes) := by
  rw [← h.binding?] at hname
  obtain ⟨d, hfind, hd⟩ := Option.bind_eq_some_iff.mp hname
  obtain ⟨s, hs, hget⟩ := find?_eq_some_iff.mp hfind
  refine ⟨_, refine_eq_ok hs hget type, ?_⟩
  split
  · exact h
  · next hunknown =>
    refine ⟨h.size, h.bare, fun ids => ?_, h.retained, h.sound⟩
    refine (h.agree ids).replace hget fun old hold => ?_
    -- What is replaced belongs to a function, and had no known type in the first unit either.
    have hfunc : old.isFunc := by
      unfold Descriptor.isFunc
      rw [← show d.binding? = old.binding? by simp only [Descriptor.binding?, hold.role], hd]
      rfl
    refine ⟨hold.name, hold.role, .inr ⟨hfunc, fun hknown => hunknown ?_⟩⟩
    rcases hold.type with htype | hold
    · rwa [htype]
    · exact absurd hknown hold.2

theorem Advances.setDefinition (hcall : T.code.Calls id f) :
    T.Advances code (code.setDefinition id f) := by
  unfold CompilationUnit.setDefinition
  refine ⟨fun other h => ?_, fun other _ => ?_, fun other h => ?_, fun other h => ?_,
    fun other g _ h => ?_⟩ <;> rw [CompilationUnit.node_modifyNode] at *
  · split at h <;> exact .inl h
  · split <;> rfl
  · split
    · rfl
    · exact h
  · split at h
    · next hother => exact .inr ⟨f, hother.1 ▸ hcall⟩
    · exact .inl h
  · split at h <;> exact .inl h

theorem Advances.setType (hform : (T.code.form id).remembers) (hnames : T.NamesSettled id)
    (hdef : ∀ f, T.code.Calls id f → (code.node id).definition.isSome) :
    T.Advances code (code.setType id type) := by
  unfold CompilationUnit.setType
  refine ⟨fun other h => ?_, fun other h => ?_, fun other h => ?_, fun other h => ?_,
    fun other g hg h => ?_⟩ <;> rw [CompilationUnit.node_modifyNode] at *
  · split at h
    · next hother => exact .inr (hother.1 ▸ hnames)
    · exact .inl h
  · split
    · next hother => exact absurd (hother.1 ▸ hform) h
    · rfl
  · split <;> exact h
  · split at h <;> exact .inl h
  · split at h
    · next hother =>
      rw [if_pos hother]
      exact .inr (hother.1 ▸ hdef g (hother.1 ▸ hg))
    · exact .inl h

end Record

/-! ### Computations that yield an answer -/

/-- The outcome of a computation that started from a unit: its answer is `r`, and the unit
that it leaves is as good as the first one. -/
structure EndsAs {σ α : Type} (T : Typing) (types : NodeId → Except Halt Ty)
    (code : CompilationUnit) (r : Except Halt α) (out : Except Halt α × CheckState σ) : Prop where
  answer : out.1 = r
  recalls : T.RecallsAs types out.2.code
  advances : T.Advances code out.2.code

abbrev Ends {σ α : Type} (T : Typing) (code : CompilationUnit) (r : Except Halt α)
    (out : Except Halt α × CheckState σ) : Prop :=
  T.EndsAs T.type code r out

/-- A computation gives an answer whatever of the table is on record, unless the answer ran out
of depth. -/
def YieldsAs {σ α : Type} (T : Typing) (types : NodeId → Except Halt Ty) (action : Check σ α)
    (r : Except Halt α) : Prop :=
  r ≠ .error .outOfDepth →
    ∀ s, T.RecallsAs types s.code → T.EndsAs types s.code r (exec action s)

abbrev Yields {σ α : Type} (T : Typing) (action : Check σ α) (r : Except Halt α) : Prop :=
  T.YieldsAs T.type action r

namespace YieldsAs

variable {σ α β : Type} {T : Typing} {types : NodeId → Except Halt Ty} {action : Check σ α}
  {r : Except Halt α}

/-- A computation that gives the same answer everywhere and changes nothing yields it. -/
theorem of_exec (h : ∀ s : CheckState σ, T.RecallsAs types s.code → exec action s = (r, s)) :
    T.YieldsAs types action r := fun _ s hs => by
  rw [h s hs]
  exact ⟨rfl, hs, .refl T s.code⟩

theorem pure (a : α) : T.YieldsAs types (pure a : Check σ α) (.ok a) :=
  of_exec fun _ _ => rfl

theorem fail (error : Error) : T.YieldsAs types (fail error : Check σ α) (.error (.fault error)) :=
  of_exec fun _ _ => rfl

/-- The parts of a sequence yield their answers one after the other. -/
theorem bind {f : α → Check σ β} {g : α → Except Halt β} (h : T.YieldsAs types action r)
    (hf : ∀ a, r = .ok a → T.YieldsAs types (f a) (g a)) :
    T.YieldsAs types (action >>= f) (r >>= g) := by
  intro hr s hs
  rw [exec_bind]
  cases r with
  | error halt =>
    -- The first part fails, and so does the sequence, in the state that it left.
    have hne : (.error halt : Except Halt α) ≠ .error .outOfDepth := by
      rintro ⟨⟩
      exact hr rfl
    have hend := h hne s hs
    generalize exec action s = out at hend
    obtain ⟨a, t⟩ := out
    obtain rfl := hend.answer
    exact ⟨rfl, hend.recalls, hend.advances⟩
  | ok a =>
    have hend := h nofun s hs
    generalize exec action s = out at hend
    obtain ⟨a', t⟩ := out
    obtain rfl := hend.answer
    have hnext := hf a rfl hr t hend.recalls
    exact ⟨hnext.answer, hnext.recalls, hend.advances.trans hnext.advances⟩

/-- What a computation reads of the unit is that of the unit it recalls. -/
theorem code {f : CompilationUnit → Check σ α}
    (h : ∀ c, T.RecallsAs types c → T.YieldsAs types (f c) r) :
    T.YieldsAs types (Check.code >>= f) r := by
  intro hr s hs
  rw [exec_bind, exec_code]
  exact h s.code hs hr s hs

/-- A handler yields the treated error. -/
theorem onFault {handler : Error → Check σ α} {f : Error → Error} (h : T.YieldsAs types action r)
    (hf : ∀ e, T.YieldsAs types (handler e) (.error (.fault (f e)))) :
    T.YieldsAs types (action.onFault handler) (mapFault f r) := by
  intro hr s hs
  have hne : r ≠ .error .outOfDepth := by
    rintro rfl
    exact hr rfl
  have hend := h hne s hs
  rw [exec_onFault]
  generalize exec action s = out at hend
  obtain ⟨a, t⟩ := out
  obtain rfl := hend.answer
  cases a with
  | ok a => exact ⟨rfl, hend.recalls, hend.advances⟩
  | error halt =>
    cases halt with
    | outOfDepth => exact absurd rfl hne
    | fault e =>
      have hnext := hf e nofun t hend.recalls
      exact ⟨hnext.answer, hnext.recalls, hend.advances.trans hnext.advances⟩

theorem foldlM {f : β → NodeId → Check σ β} {g : β → NodeId → Except Halt β}
    {ids : List NodeId} (h : ∀ b, ∀ id ∈ ids, T.YieldsAs types (f b id) (g b id)) (b : β) :
    T.YieldsAs types (ids.foldlM f b) (ids.foldlM g b) := by
  induction ids generalizing b with
  | nil => exact pure b
  | cons id ids ih =>
    rw [List.foldlM_cons, List.foldlM_cons]
    refine (h b id List.mem_cons_self).bind fun b' _ => ?_
    exact ih (fun b id hid => h b id (List.mem_cons_of_mem _ hid)) b'

end YieldsAs

end Typing

end ContractLang
