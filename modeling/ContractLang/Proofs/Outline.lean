import ContractLang.Proofs.Links

/-!
# Reading an outline back

The outline of a node has a line for every node below it, once for each way to come there, with
the text of the node behind four spaces for each level. It can be read back: if no text has a
line break in it or begins with a space, then nodes with the same outline have the same trees
below them, and the same texts in the same places (`ContractLang.CompilationUnit.outline_faithful`).

The way back goes by three steps. The text is split into lines, and of each line the spaces at
its beginning tell the level (`ContractLang.levelAndText_line`). That leaves the preorder of a
tree with the level of every node, from which the tree is rebuilt
(`ContractLang.RoseTree.forestLevels_injective`): what comes before the next line of the same or
of a lower level is below a node, whatever number of levels the outline returns there.
-/

namespace ContractLang

/-! ### Trees and their preorder -/

/-- A tree whose nodes have any number of subtrees, in order. -/
inductive RoseTree (α : Type) where
  | node (label : α) (subtrees : List (RoseTree α))

namespace RoseTree

variable {α β : Type}

mutual

/-- A tree with its labels replaced. -/
def map (f : α → β) : RoseTree α → RoseTree β
  | node label subtrees => node (f label) (mapForest f subtrees)

/-- A list of trees with their labels replaced. -/
def mapForest (f : α → β) : List (RoseTree α) → List (RoseTree β)
  | [] => []
  | tree :: forest => tree.map f :: mapForest f forest

end

mutual

/-- The labels of a tree in preorder, each with its level. -/
def levels (level : Nat) : RoseTree α → List (Nat × α)
  | node label subtrees => (level, label) :: forestLevels (level + 1) subtrees

/-- The labels of a list of trees in preorder, each with its level. -/
def forestLevels (level : Nat) : List (RoseTree α) → List (Nat × α)
  | [] => []
  | tree :: forest => tree.levels level ++ forestLevels level forest

end

theorem forestLevels_eq_flatMap (level : Nat) (forest : List (RoseTree α)) :
    forestLevels level forest = forest.flatMap (levels level) := by
  induction forest with
  | nil => rfl
  | cons tree forest ih => rw [forestLevels, ih, List.flatMap_cons]

mutual

theorem levels_map (f : α → β) (level : Nat) : ∀ tree : RoseTree α,
    (tree.map f).levels level = (tree.levels level).map fun p => (p.1, f p.2)
  | node label subtrees => by
    rw [map, levels, levels, List.map_cons, forestLevels_mapForest]

theorem forestLevels_mapForest (f : α → β) (level : Nat) : ∀ forest : List (RoseTree α),
    forestLevels level (mapForest f forest) =
      (forestLevels level forest).map fun p => (p.1, f p.2)
  | [] => rfl
  | tree :: forest => by
    rw [mapForest, forestLevels, forestLevels, List.map_append, levels_map,
      forestLevels_mapForest]

end

mutual

/-- No label is on a lower level than the tree. -/
theorem le_of_mem_levels {level : Nat} {p : Nat × α} :
    ∀ tree : RoseTree α, p ∈ tree.levels level → level ≤ p.1
  | node label subtrees, h => by
    rw [levels, List.mem_cons] at h
    rcases h with rfl | h
    · exact Nat.le_refl level
    · exact Nat.le_of_succ_le (le_of_mem_forestLevels subtrees h)

theorem le_of_mem_forestLevels {level : Nat} {p : Nat × α} :
    ∀ forest : List (RoseTree α), p ∈ forestLevels level forest → level ≤ p.1
  | [], h => absurd h List.not_mem_nil
  | tree :: forest, h => by
    rw [forestLevels, List.mem_append] at h
    rcases h with h | h
    · exact le_of_mem_levels tree h
    · exact le_of_mem_forestLevels forest h

end

/-- **Where the preorder of the subtrees of a node ends**: it is what comes before the next label
that is not on a higher level than the node. -/
theorem takeWhile_forestLevels (level : Nat) (subtrees forest : List (RoseTree α)) :
    (forestLevels (level + 1) subtrees ++ forestLevels level forest).takeWhile
      (fun p => level < p.1) = forestLevels (level + 1) subtrees := by
  have hbelow : ∀ p ∈ forestLevels (level + 1) subtrees, decide (level < p.1) = true :=
    fun p hp => decide_eq_true (le_of_mem_forestLevels subtrees hp)
  rw [List.takeWhile_append_of_pos hbelow]
  cases forest with
  | nil => simp [forestLevels]
  | cons tree forest =>
    cases tree
    simp [forestLevels, levels]

/-- **A list of trees can be rebuilt** from its preorder with levels. -/
theorem forestLevels_injective : ∀ (forest forest' : List (RoseTree α)) (level : Nat),
    forestLevels level forest = forestLevels level forest' → forest = forest'
  | [], [], _, _ => rfl
  | [], node _ _ :: _, _, h => by simp [forestLevels, levels] at h
  | node _ _ :: _, [], _, h => by simp [forestLevels, levels] at h
  | node label subtrees :: forest, node label' subtrees' :: forest', level, h => by
    rw [forestLevels, forestLevels, levels, levels, List.cons_append, List.cons_append,
      List.cons.injEq] at h
    obtain ⟨hlabel, hrest⟩ := h
    have hbelow : forestLevels (level + 1) subtrees = forestLevels (level + 1) subtrees' := by
      rw [← takeWhile_forestLevels level subtrees forest, hrest, takeWhile_forestLevels]
    rw [hbelow, List.append_cancel_left_eq] at hrest
    obtain rfl : label = label' := (Prod.ext_iff.mp hlabel).2
    rw [forestLevels_injective subtrees subtrees' (level + 1) hbelow,
      forestLevels_injective forest forest' level hrest]

/-- **A tree can be rebuilt** from its preorder with levels. -/
theorem levels_injective (level : Nat) {tree tree' : RoseTree α}
    (h : tree.levels level = tree'.levels level) : tree = tree' := by
  have hforest : forestLevels level [tree] = forestLevels level [tree'] := by
    simpa only [forestLevels, List.append_nil] using h
  exact (List.cons.inj (forestLevels_injective [tree] [tree'] level hforest)).1

end RoseTree

/-! ### Lines -/

/-- The characters of a text behind four spaces for each level. -/
def indented (level : Nat) (text : String) : List Char :=
  List.replicate (4 * level) ' ' ++ text.toList

/-- The level and the text that a line of an outline tells of. -/
def levelAndText (line : List Char) : Nat × String :=
  ((line.takeWhile (· == ' ')).length / 4, String.ofList (line.dropWhile (· == ' ')))

/-- A text can stand in a line of an outline: it has no line break in it, and does not begin
with a space. -/
def Legible (text : String) : Prop :=
  '\n' ∉ text.toList ∧ text.toList.head? ≠ some ' '

instance (text : String) : Decidable (Legible text) :=
  inferInstanceAs (Decidable (_ ∧ _))

/-- **A line tells its level and its text.** -/
theorem levelAndText_indented {text : String} (level : Nat) (h : Legible text) :
    levelAndText (indented level text) = (level, text) := by
  have hspaces : ∀ c ∈ List.replicate (4 * level) ' ', (c == ' ') = true := fun c hc => by
    rw [List.eq_of_mem_replicate hc]
    rfl
  have htake : text.toList.takeWhile (· == ' ') = [] := by
    cases htext : text.toList with
    | nil => rfl
    | cons c rest =>
      have hc : c ≠ ' ' := fun hc => h.2 (by rw [htext, hc]; rfl)
      simp [hc]
  have hdrop : text.toList.dropWhile (· == ' ') = text.toList := by
    have happend := List.takeWhile_append_dropWhile (p := (· == ' ')) (l := text.toList)
    rwa [htake, List.nil_append] at happend
  unfold levelAndText indented
  rw [List.takeWhile_append_of_pos hspaces, List.dropWhile_append_of_pos hspaces, htake, hdrop,
    List.append_nil, List.length_replicate, Nat.mul_div_cancel_left level (by decide),
    String.ofList_toList]

/-- Lines that are ended by a line break each can be told apart. -/
theorem splitOn_flatMap_snoc {lines : List (List Char)} (h : ∀ line ∈ lines, '\n' ∉ line) :
    (lines.flatMap fun line => line ++ ['\n']).splitOn '\n' = lines ++ [[]] := by
  induction lines with
  | nil => rfl
  | cons line lines ih =>
    rw [List.flatMap_cons, List.append_assoc, List.singleton_append,
      List.splitOn_append_cons_self, List.splitOn_eq_singleton (h line List.mem_cons_self),
      ih fun l hl => h l (List.mem_cons_of_mem line hl), List.singleton_append, List.cons_append]

theorem not_mem_indented {text : String} (level : Nat) (h : Legible text) :
    '\n' ∉ indented level text := by
  intro hmem
  rcases List.mem_append.mp hmem with hspace | htext
  · exact absurd (List.eq_of_mem_replicate hspace) (by decide)
  · exact h.1 htext

theorem toList_pushn_empty (c : Char) (n : Nat) : ("".pushn c n).toList = List.replicate n c := by
  rw [String.pushn_eq_repeat_push]
  induction n with
  | zero => rfl
  | succ n ih => rw [Nat.repeat, String.toList_push, ih, List.replicate_succ']

namespace CompilationUnit

open Relation

variable {code code' : CompilationUnit} {id id' : NodeId}

/-! ### The tree below a node -/

/-- A node is linked to its children. -/
def Child (code : CompilationUnit) (a b : NodeId) : Prop :=
  b ∈ code.children a

/-- No node that is below a given one along children, or is that node, is below itself. -/
def ChildAcyclicFrom (code : CompilationUnit) (a : NodeId) : Prop :=
  ∀ b, ReflTransGen code.Child a b → ¬TransGen code.Child b b

theorem child_le_link : code.Child ≤ code.Link :=
  fun _ _ => .inr

theorem Child.lt_size {a b : NodeId} (h : code.Child a b) : a < code.size :=
  Link.lt_size (.inr h)

/-- A node with the trees of its children, following at most `depth` links downwards. -/
def childTreeWithin (code : CompilationUnit) : (depth : Nat) → NodeId → RoseTree NodeId
  | 0, id => .node id []
  | depth + 1, id => .node id ((code.children id).map (code.childTreeWithin depth))

/-- A node with the trees of its children. -/
def childTree (code : CompilationUnit) (id : NodeId) : RoseTree NodeId :=
  code.childTreeWithin code.size id

theorem ChildAcyclicFrom.tail {child : NodeId} (hcode : code.ChildAcyclicFrom id)
    (h : code.Child id child) : code.ChildAcyclicFrom child :=
  fun b hb => hcode b (.head h hb)

theorem ChildAcyclicFrom.span_lt {child : NodeId} (hcode : code.ChildAcyclicFrom id)
    (h : code.Child id child) : code.span code.Child child < code.span code.Child id :=
  CompilationUnit.span_lt h.lt_size (hcode id .refl) (.single h)

/-- A node with an empty span has no children. -/
theorem ChildAcyclicFrom.children_eq_nil (hcode : code.ChildAcyclicFrom id)
    (h : code.span code.Child id ≤ 0) : code.children id = [] :=
  List.eq_nil_iff_forall_not_mem.mpr fun _ hchild =>
    Nat.not_lt_zero _ (Nat.lt_of_lt_of_le (hcode.span_lt hchild) h)

/-- No more links are followed than there are nodes to come to. -/
theorem childTreeWithin_congr {depth depth' : Nat} (hcode : code.ChildAcyclicFrom id)
    (hdepth : code.span code.Child id ≤ depth) (hdepth' : code.span code.Child id ≤ depth') :
    code.childTreeWithin depth id = code.childTreeWithin depth' id := by
  induction depth generalizing id depth' with
  | zero =>
    cases depth' with
    | zero => rfl
    | succ depth' =>
      rw [childTreeWithin, childTreeWithin, hcode.children_eq_nil hdepth, List.map_nil]
  | succ depth ih =>
    cases depth' with
    | zero => rw [childTreeWithin, childTreeWithin, hcode.children_eq_nil hdepth', List.map_nil]
    | succ depth' =>
      rw [childTreeWithin, childTreeWithin]
      refine congrArg _ (List.map_congr_left fun child hchild => ?_)
      have hspan := hcode.span_lt hchild
      exact ih (hcode.tail hchild) (by omega) (by omega)

/-- **The tree of a node consists of the trees of its children.** -/
theorem childTree_eq (hcode : code.ChildAcyclicFrom id) :
    code.childTree id = .node id ((code.children id).map code.childTree) :=
  childTreeWithin_congr hcode (code.span_le_size _ id)
    (Nat.le_succ_of_le (code.span_le_size _ id))

theorem reflTransGen_of_mem_levels {depth level : Nat} {p : Nat × NodeId}
    (h : p ∈ (code.childTreeWithin depth id).levels level) : ReflTransGen code.Child id p.2 := by
  induction depth generalizing id level with
  | zero =>
    obtain rfl : p = (level, id) := by simpa [childTreeWithin, RoseTree.levels,
      RoseTree.forestLevels] using h
    exact .refl
  | succ depth ih =>
    rw [childTreeWithin, RoseTree.levels, List.mem_cons, RoseTree.forestLevels_eq_flatMap,
      List.flatMap_map, List.mem_flatMap] at h
    rcases h with rfl | ⟨child, hchild, h⟩
    · exact .refl
    · exact .head hchild (ih h)

/-! ### Outlines -/

/-- The walk that prints an outline is the preorder of the tree. -/
theorem outlineWithin_succ (depth level : Nat) (id : NodeId) :
    code.outlineWithin (depth + 1) level id = (code.childTreeWithin depth id).levels level := by
  induction depth generalizing level id with
  | zero =>
    rw [outlineWithin, childTreeWithin, RoseTree.levels, RoseTree.forestLevels]
    simp [outlineWithin]
  | succ depth ih =>
    rw [outlineWithin, childTreeWithin, RoseTree.levels, RoseTree.forestLevels_eq_flatMap,
      List.flatMap_map]
    exact congrArg _ (List.flatMap_congr fun child _ => ih (level + 1) child)

/-- The texts of a node and of all that is below it, in a tree like that of the nodes. -/
def renderTree (code : CompilationUnit) (id : NodeId) : RoseTree String :=
  (code.childTree id).map code.render

theorem toList_outlineLine (p : Nat × NodeId) :
    (code.outlineLine p).toList = indented p.1 (code.render p.2) ++ ['\n'] := by
  rw [outlineLine, String.toList_append, String.toList_append, toList_pushn_empty]
  rfl

/-- **An outline is printed from the preorder of the texts**, one line for each. -/
theorem toList_outline : (code.outline id).toList =
    (((code.renderTree id).levels 0).map fun p => indented p.1 p.2).flatMap
      fun line => line ++ ['\n'] := by
  rw [outline, outlineWithin_succ, String.toList_join, renderTree, RoseTree.levels_map,
    List.map_map, List.flatMap_map, List.flatMap_map]
  exact List.flatMap_congr fun p _ => toList_outlineLine p

/-- The texts of a node and of all that is below it along children can stand in an outline. -/
def LegibleFrom (code : CompilationUnit) (a : NodeId) : Prop :=
  ∀ b, ReflTransGen code.Child a b → Legible (code.render b)

namespace LegibleFrom

variable (h : code.LegibleFrom id)

include h

theorem of_mem_levels {p : Nat × String} (hp : p ∈ (code.renderTree id).levels 0) :
    Legible p.2 := by
  rw [renderTree, RoseTree.levels_map] at hp
  obtain ⟨q, hq, rfl⟩ := List.mem_map.mp hp
  exact h q.2 (reflTransGen_of_mem_levels hq)

/-- The lines of an outline can be told apart. -/
theorem splitOn_outline : (code.outline id).toList.splitOn '\n' =
    ((code.renderTree id).levels 0).map (fun p => indented p.1 p.2) ++ [[]] := by
  rw [toList_outline]
  refine splitOn_flatMap_snoc fun line hline => ?_
  obtain ⟨p, hp, rfl⟩ := List.mem_map.mp hline
  exact not_mem_indented p.1 (h.of_mem_levels hp)

/-- The preorder of the texts can be read off an outline. -/
theorem levels_eq : (code.renderTree id).levels 0 =
    ((code.outline id).toList.splitOn '\n').dropLast.map levelAndText := by
  rw [h.splitOn_outline, List.dropLast_concat, List.map_map]
  refine (List.map_id _).symm.trans (List.map_congr_left fun p hp => ?_)
  exact (levelAndText_indented p.1 (h.of_mem_levels hp)).symm

end LegibleFrom

/-- **Printing an outline is faithful.** Let two nodes have children that are acyclic below them,
and texts without line breaks that do not begin with a space. Then the tree of either is made of
the trees of its children; its outline, split into lines, has exactly one line for each place in
this tree, in preorder, with the text of the node behind its indentation; and the two outlines are
the same just if the trees have the same shape, with the same texts in the same places. -/
theorem outline_faithful (hcode : code.ChildAcyclicFrom id) (hcode' : code'.ChildAcyclicFrom id')
    (h : code.LegibleFrom id) (h' : code'.LegibleFrom id') :
    (∀ b, ReflTransGen code.Child id b →
      code.childTree b = .node b ((code.children b).map code.childTree)) ∧
    (∀ b, ReflTransGen code'.Child id' b →
      code'.childTree b = .node b ((code'.children b).map code'.childTree)) ∧
    (code.outline id).toList.splitOn '\n' =
      ((code.childTree id).levels 0).map (fun p => indented p.1 (code.render p.2)) ++ [[]] ∧
    (code.outline id = code'.outline id' ↔
      (code.childTree id).map code.render = (code'.childTree id').map code'.render) := by
  refine ⟨fun b hb => childTree_eq fun c hc => hcode c (hb.trans hc),
    fun b hb => childTree_eq fun c hc => hcode' c (hb.trans hc), ?_, fun houtline => ?_,
    fun htree => ?_⟩
  · rw [h.splitOn_outline, renderTree, RoseTree.levels_map, List.map_map]
    rfl
  · refine RoseTree.levels_injective 0 ?_
    exact h.levels_eq.trans ((congrArg _ (by rw [houtline])).trans h'.levels_eq.symm)
  · have htexts : code.renderTree id = code'.renderTree id' := htree
    refine String.toList_injective ?_
    rw [toList_outline, toList_outline, htexts]

/-- Whether texts can stand in an outline is a matter of the nodes that exist. -/
theorem legibleFrom_of_forall (h : ∀ a < code.size, Legible (code.render a)) :
    code.LegibleFrom id := by
  intro b _
  rcases Nat.lt_or_ge b code.size with hlt | hge
  · exact h b hlt
  · have hrender : code.render b = "block" := by
      rw [render, renderWithin, node_of_size_le hge]
      rfl
    rw [hrender]
    decide

/-- Children that have smaller numbers are acyclic. -/
theorem childAcyclicFrom_of_forall
    (h : ∀ a < code.size, ∀ b ∈ (code.form a).operands ++ code.children a, b < a) :
    code.ChildAcyclicFrom id := fun b _ hb =>
  acyclic_of_lt (link_lt_of_forall h) b (TransGen.mono child_le_link b b hb)

/-- A program whose only statement stands in a block of a block, and again after it. -/
def sharedBreak : CompilationUnit where
  nodes := #[.ofForm 0 (.breakLoop none), { Node.ofForm 0 .block with children := [0] },
    { Node.ofForm 0 .block with children := [1] },
    { Node.ofForm 0 .program with children := [2, 0] }]
  scopes := .initial "global"

/-- A program that reads the same, with two statements. -/
def twoBreaks : CompilationUnit where
  nodes := #[.ofForm 0 (.breakLoop none), { Node.ofForm 0 .block with children := [0] },
    .ofForm 0 (.breakLoop none), { Node.ofForm 0 .block with children := [1] },
    { Node.ofForm 0 .program with children := [3, 2] }]
  scopes := .initial "global"

/-- The two programs have the same outline, which returns over two levels after the first
statement, and so the same trees of texts. -/
theorem outline_faithful_twoBreaks :
    sharedBreak.outline 3 = twoBreaks.outline 4 ∧
    (sharedBreak.childTree 3).map sharedBreak.render =
      (twoBreaks.childTree 4).map twoBreaks.render := by
  have houtline : sharedBreak.outline 3 = twoBreaks.outline 4 := by decide
  exact ⟨houtline, (outline_faithful (childAcyclicFrom_of_forall (by decide))
    (childAcyclicFrom_of_forall (by decide)) (legibleFrom_of_forall (by decide))
    (legibleFrom_of_forall (by decide))).2.2.2.mp houtline⟩

end CompilationUnit

end ContractLang
