import ContractLang.Proofs.Runs.Reachable
import ContractLang.Proofs.Scope.Relocate

/-!
# Moving a frame is a translation

Moving a scope to another base is asked of a scope whose variables fill its slots
(`ContractLang.Scope.Filled`), as those of all reachable units do that do not go past the last
address. Then it translates the variables of this scope and does nothing else
(`ContractLang.ScopeTree.remap_translates`). If the new slots do not go past the last address
either, moves do not add up: the last one decides, and moving back to the old entry undoes them.
Past the last address, the order of the slots is no longer that of the variables
(`ContractLang.ScopeTree.remap_past_the_end`).

Here the new slots are counted out by ranks. A program that keeps its names in a table without
an order would collect the variables as the table lists them, sort them by their slots, and
write the new slots into the table one by one (`ContractLang.Scope.moveTable`). In whatever
order the names are listed, this comes to the same translation
(`ContractLang.Scope.Filled.moveTable_eq`).
-/

namespace ContractLang

/-! ### Translations of descriptors -/

theorem Descriptor.shift_of_var {d : Descriptor} {a : Nat} (entry base : Nat)
    (h : d.role = .var a) :
    d.shift entry base = { d with role := .var (Scope.advance base (a - entry)) } := by
  unfold shift
  rw [h]
  rfl

theorem Descriptor.shift_of_slot?_eq_none {d : Descriptor} (entry base : Nat)
    (h : d.role.slot? = none) : d.shift entry base = d := by
  obtain ⟨name, type, role⟩ := d
  cases role with
  | var => cases h
  | const | func => rfl

/-- Of two translations one after the other the second decides, if the first does not go past the
last address. -/
theorem Descriptor.shift_shift {d : Descriptor} {entry base : Nat} (base' : Nat)
    (h : ∀ a, d.role.slot? = some a → base + (a - entry) < Scope.addressSpace) :
    (d.shift entry base).shift base base' = d.shift entry base' := by
  cases hrole : d.role with
  | var a =>
    have hlt := h a (by rw [hrole]; rfl)
    rw [shift_of_var entry base hrole, shift_of_var entry base' hrole, shift_of_var base base' rfl,
      Scope.advance_of_lt hlt, Nat.add_sub_cancel_left]
  | const | func =>
    have hslot : d.role.slot? = none := by rw [hrole]; rfl
    rw [shift_of_slot?_eq_none entry base hslot, shift_of_slot?_eq_none base base' hslot,
      shift_of_slot?_eq_none entry base' hslot]

/-- A variable above the entry that is translated to the entry again stays where it is. -/
theorem Descriptor.shift_self {d : Descriptor} {entry : Nat}
    (h : ∀ a, d.role.slot? = some a → entry ≤ a ∧ a < Scope.addressSpace) :
    d.shift entry entry = d := by
  cases hrole : d.role with
  | var a =>
    obtain ⟨hle, hlt⟩ := h a (by rw [hrole]; rfl)
    rw [shift_of_var entry entry hrole, Scope.advance_of_lt (by omega), Nat.add_sub_cancel' hle,
      ← hrole]
  | const | func => exact shift_of_slot?_eq_none entry entry (by rw [hrole]; rfl)

namespace Scope

/-! ### Moving the variables of a table in place -/

/-- The variables of a table, each by its slot and the number of its entry, as listed. -/
def tableVariables (table : List (String × Descriptor)) : List (Nat × Nat) :=
  table.zipIdx.filterMap fun e => e.1.2.role.slot?.map fun a => (a, e.2)

/-- Writes the next slot into the entry of a variable. -/
def writeSlot (moved : List (String × Descriptor) × Nat) (v : Nat × Nat) :
    List (String × Descriptor) × Nat :=
  (moved.1.modify v.2 fun e => (e.1, { e.2 with role := .var moved.2 }), advance moved.2 1)

/-- A table with its variables moved to the slots from `base` on, with the slot after these: the
variables are sorted by their slots, and each is written the next one. -/
def moveTable (base : Nat) (table : List (String × Descriptor)) :
    List (String × Descriptor) × Nat :=
  ((tableVariables table).mergeSort fun v w => v.1 ≤ w.1).foldl writeSlot (table, advance base 0)

section Table

variable {table order : List (String × Descriptor)} {entry base : Nat}

theorem mem_tableVariables_iff {v : Nat × Nat} : v ∈ tableVariables table ↔
    ∃ e, table[v.2]? = some e ∧ e.2.role.slot? = some v.1 := by
  simp only [tableVariables, List.mem_filterMap, List.mem_zipIdx_iff_getElem?,
    Option.map_eq_some_iff]
  constructor
  · rintro ⟨⟨e, i⟩, he, a, ha, rfl⟩
    exact ⟨e, he, ha⟩
  · rintro ⟨e, he, ha⟩
    exact ⟨(e, v.2), he, v.1, ha, rfl⟩

theorem map_fst_tableVariables :
    (tableVariables table).map (·.1) = table.filterMap fun e => e.2.role.slot? := by
  unfold tableVariables
  rw [List.map_filterMap]
  conv_rhs => rw [← List.zipIdx_map_fst 0 table, List.filterMap_map]
  refine List.filterMap_congr fun e _ => ?_
  cases h : e.1.2.role.slot? <;> simp [h]

/-- No entry is listed twice. -/
theorem nodup_tableVariables : ((tableVariables table).map (·.2)).Nodup := by
  have hnumbers : (table.zipIdx.map (·.2)).Nodup := by
    rw [List.zipIdx_map_snd]
    exact List.nodup_range' 1 Nat.zero_lt_one
  refine List.Pairwise.map _ (fun _ _ h => h)
    (List.pairwise_filterMap.mpr ((List.pairwise_map.mp hnumbers).imp ?_))
  intro e e' hne v hv v' hv'
  obtain ⟨a, -, rfl⟩ := Option.map_eq_some_iff.mp hv
  obtain ⟨a', -, rfl⟩ := Option.map_eq_some_iff.mp hv'
  exact hne

variable (table entry base) in
/-- What has been written by the time that a list of variables has been dealt with. -/
theorem foldl_writeSlot (vs : List (Nat × Nat)) (k : Nat)
    (hslots : vs.map (·.1) = List.range' (entry + k) vs.length)
    (hdistinct : (vs.map (·.2)).Nodup)
    (hmem : ∀ v ∈ vs, v ∈ tableVariables table) :
    vs.foldl writeSlot (table, advance base k) =
      (table.mapIdx fun i e =>
          if i ∈ vs.map (·.2) then (e.1, e.2.shift entry base) else e,
        advance base (k + vs.length)) := by
  induction vs generalizing table k with
  | nil => exact Prod.ext_iff.mpr ⟨List.ext_getElem? fun i => by simp, rfl⟩
  | cons v rest ih =>
    rw [List.map_cons, List.length_cons, List.range'_succ, List.cons.injEq] at hslots
    rw [List.map_cons, List.nodup_cons] at hdistinct
    obtain ⟨e, he, hslot⟩ := mem_tableVariables_iff.mp (hmem v List.mem_cons_self)
    -- The variables that are left are in other entries than the one that is written.
    have hrest : ∀ w ∈ rest, w ∈ tableVariables (writeSlot (table, advance base k) v).1 := by
      intro w hw
      obtain ⟨e', he', hslot'⟩ := mem_tableVariables_iff.mp (hmem w (List.mem_cons_of_mem v hw))
      have hne : v.2 ≠ w.2 := fun heq => hdistinct.1 (heq ▸ List.mem_map_of_mem hw)
      refine mem_tableVariables_iff.mpr ⟨e', ?_, hslot'⟩
      simp [writeSlot, hne, he']
    have hwritten : writeSlot (table, advance base k) v =
        ((writeSlot (table, advance base k) v).1, advance base (k + 1)) :=
      Prod.ext_iff.mpr ⟨rfl, advance_advance⟩
    rw [List.foldl_cons, hwritten, ih _ (k + 1) hslots.2 hdistinct.2 hrest, Prod.mk.injEq]
    refine ⟨List.ext_getElem? fun i => ?_, by rw [List.length_cons, Nat.add_right_comm]; rfl⟩
    rw [List.getElem?_mapIdx, List.getElem?_mapIdx, writeSlot, List.getElem?_modify]
    by_cases hi : v.2 = i
    · subst hi
      have hrole : e.2.role = .var (entry + k) := by
        rw [hslots.1] at hslot
        cases hrole : e.2.role with
        | var a => rw [hrole] at hslot; exact congrArg Role.var (Option.some.inj hslot)
        | const | func => rw [hrole] at hslot; cases hslot
      simp [he, hdistinct.1, Descriptor.shift_of_var entry base hrole]
    · have hmem : i ∈ rest.map (·.2) ↔ i ∈ (v :: rest).map (·.2) := by
        rw [List.map_cons, List.mem_cons, or_iff_right fun heq => hi heq.symm]
      simp only [hi, if_false, id_map', hmem]

end Table

namespace Filled

variable {scope : Scope} {order : List (String × Descriptor)} {base : Nat}

/-- Sorted by slot, the variables are in the slots of the scope one after the other. -/
theorem map_fst_mergeSort (h : scope.Filled) (horder : order.Perm scope.entries) :
    ((tableVariables order).mergeSort fun v w => v.1 ≤ w.1).map (·.1) =
      List.range' scope.entryAddress scope.varCount := by
  have hperm : (((tableVariables order).mergeSort fun v w => v.1 ≤ w.1).map (·.1)).Perm
      (List.range' scope.entryAddress scope.varCount) := by
    refine ((List.mergeSort_perm _ _).map _).trans ?_
    rw [map_fst_tableVariables]
    exact (horder.filterMap _).trans h.slots_perm_varCount
  have hsorted : (((tableVariables order).mergeSort fun v w => v.1 ≤ w.1).map (·.1)).Pairwise
      (· ≤ ·) := by
    have htrans : ∀ u v w : Nat × Nat,
        decide (u.1 ≤ v.1) → decide (v.1 ≤ w.1) → decide (u.1 ≤ w.1) := fun u v w huv hvw =>
      decide_eq_true (Nat.le_trans (of_decide_eq_true huv) (of_decide_eq_true hvw))
    have htotal : ∀ v w : Nat × Nat, decide (v.1 ≤ w.1) || decide (w.1 ≤ v.1) := fun v w => by
      simpa using Nat.le_total v.1 w.1
    exact List.Pairwise.map _ (fun _ _ hle => of_decide_eq_true hle)
      (List.pairwise_mergeSort htrans htotal _)
  exact hperm.eq_of_pairwise (fun _ _ _ _ => Nat.le_antisymm) hsorted (List.pairwise_le_range' 1)

/-- **In whatever order a table lists its names, sorting and renumbering them is the
translation.** -/
theorem moveTable_eq (h : scope.Filled) (horder : order.Perm scope.entries) :
    moveTable base order =
      (order.map fun e => (e.1, e.2.shift scope.entryAddress base),
        advance base scope.varCount) := by
  have hsorted := List.mergeSort_perm (tableVariables order) fun v w => decide (v.1 ≤ w.1)
  have hslots := h.map_fst_mergeSort horder
  have hlength := congrArg List.length hslots
  rw [List.length_map, List.length_range'] at hlength
  have hwritten := foldl_writeSlot order scope.entryAddress base
    ((tableVariables order).mergeSort fun v w => v.1 ≤ w.1) 0 (by rw [hlength]; exact hslots)
    ((hsorted.map _).nodup_iff.mpr nodup_tableVariables) fun v hv => hsorted.mem_iff.mp hv
  rw [hlength, Nat.zero_add] at hwritten
  refine hwritten.trans (Prod.ext_iff.mpr ⟨List.ext_getElem? fun i => ?_, rfl⟩)
  rw [List.getElem?_mapIdx, List.getElem?_map]
  cases he : order[i]? with
  | none => rfl
  | some e =>
    cases hslot : e.2.role.slot? with
    | some a =>
      have hmem : i ∈ ((tableVariables order).mergeSort fun v w => v.1 ≤ w.1).map (·.2) :=
        List.mem_map.mpr
          ⟨(a, i), hsorted.mem_iff.mpr (mem_tableVariables_iff.mpr ⟨e, he, hslot⟩), rfl⟩
      simp only [Option.map_some, if_pos hmem]
    | none => simp [Descriptor.shift_of_slot?_eq_none _ _ hslot]

/-! ### Moves one after the other -/

section Moves

variable {name : String} {base' : Nat}

theorem get?_remap (h : scope.Filled) : (scope.remap base).get? name =
    (scope.get? name).map (Descriptor.shift scope.entryAddress base) := by
  unfold get?
  rw [h.remap_eq]
  induction scope.entries with
  | nil => rfl
  | cons e entries ih =>
    rw [List.map_cons, List.lookup_cons, List.lookup_cons, ih]
    cases name == e.1 <;> rfl

/-- Of two moves the second decides, if the first does not go past the last address. -/
theorem remap_remap (h : scope.Filled) (hfits : base + scope.varCount < addressSpace) :
    (scope.remap base).remap base' = scope.remap base' := by
  have hentry : advance base 0 = base :=
    advance_of_lt (Nat.lt_of_le_of_lt (Nat.le_add_right _ _) hfits)
  rw [(Filled.remap hfits).remap_eq, varCount_remap, h.remap_eq, h.remap_eq, hentry]
  simp only [List.map_map, Scope.mk.injEq, true_and, and_true]
  refine List.map_congr_left fun e he => ?_
  have hroom : ∀ a, e.2.role.slot? = some a → base + (a - scope.entryAddress) < addressSpace := by
    intro a ha
    have hlt := (h.mem_slots.mp (List.mem_filterMap.mpr ⟨e, he, ha⟩)).2
    rw [h.next_eq] at hlt
    omega
  simp only [Function.comp_apply, Descriptor.shift_shift base' hroom]

/-- A scope that is moved to where it is stays as it is. -/
theorem remap_entryAddress (h : scope.Filled) : scope.remap scope.entryAddress = scope := by
  have hentries : (scope.entries.map fun e =>
      (e.1, e.2.shift scope.entryAddress scope.entryAddress)) = scope.entries := by
    refine List.map_congr_left (g := id) (fun e he => ?_) |>.trans (List.map_id _)
    rw [Descriptor.shift_self fun a ha => ?_]
    · rfl
    · have hbounds := h.mem_slots.mp (List.mem_filterMap.mpr ⟨e, he, ha⟩)
      exact ⟨hbounds.1, Nat.lt_trans hbounds.2 h.next_lt⟩
  rw [h.remap_eq, hentries, advance_of_lt h.fits, ← h.next_eq,
    advance_of_lt (Nat.lt_of_le_of_lt h.entry_le_next h.next_lt), Nat.add_zero]

end Moves

end Filled

end Scope

namespace ScopeTree

variable {t t' : ScopeTree} {s : ScopeId} {base base' : Nat}

/-- Trees with the same scopes and the same pool are the same. -/
theorem eq_of_scope_eq (hsize : t.scopes.size = t'.scopes.size)
    (hscope : ∀ c, t.scope c = t'.scope c) (hpool : t.pool = t'.pool) : t = t' := by
  obtain ⟨scopes, pool⟩ := t
  obtain ⟨scopes', pool'⟩ := t'
  obtain rfl : scopes = scopes' := Array.ext hsize fun i hi hi' => by
    have hi' := hscope i
    simpa [scope, Array.getD, hi, hsize ▸ hi] using hi'
  obtain rfl : pool = pool' := hpool
  rfl

/-- Moving a scope twice comes to a move if it does for the scope alone. -/
theorem remap_remap_of_scope (hs : s < t.scopes.size) {scope : Scope}
    (h : ((t.scope s).remap base).remap base' = scope)
    (hself : t'.scope s = scope) (hne : ∀ c, c ≠ s → t'.scope c = t.scope c)
    (hsize : t'.scopes.size = t.scopes.size) (hpool : t'.pool = t.pool) :
    (t.remap s base).remap s base' = t' := by
  have hsize' : (t.remap s base).scopes.size = t.scopes.size := size_modifyScope
  refine eq_of_scope_eq (size_modifyScope.trans (hsize'.trans hsize.symm)) (fun c => ?_) hpool.symm
  by_cases hc : c = s
  · subst hc
    rw [scope_remap_self (hsize' ▸ hs), scope_remap_self hs, h, hself]
  · rw [scope_remap_of_ne hc, scope_remap_of_ne hc, hne c hc]

/-- **One tree is another with the variables of one scope translated**, and all else as it was: the
variable that is `k` slots above the entry comes to `place k`, and keeps its name and its type;
the other names of the scope, the order and the name of the scope and where it lies, all other
scopes and the pool are the same. -/
structure Translates (t t' : ScopeTree) (s : ScopeId) (place : Nat → Nat) : Prop where
  moved : ∀ name d a, (t.scope s).get? name = some d → d.role = .var a →
    (t'.scope s).get? name = some { d with role := .var (place (a - (t.scope s).entryAddress)) }
  kept : ∀ name, (t.scope s).slot? name = none →
    (t'.scope s).get? name = (t.scope s).get? name
  entryAddress : (t'.scope s).entryAddress = place 0
  nextAddress : (t'.scope s).nextAddress = place (t.scope s).varCount
  names : (t'.scope s).entries.map (·.1) = (t.scope s).entries.map (·.1)
  label : (t'.scope s).name = (t.scope s).name
  parent : (t'.scope s).parent = (t.scope s).parent
  scopes : ∀ c, c ≠ s → t'.scope c = t.scope c
  size : t'.scopes.size = t.scopes.size
  pool : t'.pool = t.pool

/-- Places matter only up to the number of variables. -/
theorem Translates.congr {place place' : Nat → Nat} (h : t.Translates t' s place)
    (hfilled : (t.scope s).Filled) (hplace : ∀ k ≤ (t.scope s).varCount, place k = place' k) :
    t.Translates t' s place' where
  __ := h
  moved := by
    intro name d a hget hrole
    have hmem : a ∈ (t.scope s).slots :=
      List.mem_filterMap.mpr ⟨_, Scope.mem_of_get? hget, by rw [hrole]; rfl⟩
    have hlt := (hfilled.mem_slots.mp hmem).2
    rw [hfilled.next_eq] at hlt
    rw [← hplace _ (by omega)]
    exact h.moved name d a hget hrole
  entryAddress := h.entryAddress.trans (hplace 0 (Nat.zero_le _))
  nextAddress := h.nextAddress.trans (hplace _ (Nat.le_refl _))

theorem translates_remap (hs : s < t.scopes.size) (hfilled : (t.scope s).Filled) (base : Nat) :
    t.Translates (t.remap s base) s (Scope.advance base) where
  moved := by
    intro name d a hget hrole
    rw [scope_remap_self hs, hfilled.get?_remap, hget, Option.map_some,
      Descriptor.shift_of_var _ _ hrole]
  kept := by
    intro name hslot
    rw [scope_remap_self hs, hfilled.get?_remap]
    cases hget : (t.scope s).get? name with
    | none => rfl
    | some d =>
      rw [Scope.slot?, hget, Option.bind_some] at hslot
      rw [Option.map_some, Descriptor.shift_of_slot?_eq_none _ _ hslot]
  entryAddress := by
    rw [scope_remap_self hs]
    rfl
  nextAddress := by
    rw [scope_remap_self hs]
    rfl
  names := by
    rw [scope_remap_self hs, Scope.map_fst_remap]
  label := by
    rw [scope_remap_self hs]
    rfl
  parent := parent_remap
  scopes := fun _ => scope_remap_of_ne
  size := size_modifyScope
  pool := rfl

/-- **Remapping is a translation of exactly one frame.** All scopes of a unit that is reached
without overwriting descriptors are filled if they do not go past the last address. Moving a
filled scope to any base translates its variables to the slots that are counted from it and
changes nothing else. The table that results, and the next slot, are what sorting and renumbering
the variables in place gives, in whatever order the table lists the names. If the new slots do
not go past the last address, then they are the base plus the distances from the old entry, of
two moves the second decides, and moving the scope back to its old entry restores the tree. -/
theorem remap_translates :
    (∀ code : CompilationUnit, (code.Reachable fun e => ¬e.Overwrites) →
      ∀ s, (code.scopes.scope s).Fits → (code.scopes.scope s).Filled) ∧
    ∀ (t : ScopeTree) (s : ScopeId) (base : Nat), s < t.scopes.size → (t.scope s).Filled →
      let moved := t.remap s base
      t.Translates moved s (Scope.advance base) ∧
      (∀ order : List (String × Descriptor), order.Perm (t.scope s).entries →
        (Scope.moveTable base order).1.Perm (moved.scope s).entries ∧
        (Scope.moveTable base order).2 = (moved.scope s).nextAddress) ∧
      (base + (t.scope s).varCount < Scope.addressSpace →
        t.Translates moved s (base + ·) ∧
        (∀ base', moved.remap s base' = t.remap s base') ∧
        moved.remap s (t.scope s).entryAddress = t) := by
  refine ⟨fun code hcode s => (hcode.dense s).filled, fun t s base hs hfilled =>
    ⟨translates_remap hs hfilled base, fun order horder => ?_, fun hfits =>
      ⟨(translates_remap hs hfilled base).congr hfilled fun k hk =>
        Scope.advance_of_lt (by omega), fun base' => ?_, ?_⟩⟩⟩
  · rw [scope_remap_self hs, hfilled.moveTable_eq horder, hfilled.remap_eq]
    exact ⟨horder.map _, rfl⟩
  · have hmoved := translates_remap hs hfilled base'
    exact remap_remap_of_scope hs (hfilled.remap_remap hfits) (scope_remap_self hs) hmoved.scopes
      hmoved.size hmoved.pool
  · exact remap_remap_of_scope hs ((hfilled.remap_remap hfits).trans hfilled.remap_entryAddress)
      rfl (fun _ _ => rfl) rfl rfl

/-- A frame with two variables, a constant and a function. -/
def mixedFrame : CompilationUnit :=
  CompilationUnit.initial
    |>.edited (.openScope "inlined" 0)
    |>.edited (.declareVar 1 "a" .uint64)
    |>.edited (.declareConst 1 "C" .uint64 "9")
    |>.edited (.declareFunc 1 "f" .unknown)
    |>.edited (.declareVar 1 "b" .bytes)

theorem reachable_mixedFrame : mixedFrame.Reachable fun e => ¬e.Overwrites :=
  CompilationUnit.Reachable.initial "global"
    |>.edit (e := .openScope "inlined" 0) id
    |>.edit (e := .declareVar 1 "a" .uint64) id
    |>.edit (e := .declareConst 1 "C" .uint64 "9") id
    |>.edit (e := .declareFunc 1 "f" .unknown) id
    |>.edit (e := .declareVar 1 "b" .bytes) id

/-- A frame that is moved by less than its length, with its table listed backwards. -/
theorem remap_translates_mixedFrame :
    let t := mixedFrame.scopes
    (t.scope 1).Filled ∧ (t.scope 1).slot? "b" = some 1 ∧
    t.Translates (t.remap 1 1) 1 (1 + ·) ∧ ((t.remap 1 1).scope 1).slot? "b" = some 2 ∧
    (Scope.moveTable 1 (t.scope 1).entries.reverse).1.Perm ((t.remap 1 1).scope 1).entries ∧
    (t.remap 1 1).remap 1 10 = t.remap 1 10 ∧ (t.remap 1 1).remap 1 0 = t := by
  have hfilled := remap_translates.1 mixedFrame reachable_mixedFrame 1 (by decide)
  obtain ⟨-, horder, hfitting⟩ := remap_translates.2 mixedFrame.scopes 1 1 (by decide) hfilled
  obtain ⟨htranslates, htwice, hback⟩ := hfitting (by decide)
  exact ⟨hfilled, by decide, htranslates, by decide, (horder _ (List.reverse_perm _)).1,
    htwice 10, hback⟩

/-- **Past the last address a frame is torn apart**: when the frame is moved to the last address,
its second variable comes to slot 0 and the next slot is 1. So it is the second one that moving
the frame back puts first. -/
theorem remap_past_the_end :
    let t := mixedFrame.scopes
    let moved := t.remap 1 (Scope.addressSpace - 1)
    (t.scope 1).Filled ∧ (t.scope 1).varCount = 2 ∧
    (moved.scope 1).slot? "a" = some (Scope.addressSpace - 1) ∧
    (moved.scope 1).slot? "b" = some 0 ∧ (moved.scope 1).nextAddress = 1 ∧
    ¬t.Translates moved 1 (Scope.addressSpace - 1 + ·) ∧
    ((moved.remap 1 0).scope 1).slot? "a" = some 1 ∧ (t.scope 1).entryAddress = 0 ∧
    moved.remap 1 (t.scope 1).entryAddress ≠ t ∧ moved.remap 1 0 ≠ t.remap 1 0 := by
  have hfilled := (reachable_mixedFrame.dense 1).filled (by decide)
  refine ⟨hfilled, by decide, by decide, by decide, by decide, fun htranslates => ?_, by decide,
    rfl, fun hback => ?_, fun htwice => ?_⟩
  · exact absurd htranslates.nextAddress (by decide)
  · exact absurd (congrArg (fun t => (t.scope 1).slot? "a") hback) (by decide)
  · exact absurd (congrArg (fun t => (t.scope 1).slot? "a") htwice) (by decide)

end ScopeTree

end ContractLang
