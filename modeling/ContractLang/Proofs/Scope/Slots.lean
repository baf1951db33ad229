import ContractLang.Scope.Basic
import Mathlib.Data.List.Basic
import Mathlib.Data.List.Nodup
import Mathlib.Data.List.Pairwise
import Mathlib.Data.List.Perm.Subperm

/-!
# The slots of a scope

The variables of a scope take up its slots one for one: there is a variable in each slot
from the entry of the scope up to the slot that is to be given next, and no two variables
are in the same one (`ContractLang.Scope.Dense`). Every operation on a scope keeps this up.
Addresses are counted past the last one here. A scope that ends before it
(`ContractLang.Scope.Fits`) takes up a range of addresses.

Moving a scope numbers its variables anew by their rank. Whatever slots they are in, the ranks
are the numbers below the number of variables (`ContractLang.Scope.ranks_perm`). If the
variables fill the slots of the scope (`ContractLang.Scope.Filled`), as those of a dense one that
fits do, then the ranks are the distances of the slots from the entry, and moving is a
translation (`ContractLang.Scope.Filled.remap_eq`): the order in which a table lists its
variables does not show.
-/

namespace ContractLang

/-! ### Translations -/

/-- A role with its slot, if it has one, translated from one entry address to another. -/
def Role.shift (entry base : Nat) : Role → Role
  | .var address => .var (Scope.advance base (address - entry))
  | .const offset value => .const offset value
  | .func binding => .func binding

/-- A descriptor with its slot, if it has one, translated. -/
def Descriptor.shift (entry base : Nat) (d : Descriptor) : Descriptor :=
  { d with role := d.role.shift entry base }

namespace Scope

/-- The slot of a variable that a scope itself declares. -/
def slot? (scope : Scope) (name : String) : Option Nat :=
  (scope.get? name).bind fun d => d.role.slot?

/-- The slots of the variables, in order of declaration. -/
def slots (scope : Scope) : List Nat :=
  scope.entries.filterMap fun e => e.2.role.slot?

/-- **The slots of a scope are dense**: every name has one entry, which goes by that name,
and the variables are in the slots from the entry address on, one in each, up to the slot
that is to be given next. -/
structure Dense (scope : Scope) : Prop where
  distinct : (scope.entries.map (·.1)).Nodup
  named : ∀ e ∈ scope.entries, e.2.name = e.1
  slots : scope.slots.Perm ((List.range scope.varCount).map (advance scope.entryAddress))
  next : scope.nextAddress = advance scope.entryAddress scope.varCount

/-- The next slot of a scope is reached from its entry without going past the last address. -/
def Fits (scope : Scope) : Prop :=
  scope.entryAddress + scope.varCount < addressSpace

instance : DecidablePred Fits := fun _ => inferInstanceAs (Decidable (_ < _))

variable {scope : Scope} {name other : String} {d old : Descriptor} {a base : Nat}

theorem length_slots : scope.slots.length = scope.varCount := by
  unfold slots varCount
  exact List.length_filterMap_eq_countP

/-- A name that stands for no variable is given no slot. -/
theorem slots_insert (hslot : d.role.slot? = none) : (scope.insert name d).slots = scope.slots := by
  simp [slots, insert, hslot]

theorem varCount_insert (hslot : d.role.slot? = none) :
    (scope.insert name d).varCount = scope.varCount := by
  rw [← length_slots, ← length_slots, slots_insert hslot]

theorem slots_declareVar {type : Ty} :
    (scope.declareVar name type).slots = scope.slots ++ [scope.nextAddress] := by
  simp [slots, declareVar, insert, Role.slot?]

theorem varCount_declareVar {type : Ty} :
    (scope.declareVar name type).varCount = scope.varCount + 1 := by
  rw [← length_slots, ← length_slots, slots_declareVar, List.length_append, List.length_singleton]

/-! ### Ranks -/

section Ranks

variable {entries : List (String × Descriptor)} {i j b : Nat}

/-- The ranks of the variables, in order of declaration. -/
def ranks (entries : List (String × Descriptor)) : List Nat :=
  entries.zipIdx.filterMap fun e => e.1.2.role.slot?.map (rank entries e.2)

theorem length_ranks :
    (ranks entries).length = entries.countP fun e => e.2.role.slot?.isSome := by
  conv_rhs => rw [← List.zipIdx_map_fst 0 entries, List.countP_map]
  rw [ranks, List.length_filterMap_eq_countP]
  refine List.countP_congr fun e _ => ?_
  simp

/-- An element that is counted makes a difference to the count before and after it. -/
theorem countP_take_lt {α : Type} {p : α → Bool} {l : List α} (hi : i < l.length) (hij : i < j)
    (hp : p l[i]) : (l.take i).countP p < (l.take j).countP p := by
  have hsucc : (l.take (i + 1)).countP p = (l.take i).countP p + 1 := by
    rw [List.take_succ_eq_append_getElem hi, List.countP_append, List.countP_singleton, if_pos hp]
  have hle : (l.take (i + 1)).countP p ≤ (l.take j).countP p :=
    (List.take_sublist_take_left hij).countP_le
  omega

/-- The variables up to a slot are those below it and those in it. -/
theorem countP_le_eq (entries : List (String × Descriptor)) (a : Nat) :
    entries.countP (fun e => e.2.role.slot?.any (· ≤ a)) =
      entries.countP (fun e => e.2.role.slot?.any (· < a)) +
        entries.countP (fun e => e.2.role.slot? == some a) := by
  induction entries with
  | nil => rfl
  | cons e entries ih =>
    rw [List.countP_cons, List.countP_cons, List.countP_cons, ih]
    cases e.2.role.slot? with
    | none => simp
    | some b =>
      rcases Nat.lt_trichotomy b a with hlt | rfl | hgt
      · simp [hlt, Nat.le_of_lt hlt, Nat.ne_of_lt hlt]
        omega
      · simp
        omega
      · simp [Nat.not_le.mpr hgt, Nat.not_lt_of_gt hgt, Nat.ne_of_gt hgt]

/-- A variable is not counted in its own rank. -/
theorem rank_lt_countP (hi : i < entries.length) (ha : entries[i].2.role.slot? = some a) :
    rank entries i a < entries.countP fun e => e.2.role.slot?.any (· ≤ a) := by
  have hself := countP_take_lt (p := fun e : String × Descriptor => e.2.role.slot? == some a) hi hi
    (by simp [ha])
  rw [List.take_length] at hself
  rw [countP_le_eq, rank]
  omega

/-- Variables in lower slots have lower ranks. -/
theorem rank_lt_rank (hi : i < entries.length) (ha : entries[i].2.role.slot? = some a)
    (hab : a < b) : rank entries i a < rank entries j b := by
  have hbelow : (entries.countP fun e => e.2.role.slot?.any (· ≤ a)) ≤
      entries.countP fun e => e.2.role.slot?.any (· < b) := by
    refine List.countP_mono_left fun e _ he => ?_
    obtain ⟨c, hc, hca⟩ := (Option.any_eq_true _ _).mp he
    exact (Option.any_eq_true _ _).mpr
      ⟨c, hc, decide_eq_true (Nat.lt_of_le_of_lt (of_decide_eq_true hca) hab)⟩
  have hself := rank_lt_countP hi ha
  exact Nat.lt_of_lt_of_le (Nat.lt_of_lt_of_le hself hbelow) (Nat.le_add_right _ _)

/-- Of two variables, the one that is declared first has another rank. -/
theorem rank_ne (hi : i < entries.length) (ha : entries[i].2.role.slot? = some a)
    (hj : j < entries.length) (hb : entries[j].2.role.slot? = some b) (hij : i < j) :
    rank entries i a ≠ rank entries j b := by
  rcases Nat.lt_trichotomy a b with hlt | rfl | hgt
  · exact Nat.ne_of_lt (rank_lt_rank hi ha hlt)
  · have htake := countP_take_lt (p := fun e : String × Descriptor => e.2.role.slot? == some a)
      hi hij (by simp [ha])
    rw [rank, rank]
    omega
  · exact Nat.ne_of_gt (rank_lt_rank hj hb hgt)

/-- **The ranks of the variables are the numbers below their count**, each once, whatever slots
they are in. -/
theorem ranks_perm (entries : List (String × Descriptor)) :
    (ranks entries).Perm (List.range (entries.countP fun e => e.2.role.slot?.isSome)) := by
  have hnodup : (ranks entries).Nodup := by
    refine List.pairwise_filterMap.mpr (List.pairwise_iff_getElem.mpr fun i j hi hj hij => ?_)
    rw [List.length_zipIdx] at hi hj
    simp only [List.getElem_zipIdx, Nat.zero_add, Option.map_eq_some_iff]
    rintro _ ⟨a, ha, rfl⟩ _ ⟨b, hb, rfl⟩
    exact rank_ne hi ha hj hb hij
  have hsubset : ranks entries ⊆ List.range (entries.countP fun e => e.2.role.slot?.isSome) := by
    intro r hr
    obtain ⟨⟨e, i⟩, hmem, hrank⟩ := List.mem_filterMap.mp hr
    obtain ⟨a, ha, rfl⟩ := Option.map_eq_some_iff.mp hrank
    obtain ⟨hi, he⟩ := List.getElem?_eq_some_iff.mp (List.mem_zipIdx_iff_getElem?.mp hmem)
    rw [← he] at ha
    refine List.mem_range.mpr (Nat.lt_of_lt_of_le (rank_lt_countP hi ha) ?_)
    refine List.countP_mono_left fun e _ he => ?_
    obtain ⟨c, hc, -⟩ := (Option.any_eq_true _ _).mp he
    exact Option.isSome_iff_exists.mpr ⟨c, hc⟩
  refine (List.subperm_of_subset hnodup hsubset).perm_of_length_le (Nat.le_of_eq ?_)
  rw [List.length_range, length_ranks]

theorem fst_remapEntry (entries : List (String × Descriptor)) (base index : Nat)
    (e : String × Descriptor) : (remapEntry entries base index e).1 = e.1 := by
  unfold remapEntry
  split <;> rfl

theorem name_remapEntry (entries : List (String × Descriptor)) (base index : Nat)
    (e : String × Descriptor) : (remapEntry entries base index e).2.name = e.2.name := by
  unfold remapEntry
  split <;> rfl

/-- Moving a scope leaves the names and their order as they are. -/
theorem map_fst_remap (base : Nat) :
    (scope.remap base).entries.map (·.1) = scope.entries.map (·.1) :=
  List.ext_getElem (by simp [remap]) fun i hi hi' => by simp [remap, fst_remapEntry]

/-- Moving a scope puts its variables into the slots that their ranks give. -/
theorem slots_remap (base : Nat) :
    (scope.remap base).slots = (ranks scope.entries).map (advance base) := by
  rw [slots, ranks, remap, List.mapIdx_eq_zipIdx_map, List.filterMap_map, List.map_filterMap]
  refine List.filterMap_congr fun e _ => ?_
  unfold remapEntry
  cases hrole : e.1.2.role <;> simp [hrole, Role.slot?]

/-- Counting from the entry of a scope that has been moved is counting from the base. -/
theorem advance_entryAddress_remap (base k : Nat) :
    advance (scope.remap base).entryAddress k = advance base k := by
  rw [remap, advance_advance, Nat.zero_add]

theorem varCount_remap (base : Nat) : (scope.remap base).varCount = scope.varCount := by
  rw [← length_slots, slots_remap, List.length_map, length_ranks, varCount]

/-- **Wherever a scope is moved to, its slots are counted from there**, one for each variable. -/
theorem slots_remap_perm (base : Nat) : (scope.remap base).slots.Perm
    ((List.range (scope.remap base).varCount).map (advance (scope.remap base).entryAddress)) := by
  rw [slots_remap, varCount_remap, funext (advance_entryAddress_remap base)]
  exact (ranks_perm scope.entries).map _

theorem next_remap (base : Nat) : (scope.remap base).nextAddress =
    advance (scope.remap base).entryAddress (scope.remap base).varCount := by
  rw [varCount_remap, advance_entryAddress_remap]
  rfl

end Ranks

/-- How many numbers of a range lie below one of them, or below the next. -/
theorem countP_lt_range' (entry count : Nat) (ha : entry ≤ a ∧ a ≤ entry + count) :
    (List.range' entry count).countP (· < a) = a - entry := by
  induction count with
  | zero => simp; omega
  | succ count ih =>
    rw [List.range'_1_concat, List.countP_append, List.countP_singleton]
    rcases Nat.lt_or_ge (entry + count) a with hlt | hge
    · have hall : (List.range' entry count).countP (· < a) = count := by
        have hle : ∀ b ∈ List.range' entry count, decide (b < a) = true := by
          intro b hb
          have hb' := List.mem_range'_1.mp hb
          exact decide_eq_true (by omega)
        rw [List.countP_eq_length.mpr hle, List.length_range']
      rw [hall, if_pos (decide_eq_true hlt)]
      omega
    · rw [ih ⟨ha.1, hge⟩, if_neg (by simpa using hge), Nat.add_zero]

/-- Less than once round, the addresses from one on are different. -/
theorem nodup_map_advance {count : Nat} (hcount : count ≤ addressSpace) :
    ((List.range count).map (advance a)).Nodup := by
  refine List.Nodup.map_on (fun m hm n hn => ?_) List.nodup_range
  exact (advance_inj (Nat.lt_of_lt_of_le (List.mem_range.mp hm) hcount)
    (Nat.lt_of_lt_of_le (List.mem_range.mp hn) hcount)).mp

/-! ### Filled scopes -/

/-- **The variables of a scope fill its slots**: they are in different ones, which are those
from the entry address on, up to the slot that is to be given next. -/
structure Filled (scope : Scope) : Prop where
  nodup : scope.slots.Nodup
  mem_slots : ∀ {a : Nat}, a ∈ scope.slots ↔ scope.entryAddress ≤ a ∧ a < scope.nextAddress
  entry_le_next : scope.entryAddress ≤ scope.nextAddress
  next_lt : scope.nextAddress < addressSpace

/-- Variables in different slots differ by their slots. -/
theorem pairwise_slots (h : scope.slots.Nodup) : scope.entries.Pairwise fun e e' =>
    ∀ b, e.2.role.slot? = some b → ∀ b', e'.2.role.slot? = some b' → b ≠ b' :=
  List.pairwise_filterMap.mp h

namespace Filled

/-- Addresses that are counted without passing the last one are a range. -/
theorem of_perm (hslots : scope.slots.Perm
      ((List.range scope.varCount).map (advance scope.entryAddress)))
    (hnext : scope.nextAddress = advance scope.entryAddress scope.varCount)
    (hfits : scope.Fits) : scope.Filled where
  nodup := hslots.nodup_iff.mpr <| nodup_map_advance <|
    Nat.le_of_lt (Nat.lt_of_le_of_lt (Nat.le_add_left _ _) hfits)
  mem_slots := by
    intro a
    have hcounted : ∀ k < scope.varCount, advance scope.entryAddress k = scope.entryAddress + k :=
      fun k hk => advance_of_lt (by unfold Fits at hfits; omega)
    rw [hslots.mem_iff, hnext, advance_of_lt hfits, List.mem_map]
    constructor
    · rintro ⟨k, hk, rfl⟩
      rw [hcounted k (List.mem_range.mp hk)]
      have hlt := List.mem_range.mp hk
      omega
    · rintro ⟨hentry, hlt⟩
      have hk : a - scope.entryAddress < scope.varCount := by omega
      exact ⟨_, List.mem_range.mpr hk, by rw [hcounted _ hk]; omega⟩
  entry_le_next := by
    rw [hnext, advance_of_lt hfits]
    exact Nat.le_add_right _ _
  next_lt := hnext ▸ advance_lt

section

variable (h : scope.Filled)

include h

/-- The slots of a filled scope are a range, in some order. -/
theorem slots_perm : scope.slots.Perm
    (List.range' scope.entryAddress (scope.nextAddress - scope.entryAddress)) := by
  refine (List.perm_ext_iff_of_nodup h.nodup (List.nodup_range' 1 Nat.zero_lt_one)).mpr
    fun a => ?_
  have hle := h.entry_le_next
  rw [h.mem_slots, List.mem_range'_1]
  omega

/-- A filled scope has as many variables as slots. -/
theorem next_eq : scope.nextAddress = scope.entryAddress + scope.varCount := by
  have hlength := h.slots_perm.length_eq
  have hle := h.entry_le_next
  rw [length_slots, List.length_range'] at hlength
  omega

theorem fits : scope.Fits := by
  rw [Fits, ← h.next_eq]
  exact h.next_lt

theorem slots_perm_varCount :
    scope.slots.Perm (List.range' scope.entryAddress scope.varCount) := by
  have hperm := h.slots_perm
  rwa [h.next_eq, Nat.add_sub_cancel_left] at hperm

/-- **The rank of a variable** is the distance of its slot from the entry. -/
theorem rank_eq {i : Nat} (hi : i < scope.entries.length)
    (ha : scope.entries[i].2.role.slot? = some a) :
    rank scope.entries i a = a - scope.entryAddress := by
  have hmem : a ∈ scope.slots := List.mem_filterMap.mpr ⟨_, List.getElem_mem hi, ha⟩
  have hbounds := List.mem_range'_1.mp (h.slots_perm_varCount.mem_iff.mp hmem)
  have hlower : scope.entries.countP (fun e => e.2.role.slot?.any (· < a)) =
      a - scope.entryAddress := by
    rw [← countP_lt_range' scope.entryAddress scope.varCount ⟨hbounds.1, Nat.le_of_lt hbounds.2⟩,
      ← h.slots_perm_varCount.countP_eq, Scope.slots, List.countP_filterMap]
    refine List.countP_congr fun e _ => ?_
    cases e.2.role.slot? <;> simp
  -- No variable shares the slot, so the order of declaration does not come into it.
  have hsame : (scope.entries.take i).countP (fun e => e.2.role.slot? == some a) = 0 := by
    refine List.countP_eq_zero.mpr fun e he hslot => ?_
    obtain ⟨j, hj, rfl⟩ := List.mem_take_iff_getElem.mp he
    exact List.pairwise_iff_getElem.mp (pairwise_slots h.nodup) j i (by omega) hi (by omega) a
      (by simpa using hslot) a ha rfl
  rw [rank, hlower, hsame, Nat.add_zero]

/-- **Moving a scope translates its variables** and does nothing else. -/
theorem remap_eq (base : Nat) : scope.remap base =
    { scope with
      entries := scope.entries.map fun e => (e.1, e.2.shift scope.entryAddress base)
      entryAddress := advance base 0
      nextAddress := advance base scope.varCount } := by
  have hentries : scope.entries.mapIdx (remapEntry scope.entries base) =
      scope.entries.map fun e => (e.1, e.2.shift scope.entryAddress base) := by
    refine List.ext_getElem (by simp) fun i hi _ => ?_
    have hi' : i < scope.entries.length := by simpa using hi
    rw [List.getElem_mapIdx, List.getElem_map]
    unfold remapEntry Descriptor.shift
    cases hrole : scope.entries[i].2.role with
    | var a =>
      have hrank := h.rank_eq hi' (by rw [hrole]; rfl : scope.entries[i].2.role.slot? = some a)
      simp only [hrank, Role.shift]
    | const | func => simp only [Role.shift, ← hrole]
  unfold remap
  rw [hentries]

end

/-- A scope that is moved to where it fits fills its new slots. -/
theorem remap (hfits : base + scope.varCount < addressSpace) : (scope.remap base).Filled := by
  have hentry : (scope.remap base).entryAddress = base :=
    advance_of_lt (Nat.lt_of_le_of_lt (Nat.le_add_right _ _) hfits)
  exact .of_perm (slots_remap_perm base) (next_remap base) (by rwa [Fits, hentry, varCount_remap])

end Filled

/-! ### Tables with one entry for each name -/

/-- What is looked up is an entry of the name. -/
theorem mem_of_get? (h : scope.get? name = some d) : (name, d) ∈ scope.entries := by
  obtain ⟨before, after, hentries, -⟩ := List.lookup_eq_some_iff.mp h
  simp [hentries]

/-- The entries of a table with one for each name are what is looked up. -/
theorem get?_of_mem (hdistinct : (scope.entries.map (·.1)).Nodup)
    (hmem : (name, d) ∈ scope.entries) : scope.get? name = some d := by
  obtain ⟨before, after, hentries⟩ := List.append_of_mem hmem
  refine List.lookup_eq_some_iff.mpr ⟨before, after, hentries, fun e he => ?_⟩
  rw [hentries, List.map_append, List.map_cons, List.nodup_append] at hdistinct
  have hne := hdistinct.2.2 e.1 (List.mem_map_of_mem he) name List.mem_cons_self
  simpa using fun heq : name = e.1 => hne heq.symm

theorem not_mem_of_not_declares (h : ¬scope.declares name) :
    name ∉ scope.entries.map (·.1) := by
  rintro hmem
  obtain ⟨e, he, rfl⟩ := List.mem_map.mp hmem
  refine h ?_
  unfold declares get?
  rw [List.lookup_isSome_iff]
  exact ⟨e, he, by simp⟩

namespace Dense

/-! ### What is looked up -/

section Lookup

variable (h : scope.Dense)

include h

/-- No two variables are in the same slot unless there are more of them than addresses. -/
theorem nodup_slots_iff : scope.slots.Nodup ↔ scope.varCount ≤ addressSpace := by
  rw [h.slots.nodup_iff]
  constructor
  · intro hnodup
    have hsubset : (List.range scope.varCount).map (advance scope.entryAddress) ⊆
        List.range addressSpace := by
      intro a ha
      obtain ⟨k, -, rfl⟩ := List.mem_map.mp ha
      exact List.mem_range.mpr advance_lt
    simpa using (List.subperm_of_subset hnodup hsubset).length_le
  · exact nodup_map_advance

theorem next_lt : scope.nextAddress < addressSpace :=
  h.next ▸ advance_lt

/-- The slots of the variables are the addresses from the entry on. -/
theorem mem_slots_iff_advance :
    a ∈ scope.slots ↔ ∃ k < scope.varCount, advance scope.entryAddress k = a := by
  simp [h.slots.mem_iff]

/-- The variables of a dense scope that fits fill its slots. -/
theorem filled (hfits : scope.Fits) : scope.Filled :=
  .of_perm h.slots h.next hfits

theorem name_eq (hget : scope.get? name = some d) : d.name = name :=
  h.named (name, d) (mem_of_get? hget)

theorem exists_slot_iff_mem : (∃ name, scope.slot? name = some a) ↔ a ∈ scope.slots := by
  unfold Scope.slots slot?
  simp only [List.mem_filterMap, Option.bind_eq_some_iff]
  constructor
  · rintro ⟨name, d, hget, hslot⟩
    exact ⟨(name, d), mem_of_get? hget, hslot⟩
  · rintro ⟨⟨name, d⟩, hmem, hslot⟩
    exact ⟨name, d, get?_of_mem h.distinct hmem, hslot⟩

/-- **There is a variable in a slot** just if it is one from the entry on, before the next. -/
theorem exists_slot_iff :
    (∃ name, scope.slot? name = some a) ↔ ∃ k < scope.varCount, advance scope.entryAddress k = a :=
  h.exists_slot_iff_mem.trans h.mem_slots_iff_advance

theorem exists_slot_iff_of_fits (hfits : scope.Fits) :
    (∃ name, scope.slot? name = some a) ↔ scope.entryAddress ≤ a ∧ a < scope.nextAddress :=
  h.exists_slot_iff_mem.trans (h.filled hfits).mem_slots

theorem slot_bounds (hfits : scope.Fits) (hslot : scope.slot? name = some a) :
    scope.entryAddress ≤ a ∧ a < scope.nextAddress :=
  (h.exists_slot_iff_of_fits hfits).mp ⟨name, hslot⟩

/-- **No two variables are in the same slot.** -/
theorem slot_inj (hcount : scope.varCount ≤ addressSpace) (hname : scope.slot? name = some a)
    (hother : scope.slot? other = some a) : name = other := by
  obtain ⟨d, hd, hda⟩ := Option.bind_eq_some_iff.mp hname
  obtain ⟨d', hd', hda'⟩ := Option.bind_eq_some_iff.mp hother
  have hsymm : Std.Symm fun e e' : String × Descriptor =>
      ∀ b, e.2.role.slot? = some b → ∀ b', e'.2.role.slot? = some b' → b ≠ b' :=
    ⟨fun e e' hee' b hb b' hb' => (hee' b' hb' b hb).symm⟩
  by_contra hne
  exact (pairwise_slots (h.nodup_slots_iff.mpr hcount)).forall (mem_of_get? hd) (mem_of_get? hd')
    (fun heq => hne (Prod.ext_iff.mp heq).1) a hda a hda' rfl

end Lookup

/-! ### Operations -/

/-- A scope with no names in it. -/
theorem fresh (name : String) (parent : Option ScopeId) {address : Nat}
    (haddress : address < addressSpace) : (fresh name parent address).Dense where
  distinct := List.nodup_nil
  named := by simp [Scope.fresh]
  slots := List.Perm.nil
  next := (advance_of_lt (n := 0) haddress).symm

section Operations

variable (h : scope.Dense)

include h

theorem distinct_insert (hnew : ¬scope.declares name) :
    ((scope.insert name d).entries.map (·.1)).Nodup := by
  rw [Scope.insert, List.map_append, List.nodup_append]
  refine ⟨h.distinct, by simp, fun other hother => ?_⟩
  rintro _ hname rfl
  rw [List.mem_singleton.mp hname] at hother
  exact not_mem_of_not_declares hnew hother

theorem named_insert (hname : d.name = name) :
    ∀ e ∈ (scope.insert name d).entries, e.2.name = e.1 := by
  intro e he
  rcases List.mem_append.mp he with he | he
  · exact h.named e he
  · rw [List.mem_singleton.mp he, hname]

/-- Declaring a name that is no variable. -/
theorem insert (hnew : ¬scope.declares name) (hname : d.name = name)
    (hslot : d.role.slot? = none) : (scope.insert name d).Dense := by
  refine ⟨h.distinct_insert hnew, h.named_insert hname, ?_, ?_⟩
  · rw [slots_insert hslot, varCount_insert hslot]
    exact h.slots
  · rw [varCount_insert hslot]
    exact h.next

/-- Declaring a variable. -/
theorem declareVar (hnew : ¬scope.declares name) (type : Ty) :
    (scope.declareVar name type).Dense := by
  refine ⟨h.distinct_insert hnew, h.named_insert rfl, ?_, ?_⟩
  · rw [slots_declareVar, varCount_declareVar, List.range_succ, List.map_append, List.map_singleton,
      show (scope.declareVar name type).entryAddress = scope.entryAddress from rfl, ← h.next]
    exact h.slots.append_right [scope.nextAddress]
  · rw [varCount_declareVar, ← advance_advance]
    exact congrArg (advance · 1) h.next

/-- Replacing a descriptor by one of the same name in the same slot, if any. -/
theorem replace (hget : scope.get? name = some old) (hname : d.name = name)
    (hslot : d.role.slot? = old.role.slot?) : (scope.replace name d).Dense := by
  -- The entry that is replaced is the one that was looked up, as there is no other.
  have hold : ∀ e ∈ scope.entries, e.1 = name → e.2 = old := by
    rintro ⟨name, d⟩ hmem rfl
    exact Option.some.inj ((get?_of_mem h.distinct hmem).symm.trans hget)
  have hslots : (scope.replace name d).slots = scope.slots := by
    unfold Scope.slots Scope.replace
    rw [List.filterMap_map]
    refine List.filterMap_congr fun e he => ?_
    by_cases heq : e.1 = name
    · simp [heq, hslot, hold e he heq]
    · simp [heq]
  have hcount : (scope.replace name d).varCount = scope.varCount := by
    rw [← length_slots, ← length_slots, hslots]
  refine ⟨?_, ?_, ?_, ?_⟩
  · have hnames : (scope.replace name d).entries.map (·.1) = scope.entries.map (·.1) := by
      unfold Scope.replace
      rw [List.map_map]
      refine List.map_congr_left fun e _ => ?_
      by_cases heq : e.1 = name <;> simp [heq]
    rw [hnames]
    exact h.distinct
  · intro e he
    obtain ⟨e', he', rfl⟩ := List.mem_map.mp he
    by_cases heq : e'.1 = name
    · simp [heq, hname]
    · simpa [heq] using h.named e' he'
  · rw [hslots, hcount]
    exact h.slots
  · rw [hcount]
    exact h.next

/-! ### Moving -/

/-- Moving a scope, to wherever it is. -/
theorem remap (base : Nat) : (scope.remap base).Dense where
  distinct := (map_fst_remap base).symm ▸ h.distinct
  named := by
    intro e he
    obtain ⟨i, hi, rfl⟩ := List.mem_mapIdx.mp he
    rw [fst_remapEntry, name_remapEntry]
    exact h.named _ (List.getElem_mem hi)
  slots := slots_remap_perm base
  next := next_remap base

end Operations

end Dense

end Scope

end ContractLang
