import ContractLang.Literal.Pool
import Mathlib.Data.List.Basic
import Mathlib.Data.List.Nodup

/-!
# Interning

What a request makes of a pool is said once, in a relation with a case for each way in which
it can go (`ContractLang.Pool.Adds`). Two facts about pools follow from it, whatever has been
asked for.

The table of a pool agrees with the two sequences (`ContractLang.Pool.Consistent`): a text is
where the table says, and every place in a sequence is that of one text. And a pool grows at
the ends of its sequences only (`ContractLang.Pool.Extends`), so that a text keeps the place
that it is given at first.
-/

namespace ContractLang

/-- An element of a list with one more at the end is one of the list or the new one. -/
theorem getElem?_concat_eq_some_iff {α : Type} {l : List α} {a b : α} {i : Nat} :
    (l ++ [a])[i]? = some b ↔ l[i]? = some b ∨ i = l.length ∧ a = b := by
  rcases Nat.lt_trichotomy i l.length with hlt | rfl | hgt
  · rw [List.getElem?_append_left hlt]
    simp [Nat.ne_of_lt hlt]
  · simp
  · have hend : (l ++ [a])[i]? = none :=
      List.getElem?_eq_none (by rw [List.length_append, List.length_singleton]; omega)
    rw [hend, List.getElem?_eq_none (Nat.le_of_lt hgt)]
    simp [Nat.ne_of_gt hgt]

namespace Pool

variable {pool pool' : Pool} {text other : String} {type : Ty} {entry found : PoolEntry}
  {value : List UInt8} {o : Nat}

/-! ### What a request does -/

/-- What a request for a text makes of a pool, and how it is answered. -/
inductive Adds (pool : Pool) (text : String) : Ty → Except Error Nat → Pool → Prop
  /-- The text has a place already. -/
  | found {type : Ty} {entry : PoolEntry} (h : pool.find? text = some entry) :
    Adds pool text type (.ok entry.offset) pool
  /-- The text becomes the last integer literal. -/
  | int (hnew : pool.find? text = none) :
    Adds pool text .uint64 (.ok pool.ints.length) (pool.pushInt text)
  /-- The text becomes the last byte literal. -/
  | bytes {value : List UInt8} (hnew : pool.find? text = none)
    (hvalue : Literal.parse text = .ok value) :
    Adds pool text .bytes (.ok pool.byteStrings.length) (pool.pushBytes text value)
  /-- The text is refused. -/
  | refused {type : Ty} {e : Error} (hnew : pool.find? text = none) :
    Adds pool text type (.error e) pool

/-- **Every request goes in one of these ways.** -/
theorem adds (pool : Pool) (text : String) (type : Ty) :
    pool.Adds text type (pool.add text type).1 (pool.add text type).2 := by
  unfold add
  cases hfind : pool.find? text with
  | some entry => exact .found hfind
  | none =>
    cases type with
    | uint64 => exact .int hfind
    | bytes =>
      dsimp only
      cases hparse : Literal.parse text with
      | ok value => exact .bytes hfind hparse
      | error e => exact .refused hfind
    | unknown | invalid => exact .refused hfind

/-- A literal that is interned has been asked for with success. -/
theorem intern_eq_ok_iff :
    pool.intern text type = .ok (o, pool') ↔ pool.add text type = (.ok o, pool') := by
  unfold intern
  generalize pool.add text type = answered
  obtain ⟨answer, after⟩ := answered
  cases answer <;> simp

theorem adds_of_intern (h : pool.intern text type = .ok (o, pool')) :
    pool.Adds text type (.ok o) pool' := by
  have hadds := pool.adds text type
  rwa [intern_eq_ok_iff.mp h] at hadds

/-- **A request that fails leaves the pool alone.** -/
theorem eq_of_adds_error {e : Error} (h : pool.Adds text type (.error e) pool') :
    pool' = pool := by
  cases h
  rfl

/-! ### The table -/

@[simp] theorem ints_pushInt : (pool.pushInt text).ints = pool.ints ++ [text] :=
  rfl

@[simp] theorem byteStrings_pushInt : (pool.pushInt text).byteStrings = pool.byteStrings :=
  rfl

@[simp] theorem ints_pushBytes : (pool.pushBytes text value).ints = pool.ints :=
  rfl

@[simp] theorem byteStrings_pushBytes :
    (pool.pushBytes text value).byteStrings = pool.byteStrings ++ [⟨value⟩] :=
  rfl

@[simp] theorem size_pushInt : (pool.pushInt text).size = pool.size + 1 :=
  List.length_append

@[simp] theorem size_pushBytes : (pool.pushBytes text value).size = pool.size + 1 :=
  List.length_append

/-- A text that is new to the table is found afterwards, and no other one in addition. -/
theorem find?_record (hnew : pool.find? text = none) :
    (pool.record text entry).find? other = some found ↔
      pool.find? other = some found ∨ other = text ∧ entry = found := by
  have hlookup : (pool.record text entry).find? other =
      (pool.find? other).or (if other = text then some entry else none) := by
    unfold find? record
    rw [List.lookup_append]
    by_cases hname : other = text
    · simp [hname]
    · simp [hname, List.lookup_cons, beq_false_of_ne hname]
  rw [hlookup]
  by_cases hname : other = text
  · simp [hname, hnew]
  · simp [hname]

theorem find?_pushInt (hnew : pool.find? text = none) :
    (pool.pushInt text).find? other = some found ↔
      pool.find? other = some found ∨ other = text ∧ ⟨pool.ints.length, .uint64⟩ = found :=
  find?_record hnew

theorem find?_pushBytes (hnew : pool.find? text = none) :
    (pool.pushBytes text value).find? other = some found ↔
      pool.find? other = some found ∨
        other = text ∧ ⟨pool.byteStrings.length, .bytes⟩ = found :=
  find?_record hnew

/-- A text that is new to the table can be put on record without a second entry for it. -/
theorem distinct_record (hdistinct : (pool.table.map (·.1)).Nodup)
    (hnew : pool.find? text = none) : ((pool.record text entry).table.map (·.1)).Nodup := by
  rw [record, List.map_append, List.nodup_append]
  refine ⟨hdistinct, by simp, fun recorded hrecorded => ?_⟩
  rintro _ htext rfl
  obtain ⟨place, hplace, rfl⟩ := List.mem_map.mp hrecorded
  have hne := List.lookup_eq_none_iff.mp hnew place hplace
  have htext : place.1 = text := List.mem_singleton.mp htext
  simp [htext] at hne

/-! ### The table and the sequences -/

/-- **The table of a pool agrees with its sequences**: each text has one place, where an integer
literal is found as it is written and a byte literal by its value, and there are no places
besides. -/
structure Consistent (pool : Pool) : Prop where
  distinct : (pool.table.map (·.1)).Nodup
  type_eq : ∀ {text entry}, pool.find? text = some entry →
    entry.type = .uint64 ∨ entry.type = .bytes
  int_iff : ∀ {text o}, pool.find? text = some ⟨o, .uint64⟩ ↔ pool.ints[o]? = some text
  bytes_inj : ∀ {text other o}, pool.find? text = some ⟨o, .bytes⟩ →
    pool.find? other = some ⟨o, .bytes⟩ → text = other
  bytes_iff : ∀ {o}, (∃ text, pool.find? text = some ⟨o, .bytes⟩) ↔ o < pool.byteStrings.length
  bytes_value : ∀ {text o}, pool.find? text = some ⟨o, .bytes⟩ →
    ∃ value, Literal.parse text = .ok value ∧ pool.byteStrings[o]? = some ⟨value⟩
  size_eq : pool.size = pool.ints.length + pool.byteStrings.length
  nodup_ints : pool.ints.Nodup

namespace Consistent

theorem empty : Pool.empty.Consistent where
  distinct := List.nodup_nil
  type_eq h := by cases h
  int_iff := by simp [Pool.empty, find?]
  bytes_inj h := by cases h
  bytes_iff := by simp [Pool.empty, find?]
  bytes_value h := by cases h
  size_eq := rfl
  nodup_ints := List.nodup_nil

section

variable (h : pool.Consistent)

include h

theorem pushInt (hnew : pool.find? text = none) : (pool.pushInt text).Consistent where
  distinct := distinct_record h.distinct hnew
  type_eq hfound := by
    rcases (find?_pushInt hnew).mp hfound with hfound | ⟨-, rfl⟩
    · exact h.type_eq hfound
    · exact .inl rfl
  int_iff {other o} := by
    rw [find?_pushInt hnew, ints_pushInt, getElem?_concat_eq_some_iff, h.int_iff]
    simp [eq_comm, and_comm]
  bytes_inj hfound hother := by
    simp only [find?_pushInt hnew, PoolEntry.mk.injEq, reduceCtorEq, and_false, or_false] at *
    exact h.bytes_inj hfound hother
  bytes_iff {o} := by
    simpa [find?_pushInt hnew] using h.bytes_iff
  bytes_value hfound := by
    simp only [find?_pushInt hnew, PoolEntry.mk.injEq, reduceCtorEq, and_false, or_false] at *
    exact h.bytes_value hfound
  size_eq := by
    rw [size_pushInt, h.size_eq, ints_pushInt, byteStrings_pushInt, List.length_append,
      List.length_singleton]
    omega
  nodup_ints := by
    rw [ints_pushInt, List.nodup_append]
    refine ⟨h.nodup_ints, by simp, fun other hother => ?_⟩
    rintro _ htext rfl
    obtain ⟨o, ho⟩ := List.mem_iff_getElem?.mp hother
    rw [List.mem_singleton.mp htext] at ho
    cases hnew.symm.trans (h.int_iff.mpr ho)

theorem pushBytes (hnew : pool.find? text = none) (hvalue : Literal.parse text = .ok value) :
    (pool.pushBytes text value).Consistent where
  distinct := distinct_record h.distinct hnew
  type_eq hfound := by
    rcases (find?_pushBytes hnew).mp hfound with hfound | ⟨-, rfl⟩
    · exact h.type_eq hfound
    · exact .inr rfl
  int_iff {other o} := by
    simpa [find?_pushBytes hnew] using h.int_iff
  bytes_inj {text other o} hfound hother := by
    -- The new place lies past all places that there were.
    have hpast : ∀ {text}, pool.find? text = some ⟨o, .bytes⟩ → o ≠ pool.byteStrings.length :=
      fun hold => Nat.ne_of_lt (h.bytes_iff.mp ⟨_, hold⟩)
    rcases (find?_pushBytes hnew).mp hfound with hold | ⟨rfl, hplace⟩ <;>
      rcases (find?_pushBytes hnew).mp hother with hold' | ⟨rfl, hplace'⟩
    · exact h.bytes_inj hold hold'
    · exact absurd (congrArg PoolEntry.offset hplace').symm (hpast hold)
    · exact absurd (congrArg PoolEntry.offset hplace).symm (hpast hold')
    · rfl
  bytes_iff {o} := by
    simp only [find?_pushBytes hnew, exists_or, h.bytes_iff, byteStrings_pushBytes,
      List.length_append, List.length_singleton, PoolEntry.mk.injEq, exists_eq_left,
      and_true]
    omega
  bytes_value hfound := by
    rw [byteStrings_pushBytes]
    simp only [getElem?_concat_eq_some_iff]
    rcases (find?_pushBytes hnew).mp hfound with hfound | ⟨rfl, hplace⟩
    · obtain ⟨old, hparse, hold⟩ := h.bytes_value hfound
      exact ⟨old, hparse, .inl hold⟩
    · exact ⟨value, hvalue, .inr ⟨(congrArg PoolEntry.offset hplace).symm, rfl⟩⟩
  size_eq := by
    rw [size_pushBytes, h.size_eq, ints_pushBytes, byteStrings_pushBytes, List.length_append,
      List.length_singleton, Nat.add_assoc]
  nodup_ints := h.nodup_ints

/-- **Requests keep the table in agreement with the sequences.** -/
theorem adds {answer : Except Error Nat} (hadds : pool.Adds text type answer pool') :
    pool'.Consistent := by
  cases hadds with
  | found | refused => exact h
  | int hnew => exact h.pushInt hnew
  | bytes hnew hvalue => exact h.pushBytes hnew hvalue

end

theorem initial : Pool.initial.Consistent :=
  (empty.pushInt rfl).pushInt rfl

end Consistent

/-! ### Growing -/

/-- A pool has grown: texts have kept their places, and the sequences go on from what they
were. -/
structure Extends (pool pool' : Pool) : Prop where
  find? : ∀ {text entry}, pool.find? text = some entry → pool'.find? text = some entry
  ints : pool.ints <+: pool'.ints
  byteStrings : pool.byteStrings <+: pool'.byteStrings

namespace Extends

theorem refl (pool : Pool) : pool.Extends pool :=
  ⟨id, List.prefix_rfl, List.prefix_rfl⟩

theorem trans {pool'' : Pool} (h : pool.Extends pool') (h' : pool'.Extends pool'') :
    pool.Extends pool'' :=
  ⟨fun hfound => h'.find? (h.find? hfound), h.ints.trans h'.ints,
    h.byteStrings.trans h'.byteStrings⟩

/-- **Requests make a pool grow.** -/
theorem of_adds {answer : Except Error Nat} (hadds : pool.Adds text type answer pool') :
    pool.Extends pool' := by
  cases hadds with
  | found | refused => exact .refl pool
  | int hnew =>
    exact ⟨fun hfound => (find?_pushInt hnew).mpr (.inl hfound), List.prefix_append _ _,
      List.prefix_rfl⟩
  | bytes hnew =>
    exact ⟨fun hfound => (find?_pushBytes hnew).mpr (.inl hfound), List.prefix_rfl,
      List.prefix_append _ _⟩

end Extends

/-! ### Sequences of requests -/

/-- The pool after a sequence of requests, however each of them is answered. -/
def addAll (pool : Pool) (requests : List (String × Ty)) : Pool :=
  requests.foldl (fun pool request => (pool.add request.1 request.2).2) pool

theorem Consistent.addAll (h : pool.Consistent) (requests : List (String × Ty)) :
    (pool.addAll requests).Consistent := by
  induction requests generalizing pool with
  | nil => exact h
  | cons request requests ih => exact ih (h.adds (pool.adds request.1 request.2))

theorem extends_addAll (pool : Pool) (requests : List (String × Ty)) :
    pool.Extends (pool.addAll requests) := by
  induction requests generalizing pool with
  | nil => exact .refl pool
  | cons request requests ih => exact (Extends.of_adds (pool.adds request.1 request.2)).trans (ih _)

/-- **Pools after any requests.** Whatever has been asked for since a pool was empty, or held
the two truth values only, its table agrees with its sequences. Further requests only make
it grow, one for a text that it holds is answered with the place of the text and changes
nothing, and one that fails changes nothing either. -/
theorem consistent_of_requests {start : Pool} (hstart : start = empty ∨ start = initial)
    (requests : List (String × Ty)) :
    (start.addAll requests).Consistent ∧
    (∀ more, (start.addAll requests).Extends ((start.addAll requests).addAll more)) ∧
    ∀ text type,
      (∀ entry, (start.addAll requests).find? text = some entry →
        (start.addAll requests).add text type = (.ok entry.offset, start.addAll requests)) ∧
      ∀ e, ((start.addAll requests).add text type).1 = .error e →
        ((start.addAll requests).add text type).2 = start.addAll requests := by
  have hconsistent : start.Consistent := by
    rcases hstart with rfl | rfl
    · exact .empty
    · exact .initial
  refine ⟨hconsistent.addAll requests, extends_addAll _, fun text type =>
    ⟨fun entry => add_of_find?, fun e herror => ?_⟩⟩
  have hadds := adds (start.addAll requests) text type
  rw [herror] at hadds
  exact eq_of_adds_error hadds

/-- Requests of all sorts: for new texts of both types, for one that has no value, for a known text
with another type, for a second text of the same value, and for a text of no type. -/
def mixedRequests : List (String × Ty) :=
  [("5", .uint64), ("\"a\"", .bytes), ("0x6", .bytes), ("5", .bytes), ("0x61", .bytes),
    ("q", .unknown)]

/-- Three of the requests are answered with new places. Asked for once more, the known text has the
place of the first time, and the one without a value is refused again. -/
theorem consistent_of_mixedRequests :
    let pool := initial.addAll mixedRequests
    pool.ints = ["0", "1", "5"] ∧ pool.byteStrings = [⟨[0x61]⟩, ⟨[0x61]⟩] ∧
    pool.size = 5 ∧ pool.find? "0x61" = some ⟨1, .bytes⟩ ∧ pool.Consistent ∧
    pool.Extends (pool.addAll [("7", .uint64), ("\"", .bytes)]) ∧
    pool.add "5" .bytes = (.ok 2, pool) ∧
    (pool.add "0x6" .bytes).2 = pool := by
  obtain ⟨hconsistent, hextends, hadd⟩ := consistent_of_requests (.inr rfl) mixedRequests
  refine ⟨by decide, by decide, by decide, by decide, hconsistent, hextends _, ?_, ?_⟩
  · exact (hadd "5" .bytes).1 ⟨2, .uint64⟩ (by decide)
  · exact (hadd "0x6" .bytes).2 (.unplaced (.literalFormat "0x6" "odd or invalid hex digits"))
      (by decide)

end Pool

end ContractLang
