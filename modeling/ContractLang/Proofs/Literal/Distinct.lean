import ContractLang.Proofs.Literal.Interning

/-!
# Equal byte literals

A pool stores byte literals by their values, but finds them by their texts, and a value can be
written in more than one way: `"a"`, `"\x61"` and `0x61` are the same byte. Each of these texts is
given a place of its own, so the same value can be stored several times.

Which texts are pooled as byte literals depends on the requests alone
(`ContractLang.Pool.pooledType?`): the first request for a text that can be granted decides. A
value is stored more than once exactly if two of these texts spell it
(`ContractLang.Pool.byteStrings_of_requests`).
-/

namespace ContractLang

namespace Pool

variable {pool : Pool} {text other : String} {type : Ty} {requests : List (String × Ty)}

/-! ### The texts that are pooled -/

/-- Whether a text can be pooled with a type. -/
def storable (text : String) : Ty → Bool
  | .uint64 => true
  | .bytes => (Literal.parse text).isOk
  | .unknown | .invalid => false

/-- The type that a sequence of requests pools a text with, if it does: the one that the text is
asked for with when it can be pooled for the first time. -/
def pooledType? (requests : List (String × Ty)) (text : String) : Option Ty :=
  (requests.find? fun request => request.1 == text && storable request.1 request.2).map (·.2)

/-- The type that a text is on record with. -/
def typeOf? (pool : Pool) (text : String) : Option Ty :=
  (pool.find? text).map PoolEntry.type

theorem typeOf?_record {entry : PoolEntry} (hnew : pool.find? text = none) :
    (pool.record text entry).typeOf? other =
      (pool.typeOf? other).or (if text = other then some entry.type else none) := by
  unfold typeOf?
  by_cases hname : text = other
  · subst hname
    have hfound : (pool.record text entry).find? text = some entry :=
      (find?_record hnew).mpr (.inr ⟨rfl, rfl⟩)
    rw [hfound, hnew, if_pos rfl]
    rfl
  · have hsame : (pool.record text entry).find? other = pool.find? other := by
      refine Option.ext fun found => ?_
      rw [find?_record hnew]
      exact or_iff_left fun h => hname h.1.symm
    rw [hsame, if_neg hname, Option.or_none]

/-- A request puts its text on record if it can be pooled and is not on record already, and
concerns no other text. -/
theorem typeOf?_add :
    (pool.add text type).2.typeOf? other =
      (pool.typeOf? other).or (if text = other ∧ storable text type then some type else none) := by
  cases hfind : pool.find? text with
  | some entry =>
    rw [add_of_find? hfind]
    by_cases hname : text = other
    · subst hname
      rw [typeOf?, hfind]
      rfl
    · rw [if_neg fun h => hname h.1, Option.or_none]
  | none =>
    unfold add
    rw [hfind]
    cases type with
    | uint64 =>
      refine (typeOf?_record hfind).trans ?_
      simp [storable]
    | bytes =>
      dsimp only
      cases hparse : Literal.parse text with
      | ok value =>
        refine (typeOf?_record hfind).trans ?_
        simp [storable, hparse, Except.isOk, Except.toBool]
      | error e => simp [storable, hparse, Except.isOk, Except.toBool]
    | unknown | invalid => simp [storable]

/-- **The first request that can be granted decides** which type a text is on record with, unless
it has been on record before. -/
theorem typeOf?_addAll :
    (pool.addAll requests).typeOf? text = (pool.typeOf? text).or (pooledType? requests text) := by
  induction requests generalizing pool with
  | nil => exact Option.or_none.symm
  | cons request requests ih =>
    change ((pool.add request.1 request.2).2.addAll requests).typeOf? text = _
    rw [ih, typeOf?_add, Option.or_assoc]
    refine congrArg _ ?_
    unfold pooledType?
    by_cases hfirst : request.1 = text ∧ storable request.1 request.2
    · rw [if_pos hfirst, List.find?_cons_of_pos (by simpa using hfirst)]
      rfl
    · rw [if_neg hfirst, List.find?_cons_of_neg (by simpa using hfirst)]
      rfl

/-! ### Places and values -/

namespace Consistent

variable (h : pool.Consistent)

include h

/-- A text that is on record as a byte literal has a place, where its value is. -/
theorem exists_place (hrecorded : pool.typeOf? text = some .bytes) :
    ∃ o value, pool.find? text = some ⟨o, .bytes⟩ ∧ Literal.parse text = .ok value ∧
      pool.byteStrings[o]? = some ⟨value⟩ := by
  obtain ⟨⟨o, type⟩, hfound, rfl⟩ := Option.map_eq_some_iff.mp hrecorded
  obtain ⟨value, hparse, hvalue⟩ := h.bytes_value hfound
  exact ⟨o, value, hfound, hparse, hvalue⟩

/-- **A value is stored once only if one text spells it**, among those that are on record as byte
literals. -/
theorem nodup_byteStrings_iff :
    pool.byteStrings.Nodup ↔
      ∀ text other, pool.typeOf? text = some .bytes → pool.typeOf? other = some .bytes →
        Literal.parse text = Literal.parse other → text = other := by
  refine ⟨fun hnodup text other htext hother hsame => ?_, fun hinj => ?_⟩
  · obtain ⟨o, value, hfound, hparse, hvalue⟩ := h.exists_place htext
    obtain ⟨o', value', hfound', hparse', hvalue'⟩ := h.exists_place hother
    obtain rfl : value = value' := Except.ok.inj (hparse.symm.trans (hsame.trans hparse'))
    -- The value is at both places, so these are the same.
    obtain ⟨ho, hget⟩ := List.getElem?_eq_some_iff.mp hvalue
    obtain ⟨ho', hget'⟩ := List.getElem?_eq_some_iff.mp hvalue'
    obtain rfl : o = o' := hnodup.getElem_inj_iff.mp (hget.trans hget'.symm)
    exact h.bytes_inj hfound hfound'
  · rw [List.nodup_iff_injective_getElem]
    rintro ⟨o, ho⟩ ⟨o', ho'⟩ hsame
    obtain ⟨text, hfound⟩ := h.bytes_iff.mpr ho
    obtain ⟨other, hfound'⟩ := h.bytes_iff.mpr ho'
    obtain ⟨value, hparse, hvalue⟩ := h.bytes_value hfound
    obtain ⟨value', hparse', hvalue'⟩ := h.bytes_value hfound'
    dsimp only at hsame
    rw [List.getElem?_eq_getElem ho, hsame] at hvalue
    rw [List.getElem?_eq_getElem ho', hvalue, Option.some.injEq, PooledBytes.mk.injEq] at hvalue'
    subst hvalue'
    have htext : text = other := hinj text other (by rw [typeOf?, hfound]; rfl)
      (by rw [typeOf?, hfound']; rfl) (hparse.trans hparse'.symm)
    subst htext
    rw [hfound, Option.some.injEq, PoolEntry.mk.injEq] at hfound'
    exact Fin.ext hfound'.1

end Consistent

/-- **When byte literals are stored once.** Take any requests since a pool was empty. A text that
they pool as a byte literal has an offset, at which its value is stored, and different texts have
different offsets. So no value is stored twice if and only if no two of these texts spell the same
value. -/
theorem byteStrings_of_requests (requests : List (String × Ty)) :
    (∀ text, pooledType? requests text = some .bytes → ∃ o value,
      (empty.addAll requests).add text .bytes = (.ok o, empty.addAll requests) ∧
      Literal.parse text = .ok value ∧
      (empty.addAll requests).byteStrings[o]? = some ⟨value⟩) ∧
    (∀ text other, pooledType? requests text = some .bytes →
      pooledType? requests other = some .bytes →
      (((empty.addAll requests).add text .bytes).1 = ((empty.addAll requests).add other .bytes).1 ↔
        text = other)) ∧
    ((empty.addAll requests).byteStrings.Nodup ↔
      ∀ text other, pooledType? requests text = some .bytes →
        pooledType? requests other = some .bytes →
        Literal.parse text = Literal.parse other → text = other) := by
  have hpool : (empty.addAll requests).Consistent := Consistent.empty.addAll requests
  have hrecorded : ∀ text, pooledType? requests text = (empty.addAll requests).typeOf? text :=
    fun text => (typeOf?_addAll :
      (empty.addAll requests).typeOf? text = (empty.typeOf? text).or _).symm
  simp only [hrecorded]
  refine ⟨fun text htext => ?_, fun text other htext hother => ⟨fun hsame => ?_, ?_⟩,
    hpool.nodup_byteStrings_iff⟩
  · obtain ⟨o, value, hfound, hparse, hvalue⟩ := hpool.exists_place htext
    exact ⟨o, value, add_of_find? hfound, hparse, hvalue⟩
  · obtain ⟨o, -, hfound, -, -⟩ := hpool.exists_place htext
    obtain ⟨o', -, hfound', -, -⟩ := hpool.exists_place hother
    rw [add_of_find? hfound, add_of_find? hfound'] at hsame
    obtain rfl : o = o' := Except.ok.inj hsame
    exact hpool.bytes_inj hfound hfound'
  · rintro rfl
    rfl

/-- Requests for three spellings of one byte, of which one is pooled as an integer literal, for a
malformed text and for another value. -/
def spellings : List (String × Ty) :=
  [("0x62", .uint64), ("0x6", .bytes), ("\"b\"", .bytes), ("0x62", .bytes), ("\"\\x62\"", .bytes),
    ("0x63", .bytes)]

/-- Two of the spellings are pooled as byte literals, and have different offsets. -/
theorem byteStrings_of_spellings :
    pooledType? spellings "0x62" = some .uint64 ∧
    ((empty.addAll spellings).add "\"b\"" .bytes).1 ≠
      ((empty.addAll spellings).add "\"\\x62\"" .bytes).1 ∧
    ¬(empty.addAll spellings).byteStrings.Nodup := by
  obtain ⟨-, hoffset, hnodup⟩ := byteStrings_of_requests spellings
  have hquoted : pooledType? spellings "\"b\"" = some .bytes := by decide
  have hescaped : pooledType? spellings "\"\\x62\"" = some .bytes := by decide
  have hne : "\"b\"" ≠ "\"\\x62\"" := by decide
  refine ⟨by decide, fun hsame => hne ((hoffset _ _ hquoted hescaped).mp hsame), fun h => ?_⟩
  exact hne (hnodup.mp h _ _ hquoted hescaped (by decide))

/-- **A value can be stored twice**: two spellings of one byte, asked for one after the other, are
given two offsets. -/
theorem byteStrings_repeated :
    let pool := empty.addAll [("\"a\"", .bytes), ("0x61", .bytes)]
    pool.byteStrings = [⟨[0x61]⟩, ⟨[0x61]⟩] ∧ ¬pool.byteStrings.Nodup ∧
    Literal.parse "\"a\"" = Literal.parse "0x61" ∧
    (pool.add "\"a\"" .bytes).1 = .ok 0 ∧ (pool.add "0x61" .bytes).1 = .ok 1 := by
  decide

end Pool

end ContractLang
