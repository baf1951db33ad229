import ContractLang.Proofs.Literal.Interning
import ContractLang.Proofs.Scope.Chain

/-!
# The offsets of literals

An offset means something only together with a type, since integer literals and byte literals
are counted apart. The type that goes with an offset is the one that the text is on record with:
read with it, the offset leads to the literal, now and after whatever comes later
(`ContractLang.CompilationUnit.offsets_of_built`).

The type that is asked for is that type only if the text is new, or was asked for with the same
type before. A text that is known with the other type keeps its place, so the offset leads to
another literal, or to none, when it is read with the type that was asked for
(`ContractLang.CompilationUnit.misread_reused`).
-/

namespace ContractLang

namespace Pool

variable {pool pool' : Pool} {text : String} {type : Ty} {offset : Nat}

/-- An offset, read with a type, leads to a literal. -/
def Holds (pool : Pool) (type : Ty) (offset : Nat) (text : String) : Prop :=
  type = .uint64 ∧ pool.ints[offset]? = some text ∨
  type = .bytes ∧ ∃ value, Literal.parse text = .ok value ∧
    pool.byteStrings[offset]? = some ⟨value⟩

/-- What is on record for a text leads to it. -/
theorem Consistent.holds (h : pool.Consistent) (hfound : pool.find? text = some ⟨offset, type⟩) :
    pool.Holds type offset text := by
  rcases h.type_eq hfound with rfl | rfl
  · exact .inl ⟨rfl, h.int_iff.mp hfound⟩
  · exact .inr ⟨rfl, h.bytes_value hfound⟩

/-- An offset is the place of a text, which it leads to. The type on record is the one that was
asked for, or the text was on record before. -/
def Answers (pool pool' : Pool) (text : String) (type : Ty) (offset : Nat) : Prop :=
  ∃ kept, pool'.find? text = some ⟨offset, kept⟩ ∧ pool'.Holds kept offset text ∧
    (kept = type ∨ pool.find? text = some ⟨offset, kept⟩)

/-- **Every answer is the place of the text.** -/
theorem Consistent.answers (h : pool.Consistent)
    (hintern : pool.intern text type = .ok (offset, pool')) :
    pool.Answers pool' text type offset := by
  have hadds := adds_of_intern hintern
  have hfound : ∃ kept, pool'.find? text = some ⟨offset, kept⟩ ∧
      (kept = type ∨ pool.find? text = some ⟨offset, kept⟩) := by
    cases hadds with
    | @found type entry hfound => exact ⟨entry.type, hfound, .inr hfound⟩
    | int hnew => exact ⟨.uint64, (find?_pushInt hnew).mpr (.inr ⟨rfl, rfl⟩), .inl rfl⟩
    | bytes hnew => exact ⟨.bytes, (find?_pushBytes hnew).mpr (.inr ⟨rfl, rfl⟩), .inl rfl⟩
  obtain ⟨kept, hkept, hor⟩ := hfound
  exact ⟨kept, hkept, (h.adds hadds).holds hkept, hor⟩

/-- An answer for a text that is not on record with another type can be read with the type that
was asked for. -/
theorem Answers.holds (h : pool.Answers pool' text type offset)
    (hsame : ∀ entry, pool.find? text = some entry → entry.type = type) :
    pool'.Holds type offset text := by
  obtain ⟨kept, -, hholds, rfl | hold⟩ := h
  · exact hholds
  · exact hsame _ hold ▸ hholds

end Pool

/-- An edit asks for a text, if at all, with a type that is related to the one on record. -/
def Edit.AsksBy {α : Type} (R : Ty → Ty → Prop) (t : ScopeTree) : Edit α → Prop
  | .declareConst _ _ type text => ∀ entry, t.pool.find? text = some entry → R entry.type type
  | .intern text type => ∀ entry, t.pool.find? text = some entry → R entry.type type
  | _ => True

/-- Nothing is asked of types that are all related. -/
theorem Edit.asksBy_of_forall {α : Type} {R : Ty → Ty → Prop} {t : ScopeTree}
    (hR : ∀ type type', R type type') (e : Edit α) : e.AsksBy R t := by
  cases e with
  | declareConst | intern => exact fun entry _ => hR entry.type _
  | _ => trivial

namespace ScopeTree

variable {R : Ty → Ty → Prop} {t t' : ScopeTree} {id : ScopeId} {name value : String} {type : Ty}
  {offset : Nat} {d : Descriptor}

/-- The table of the pool agrees with its sequences, and the constants of all scopes are on record
with their offsets, and with types that are related to their own. -/
structure Pooled (R : Ty → Ty → Prop) (t : ScopeTree) : Prop where
  pool : t.pool.Consistent
  const : ∀ s, ∀ e ∈ (t.scope s).entries, ∀ offset value, e.2.role = .const offset value →
    ∃ kept, t.pool.find? value = some ⟨offset, kept⟩ ∧ R kept e.2.type

namespace Pooled

theorem initial (name : String) : (ScopeTree.initial name).Pooled R where
  pool := .initial
  const s e he := by
    obtain ⟨label, hfresh⟩ := exists_scope_initial name s
    rw [hfresh] at he
    cases he

section

variable (h : t.Pooled R)

include h

theorem modifyScope {f : Scope → Scope}
    (hf : ∀ e ∈ (f (t.scope id)).entries, ∀ offset value, e.2.role = .const offset value →
      ∃ kept, t.pool.find? value = some ⟨offset, kept⟩ ∧ R kept e.2.type) :
    (t.modifyScope id f).Pooled R where
  pool := h.pool
  const s e he := by
    rw [scope_modifyScope] at he
    split at he
    · next hs => exact hf e (hs.1 ▸ he)
    · exact h.const s e he

/-- Declaring a name that stands for no constant, or for one that is on record. -/
theorem declare {f : Scope → Scope}
    (hf : (f (t.scope id)).entries = (t.scope id).entries ++ [(name, d)])
    (hnew : ∀ offset value, d.role = .const offset value →
      ∃ kept, t.pool.find? value = some ⟨offset, kept⟩ ∧ R kept d.type) :
    (t.modifyScope id f).Pooled R :=
  h.modifyScope fun e he => by
    rcases List.mem_append.mp (hf ▸ he) with he | he
    · exact h.const id e he
    · exact List.mem_singleton.mp he ▸ hnew

/-- Moving a scope leaves its constants alone. -/
theorem remap (base : Nat) : (t.remap id base).Pooled R :=
  h.modifyScope fun e he offset value hconst => by
    obtain ⟨i, hi, rfl⟩ := List.mem_mapIdx.mp he
    unfold Scope.remapEntry at hconst ⊢
    split at hconst
    · cases hconst
    · exact h.const id _ (List.getElem_mem hi) offset value hconst

/-- Pooling more literals leaves all constants on record. -/
theorem intern {pool : Pool} (hpool : t.pool.intern value type = .ok (offset, pool)) :
    ({ t with pool } : ScopeTree).Pooled R where
  pool := h.pool.adds (Pool.adds_of_intern hpool)
  const s e he offset' value' hconst := by
    obtain ⟨kept, hkept, hR⟩ := h.const s e he offset' value' hconst
    exact ⟨kept, (Pool.Extends.of_adds (Pool.adds_of_intern hpool)).find? hkept, hR⟩

/-- **Edits keep constants on record**, unless they overwrite descriptors. -/
theorem changes {α : Type} {e : Edit α} (hrefl : ∀ type, R type type) (he : ¬e.Overwrites)
    (hasks : e.AsksBy R t) (hchanges : e.Changes t t') : t'.Pooled R := by
  cases hchanges with
  | unchanged => exact h
  | openScope =>
    refine ⟨h.pool, fun s e he => ?_⟩
    rw [scope_openScope] at he
    split at he
    · cases he
    · exact h.const s e he
  | @declareVar id name type => exact h.declare (d := ⟨name, type, .var _⟩) rfl fun _ _ => nofun
  | declareConst hnew hpool =>
    refine (h.intern hpool).declare rfl fun offset' value' hconst => ?_
    obtain ⟨rfl, rfl⟩ := Role.const.inj hconst
    -- The pool gives the text the type of the constant, unless it has a type already.
    obtain ⟨kept, hkept, -, rfl | hold⟩ := h.pool.answers hpool
    · exact ⟨kept, hkept, hrefl kept⟩
    · exact ⟨kept, hkept, hasks _ hold⟩
  | @declareFunc id name type => exact h.declare (d := ⟨name, type, .func _⟩) rfl fun _ _ => nofun
  | update => exact absurd trivial he
  | remap => exact h.remap _
  | intern hpool => exact h.intern hpool

theorem const_of_get? (hget : (t.scope id).get? name = some d)
    (hrole : d.role = .const offset value) :
    ∃ kept, t.pool.find? value = some ⟨offset, kept⟩ ∧ R kept d.type :=
  h.const id (name, d) (Scope.mem_of_get? hget) offset value hrole

end

end Pooled

/-! ### Answers of a tree -/

theorem intern_eq_ok (h : t.intern value type = .ok (offset, t')) :
    t.pool.intern value type = .ok (offset, t'.pool) := by
  unfold ScopeTree.intern at h
  split at h
  · next hpool =>
    cases h
    exact hpool
  · cases h

theorem declareConst_eq_ok (h : t.declareConst id name type value = .ok (offset, t')) :
    t.pool.intern value type = .ok (offset, t'.pool) := by
  unfold declareConst at h
  split at h
  · cases h
  · split at h
    · next hintern =>
      cases h
      have hpool := intern_eq_ok hintern
      exact hpool
    · cases h

end ScopeTree

namespace CompilationUnit

variable {code : CompilationUnit}

theorem Built.pooled {R : Ty → Ty → Prop} (hrefl : ∀ type, R type type)
    {allowed : ∀ {α : Type}, ScopeTree → Edit α → Prop}
    (hallowed : ∀ {t α} {e : Edit α}, allowed t e → ¬e.Overwrites ∧ e.AsksBy R t)
    (h : code.Built allowed) : code.scopes.Pooled R :=
  h.invariant .initial fun ht he hchanges =>
    ht.changes hrefl (hallowed he).1 (hallowed he).2 hchanges

theorem answers_of_apply {R : Ty → Ty → Prop} (h : code.scopes.Pooled R) {text : String} {type : Ty}
    {offset : Nat} {code' : CompilationUnit}
    (happly : code.apply (.intern text type) = .ok (offset, code') ∨
      ∃ s name, code.apply (.declareConst s name type text) = .ok (offset, code')) :
    code.scopes.pool.Answers code'.scopes.pool text type offset := by
  rcases happly with happly | ⟨s, name, happly⟩ <;>
    obtain ⟨⟨_, t⟩, ht, heq⟩ := exists_of_map_eq_ok happly <;> cases heq
  · exact h.pool.answers (ScopeTree.intern_eq_ok ht)
  · exact h.pool.answers (ScopeTree.declareConst_eq_ok ht)

/-- **Offsets lead to their literals when they are read with the types on record.** In a unit that
has been laid out, every offset that is given out for a literal or a constant is the place of
its text, and so is the offset of every constant that a scope declares. If no text has ever been
asked for with a type other than the one on record, then the types that are asked for, and those
of the constants, are the right ones to read the offsets with. -/
theorem offsets_of_built (code : CompilationUnit) :
    (code.Built Edit.LaysOut →
      (∀ text type offset code', code.apply (.intern text type) = .ok (offset, code') →
        code.scopes.pool.Answers code'.scopes.pool text type offset) ∧
      (∀ s name text type offset code',
        code.apply (.declareConst s name type text) = .ok (offset, code') →
        code.scopes.pool.Answers code'.scopes.pool text type offset) ∧
      ∀ s name d offset text, (code.scopes.scope s).get? name = some d →
        d.role = .const offset text → ∃ kept,
          code.scopes.pool.find? text = some ⟨offset, kept⟩ ∧
          code.scopes.pool.Holds kept offset text) ∧
    ((code.Built fun t e => e.LaysOut t ∧ e.AsksBy Eq t) →
      (∀ text type offset code', (Edit.intern text type).AsksBy Eq code.scopes →
        code.apply (.intern text type) = .ok (offset, code') →
        code'.scopes.pool.Holds type offset text) ∧
      (∀ s name text type offset code',
        (Edit.declareConst s name type text).AsksBy Eq code.scopes →
        code.apply (.declareConst s name type text) = .ok (offset, code') →
        code'.scopes.pool.Holds type offset text) ∧
      ∀ s name d offset text, (code.scopes.scope s).get? name = some d →
        d.role = .const offset text → code.scopes.pool.Holds d.type offset text) := by
  constructor
  · -- Constants are on record with some type.
    intro h
    have hpooled : code.scopes.Pooled fun _ _ => True :=
      h.pooled (fun _ => trivial) fun {_ _ e} he => ⟨he.2, e.asksBy_of_forall fun _ _ => trivial⟩
    refine ⟨fun text type offset code' happly => answers_of_apply hpooled (.inl happly),
      fun s name text type offset code' happly => answers_of_apply hpooled (.inr ⟨s, name, happly⟩),
      fun s name d offset text hget hrole => ?_⟩
    obtain ⟨kept, hkept, -⟩ := hpooled.const_of_get? hget hrole
    exact ⟨kept, hkept, hpooled.pool.holds hkept⟩
  · -- Constants are on record with their own types.
    intro h
    have hpooled : code.scopes.Pooled Eq := h.pooled (fun _ => rfl) fun he => ⟨he.1.2, he.2⟩
    refine ⟨fun text type offset code' hasks happly =>
        (answers_of_apply hpooled (.inl happly)).holds hasks,
      fun s name text type offset code' hasks happly =>
        (answers_of_apply hpooled (.inr ⟨s, name, happly⟩)).holds hasks,
      fun s name d offset text hget hrole => ?_⟩
    obtain ⟨kept, hkept, rfl⟩ := hpooled.const_of_get? hget hrole
    exact hpooled.pool.holds hkept

/-- A constant of each type. -/
def agreeing : CompilationUnit :=
  initial
    |>.edited (.declareConst 0 "A" .bytes "0x61")
    |>.edited (.declareConst 0 "L" .uint64 "100")

theorem built_agreeing : agreeing.Built fun t e => e.LaysOut t ∧ e.AsksBy Eq t :=
  Built.initial "global"
    |>.edit (e := .declareConst 0 "A" .bytes "0x61") ⟨⟨(by decide : 0 < 1), id⟩, nofun⟩
    |>.edit (e := .declareConst 0 "L" .uint64 "100") ⟨⟨(by decide : 0 < 1), id⟩, nofun⟩

/-- Two constants with different types and one text. -/
def reused : CompilationUnit :=
  initial
    |>.edited (.declareConst 0 "A" .bytes "0x61")
    |>.edited (.declareConst 0 "B" .uint64 "0x61")

theorem built_reused : reused.Built Edit.LaysOut :=
  Built.initial "global"
    |>.edit (e := .declareConst 0 "A" .bytes "0x61") ⟨(by decide : 0 < 1), id⟩
    |>.edit (e := .declareConst 0 "B" .uint64 "0x61") ⟨(by decide : 0 < 1), id⟩

/-- Offsets that are the same number lead to different literals, each with its own type; and asked
for once more with its type, a text has an offset that leads to it. The offset of a constant with
a type that is not on record leads to its literal as well, but only with the type that is. -/
theorem offsets_of_agreeing :
    agreeing.scopes.pool.Holds .bytes 0 "0x61" ∧ agreeing.scopes.pool.Holds .uint64 2 "100" ∧
    (∃ code, agreeing.apply (.intern "0x61" .bytes) = .ok (0, code) ∧
      code.scopes.pool.Holds .bytes 0 "0x61") ∧
    ∃ kept, reused.scopes.pool.find? "0x61" = some ⟨0, kept⟩ ∧
      reused.scopes.pool.Holds kept 0 "0x61" := by
  obtain ⟨hintern, -, hconst⟩ := (offsets_of_built agreeing).2 built_agreeing
  obtain ⟨-, -, hkept⟩ := (offsets_of_built reused).1 built_reused
  refine ⟨?_, ?_, ⟨_, rfl, ?_⟩, ?_⟩
  · exact hconst 0 "A" ⟨"A", .bytes, .const 0 "0x61"⟩ 0 "0x61" (by decide) rfl
  · exact hconst 0 "L" ⟨"L", .uint64, .const 2 "100"⟩ 2 "100" (by decide) rfl
  · exact hintern "0x61" .bytes 0 _ (fun entry hentry => by cases hentry; rfl) rfl
  · exact hkept 0 "B" ⟨"B", .uint64, .const 0 "0x61"⟩ 0 "0x61" (by decide) rfl

/-- **A text that is on record with another type is given an offset that misleads**: the second
constant, read with its own type, is the literal for falsity. -/
theorem misread_reused :
    (initial.edited (.declareConst 0 "A" .bytes "0x61")).apply
      (.declareConst 0 "B" .uint64 "0x61") = .ok (0, reused) ∧
    reused.Built Edit.LaysOut ∧
    (reused.scopes.scope 0).get? "B" = some ⟨"B", .uint64, .const 0 "0x61"⟩ ∧
    reused.scopes.pool.ints[0]? = some "0" ∧ ¬reused.scopes.pool.Holds .uint64 0 "0x61" := by
  refine ⟨rfl, built_reused, by decide, by decide, ?_⟩
  rintro (⟨-, hint⟩ | ⟨htype, -⟩)
  · exact absurd hint (by decide)
  · cases htype

end CompilationUnit

end ContractLang
