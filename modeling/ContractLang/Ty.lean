/-!
# The types of the language

The language has two types of values, unsigned 64-bit integers (which also stand
for truth values) and byte strings. Two further tags say that there is no such
type: `ContractLang.Ty.unknown`, when none has been determined, and
`ContractLang.Ty.invalid`, when determining one has failed.

A type is *known* when it is one of the first two
(`ContractLang.Ty.isKnown`). Most rules of the language constrain known types
only, and the one relation they have in common is
`ContractLang.Ty.clashes`: two known types that differ.
-/

namespace ContractLang

/-- The type of a value, or the reason why there is none. -/
inductive Ty where
  /-- Nothing is known; in a signature, any type is accepted. -/
  | unknown
  /-- Unsigned 64-bit integers, and truth values. -/
  | uint64
  /-- Byte strings. -/
  | bytes
  /-- The type could not be determined. -/
  | invalid
  deriving DecidableEq, Repr, Inhabited

namespace Ty

/-- Whether a type is one of the two types of values. -/
def isKnown : Ty → Bool
  | uint64 | bytes => true
  | unknown | invalid => false

/-- The spelling of a type. -/
def name : Ty → String
  | unknown => "unknown"
  | uint64 => "uint64"
  | bytes => "byte[]"
  | invalid => "invalid"

instance : ToString Ty := ⟨name⟩

/-- The type with a given spelling. -/
def ofName? : String → Option Ty
  | "unknown" => some unknown
  | "uint64" => some uint64
  | "byte[]" => some bytes
  | "invalid" => some invalid
  | _ => none

/-- Reading the spelling of a type gives the type back. -/
theorem ofName?_name (t : Ty) : ofName? t.name = some t := by
  cases t <;> rfl

/-- Whether two types are both known and differ. -/
def clashes (s t : Ty) : Bool :=
  s.isKnown && t.isKnown && s != t

/-- Clashing does not depend on the order of the two types. -/
theorem clashes_comm (s t : Ty) : s.clashes t = t.clashes s := by
  cases s <;> cases t <;> rfl

/-- No type clashes with itself. -/
@[simp] theorem clashes_self (t : Ty) : t.clashes t = false := by
  cases t <;> rfl

end Ty

end ContractLang
