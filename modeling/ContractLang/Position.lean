/-!
# Positions in source files

A position is a byte offset into a named file. Nodes and errors that stem from
no place in any source have no position, which an `Option` expresses. The pair
of the offset `0` and the reserved file name of
`ContractLang.Position.nowhere` is the written form of having none, so it is not
a position itself: `ContractLang.Position.of?` reads it as `none`.
-/

namespace ContractLang

namespace Position

/-- The file name that, at offset `0`, is written for having no position. -/
def nowhere : String := "<null>"

end Position

/-- A byte offset into a named source file. -/
structure Position where
  /-- The offset, in bytes. -/
  offset : Nat
  /-- The name of the file. -/
  file : String
  /-- A position is somewhere. -/
  somewhere : ¬(offset = 0 ∧ file = Position.nowhere)
  deriving DecidableEq, Repr

namespace Position

/-- The position at `offset` in `file`, if that is one. -/
def of? (offset : Nat) (file : String) : Option Position :=
  if h : offset = 0 ∧ file = nowhere then none else some ⟨offset, file, h⟩

/-- Only the start of the reserved file is no position. -/
theorem of?_eq_none_iff {offset : Nat} {file : String} :
    of? offset file = none ↔ offset = 0 ∧ file = nowhere := by
  unfold of?
  split <;> simp_all

/-- A position is read back from its offset and file. -/
@[simp] theorem of?_offset_file (p : Position) : of? p.offset p.file = some p := by
  unfold of?
  rw [dif_neg p.somewhere]

end Position

end ContractLang
