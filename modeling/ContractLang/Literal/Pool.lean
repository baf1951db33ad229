import ContractLang.Error
import ContractLang.Literal.Bytes
import ContractLang.Ty

/-!
# The literal pool

The literals of a compilation unit are pooled: each text is stored once, and code
refers to it by its offset among the literals of its type. Integer literals are
kept as they are written, byte literals by their value.

One table says of every pooled text where it is (`ContractLang.Pool.find?`). The
two sequences count their offsets apart, so a place is an offset together with a
type. A text has one place only, the one that it is given when it is first asked
for (`ContractLang.Pool.add`).
-/

namespace ContractLang

namespace Literal

/-- The value of a byte literal, or the error that reports its flaw. -/
def parse (text : String) : Except Error (List UInt8) :=
  (bytes text).mapError fun flaw => .unplaced (.literalFormat text flaw.reason)

/-- The literal for falsity. -/
def falsity : String := "0"

/-- The literal for truth. -/
def truth : String := "1"

end Literal

/-- What is stored of a byte literal. -/
structure PooledBytes where
  /-- Its value. -/
  value : List UInt8
  deriving DecidableEq, Repr

/-- The place of a literal in the pool: its offset among the literals of its type. -/
structure PoolEntry where
  /-- The offset. -/
  offset : Nat
  /-- The type that the literal was pooled with. -/
  type : Ty
  deriving DecidableEq, Repr

/-- The literals of a compilation unit, each stored once. -/
structure Pool where
  /-- The place of each text, in order of pooling. -/
  table : List (String × PoolEntry)
  /-- The integer literals, by offset. -/
  ints : List String
  /-- The byte literals, by offset. -/
  byteStrings : List PooledBytes
  deriving DecidableEq, Repr

namespace Pool

/-- The pool with no literal in it. -/
def empty : Pool := ⟨[], [], []⟩

/-- The number of texts in a pool. -/
def size (pool : Pool) : Nat :=
  pool.table.length

/-- Where a text is pooled, if it is. -/
def find? (pool : Pool) (text : String) : Option PoolEntry :=
  pool.table.lookup text

/-- The pool with the place of one more text in its table. -/
def record (pool : Pool) (text : String) (entry : PoolEntry) : Pool :=
  { pool with table := pool.table ++ [(text, entry)] }

/-- The pool with one more integer literal. -/
def pushInt (pool : Pool) (text : String) : Pool :=
  { pool.record text ⟨pool.ints.length, .uint64⟩ with ints := pool.ints ++ [text] }

/-- The pool with one more byte literal, of the given value. -/
def pushBytes (pool : Pool) (text : String) (value : List UInt8) : Pool :=
  { pool.record text ⟨pool.byteStrings.length, .bytes⟩ with
    byteStrings := pool.byteStrings ++ [⟨value⟩] }

/-- Asks for the offset of a literal, which is pooled if it has not been. A text that
has been keeps its place, whatever type is now asked for. -/
def add (pool : Pool) (text : String) (type : Ty) : Except Error Nat × Pool :=
  match pool.find? text with
  | some entry => (.ok entry.offset, pool)
  | none =>
    match type with
    | .uint64 => (.ok pool.ints.length, pool.pushInt text)
    | .bytes =>
      match Literal.parse text with
      | .ok value => (.ok pool.byteStrings.length, pool.pushBytes text value)
      | .error e => (.error e, pool)
    | .unknown | .invalid => (.error (.unplaced (.unknownLiteralType type.name text)), pool)

/-- The offset of a literal, together with a pool that holds it. -/
def intern (pool : Pool) (text : String) (type : Ty) : Except Error (Nat × Pool) :=
  match pool.add text type with
  | (.ok offset, pool) => .ok (offset, pool)
  | (.error e, _) => .error e

/-- A pooled text keeps its place. -/
theorem add_of_find? {pool : Pool} {text : String} {type : Ty} {entry : PoolEntry}
    (h : pool.find? text = some entry) : pool.add text type = (.ok entry.offset, pool) := by
  unfold add
  rw [h]

/-- The pool that every compilation unit begins with: the two truth values. -/
def initial : Pool :=
  (empty.pushInt Literal.falsity).pushInt Literal.truth

/-- The initial pool is the empty one after both truth values are interned. -/
theorem initial_eq_intern :
    (empty.intern Literal.falsity .uint64 >>= fun r => r.2.intern Literal.truth .uint64)
      = .ok (1, initial) := by
  rfl

end Pool

end ContractLang
