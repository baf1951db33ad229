import ContractLang.Scope.Descriptor

/-!
# Scopes

A scope holds descriptors by name and the range of stack slots that its
variables occupy. Slots are handed out upwards from the scope's entry address
(`ContractLang.Scope.declareVar`), and a whole scope can be moved to another base
(`ContractLang.Scope.remap`), as when a function is inlined.

Addresses are words of 64 bits, so there is a last one. Counting past it goes round
to 0 (`ContractLang.Scope.advance`), which a base close to the last address can bring
about.

Moving keeps the order of the variables: the new slot of a variable counts the
variables that come before it (`ContractLang.Scope.rank`), so there is nothing to
sort. Variables in one slot, which only an overwritten descriptor can bring
about, keep the order in which their names were declared.
-/

namespace ContractLang

/-- A scope: names, and the stack slots of its variables. -/
structure Scope where
  /-- What the scope is called. -/
  name : String
  /-- The enclosing scope; the root has none. -/
  parent : Option ScopeId
  /-- The declared names in order of declaration, with their descriptors. -/
  entries : List (String × Descriptor)
  /-- The first slot of the scope. -/
  entryAddress : Nat
  /-- The slot that the next variable is given. -/
  nextAddress : Nat
  deriving DecidableEq, Repr

namespace Scope

/-- The number of addresses, which are words of 64 bits. -/
def addressSpace : Nat :=
  UInt64.size

/-- The address `count` slots after another one. After the last address comes 0. -/
def advance (address count : Nat) : Nat :=
  (address + count) % addressSpace

/-- A scope with no names in it, whose slots begin at `address`. -/
def fresh (name : String) (parent : Option ScopeId) (address : Nat) : Scope :=
  ⟨name, parent, [], address, address⟩

instance : Inhabited Scope := ⟨fresh "" none 0⟩

/-- The descriptor of a name in this scope alone. -/
def get? (scope : Scope) (name : String) : Option Descriptor :=
  scope.entries.lookup name

/-- Whether this scope itself declares a name. -/
def declares (scope : Scope) (name : String) : Bool :=
  (scope.get? name).isSome

/-- The descriptors of the scope, in order of declaration. -/
def descriptors (scope : Scope) : List Descriptor :=
  scope.entries.map (·.2)

/-- The scope with one more name. -/
def insert (scope : Scope) (name : String) (descriptor : Descriptor) : Scope :=
  { scope with entries := scope.entries ++ [(name, descriptor)] }

/-- The scope with the descriptor of a declared name replaced. -/
def replace (scope : Scope) (name : String) (descriptor : Descriptor) : Scope :=
  { scope with
    entries := scope.entries.map fun e => if e.1 == name then (e.1, descriptor) else e }

/-- The scope with one more variable, in the next slot. -/
def declareVar (scope : Scope) (name : String) (type : Ty) : Scope :=
  { scope.insert name ⟨name, type, .var scope.nextAddress⟩ with
    nextAddress := advance scope.nextAddress 1 }

/-! ### Counting addresses -/

section Advance

variable {address m n : Nat}

theorem addressSpace_pos : 0 < addressSpace := by
  decide

theorem advance_lt : advance address n < addressSpace :=
  Nat.mod_lt _ addressSpace_pos

theorem advance_of_lt (h : address + n < addressSpace) : advance address n = address + n :=
  Nat.mod_eq_of_lt h

@[simp] theorem advance_advance : advance (advance address m) n = advance address (m + n) := by
  rw [advance, advance, advance, Nat.mod_add_mod, Nat.add_assoc]

/-- Less than once round, different addresses are reached. -/
theorem advance_inj (hm : m < addressSpace) (hn : n < addressSpace) :
    advance address m = advance address n ↔ m = n := by
  simp only [advance, addressSpace, UInt64.size] at *
  omega

end Advance

/-! ### What is visible after a change -/

section Visible

variable {scope : Scope} {name other : String} {d : Descriptor}

/-- Declaring a name makes it visible, unless it was declared before, and concerns no
other name. -/
theorem get?_insert :
    (scope.insert name d).get? other
      = (scope.get? other).or (if other = name then some d else none) := by
  unfold get? insert
  induction scope.entries with
  | nil =>
    by_cases h : other = name
    · simp [h]
    · simp [List.lookup_cons, beq_false_of_ne h, h]
  | cons e entries ih =>
    obtain ⟨key, old⟩ := e
    by_cases h : other = key
    · subst h
      simp
    · simpa [List.lookup_cons, beq_false_of_ne h] using ih

/-- Replacing a descriptor concerns its name alone, and does not declare it. -/
theorem get?_replace :
    (scope.replace name d).get? other
      = if other = name then (scope.get? other).map fun _ => d else scope.get? other := by
  unfold get? replace
  induction scope.entries with
  | nil => simp
  | cons e entries ih =>
    obtain ⟨key, old⟩ := e
    by_cases h : other = key
    · subst h
      by_cases hn : other = name
      · subst hn
        simp
      · simp [hn]
    · have hb : (other == key) = false := beq_false_of_ne h
      by_cases hk : key = name
      · subst hk
        simpa [List.lookup_cons, hb] using ih
      · simpa [List.lookup_cons, hb, hk] using ih

/-- Declaring a variable makes its descriptor visible. -/
theorem get?_declareVar {type : Ty} :
    (scope.declareVar name type).get? other
      = (scope.get? other).or
          (if other = name then some ⟨name, type, .var scope.nextAddress⟩ else none) :=
  get?_insert

end Visible

/-! ### Moving the variables of a scope -/

/-- The number of variables that come before entry `index` when its slot is `address`:
those in lower slots, and those in the same slot that were declared earlier. -/
def rank (entries : List (String × Descriptor)) (index address : Nat) : Nat :=
  entries.countP (fun e => e.2.role.slot?.any (· < address))
    + (entries.take index).countP (fun e => e.2.role.slot? == some address)

/-- The number of variables of a scope. -/
def varCount (scope : Scope) : Nat :=
  scope.entries.countP fun e => e.2.role.slot?.isSome

/-- An entry with its variable, if it is one, moved to the slot that its rank gives. -/
def remapEntry (entries : List (String × Descriptor)) (base index : Nat)
    (entry : String × Descriptor) : String × Descriptor :=
  match entry.2.role with
  | .var address =>
    (entry.1, { entry.2 with role := .var (advance base (rank entries index address)) })
  | _ => entry

/-- The scope with its variables moved to the slots from `base` on, in the same
order. -/
def remap (scope : Scope) (base : Nat) : Scope :=
  { scope with
    entries := scope.entries.mapIdx (remapEntry scope.entries base)
    entryAddress := advance base 0
    nextAddress := advance base scope.varCount }

end Scope

end ContractLang
