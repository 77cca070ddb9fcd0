import HeapAudit.Block.Category
import HeapAudit.Block.Handle

/-!
Values of the scripting language. A value is a number, a real or one reference to a block; the
kind of the reference fixes the category the block has to have.

Main statements
* `RefKind.category_injective`: two kinds never ask for the same category.
* `RefKind.category_counted`: what a value refers to carries a stored count.
-/

namespace HeapAudit

/-- What sort of block a value refers to. `string` is privately owned, `shared` interned. -/
inductive RefKind where
  | string
  | shared
  | array
  | classInstance
  | mapping
  | function
  | buffer
  | object
deriving DecidableEq, Repr

namespace RefKind

def category : RefKind → Category
  | string => .mallocString
  | shared => .sharedString
  | array => .array
  | classInstance => .classInstance
  | mapping => .mapping
  | function => .function
  | buffer => .buffer
  | object => .object

theorem category_injective {a b : RefKind} (h : a.category = b.category) : a = b := by
  cases a <;> cases b <;> first | rfl | cases h

theorem category_counted (k : RefKind) : k.category.isCounted = true := by
  cases k <;> rfl

end RefKind

/-- A real is kept as the bits of its binary64 form. -/
inductive Value where
  | number (n : Int64)
  | real (bits : UInt64)
  | ref (kind : RefKind) (target : Handle)
deriving DecidableEq, Repr

namespace Value

/-- The value of a variable nobody has set. -/
def zero : Value := .number 0

/-- The block a value holds one reference to. -/
def target? : Value → Option Handle
  | ref _ target => some target
  | _ => none

/-- The bytes one value takes inside an aggregate. -/
def slotSize : Nat := 16

@[simp] theorem target?_ref (k : RefKind) (h : Handle) : (ref k h).target? = some h := rfl

@[simp] theorem target?_zero : zero.target? = none := rfl

end Value

/-- The handles a list of values holds, in order. -/
def heldBy (values : List Value) : List Handle := values.filterMap Value.target?

end HeapAudit
