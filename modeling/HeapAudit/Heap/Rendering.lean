import HeapAudit.Decimal.Binary64
import HeapAudit.Heap.Basic

/-!
Values as text. Arrays inside arrays are written out to a given depth and cut off below it, so
that a cycle of arrays still has a finite text.

Main definitions
* `Heap.renderValue`, `Heap.renderItems`: the text of a value and of an array's slots.
* `Heap.objectName?`, `Heap.stringText?`: the names behind handles.
-/

namespace HeapAudit

namespace Heap

/-- The text of a string block of any kind. -/
def stringText? (heap : Heap) (h : Handle) : Option String :=
  (heap.payload? h).bind Payload.text?

/-- The text of a block that holds text of its own. -/
def ownText? (heap : Heap) (h : Handle) : Option String :=
  match heap.payload? h with
  | some (.text content) => some content
  | _ => none

/-- An object's name, read from its name block. -/
def objectName? (heap : Heap) (h : Handle) : Option String :=
  ((heap.payload? h).bind Payload.object?).bind fun ob => heap.ownText? ob.name

/-- The slots of an array or class block. -/
def slots? (heap : Heap) (h : Handle) : Option (List Value) :=
  match heap.payload? h with
  | some (.slots items) => some items
  | _ => none

def renderString (heap : Heap) (h : Handle) : String :=
  match heap.payload? h with
  | some (.sharedText content) | some (.privateText content _) => "\"" ++ content ++ "\""
  | _ => "<freed string>"

/-- Texts between the brackets of an array. -/
def bracketed (texts : List String) : String := "(\x7b " ++ ", ".intercalate texts ++ " \x7d)"

/-- The text of a value, given how the slots of an array are written. -/
def renderWith (heap : Heap) (slotsText : List Value → String) : Value → String
  | .number n => toString n.toInt
  | .real bits => Decimal.Binary64.text bits
  | .ref .string h | .ref .shared h => heap.renderString h
  | .ref .array h => (heap.slots? h).elim "<freed array>" slotsText
  | .ref .classInstance _ => "<class>"
  | .ref .buffer _ => "<buffer>"
  | .ref .function _ => "<function>"
  | .ref .mapping _ => "<mapping>"
  | .ref .object h => "OBJ(" ++ (heap.objectName? h).getD "<freed>" ++ ")"

/-- Arrays are written out `depth` levels deep. -/
def renderValue (heap : Heap) : Nat → Value → String
  | 0 => heap.renderWith fun _ => bracketed ["..."]
  | depth + 1 => heap.renderWith fun items => bracketed (items.map (renderValue heap depth))

def renderItems (heap : Heap) (depth : Nat) (items : List Value) : String :=
  bracketed (items.map (heap.renderValue depth))

/-- The slots of an array are written as a value that holds the array is, one level deeper. -/
theorem renderValue_array {heap : Heap} {h : Handle} {items : List Value}
    (hs : heap.slots? h = some items) (depth : Nat) :
    heap.renderValue (depth + 1) (.ref .array h) = heap.renderItems depth items := by
  simp [renderValue, renderWith, renderItems, hs]

end Heap

end HeapAudit
