import ExprTree.Value
import ExprTree.Node.Substitute

set_option autoImplicit false

/-! # The heap

The mutable things that values refer to: the contents of lists, the fields of instances and the
static fields. The heap also supplies the identities of arrays, nodes and lambdas.
-/

namespace ExprTree

/-- Contents of lists, instances and static fields. -/
structure Heap where
  /-- The elements of every list, by the number of the list. -/
  lists : Array (Array Value) := #[]
  /-- The fields of every instance, by the number of the instance. -/
  instances : Array (Array Value) := #[]
  /-- The static fields, by cell. -/
  statics : Array Value := #[]
  /-- The least identity not used yet. -/
  nextId : Nat := 0

namespace Heap

/-- An identity not used before. -/
def freshId (h : Heap) : Nat × Heap := (h.nextId, { h with nextId := h.nextId + 1 })

/-- Runs a computation that needs identities. -/
def withFresh {β : Type} (h : Heap) (x : Fresh β) : β × Heap :=
  let (b, n) := x.run h.nextId
  (b, { h with nextId := n })

/-- An array with an identity of its own. -/
def newArray (h : Heap) (items : List Value) : Value × Heap :=
  let (id, h) := h.freshId
  (.array id items, h)

/-- A list that no other value refers to. -/
def newList (h : Heap) (items : List Value) : Value × Heap :=
  (.list h.lists.size, { h with lists := h.lists.push items.toArray })

/-- An instance that no other value refers to. -/
def newInstance (h : Heap) (r : RecordRef) (fields : List Value) : Value × Heap :=
  (.object r h.instances.size, { h with instances := h.instances.push fields.toArray })

/-- A static field. -/
def newStatic (h : Heap) (initial : Value) : Nat × Heap :=
  (h.statics.size, { h with statics := h.statics.push initial })

/-- The elements of a list. -/
def listItems (h : Heap) (id : Nat) : List Value :=
  match h.lists[id]? with
  | some items => items.toList
  | none => []

/-- Appends to a list. -/
def pushAll (h : Heap) (id : Nat) (items : List Value) : Heap :=
  { h with lists := h.lists.modify id (· ++ items.toArray) }

/-- The fields of an instance. -/
def fields (h : Heap) (id : Nat) : Array Value := h.instances[id]?.getD #[]

/-- A field of an instance; beyond the last field there is no value. -/
def field (h : Heap) (id index : Nat) : Value := (h.fields id)[index]?.getD .null

/-- Stores into a field, if the instance has it. -/
def setField? (h : Heap) (id index : Nat) (v : Value) : Option Heap :=
  if index < (h.fields id).size then
    some { h with instances := h.instances.modify id (·.setIfInBounds index v) }
  else none

/-- The value of a static field. -/
def static (h : Heap) (cell : Nat) : Value := h.statics[cell]?.getD .null

/-- Stores into a static field. -/
def setStatic (h : Heap) (cell : Nat) (v : Value) : Heap :=
  { h with statics := h.statics.setIfInBounds cell v }

end Heap

end ExprTree
