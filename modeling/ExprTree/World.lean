import ExprTree.Scope

set_option autoImplicit false

/-! # The state of a run

Compiled code works on the heap, on the cells of captured parameters and on the closures made so
far. Every call of a host function is recorded, with its arguments and the heap they refer to at
that moment.
-/

namespace ExprTree

/-- A call of a host function. -/
structure CallRecord where
  callee : HostRef
  args : List Value
  /-- The heap when the call was made. -/
  heap : Heap

/-- Everything a run can change. -/
structure World where
  heap : Heap := {}
  /-- The cells of every frame that has some. -/
  cells : Array (Array Value) := #[]
  /-- The scope of every closure. -/
  closures : Array Scope := #[]
  /-- The calls of host functions, latest first. -/
  calls : List CallRecord := []

namespace World

/-- A closure of the scope's unit. -/
def newClosure (w : World) (s : Scope) : Value × World :=
  let (name, signature) := match s.unit? with
    | some u => (u.name, u.signature)
    | none => (none, ⟨[], .unit⟩)
  (.function ⟨w.closures.size, signature, name⟩, { w with closures := w.closures.push s })

/-- The scope of a closure. -/
def scope? (w : World) (f : FunctionRef) : Option Scope := w.closures[f.id]?

/-- Cells holding these values, shared by nobody yet. -/
def newCells (w : World) (values : Array Value) : Nat × World :=
  (w.cells.size, { w with cells := w.cells.push values })

/-- The value of a cell. -/
def cell? (w : World) (cells position : Nat) : Option Value := w.cells[cells]?.bind (·[position]?)

/-- Stores into a cell, if it exists. -/
def setCell? (w : World) (cells position : Nat) (v : Value) : Option World :=
  if (w.cell? cells position).isSome then
    some { w with cells := w.cells.modify cells (·.setIfInBounds position v) }
  else none

/-- Current value of a cell that a closure captured. -/
def peek? (w : World) (s : Scope) (c : CellName) : Option Value :=
  (s.cellNamed c).bind fun (cells, position) => w.cell? cells position

/-- Overwrites a captured cell; every closure that shares the cell sees the new value. -/
def poke? (w : World) (s : Scope) (c : CellName) (v : Value) : Option World :=
  (s.cellNamed c).bind fun (cells, position) => w.setCell? cells position v

/-- Current value of a parameter that a closure captured from an enclosing lambda. -/
def captured? (w : World) (s : Scope) (p : Nat) : Option Value := w.peek? s (.parameter p)

/-- Overwrites a captured parameter. -/
def setCaptured? (w : World) (s : Scope) (p : Nat) (v : Value) : Option World :=
  w.poke? s (.parameter p) v

/-- The values of the free parameters of a tree, seen from a frame that runs in `s` with the cells
`own`; none if one of them has no cell. -/
def captureAll? (w : World) (s : Scope) (own : Option Nat) :
    List Parameter → Option (Substitution Value)
  | [] => some []
  | p :: ps => do
      let (cells, position) ← s.find? own p.id
      let v ← w.cell? cells position
      let rest ← w.captureAll? s own ps
      return (p.id, v) :: rest

/-- A tree with its free parameters replaced by the values they have in a frame that runs in `s`
with the cells `own`. -/
def isolate (w : World) (s : Scope) (own : Option Nat) (tree : Tree) :
    Except RuntimeError (Tree × World) :=
  match w.captureAll? s own tree.freeParameters with
  | none => .error .missingScope
  | some values =>
      let (tree, heap) := w.heap.withFresh (tree.substitute values)
      .ok (tree, { w with heap := heap })

end World

end ExprTree
