import ExprTree.World

set_option autoImplicit false

/-! # The host

A host gives meaning to the functions that trees call by number. A host function sees the arguments,
the heap and all calls made so far, the present one included. It works step by step: it changes the
heap, it reads and overwrites cells that closures captured, it compiles trees, and it invokes
closures, as often as it likes and inside one another. It goes on with the result of each step, also
with an error. What a host remembers between calls it keeps on the heap.
-/

namespace ExprTree

/-- What a host function does. -/
inductive Reply
  /-- It returns, fails or never ends, and leaves this heap. -/
  | done (result : Except (Stop RuntimeError) Value) (heap : Heap)
  /-- It invokes a closure, and goes on with the result, the heap and the calls made by then. -/
  | invoke (heap : Heap) (f : FunctionRef) (args : List Value)
      (next : Except RuntimeError Value → Heap → List CallRecord → Reply)
  /-- It compiles a lambda, and goes on with a closure of it. -/
  | instantiate (heap : Heap) (options : Options) (tree : Tree)
      (next : Except CompileError Value → Reply)
  /-- It reads a cell that a closure captured. -/
  | peek (f : FunctionRef) (c : CellName) (next : Option Value → Reply)
  /-- It overwrites such a cell, and learns whether there is one. -/
  | poke (heap : Heap) (f : FunctionRef) (c : CellName) (v : Value) (next : Bool → Reply)

/-- The meaning of the host functions. -/
abbrev Host := HostRef → List Value → Heap → List CallRecord → Reply

end ExprTree
