import ExprTree.Node.Walk

set_option autoImplicit false

/-! # Free parameters

A parameter is free in a tree if it is read or assigned somewhere outside of every lambda of the
tree that declares it.
-/

namespace ExprTree

variable {α : Type}

/-- State of the search for free parameters. -/
structure FreeScan where
  /-- What the lambdas around the current place declare: the number of a parameter stands here once
  for each declaration. -/
  declared : List Nat := []
  /-- The free parameters met so far, in order of their first free occurrence. -/
  free : List Parameter := []

namespace FreeScan

/-- Whether a lambda around the current place declares the parameter. -/
def isDeclared (s : FreeScan) (p : Parameter) : Bool := s.declared.contains p.id

/-- Whether the parameter was already found to be free. -/
def isKnown (s : FreeScan) (p : Parameter) : Bool := s.free.any (·.id == p.id)

/-- One declaration more of each parameter in the list. -/
def declare (s : FreeScan) (params : List Parameter) : FreeScan :=
  { s with declared := params.map (·.id) ++ s.declared }

/-- One declaration less of each parameter in the list. Those of lambdas further out stay, also for
the same parameter. -/
def retract (s : FreeScan) (params : List Parameter) : FreeScan :=
  { s with declared := params.foldl (fun d p => d.erase p.id) s.declared }

/-- What one event changes. -/
def step (s : FreeScan) : Event α → FreeScan
  | .enter l => s.declare l.params
  | .leave l => s.retract l.params
  | .mention p =>
      if s.isDeclared p || s.isKnown p then s else { s with free := s.free ++ [p] }
  | .node _ | .enterQuote | .leaveQuote => s

end FreeScan

/-- The free parameters of a tree, each once, in order of their first free occurrence. -/
def Node.freeParameters (n : Node α) : List Parameter := (n.walk.foldl FreeScan.step {}).free

end ExprTree
