import ExprTree.Compile

set_option autoImplicit false

/-! # Scopes

A closure runs a unit in the scope it was created in. A scope is a chain: the root scope of an
instantiated program, and one link for every closure created inside a running frame. The link
remembers the cells of that frame, if it has any.
-/

namespace ExprTree

/-- The scope a closure runs in. -/
inductive Scope
  /-- A program without captured cells. -/
  | root (program : Program) (unit : Nat)
  /-- A closure of `unit`, created by a frame that runs in `parent` and has the cells `locals`. -/
  | nested (parent : Scope) (unit : Nat) (locals : Option Nat)

namespace Scope

/-- The program a scope belongs to. -/
def program : Scope → Program
  | .root p _ => p
  | .nested parent _ _ => parent.program

/-- Position of the unit that runs in the scope. -/
def unit : Scope → Nat
  | .root _ u => u
  | .nested _ u _ => u

/-- The unit that runs in the scope. -/
def unit? (s : Scope) : Option CodeUnit := s.program.units.get? s.unit

/-- The cells captured from the creating frame. -/
def locals : Scope → Option Nat
  | .root .. => none
  | .nested _ _ locals => locals

/-- The cells captured `level` links up the chain. -/
def localsAt : (level : Nat) → Scope → Option Nat
  | 0, s => s.locals
  | _ + 1, .root .. => none
  | level + 1, .nested parent _ _ => localsAt level parent

/-- The captured cells of every link, innermost first. -/
def chain : Scope → List (Option Nat)
  | .root .. => [none]
  | .nested parent _ locals => locals :: parent.chain

/-- Looks a parameter up in the cells `own` of a frame that runs `u`, then in the cells captured by
the scope of that frame for the unit around `u`, and so on outwards. -/
def findFrom (units : Arena CodeUnit) (p : Nat) (u : CodeUnit) (own : Option Nat) :
    Scope → Option (Nat × Nat)
  | .root .. =>
      match u.cellOf? p with
      | some position => own.map (·, position)
      | none => none
  | .nested parent _ locals =>
      match u.cellOf? p with
      | some position => own.map (·, position)
      | none =>
        match u.parent.bind units.get? with
        | some around => findFrom units p around locals parent
        | none => none

/-- The cell of a parameter, as cells and position. `own` are the cells of the frame that runs the
scope's unit, if it runs at all. -/
def find? (s : Scope) (own : Option Nat) (p : Nat) : Option (Nat × Nat) :=
  s.unit?.bind fun u => findFrom s.program.units p u own s

end Scope

/-- How a cell that a closure captured is named from outside. -/
inductive CellName
  /-- The cell of a parameter. -/
  | parameter (p : Nat)
  /-- A position in the cells captured `level` links up the chain. -/
  | place (level position : Nat)

/-- The cell that a name stands for in a scope that does not run, as cells and position. -/
def Scope.cellNamed (s : Scope) : CellName → Option (Nat × Nat)
  | .parameter p => s.find? none p
  | .place level position => (s.localsAt level).map (·, position)

end ExprTree
