import ExprTree.Node.Walk

set_option autoImplicit false

/-! # Captured parameters

A parameter of a lambda lives in a shared cell, and not in a slot of the running frame, exactly if
it is read or written from a lambda or a quote nested inside that lambda. `Lambda.captures` finds
these parameters for every lambda of a tree in one walk.
-/

namespace ExprTree

variable {α : Type}

/-- Parameters with the lambda whose cells they live in, in order of the first captured use. -/
abbrev Captures := List (Nat × Parameter)

namespace Captures

/-- The captured parameters of one lambda. -/
def ofLambda (c : Captures) (id : Nat) : List Parameter :=
  c.filterMap fun (l, p) => if l = id then some p else none

/-- Whether the parameter is known to live in a cell of that lambda. -/
def has (c : Captures) (id : Nat) (p : Parameter) : Bool :=
  c.any fun (l, q) => l == id && q.id == p.id

end Captures

/-- For every parameter that is in scope, the lambdas that declare it, innermost first. -/
abbrev Declarers := List (Nat × List Nat)

namespace Declarers

/-- The lambdas that declare a parameter. -/
def of (d : Declarers) (p : Nat) : List Nat := (d.find? (·.1 == p)).elim [] (·.2)

/-- Replaces the lambdas of a parameter; one without lambdas is forgotten. -/
def set (d : Declarers) (p : Nat) (lambdas : List Nat) : Declarers :=
  let others := d.filter (·.1 != p)
  if lambdas.isEmpty then others else (p, lambdas) :: others

/-- Adds a lambda as the innermost one. -/
def push (d : Declarers) (lambda : Nat) (p : Parameter) : Declarers :=
  d.set p.id (lambda :: d.of p.id)

/-- Removes the innermost lambda. -/
def pop (d : Declarers) (p : Parameter) : Declarers := d.set p.id (d.of p.id).tail

end Declarers

/-- State of the search for captured parameters. -/
structure CaptureAnalysis where
  /-- The innermost lambda around the current place; none directly inside a quote. -/
  current : Option Nat := none
  /-- What `current` was outside of every lambda and quote that is open, innermost first. -/
  outer : List (Option Nat) := []
  declared : Declarers := []
  captures : Captures := []

namespace CaptureAnalysis

/-- Goes into a lambda or a quote. -/
def enclose (s : CaptureAnalysis) (current : Option Nat) : CaptureAnalysis :=
  { s with current := current, outer := s.current :: s.outer }

/-- Goes back to what is around the innermost lambda or quote. -/
def restore (s : CaptureAnalysis) : CaptureAnalysis :=
  { s with current := s.outer.head?.join, outer := s.outer.tail }

/-- A use of a parameter. One that no lambda declares is left for the compiler to report. -/
def mention (s : CaptureAnalysis) (p : Parameter) : CaptureAnalysis :=
  match s.declared.of p.id with
  | [] => s
  | l :: _ =>
      if s.current = some l || s.captures.has l p then s
      else { s with captures := s.captures ++ [(l, p)] }

/-- What one event changes. A parameter that a lambda declares twice is pushed and popped twice. -/
def step (s : CaptureAnalysis) : Event α → CaptureAnalysis
  | .enter l =>
      { s with declared := l.params.foldl (·.push l.id ·) s.declared }.enclose (some l.id)
  | .leave l => { s.restore with declared := l.params.foldl (·.pop ·) s.declared }
  | .enterQuote => s.enclose none
  | .leaveQuote => s.restore
  | .mention p => s.mention p
  | .node _ => s

end CaptureAnalysis

/-- The captured parameters of a lambda and of every lambda inside it. -/
def Lambda.captures (root : Lambda α) : Captures :=
  (root.walk.foldl CaptureAnalysis.step {}).captures

end ExprTree
