import ExprTree.Node.Build

set_option autoImplicit false

/-! # Replacing parameters by constants

`Node.substitute` rebuilds a tree with every read of a parameter in a map replaced by a constant
of the mapped value. The targets of assignments stay. What is rebuilt is new: rebuilt nodes and
lambdas get identities of their own, and rebuilt lambdas are anonymous. With nothing to replace,
the tree itself is the result.
-/

namespace ExprTree

variable {α : Type}

/-- A supply of unused identities. -/
abbrev Fresh := StateM Nat

/-- An identity not used before. -/
def fresh : Fresh Nat := modifyGet fun n => (n, n + 1)

/-- Values for parameters, by the number of the parameter; the first entry counts. -/
abbrev Substitution (α : Type) := List (Nat × α)

mutual

/-- A tree with the reads of mapped parameters replaced; constants and other reads are kept as
they are, every other node is rebuilt. -/
def Node.rebuild (s : Substitution α) : Node α → Fresh (Node α)
  | .mk id kind ty payload =>
      match payload with
      | .constant v => return .mk id kind ty (.constant v)
      | .parameter p =>
          match s.lookup p.id with
          | some v => return Node.constant (← fresh) v ty
          | none => return .mk id kind ty (.parameter p)
      | payload => do
          let payload ← Payload.rebuild s payload
          return .mk (← fresh) kind ty payload

/-- The rebuilt content of a node. -/
def Payload.rebuild (s : Substitution α) : Payload α → Fresh (Payload α)
  | .constant v => return .constant v
  | .parameter p => return .parameter p
  | .unary x m lifted => return .unary (← Node.rebuild s x) m lifted
  | .binary l r m lifted liftedToNull none => do
      let l ← Node.rebuild s l
      let r ← Node.rebuild s r
      return .binary l r m lifted liftedToNull none
  | .binary l r m lifted liftedToNull (some c) => do
      let l ← Node.rebuild s l
      let r ← Node.rebuild s r
      return .binary l r m lifted liftedToNull (some (← Lambda.rebuild s c))
  | .conditional t a b => do
      let t ← Node.rebuild s t
      let a ← Node.rebuild s a
      return .conditional t a (← Node.rebuild s b)
  | .memberAccess none m => return .memberAccess none m
  | .memberAccess (some x) m => return .memberAccess (some (← Node.rebuild s x)) m
  | .call none m args => return .call none m (← Node.rebuildAll s args)
  | .call (some x) m args => do
      let x ← Node.rebuild s x
      return .call (some x) m (← Node.rebuildAll s args)
  | .new c args => return .new c (← Node.rebuildAll s args)
  | .newArray items => return .newArray (← Node.rebuildAll s items)
  | .listInit x inits => do
      let x ← Node.rebuild s x
      return .listInit x (← ElementInit.rebuildAll s inits)
  | .memberInit x bindings => do
      let x ← Node.rebuild s x
      return .memberInit x (← MemberBinding.rebuildAll s bindings)
  | .lambda l => return .lambda (← Lambda.rebuild s l)
  | .invoke x args => do
      let x ← Node.rebuild s x
      return .invoke x (← Node.rebuildAll s args)
  | .typeIs x t => return .typeIs (← Node.rebuild s x) t
  | .assign p x => return .assign p (← Node.rebuild s x)
  | .block items => return .block (← Node.rebuildAll s items)

/-- A new, anonymous lambda with the same parameters. -/
def Lambda.rebuild (s : Substitution α) : Lambda α → Fresh (Lambda α)
  | .mk _ _ params body => do
      let body ← Node.rebuild s body
      return .mk (← fresh) none params body

/-- Rebuilds nodes in order. -/
def Node.rebuildAll (s : Substitution α) : List (Node α) → Fresh (List (Node α))
  | [] => return []
  | n :: ns => do
      let n ← Node.rebuild s n
      return n :: (← Node.rebuildAll s ns)

/-- Rebuilds list initialisers in order. -/
def ElementInit.rebuildAll (s : Substitution α) :
    List (ElementInit α) → Fresh (List (ElementInit α))
  | [] => return []
  | .mk add args :: rest => do
      let args ← Node.rebuildAll s args
      return .mk add args :: (← ElementInit.rebuildAll s rest)

/-- Rebuilds bindings in order. -/
def MemberBinding.rebuildAll (s : Substitution α) :
    List (MemberBinding α) → Fresh (List (MemberBinding α))
  | [] => return []
  | .assign m x :: rest => do
      let x ← Node.rebuild s x
      return .assign m x :: (← MemberBinding.rebuildAll s rest)
  | .bind m nested :: rest => do
      let nested ← MemberBinding.rebuildAll s nested
      return .bind m nested :: (← MemberBinding.rebuildAll s rest)
  | .list m inits :: rest => do
      let inits ← ElementInit.rebuildAll s inits
      return .list m inits :: (← MemberBinding.rebuildAll s rest)

end

/-- The tree with the reads of the mapped parameters replaced by constants. -/
def Node.substitute (s : Substitution α) (n : Node α) : Fresh (Node α) :=
  if s.isEmpty then return n else n.rebuild s

end ExprTree
