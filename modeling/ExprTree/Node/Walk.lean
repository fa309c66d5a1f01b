import ExprTree.Node

set_option autoImplicit false

/-! # Walking a tree

`Node.walk` lists what a left-to-right walk meets: every node before its children, the parameters
that are read or assigned, and the borders of lambdas and quotes. Analyses of a tree are folds
over this list.
-/

namespace ExprTree

variable {α : Type}

/-- One thing met on the way. -/
inductive Event (α : Type) : Type
  /-- A node, before its children. -/
  | node (n : Node α)
  /-- The walk goes into a lambda, also one that converts the left operand of a node. -/
  | enter (l : Lambda α)
  /-- The walk leaves the innermost lambda. -/
  | leave (l : Lambda α)
  /-- A parameter that is read or assigned. -/
  | mention (p : Parameter)
  | enterQuote
  | leaveQuote

mutual

/-- The events of a node and everything below it. -/
def Node.walk : Node α → List (Event α)
  | .mk id kind ty payload => .node (.mk id kind ty payload) :: Payload.walk kind payload

/-- The events of what a node of that kind holds. Only a quoting node opens a quote. -/
def Payload.walk (kind : Kind) : Payload α → List (Event α)
  | .constant _ => []
  | .parameter p => [.mention p]
  | .unary x _ _ =>
      if kind = .quote then .enterQuote :: Node.walk x ++ [.leaveQuote] else Node.walk x
  | .binary l r _ _ _ none => Node.walk l ++ Node.walk r
  | .binary l r _ _ _ (some c) => Node.walk l ++ (Node.walk r ++ Lambda.walk c)
  | .conditional t a b => Node.walk t ++ (Node.walk a ++ Node.walk b)
  | .memberAccess none _ => []
  | .memberAccess (some x) _ => Node.walk x
  | .call none _ args => Node.walkAll args
  | .call (some x) _ args => Node.walk x ++ Node.walkAll args
  | .new _ args => Node.walkAll args
  | .newArray items => Node.walkAll items
  | .listInit x inits => Node.walk x ++ ElementInit.walkAll inits
  | .memberInit x bindings => Node.walk x ++ MemberBinding.walkAll bindings
  | .lambda l => Lambda.walk l
  | .invoke x args => Node.walk x ++ Node.walkAll args
  | .typeIs x _ => Node.walk x
  | .assign p x => .mention p :: Node.walk x
  | .block items => Node.walkAll items

/-- The events of a lambda, its borders included. -/
def Lambda.walk : Lambda α → List (Event α)
  | .mk id name params body =>
      .enter (.mk id name params body) :: Node.walk body ++ [.leave (.mk id name params body)]

/-- The events of several nodes in order. -/
def Node.walkAll : List (Node α) → List (Event α)
  | [] => []
  | n :: ns => Node.walk n ++ Node.walkAll ns

/-- The events of list initialisers in order. -/
def ElementInit.walkAll : List (ElementInit α) → List (Event α)
  | [] => []
  | .mk _ args :: rest => Node.walkAll args ++ ElementInit.walkAll rest

/-- The events of bindings in order. -/
def MemberBinding.walkAll : List (MemberBinding α) → List (Event α)
  | [] => []
  | .assign _ x :: rest => Node.walk x ++ MemberBinding.walkAll rest
  | .bind _ nested :: rest => MemberBinding.walkAll nested ++ MemberBinding.walkAll rest
  | .list _ inits :: rest => ElementInit.walkAll inits ++ MemberBinding.walkAll rest

end

end ExprTree
