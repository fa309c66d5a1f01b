import ExprTree.Kind
import ExprTree.Member

set_option autoImplicit false

/-! # Expression trees

A `Node` is a typed, immutable expression. Its constants are drawn from a type `α`. Parameters,
lambdas and nodes have identity: a parameter is its number, never its name, and a lambda or node
that occurs in several places is the same one everywhere.
-/

namespace ExprTree

/-- A lambda parameter, known by its number. -/
structure Parameter where
  id : Nat
  name : String
  ty : Ty

mutual

/-- A typed expression with a kind and, held apart from it, its content. -/
inductive Node (α : Type) : Type
  | mk (id : Nat) (kind : Kind) (ty : Ty) (payload : Payload α)

/-- What a node holds. -/
inductive Payload (α : Type) : Type
  | constant (value : α)
  | parameter (p : Parameter)
  /-- `lifted`: the operand is optional and the operator is defined on plain values. -/
  | unary (operand : Node α) (method : Option Method) (lifted : Bool)
  /-- `conversion` is applied to the left operand of a coalescing node that has a value. -/
  | binary (left right : Node α) (method : Option Method) (lifted liftedToNull : Bool)
      (conversion : Option (Lambda α))
  | conditional (test ifTrue ifFalse : Node α)
  /-- A static member needs no target. -/
  | memberAccess (target : Option (Node α)) (member : Member)
  | call (target : Option (Node α)) (method : Method) (args : List (Node α))
  /-- Without a constructor the node's type is default-initialised. -/
  | new (constructor : Option Constructor) (args : List (Node α))
  /-- The elements of an array, or its length alone. -/
  | newArray (items : List (Node α))
  | listInit (new : Node α) (inits : List (ElementInit α))
  | memberInit (new : Node α) (bindings : List (MemberBinding α))
  | lambda (l : Lambda α)
  | invoke (target : Node α) (args : List (Node α))
  | typeIs (operand : Node α) (type : Ty)
  | assign (target : Parameter) (value : Node α)
  | block (items : List (Node α))

/-- A function literal, known by its number. -/
inductive Lambda (α : Type) : Type
  | mk (id : Nat) (name : Option String) (params : List Parameter) (body : Node α)

/-- One call of an `add` method in a list initialiser. -/
inductive ElementInit (α : Type) : Type
  | mk (add : Method) (args : List (Node α))

/-- One part of an object initialiser. -/
inductive MemberBinding (α : Type) : Type
  /-- Stores a value in the member. -/
  | assign (member : Member) (value : Node α)
  /-- Applies further bindings to the object the member holds. -/
  | bind (member : Member) (nested : List (MemberBinding α))
  /-- Adds elements to the list the member holds. -/
  | list (member : Member) (inits : List (ElementInit α))

end

variable {α : Type}

namespace Lambda

/-- The number of a lambda. -/
def id : Lambda α → Nat
  | .mk id .. => id

/-- The name of a lambda, if it has one. -/
def name : Lambda α → Option String
  | .mk _ name .. => name

/-- The declared parameters. A parameter may be declared twice. -/
def params : Lambda α → List Parameter
  | .mk _ _ params .. => params

/-- The body. -/
def body : Lambda α → Node α
  | .mk _ _ _ body => body

/-- Whether the lambda declares the parameter with that number. -/
def declares (l : Lambda α) (p : Nat) : Bool := l.params.any (·.id == p)

end Lambda

/-- The member a binding is about. -/
def MemberBinding.member : MemberBinding α → Member
  | .assign m _ | .bind m _ | .list m _ => m

namespace Node

/-- The identity of a node. -/
def id : Node α → Nat
  | .mk id .. => id

/-- The tag of a node. -/
def kind : Node α → Kind
  | .mk _ kind .. => kind

/-- The static type of a node. -/
def ty : Node α → Ty
  | .mk _ _ ty _ => ty

/-- The content of a node. -/
def payload : Node α → Payload α
  | .mk _ _ _ payload => payload

/-- The lambda a node holds, whatever its kind. -/
def lambda? (n : Node α) : Option (Lambda α) :=
  match n.payload with
  | .lambda l => some l
  | _ => none

/-- The text of a node: kind and type. -/
def text (n : Node α) : String := n.kind.name ++ ": " ++ n.ty.text

end Node

/-- The types of the parameters and of the body. -/
def Lambda.signature (l : Lambda α) : Signature := ⟨l.params.map (·.ty), l.body.ty⟩

end ExprTree
