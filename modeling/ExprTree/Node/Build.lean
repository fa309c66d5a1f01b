import ExprTree.Node
import ExprTree.Schema

set_option autoImplicit false

/-! # Building trees

One function per form of expression. The result type is inferred from the operands and the
`lifted` flags are set where an operand is optional; nothing checks that the operands fit the
operator. The first argument is the identity of the new node.
-/

namespace ExprTree

variable {α : Type}

/-- The same operands with other flags; content without flags stays as it is. -/
def Payload.withFlags (p : Payload α) (lifted liftedToNull : Option Bool) : Payload α :=
  match p with
  | .unary x m l => .unary x m (lifted.getD l)
  | .binary x y m l n c => .binary x y m (lifted.getD l) (liftedToNull.getD n) c
  | p => p

namespace Node

/-- A constant of the given type. -/
def constant (id : Nat) (value : α) (ty : Ty) : Node α := .mk id .constant ty (.constant value)

/-- A read of a parameter. -/
def parameter (id : Nat) (p : Parameter) : Node α := .mk id .parameter p.ty (.parameter p)

/-- A function literal. -/
def ofLambda (id : Nat) (l : Lambda α) : Node α := .mk id .lambda l.signature.function (.lambda l)

/-- Result type of a primitive operator with two operands. -/
def binaryType (kind : Kind) (left : Ty) (lifted liftedToNull : Bool) : Ty :=
  if kind.isRelational then if liftedToNull then .nullable .bool else .bool
  else if kind = .arrayIndex then left.element?.getD .object
  else if lifted then left.nonNullable.optional
  else left

/-- Whether a primitive operator on these operands is lifted. -/
def operandsOptional (left right : Node α) : Bool := left.ty.isNullable || right.ty.isNullable

/-- A primitive operator. Comparisons of optional operands give a plain truth value. -/
def binary (id : Nat) (kind : Kind) (left right : Node α) : Node α :=
  let lifted := operandsOptional left right
  let liftedToNull := lifted && !kind.isRelational
  .mk id kind (binaryType kind left.ty lifted liftedToNull)
    (.binary left right none lifted liftedToNull none)

/-- A primitive operator whose result is optional as soon as an operand is. -/
def binaryLiftedToNull (id : Nat) (kind : Kind) (left right : Node α) : Node α :=
  let lifted := operandsOptional left right
  .mk id kind (binaryType kind left.ty lifted lifted) (.binary left right none lifted lifted none)

/-- An operator implemented by a method. It is lifted when an operand is optional and the method
takes plain values; a lifted comparison whose method gives no truth value has an optional type. -/
def binaryWithMethod (id : Nat) (kind : Kind) (left right : Node α) (method : Method) : Node α :=
  let lifted := !method.takesOptional && operandsOptional left right
  let plain := kind.isRelational && method.ret.isBool
  let ty := if !lifted then method.ret else if plain then .bool else method.ret.optional
  .mk id kind ty (.binary left right (some method) lifted (lifted && !plain) none)

/-- The left operand if it has a value, else the right one. -/
def coalesce (id : Nat) (left right : Node α) : Node α :=
  let ty := if left.ty.isNullable && !right.ty.isNullable then left.ty.nonNullable else left.ty
  .mk id .coalesce ty (.binary left right none false false none)

/-- The converted left operand if it has a value, else the right one. -/
def coalesceWith (id : Nat) (left right : Node α) (conversion : Lambda α) : Node α :=
  .mk id .coalesce conversion.signature.ret (.binary left right none false false (some conversion))

/-- A quoted tree. A quoted lambda has the lambda's signature, any other tree no parameters. -/
def quote (id : Nat) (operand : Node α) : Node α :=
  let plain := Signature.mk [] operand.ty
  let signature :=
    match operand.lambda?, operand.ty with
    | some _, .function params ret => Signature.mk params ret
    | _, _ => plain
  .mk id .quote signature.expression (.unary operand none false)

/-- A primitive operator with one operand. -/
def unary (id : Nat) (kind : Kind) (operand : Node α) : Node α :=
  match kind with
  | .quote => quote id operand
  | .arrayLength => .mk id kind (.int .i32) (.unary operand none operand.ty.isNullable)
  | _ => .mk id kind operand.ty (.unary operand none operand.ty.isNullable)

/-- An operator with one operand, implemented by a method. -/
def unaryWithMethod (id : Nat) (kind : Kind) (operand : Node α) (method : Method) : Node α :=
  let lifted := !method.takesOptional && operand.ty.isNullable
  let ty := if lifted then method.ret.optional else method.ret
  .mk id kind ty (.unary operand (some method) lifted)

/-- The common form of conversions; lifted when both types are optional. -/
def conversion (id : Nat) (kind : Kind) (operand : Node α) (ty : Ty) (method : Option Method) :
    Node α :=
  .mk id kind ty (.unary operand method (operand.ty.isNullable && ty.isNullable))

/-- A conversion that wraps around. -/
def convert (id : Nat) (operand : Node α) (ty : Ty) : Node α :=
  conversion id .convert operand ty none

/-- A conversion that reports an overflow. -/
def convertChecked (id : Nat) (operand : Node α) (ty : Ty) : Node α :=
  conversion id .convertChecked operand ty none

/-- A conversion implemented by a method. -/
def convertWithMethod (id : Nat) (operand : Node α) (ty : Ty) (method : Method) : Node α :=
  conversion id .convert operand ty (some method)

/-- The operand if it conforms to the type, else `null`. -/
def typeAs (id : Nat) (operand : Node α) (ty : Ty) : Node α := conversion id .typeAs operand ty none

/-- Whether the operand has a value that conforms to the type. -/
def typeIs (id : Nat) (operand : Node α) (ty : Ty) : Node α :=
  .mk id .typeIs .bool (.typeIs operand ty)

/-- A choice between two trees, typed by the first one. -/
def condition (id : Nat) (test ifTrue ifFalse : Node α) : Node α :=
  .mk id .conditional ifTrue.ty (.conditional test ifTrue ifFalse)

/-- A read of a member. -/
def memberAccess (id : Nat) (target : Option (Node α)) (member : Member) : Node α :=
  .mk id .memberAccess member.ty (.memberAccess target member)

/-- A read of the field of that name, if the target's type has one. -/
def field? (id : Nat) (schema : Schema) (target : Node α) (name : String) : Option (Node α) :=
  (schema.member? target.ty name).map (memberAccess id (some target))

/-- A call of a method. -/
def call (id : Nat) (target : Option (Node α)) (method : Method) (args : List (Node α)) : Node α :=
  .mk id .call method.ret (.call target method args)

/-- A value made by a constructor. -/
def new (id : Nat) (constructor : Constructor) (args : List (Node α)) : Node α :=
  .mk id .new constructor.ty (.new (some constructor) args)

/-- A default value: a fresh instance or list, or the zero of a value type. -/
def newDefault (id : Nat) (ty : Ty) (args : List (Node α)) : Node α :=
  .mk id .new ty (.new none args)

/-- An array of the given elements. -/
def newArray (id : Nat) (element : Ty) (items : List (Node α)) : Node α :=
  .mk id .newArrayInit (.array element) (.newArray items)

/-- An array of default elements. -/
def newArrayBounds (id : Nat) (element : Ty) (length : Node α) : Node α :=
  .mk id .newArrayBounds (.array element) (.newArray [length])

/-- A list with elements added to it. -/
def listInit (id : Nat) (new : Node α) (inits : List (ElementInit α)) : Node α :=
  .mk id .listInit new.ty (.listInit new inits)

/-- An object with members set on it. -/
def memberInit (id : Nat) (new : Node α) (bindings : List (MemberBinding α)) : Node α :=
  .mk id .memberInit new.ty (.memberInit new bindings)

/-- An invocation of a function value. -/
def invoke (id : Nat) (target : Node α) (args : List (Node α)) : Node α :=
  let ty := match target.ty.signature? with
    | some s => s.ret
    | none => .object
  .mk id .invoke ty (.invoke target args)

/-- An assignment to a parameter. -/
def assign (id : Nat) (target : Parameter) (value : Node α) : Node α :=
  .mk id .assign target.ty (.assign target value)

/-- The items in order; the last one is the result, and unit if there is none. -/
def block (id : Nat) (items : List (Node α)) : Node α :=
  .mk id .block ((items.getLast?.map ty).getD .unit) (.block items)

end Node

end ExprTree
