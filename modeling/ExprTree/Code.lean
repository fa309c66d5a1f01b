import ExprTree.Arena
import ExprTree.Conversion

set_option autoImplicit false

/-! # Compiled code

A lambda is compiled to a `CodeUnit`. In its code every parameter has become an address, every
operator has been selected, and nested lambdas are named by the position of their unit. All units
of a root lambda form a `Program` and share its pool of constants.
-/

namespace ExprTree

/-- Where the value of a parameter is. -/
inductive Address
  /-- A slot of the running frame. -/
  | slot (index : Nat)
  /-- A cell of the running frame. -/
  | own (position : Nat)
  /-- A cell that the running closure captured, `level` scopes up. -/
  | captured (level position : Nat)
deriving DecidableEq

/-- What is done with one evaluated operand. -/
inductive UnaryAction
  | primitive (op : UnaryOp)
  | convert (c : Conversion)
  | user (method : Method)
  | typeAs (ty : Ty)
  | typeIs (ty : Ty)

/-- What is done with two evaluated operands. -/
inductive BinaryAction
  | primitive (op : BinaryOp)
  | user (method : Method)
  /-- The element of an array or list at an index. -/
  | element

/-- The code of an expression. -/
inductive Code
  | immediate (v : Value)
  | pooled (index : Nat)
  | load (a : Address)
  | store (a : Address) (value : Code)
  /-- All items in order; the last one is the result. -/
  | block (items : List Code)
  /-- A closure of that unit over the running frame. -/
  | closure (unit : Nat)
  | invoke (callee : Code) (args : List Code)
  /-- A lifted action is not taken on a missing operand. -/
  | unary (action : UnaryAction) (lifted : Bool) (operand : Code)
  /-- With `onNull`, the action is not taken if an operand is missing. -/
  | binary (action : BinaryAction) (onNull : Option NullResult) (left right : Code)
  /-- Three-valued conjunction or disjunction of two operands that are both evaluated. -/
  | kleene (conjunction : Bool) (left right : Code)
  /-- The right operand is only evaluated if the left one is not `decisive`. -/
  | shortCircuit (decisive lifted : Bool) (left right : Code)
  /-- The right operand is only evaluated if `test` does not hold of the left one. -/
  | userShortCircuit (test method : Method) (lifted : Bool) (left right : Code)
  | coalesce (left right : Code)
  /-- A left operand that has a value is passed to a closure of `conversion`. -/
  | coalesceWith (conversion : Nat) (left right : Code)
  | conditional (test ifTrue ifFalse : Code)
  | staticMember (member : Member)
  | member (member : Member) (target : Code)
  | callStatic (method : Method) (args : List Code)
  | callInstance (method : Method) (target : Code) (args : List Code)
  | construct (constructor : Constructor) (args : List Code)
  | newInstance (record : RecordRef) (defaults : List Value)
  | newList
  | newArray (items : List Code)
  | newArrayOf (element : Value) (length : Code)
  /-- Keeps a new value in a slot while the steps work on it; it is the result. -/
  | assemble (slot : Nat) (new : Code) (steps : List Code)
  /-- Stores into a member of the value in a slot. -/
  | setMember (slot : Nat) (member : Member) (value : Code)
  /-- Keeps a member of the value in a slot in the slot `inner` while the steps work on it. -/
  | descend (slot : Nat) (member : Member) (inner : Nat) (steps : List Code)
  /-- Calls an `add` method of the value in a slot. -/
  | append (slot : Nat) (add : Method) (args : List Code)
  /-- The pooled tree, with its free parameters replaced by their current values. -/
  | quote (index : Nat)

/-- A parameter that lives in a cell. -/
structure Hoisted where
  parameter : Parameter
  /-- Slot of the incoming argument. -/
  argument : Nat
  /-- Position in the cells of the frame. -/
  position : Nat

/-- The code of one lambda. -/
structure CodeUnit where
  name : Option String
  signature : Signature
  /-- The parameters that live in cells, by position. -/
  hoisted : List Hoisted
  /-- The unit of the lambda around this one. -/
  parent : Option Nat
  /-- Arguments and temporaries. -/
  slotCount : Nat
  body : Code

/-- The position of the parameter in the cells of the unit's frames. -/
def CodeUnit.cellOf? (u : CodeUnit) (p : Nat) : Option Nat :=
  (u.hoisted.find? (·.parameter.id == p)).map (·.position)

/-- Settings of a compilation. -/
structure Options where
  /-- Nesting of invocations at which a run fails. -/
  maxCallDepth : UInt32 := 512
  name : Option String := none

/-- The units compiled from one root lambda, the root first, and the constants they share. -/
structure Program where
  units : Arena CodeUnit
  pool : Arena Value
  options : Options

end ExprTree
