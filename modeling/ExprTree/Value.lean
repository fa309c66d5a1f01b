import ExprTree.Node.Build
import ExprTree.Float.Decimal

set_option autoImplicit false

/-! # Values

What compiled code computes with. A missing optional and a null reference are both `null`; an
optional that has a value is that value. Lists and instances are references into the heap, a
function is a reference to a closure that shows its signature and name, and a quoted tree is a
value of its own. Arrays are immutable but keep their identity.
-/

namespace ExprTree

/-- A closure as it is seen from outside. -/
structure FunctionRef where
  /-- Number of the closure. -/
  id : Nat
  signature : Signature
  name : Option String

/-- A runtime value. -/
inductive Value : Type
  | null
  | unit
  | bool (b : Bool)
  | char (c : Char)
  | int (t : IntType) (w : Word t)
  | f32 (x : Float32)
  | f64 (x : Float)
  | string (s : String)
  | array (id : Nat) (items : List Value)
  | list (id : Nat)
  | object (record : RecordRef) (id : Nat)
  | function (f : FunctionRef)
  | expression (tree : Node Value)

/-- An expression tree whose constants are values. -/
abbrev Tree := Node Value

namespace Value

instance : Inhabited Value := ⟨.null⟩

/-- Whether there is no value. -/
def isNull : Value → Bool
  | .null => true
  | _ => false

/-- The integer `n`, modulo the width of `t`. -/
def ofInt (t : IntType) (n : Int) : Value := .int t (Word.ofInt t n)

/-- The static type a constant of this value has by itself. -/
def naturalType : Value → Ty
  | .null => .object
  | .unit => .unit
  | .bool _ => .bool
  | .char _ => .char
  | .int t _ => .int t
  | .f32 _ => .f32
  | .f64 _ => .f64
  | .string _ => .string
  | .array .. => .array .object
  | .list _ => .list .object
  | .object r _ => .record r
  | .function f => f.signature.function
  | .expression n =>
      match n.ty with
      | .function params ret => .expression params ret
      | ty => ty

/-- How a value's type is called in messages. -/
def typeName : Value → String
  | .null => "null"
  | .array .. => "array"
  | .list _ => "list"
  | .function _ => "function"
  | .expression _ => "expression"
  | v => v.naturalType.text

/-- Whether a value may be stored where a `ty` is expected. Element types and signatures are not
inspected. -/
def conformsTo (schema : Schema) (v : Value) : Ty → Bool
  | .nullable inner => v.isNull || v.conformsTo schema inner
  | ty =>
      match v, ty with
      | .null, ty => ty.admitsNull
      | _, .object => true
      | .unit, .unit => true
      | .bool _, .bool => true
      | .char _, .char => true
      | .int s _, .int t => s == t
      | .f32 _, .f32 => true
      | .f64 _, .f64 => true
      | .string _, .string => true
      | .array .., .array _ => true
      | .list _, .list _ => true
      | .function _, .function .. => true
      | .expression _, .expression .. => true
      | .object r _, .record s => schema.derivesFrom r s
      | _, _ => false

/-- The `==` operator on values: numbers, truth values, characters and strings by content, all
other values by identity. -/
def operatorEq : Value → Value → Bool
  | .null, .null => true
  | .unit, .unit => true
  | .bool a, .bool b => a == b
  | .char a, .char b => a == b
  | .int s a, .int t b => s == t && a.toInt == b.toInt
  | .f32 a, .f32 b => a == b
  | .f64 a, .f64 b => a == b
  | .string a, .string b => a == b
  | .array a _, .array b _ => a == b
  | .list a, .list b => a == b
  | .object _ a, .object _ b => a == b
  | .function f, .function g => f.id == g.id
  | .expression m, .expression n => m.id == n.id
  | _, _ => false

end Value

/-- What a storage place of this type holds before anything is stored in it. -/
def Ty.default : Ty → Value
  | .unit => .unit
  | .bool => .bool false
  | .char => .char (Char.ofNat 0)
  | .int t => .int t (Word.zero t)
  | .f32 => .f32 0
  | .f64 => .f64 0
  | _ => .null

/-- The default values of a record's fields. -/
def Schema.defaults (s : Schema) (r : RecordRef) : List Value := (s.fields r).map (·.ty.default)

/-- A constant typed by its value. -/
def Node.constantOf (id : Nat) (v : Value) : Tree := Node.constant id v v.naturalType

/-- A missing value of the given type. -/
def Node.null (id : Nat) (ty : Ty) : Tree := Node.constant id .null ty

end ExprTree
