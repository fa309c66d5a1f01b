import ExprTree.Ty

set_option autoImplicit false

/-! # Methods, constructors and members

What a tree can name in its host: functions implemented outside of the tree, and the fields,
static fields and properties of the host's types. A host function is known by its number; what it
does when called is the host's business.
-/

namespace ExprTree

/-- A function implemented by the host: its number, and the label under which a call is recorded. -/
structure HostRef where
  id : Nat
  label : String
deriving DecidableEq

/-- A static function, an instance method or a user-defined operator. An instance method receives
its target as the first argument. -/
structure Method where
  impl : HostRef
  /-- Declaring type; a method without one is static. -/
  this : Option Ty
  params : List Ty
  ret : Ty

namespace Method

/-- The name of a method is the label of its implementation. -/
def name (m : Method) : String := m.impl.label

/-- Whether the method takes no target. -/
def isStatic (m : Method) : Bool := m.this.isNone

/-- Whether some parameter has an optional type. -/
def takesOptional (m : Method) : Bool := m.params.any Ty.isNullable

/-- Methods are the same when their implementation is. -/
def same (a b : Method) : Bool := a.impl.id == b.impl.id

end Method

/-- A host function that makes a value of type `ty` from arguments. -/
structure Constructor where
  impl : HostRef
  ty : Ty
  params : List Ty

/-- Constructors are the same when their implementation is. -/
def Constructor.same (a b : Constructor) : Bool := a.impl.id == b.impl.id

/-- A readable, and possibly writable, member of a type. -/
inductive Member
  /-- Field of an instance, by position. -/
  | field (name : String) (index : Nat) (ty : Ty)
  /-- A storage cell shared by every tree that names it. -/
  | static (name : String) (ty : Ty) (cell : Nat)
  | property (name : String) (getter : Method) (setter : Option Method)

namespace Member

/-- The name of a member. -/
def name : Member → String
  | .field name .. | .static name .. | .property name .. => name

/-- The type of a member; for a property, what its getter returns. -/
def ty : Member → Ty
  | .field _ _ ty | .static _ ty _ => ty
  | .property _ getter _ => getter.ret

/-- Whether the member is read without a target. -/
def isStatic : Member → Bool
  | .field .. => false
  | .static .. => true
  | .property _ getter _ => getter.isStatic

/-- Fields agree in name, position and type, static fields in their cell, properties in their
methods. -/
def same : Member → Member → Bool
  | .field n i t, .field n' i' t' => n == n' && i == i' && t == t'
  | .static _ _ c, .static _ _ c' => c == c'
  | .property _ g s, .property _ g' s' =>
      g.same g' && match s, s' with
        | none, none => true
        | some s, some s' => s.same s'
        | _, _ => false
  | _, _ => false

end Member

end ExprTree
