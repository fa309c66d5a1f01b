import ExprTree.Word

set_option autoImplicit false

/-! # Static types

The type every node carries. `nullable` is the optional form of a value type; the reference types
(strings, objects, arrays, lists, functions, expressions and records) admit `null` as they are.
A record type is known by the position of its declaration, so two records with the same name and
fields are different types.
-/

namespace ExprTree

/-- A declared record type: the position of its declaration, and its name. -/
structure RecordRef where
  index : Nat
  name : String
deriving DecidableEq

/-- The static type of a node. -/
inductive Ty
  | unit
  | bool
  | char
  | int (t : IntType)
  | f32
  | f64
  | string
  | object
  | nullable (inner : Ty)
  | array (element : Ty)
  | list (element : Ty)
  | function (params : List Ty) (ret : Ty)
  | expression (params : List Ty) (ret : Ty)
  | record (r : RecordRef)

/-- Parameter types and return type of a lambda. -/
structure Signature where
  params : List Ty
  ret : Ty

/-! ## Equality -/

mutual

/-- Structural equality; records are equal when they are the same declaration. -/
def Ty.beq : Ty → Ty → Bool
  | .unit, .unit | .bool, .bool | .char, .char | .f32, .f32 | .f64, .f64
  | .string, .string | .object, .object => true
  | .int s, .int t => s == t
  | .nullable a, .nullable b | .array a, .array b | .list a, .list b => Ty.beq a b
  | .function ps r, .function qs s | .expression ps r, .expression qs s =>
      Ty.beqList ps qs && Ty.beq r s
  | .record r, .record s => r == s
  | _, _ => false

/-- Structural equality of parameter lists. -/
def Ty.beqList : List Ty → List Ty → Bool
  | [], [] => true
  | a :: as, b :: bs => Ty.beq a b && Ty.beqList as bs
  | _, _ => false

end

mutual

theorem Ty.beq_self : (a : Ty) → Ty.beq a a = true
  | .unit | .bool | .char | .f32 | .f64 | .string | .object => rfl
  | .int _ | .record _ => by simp [Ty.beq]
  | .nullable a | .array a | .list a => by simp [Ty.beq, Ty.beq_self a]
  | .function ps r | .expression ps r => by simp [Ty.beq, Ty.beqList_self ps, Ty.beq_self r]

theorem Ty.beqList_self : (as : List Ty) → Ty.beqList as as = true
  | [] => rfl
  | a :: as => by simp [Ty.beqList, Ty.beq_self a, Ty.beqList_self as]

end

mutual

theorem Ty.eq_of_beq : (a b : Ty) → Ty.beq a b = true → a = b
  | a, b, h => by
    cases a <;> cases b <;> simp [Ty.beq] at h ⊢
    case int.int => exact h
    case record.record => exact h
    case nullable.nullable a b => exact Ty.eq_of_beq a b h
    case array.array a b => exact Ty.eq_of_beq a b h
    case list.list a b => exact Ty.eq_of_beq a b h
    case function.function ps r qs s => exact ⟨Ty.eq_of_beqList ps qs h.1, Ty.eq_of_beq r s h.2⟩
    case expression.expression ps r qs s =>
      exact ⟨Ty.eq_of_beqList ps qs h.1, Ty.eq_of_beq r s h.2⟩

theorem Ty.eq_of_beqList : (as bs : List Ty) → Ty.beqList as bs = true → as = bs
  | [], [], _ => rfl
  | [], _ :: _, h => by simp [Ty.beqList] at h
  | _ :: _, [], h => by simp [Ty.beqList] at h
  | a :: as, b :: bs, h => by
    simp [Ty.beqList] at h
    rw [Ty.eq_of_beq a b h.1, Ty.eq_of_beqList as bs h.2]

end

instance : DecidableEq Ty := fun a b =>
  if h : Ty.beq a b = true then .isTrue (Ty.eq_of_beq a b h)
  else .isFalse fun e => h (e ▸ Ty.beq_self a)

deriving instance DecidableEq for Signature

/-! ## Text -/

mutual

/-- The text of a type. -/
def Ty.text : Ty → String
  | .unit => "unit"
  | .bool => "bool"
  | .char => "char"
  | .int t => t.name
  | .f32 => "f32"
  | .f64 => "f64"
  | .string => "string"
  | .object => "object"
  | .nullable inner => inner.text ++ "?"
  | .array element => element.text ++ "[]"
  | .list element => "List<" ++ element.text ++ ">"
  | .function params ret => "fn(" ++ ", ".intercalate (Ty.texts params) ++ ") -> " ++ ret.text
  | .expression params ret =>
      "Expression<fn(" ++ ", ".intercalate (Ty.texts params) ++ ") -> " ++ ret.text ++ ">"
  | .record r => r.name

/-- The texts of several types. -/
def Ty.texts : List Ty → List String
  | [] => []
  | t :: ts => t.text :: Ty.texts ts

end

/-- The text of a signature is that of its function type. -/
def Signature.text (s : Signature) : String := (Ty.function s.params s.ret).text

/-! ## Classes of types -/

namespace Ty

/-- Optional types. -/
def isNullable : Ty → Bool
  | .nullable _ => true
  | _ => false

/-- Types whose values have identity or are strings; all of them admit `null`. -/
def isReference : Ty → Bool
  | .string | .object | .array _ | .list _ | .function .. | .expression .. | .record _ => true
  | _ => false

/-- Whether `null` is a value of the type. -/
def admitsNull (t : Ty) : Bool := t.isNullable || t.isReference

/-- The optional form of a type: a type that admits `null` is its own. -/
def optional (t : Ty) : Ty := if t.admitsNull then t else .nullable t

/-- The type without one layer of `nullable`. -/
def nonNullable : Ty → Ty
  | .nullable inner => inner
  | t => t

/-- Signed integers. -/
def isSigned : Ty → Bool
  | .int t => t.signed
  | _ => false

/-- Unsigned integers. -/
def isUnsigned : Ty → Bool
  | .int t => !t.signed
  | _ => false

/-- The eight integer types. -/
def isInteger (t : Ty) : Bool := t.isSigned || t.isUnsigned

/-- The two floating-point types. -/
def isFloat : Ty → Bool
  | .f32 | .f64 => true
  | _ => false

/-- Integers and floating-point numbers. -/
def isNumeric (t : Ty) : Bool := t.isInteger || t.isFloat

/-- The type of truth values. -/
def isBool : Ty → Bool
  | .bool => true
  | _ => false

/-- Element type of an array or list type. -/
def element? : Ty → Option Ty
  | .array e | .list e => some e
  | _ => none

/-- Signature of a function or expression type. -/
def signature? : Ty → Option Signature
  | .function params ret | .expression params ret => some ⟨params, ret⟩
  | _ => none

/-- The record of a record type or of an optional record type. -/
def record? (t : Ty) : Option RecordRef :=
  match t.nonNullable with
  | .record r => some r
  | _ => none

end Ty

/-- The type of the functions with this signature. -/
def Signature.function (s : Signature) : Ty := .function s.params s.ret

/-- The type of the quoted lambdas with this signature. -/
def Signature.expression (s : Signature) : Ty := .expression s.params s.ret

end ExprTree
