import ExprTree.Member

set_option autoImplicit false

/-! # Record declarations

A `Schema` lists the record types in the order of their declaration. A record derived from
another one has all the fields of its base first, then its own; it may also carry the two
operators by which a user-defined `&&` or `||` decides its result early, and inherits them from
its base if it has none.
-/

namespace ExprTree

/-- A field of a record. -/
structure Field where
  name : String
  ty : Ty
deriving DecidableEq

/-- The operators that say whether an instance counts as true or as false. -/
structure TruthOperators where
  isTrue : Method
  isFalse : Method

/-- A declared record. -/
structure RecordDecl where
  name : String
  /-- All fields, inherited ones first. -/
  fields : List Field
  base : Option RecordRef
  /-- Its own truth operators. -/
  truth : Option TruthOperators

/-- The declared records, in the order of declaration. -/
structure Schema where
  records : Array RecordDecl := #[]

namespace Schema

/-- The schema without records. -/
def empty : Schema := ⟨#[]⟩

/-- The declaration of a record. -/
def decl? (s : Schema) (r : RecordRef) : Option RecordDecl := s.records[r.index]?

/-- The fields of a record, inherited ones first. -/
def fields (s : Schema) (r : RecordRef) : List Field :=
  match s.decl? r with
  | some d => d.fields
  | none => []

/-- The record a record derives from. -/
def base? (s : Schema) (r : RecordRef) : Option RecordRef := (s.decl? r).bind (·.base)

/-- Declares a record without a base. -/
def declare (s : Schema) (name : String) (fields : List Field) : RecordRef × Schema :=
  (⟨s.records.size, name⟩, ⟨s.records.push ⟨name, fields, none, none⟩⟩)

/-- Declares a record that inherits the fields of `base`. -/
def derive (s : Schema) (name : String) (base : RecordRef) (fields : List Field) :
    RecordRef × Schema :=
  (⟨s.records.size, name⟩, ⟨s.records.push ⟨name, s.fields base ++ fields, some base, none⟩⟩)

/-- Position of the first field of that name. -/
def fieldIndex? (s : Schema) (r : RecordRef) (name : String) : Option Nat :=
  (s.fields r).findIdx? (·.name == name)

/-- A record and its bases, nearest first, at most `fuel` of them. -/
def lineageFrom (s : Schema) : (fuel : Nat) → RecordRef → List RecordRef
  | 0, _ => []
  | fuel + 1, r =>
      match s.base? r with
      | some b => if b.index < r.index then r :: s.lineageFrom fuel b else [r]
      | none => [r]

/-- A record and all its bases, nearest first. A base is declared before the records derived from
it, so there are at most `r.index` of them. -/
def lineage (s : Schema) (r : RecordRef) : List RecordRef := s.lineageFrom (r.index + 1) r

/-- Whether `r` is `ancestor` or inherits from it. -/
def derivesFrom (s : Schema) (r ancestor : RecordRef) : Bool := (s.lineage r).contains ancestor

/-- The truth operators of a record or, failing that, of the nearest base that has some. -/
def truth? (s : Schema) (r : RecordRef) : Option TruthOperators :=
  (s.lineage r).findSome? fun b => (s.decl? b).bind (·.truth)

/-- Gives a record its truth operators, once: a second attempt is refused. -/
def setTruth (s : Schema) (r : RecordRef) (ops : TruthOperators) : Bool × Schema :=
  match s.decl? r with
  | some d =>
      if d.truth.isSome then (false, s)
      else (true, ⟨s.records.setIfInBounds r.index { d with truth := some ops }⟩)
  | none => (false, s)

/-- The field of that name on a record type or an optional record type. -/
def member? (s : Schema) (t : Ty) (name : String) : Option Member := do
  let r ← t.record?
  let i ← s.fieldIndex? r name
  let f ← (s.fields r)[i]?
  return .field name i f.ty

end Schema

end ExprTree
