import ExprTree.Heap

set_option autoImplicit false

/-! # The text and the equality of values

Both look into lists, so they depend on the heap. A list may contain itself, directly or inside
other lists. Writing it down never ends, so it has no text, and comparing two such lists need not
end either. Lists are followed down to a fixed depth. It suffices: where that depth gives no answer,
no greater one does.
-/

namespace ExprTree

namespace Value

/-- The text of several values in a row, given their texts. -/
def bracketed (texts : List String) : String := "[" ++ ", ".intercalate texts ++ "]"

mutual

/-- The text of a value, given the texts of lists. -/
def textWith (list : Nat → Option String) : Value → Option String
  | .null => some "null"
  | .unit => some "()"
  | .bool b => some (if b then "true" else "false")
  | .char c => some c.toString
  | .int _ w => some w.text
  | .f32 x => some (FloatFormat.single.text x.toBits.toNat)
  | .f64 x => some (FloatFormat.double.text x.toBits.toNat)
  | .string s => some s
  | .array _ items => (textsWith list items).map bracketed
  | .list id => list id
  | .object r _ => some (r.name ++ " \x7b .. \x7d")
  | .function f => some f.signature.text
  | .expression n => some ("quote(" ++ n.text ++ ")")

/-- The texts of several values, if all have one. -/
def textsWith (list : Nat → Option String) : List Value → Option (List String)
  | [] => some []
  | v :: vs => do
      let t ← textWith list v
      let ts ← textsWith list vs
      return t :: ts

end

/-- The text of a list, if the lists in it stand less than `depth` deep inside one another. -/
def listText (heap : Heap) : (depth : Nat) → (id : Nat) → Option String
  | 0, _ => none
  | depth + 1, id => (textsWith (listText heap depth) (heap.listItems id)).map bracketed

/-- The text of a value. Where lists stand inside one another deeper than there are lists, one of
them contains itself, and the value has no text. -/
def text (heap : Heap) (v : Value) : Option String :=
  v.textWith (listText heap (heap.lists.size + 1))

mutual

/-- Equality of values, given the equality of lists. Arrays are compared by content, up to the first
difference. -/
def equalWith (lists : Nat → Nat → Option Bool) : Value → Value → Option Bool
  | .array _ as, .array _ bs =>
      if as.length = bs.length then equalAllWith lists as bs else some false
  | .list a, .list b => lists a b
  | a, b => some (a.operatorEq b)

/-- Equality of equally many values. -/
def equalAllWith (lists : Nat → Nat → Option Bool) : List Value → List Value → Option Bool
  | a :: as, b :: bs => do
      if ← equalWith lists a b then equalAllWith lists as bs else return false
  | _, _ => some true

end

/-- Equality of lists, if it is decided less than `depth` lists down. A list equals itself. -/
def equalLists (heap : Heap) : (depth : Nat) → (a b : Nat) → Option Bool
  | 0, _, _ => none
  | depth + 1, a, b =>
      let as := heap.listItems a
      let bs := heap.listItems b
      if a = b then some true
      else if as.length = bs.length then equalAllWith (equalLists heap depth) as bs
      else some false

/-- Equality of values: arrays and lists by content, instances, functions and trees by identity. A
comparison that goes deeper than there are pairs of lists has met one pair twice, and never ends. -/
def equal (heap : Heap) (a b : Value) : Option Bool :=
  equalWith (equalLists heap (heap.lists.size * heap.lists.size + 1)) a b

end Value

end ExprTree
