set_option autoImplicit false

/-! # Append-only tables

An `Arena` hands out positions in the order of allocation and never takes one back: a position
stays valid, and keeps its meaning, for as long as the table lives. Compiled units and pooled
constants are addressed this way.
-/

namespace ExprTree

/-- A table that only grows; an element is addressed by its position. -/
structure Arena (α : Type) where
  /-- The elements, in the order of allocation. -/
  items : Array α := #[]

namespace Arena

variable {α : Type}

/-- The table without elements. -/
def empty : Arena α := ⟨#[]⟩

/-- Appends an element and returns its position. As long as the table has less than `2 ^ 32`
elements, that is a position of 32 bits (`position_alloc_fst`). -/
def alloc (a : Arena α) (x : α) : Nat × Arena α := (a.items.size, ⟨a.items.push x⟩)

/-- The position that a number names. A position has 32 bits, and the number's higher bits do not
count. -/
def position (n : Nat) : Nat := n % 4294967296

/-- The element at a position, if the position was ever handed out. -/
def get? (a : Arena α) (i : Nat) : Option α := a.items[i]?

/-- Overwrites the element at an allocated position; any other position changes nothing. -/
def set (a : Arena α) (i : Nat) (x : α) : Arena α := ⟨a.items.setIfInBounds i x⟩

/-- Number of elements. -/
def size (a : Arena α) : Nat := a.items.size

/-- Whether nothing was allocated yet. -/
def isEmpty (a : Arena α) : Bool := a.size == 0

/-- Every position with its element, in the order of allocation. -/
def entries (a : Arena α) : List (Nat × α) := a.items.toList.zipIdx.map fun (x, i) => (i, x)

@[simp] theorem alloc_fst (a : Arena α) (x : α) : (a.alloc x).1 = a.size := rfl

/-- Below `2 ^ 32` elements no bit of a new position is lost. -/
theorem position_alloc_fst {a : Arena α} (h : a.size < 4294967296) (x : α) :
    position (a.alloc x).1 = (a.alloc x).1 := Nat.mod_eq_of_lt h

@[simp] theorem size_alloc (a : Arena α) (x : α) : (a.alloc x).2.size = a.size + 1 := by
  simp [alloc, size]

@[simp] theorem size_set (a : Arena α) (i : Nat) (x : α) : (a.set i x).size = a.size := by
  simp [set, size]

/-- A fresh position holds what was allocated there. -/
theorem get?_alloc_self (a : Arena α) (x : α) : (a.alloc x).2.get? a.size = some x := by
  simp [alloc, get?, size]

/-- Allocation leaves every earlier position as it was. -/
theorem get?_alloc_of_lt (a : Arena α) (x : α) {i : Nat} (h : i < a.size) :
    (a.alloc x).2.get? i = a.get? i := by
  simp only [alloc, get?, size] at *
  exact Array.getElem?_push_lt h ▸ (Array.getElem?_eq_getElem h).symm

end Arena

end ExprTree
