import ExprTree.Proofs.Identities

set_option autoImplicit false

/-! # The identities of arrays

An array has an identity, which only the operators `==` and `!=` can see. `Value.rename f` gives the
arrays inside a value other identities. Operators, conversions and accesses to elements commute with
a renaming that keeps different arrays apart, so no program can tell which identities its arrays
were given.
-/

namespace ExprTree

namespace Value

mutual

/-- The value with other identities for the arrays in it. -/
def rename (f : Nat → Nat) : Value → Value
  | .array id items => .array (f id) (renameAll f items)
  | v => v

/-- Renames the arrays in several values. -/
def renameAll (f : Nat → Nat) : List Value → List Value
  | [] => []
  | v :: vs => rename f v :: renameAll f vs

end

/-- All arrays in the value have identities below `n`. -/
inductive Known (n : Nat) : Value → Prop
  | single {v : Value} (h : ∀ id items, v ≠ .array id items) : Known n v
  | array {id : Nat} {items : List Value} (below : id < n) (all : ∀ v ∈ items, Known n v) :
      Known n (.array id items)

variable {f : Nat → Nat}

theorem renameAll_eq_map (vs : List Value) : renameAll f vs = vs.map (rename f) := by
  induction vs with
  | nil => rfl
  | cons v vs ih => rw [renameAll, ih, List.map_cons]

theorem rename_of_isPlain {v : Value} (h : v.isPlain = true) : v.rename f = v := by
  cases v with
  | array id items => cases h
  | _ => rfl

/-- A renaming that keeps the old identities keeps the values that were made before. -/
theorem Known.rename_eq {n : Nat} (hf : ∀ i < n, f i = i) {v : Value} (h : v.Known n) :
    v.rename f = v := by
  induction h with
  | @single v h =>
      cases v with
      | array id items => exact absurd rfl (h id items)
      | _ => rfl
  | @array id items below _ ih =>
      have hitems : items.map (rename f) = items :=
        (List.map_congr_left ih).trans (List.map_id items)
      rw [rename, renameAll_eq_map, hitems, hf id below]

/-! ## What operands look like -/

@[simp] theorem isNull_rename (v : Value) : (v.rename f).isNull = v.isNull := by cases v <;> rfl

@[simp] theorem typeName_rename (v : Value) : (v.rename f).typeName = v.typeName := by
  cases v <;> rfl

@[simp] theorem asWord_rename (t : IntType) (v : Value) : (v.rename f).asWord t = v.asWord t := by
  cases v <;> rfl

@[simp] theorem asF32_rename (v : Value) : (v.rename f).asF32 = v.asF32 := by cases v <;> rfl

@[simp] theorem asF64_rename (v : Value) : (v.rename f).asF64 = v.asF64 := by cases v <;> rfl

@[simp] theorem asChar_rename (v : Value) : (v.rename f).asChar = v.asChar := by cases v <;> rfl

@[simp] theorem asBool_rename (v : Value) : (v.rename f).asBool = v.asBool := by cases v <;> rfl

@[simp] theorem asOptionalBool_rename (v : Value) :
    (v.rename f).asOptionalBool = v.asOptionalBool := by cases v <;> rfl

@[simp] theorem asIndex_rename (v : Value) : (v.rename f).asIndex = v.asIndex := by cases v <;> rfl

@[simp] theorem asLength_rename (limit : Nat) (v : Value) :
    (v.rename f).asLength limit = v.asLength limit := by
  rw [asLength, asLength, asIndex_rename]

/-- Which array it is does not matter for its type. -/
theorem conformsTo_array (schema : Schema) {id id' : Nat} {items items' : List Value} : (ty : Ty) →
    (Value.array id items).conformsTo schema ty = (Value.array id' items').conformsTo schema ty
  | .nullable inner => conformsTo_array schema inner
  | .unit | .bool | .char | .int _ | .f32 | .f64 | .string | .object | .array _ | .list _
  | .record _ | .function .. | .expression .. => rfl

@[simp] theorem conformsTo_rename (schema : Schema) (ty : Ty) (v : Value) :
    (v.rename f).conformsTo schema ty = v.conformsTo schema ty := by
  cases v with
  | array id items => exact conformsTo_array schema ty
  | _ => rfl

/-- Different arrays stay different. -/
theorem operatorEq_rename (hf : ∀ i j, f i = f j → i = j) (l r : Value) :
    (l.rename f).operatorEq (r.rename f) = l.operatorEq r := by
  cases l with
  | array a _ =>
      cases r with
      | array b _ =>
          show (f a == f b) = (a == b)
          by_cases hab : a = b
          · rw [hab, beq_self_eq_true, beq_self_eq_true]
          · rw [beq_eq_false_iff_ne.mpr hab, beq_eq_false_iff_ne.mpr fun h => hab (hf a b h)]
      | _ => rfl
  | _ => cases r <;> rfl

/-! ## Texts -/

mutual

theorem textWith_rename (list : Nat → Option String) : (v : Value) →
    (v.rename f).textWith list = v.textWith list
  | .array _ items => by
      rw [rename, textWith, textWith, textsWith_rename list items]
  | .null | .unit | .bool _ | .char _ | .int .. | .f32 _ | .f64 _ | .string _ | .list _
  | .object .. | .function _ | .expression _ => rfl

theorem textsWith_rename (list : Nat → Option String) : (vs : List Value) →
    textsWith list (renameAll f vs) = textsWith list vs
  | [] => rfl
  | v :: vs => by
      rw [renameAll, textsWith, textsWith, textWith_rename list v, textsWith_rename list vs]

end

theorem listText_nextId (heap : Heap) (k depth : Nat) :
    listText { heap with nextId := k } depth = listText heap depth := by
  induction depth with
  | zero => rfl
  | succ depth ih =>
      funext id
      rw [listText, listText, ih]
      rfl

/-- A text shows no identity, and does not depend on the identities that are left. -/
theorem concatText_rename (heap : Heap) (k : Nat) (v : Value) :
    (v.rename f).concatText { heap with nextId := k } = v.concatText heap := by
  have htext : ∀ v : Value, (v.rename f).text { heap with nextId := k } = v.text heap := by
    intro v
    rw [text, text, listText_nextId]
    exact textWith_rename _ v
  cases v with
  | null => rfl
  | _ => exact htext _

end Value

/-! ## Operators -/

section Operators

variable {f : Nat → Nat}

@[simp] theorem Number.ofValue_rename (v : Value) :
    Number.ofValue (v.rename f) = Number.ofValue v := by
  cases v <;> rfl

@[simp] theorem NullResult.resolve_rename (n : NullResult) (l r : Value) :
    n.resolve (l.rename f) (r.rename f) = n.resolve l r := by
  cases n <;> simp [NullResult.resolve]

theorem UnaryOp.apply_rename (op : UnaryOp) (v : Value) :
    op.apply (v.rename f) = (op.apply v).map (·.rename f) := by
  cases op with
  | plus => rfl
  | arrayLength =>
      cases v with
      | array id items =>
          simp only [apply, Value.rename, Value.renameAll_eq_map, List.length_map]
          -- an array keeps its length
          cases Word.ofInt? .i32 items.length <;> rfl
      | _ => rfl
  | negate t | notBits t =>
      simp only [apply, Value.asWord_rename]
      cases v.asWord t <;> rfl
  | negateChecked t =>
      simp only [apply, Value.asWord_rename]
      cases v.asWord t with
      | error e => rfl
      | ok a => cases h : a.checkedNeg <;> simp [bind, Except.bind, h] <;> rfl
  | negate32 =>
      simp only [apply, Value.asF32_rename]
      cases v.asF32 <;> rfl
  | negate64 =>
      simp only [apply, Value.asF64_rename]
      cases v.asF64 <;> rfl
  | notBool =>
      simp only [apply, Value.asBool_rename]
      cases v.asBool <;> rfl

@[simp] theorem OrderOp.apply_rename (op : OrderOp) (t : Ordered) (l r : Value) :
    op.apply t (l.rename f) (r.rename f) = op.apply t l r := by
  cases t <;> simp [apply]

/-- The result holds no array, so it is the same one. -/
theorem BinaryOp.apply_rename (hf : ∀ i j, f i = f j → i = j) (heap : Heap) (k : Nat)
    (op : BinaryOp) (l r : Value) :
    op.apply { heap with nextId := k } (l.rename f) (r.rename f) = op.apply heap l r := by
  cases op <;> simp [apply, Value.concatText_rename, Value.operatorEq_rename hf]

theorem Conversion.apply_rename (schema : Schema) (c : Conversion) (v : Value) :
    c.apply schema (v.rename f) = (c.apply schema v).map (·.rename f) := by
  induction c with
  | identity => rfl
  | lifted inner ih =>
      simp only [apply, Value.isNull_rename]
      cases v.isNull with
      | true => rfl
      | false => exact ih
  | unwrap inner ih =>
      simp only [apply, Value.isNull_rename]
      cases v.isNull with
      | true => rfl
      | false => exact ih
  | cast target =>
      simp only [apply, castTo, Value.isNull_rename, Value.conformsTo_rename,
        Value.typeName_rename]
      cases v.isNull <;> cases target.admitsNull <;> cases v.conformsTo schema target <;> rfl
  | numeric target checked =>
      simp only [apply, Number.ofValue_rename]
      cases Number.ofValue v with
      | error e => rfl
      | ok n =>
          show target.convert checked n = (target.convert checked n).map _
          cases hc : target.convert checked n with
          | error e => rfl
          | ok w =>
              -- a converted number is no array
              have hplain : w.isPlain = true :=
                Value.isPlain_of_isScalar (Numeric.convert_isScalar hc)
              exact congrArg Except.ok (Value.rename_of_isPlain hplain).symm

end Operators

/-! ## Elements -/

/-- All arrays in the lists of the heap have identities below `n`. -/
def Heap.Known (n : Nat) (h : Heap) : Prop := ∀ items ∈ h.lists, ∀ v ∈ items, v.Known n

theorem Heap.Known.listItems {n : Nat} {h : Heap} (hk : h.Known n) (id : Nat) :
    ∀ v ∈ h.listItems id, v.Known n := by
  unfold Heap.listItems
  split
  case h_1 items hi =>
    intro v hv
    exact hk items (Array.mem_of_getElem? hi) v (Array.mem_toList_iff.mp hv)
  case h_2 => simp

/-- The elements of an array are renamed with it, those of a list are known already. -/
theorem Value.element_rename {f : Nat → Nat} {n : Nat} (hf : ∀ i < n, f i = i) {heap : Heap}
    (hk : heap.Known n) (k : Nat) (array index : Value) :
    (array.rename f).element { heap with nextId := k } (index.rename f)
      = (array.element heap index).map (·.rename f) := by
  simp only [element, asIndex_rename]
  cases index.asIndex with
  | error e => rfl
  | ok i =>
      cases array with
      | array id items =>
          simp only [bind, Except.bind, rename, renameAll_eq_map, List.getElem?_map,
            List.length_map]
          by_cases hi : i < 0
          · simp only [if_pos hi]
            rfl
          · simp only [if_neg hi]
            cases items[i.toNat]? <;> rfl
      | list id =>
          have hitems : Heap.listItems { heap with nextId := k } id = heap.listItems id := rfl
          simp only [bind, Except.bind, rename, hitems]
          by_cases hi : i < 0
          · simp only [if_pos hi]
            rfl
          · simp only [if_neg hi]
            cases hv : (heap.listItems id)[i.toNat]? with
            | none => rfl
            | some v =>
                -- lists are not rebuilt, so what they hold was made before the base
                have hknown := hk.listItems id v (List.mem_of_getElem? hv)
                exact congrArg Except.ok (hknown.rename_eq hf).symm
      | _ => rfl

end ExprTree
