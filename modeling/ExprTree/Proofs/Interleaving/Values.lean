import ExprTree.Run
import ExprTree.Proofs.Identities
import ExprTree.Proofs.Interleaving.Trees

set_option autoImplicit false

/-! # Values of two runs

Two runs of the same program number their closures, cells, lists, instances, arrays and nodes
differently. A `Correspondence` says which numbers stand for the same thing, one to one. Two values
are alike if they differ in nothing but corresponding numbers. Operators, conversions and accesses
to elements cannot tell such values apart.
-/

namespace ExprTree

/-! ## Correspondences -/

/-- A one-to-one relation between the numbers of one run and those of another. -/
structure Matching where
  Rel : Nat → Nat → Prop
  left : ∀ {i j j' : Nat}, Rel i j → Rel i j' → j = j'
  right : ∀ {i i' j : Nat}, Rel i j → Rel i' j → i = i'

namespace Matching

variable {m : Matching} {i i' j j' a b n : Nat}

/-- Only numbers below `a` are matched, with numbers below `b`. -/
def Below (m : Matching) (a b : Nat) : Prop := ∀ i j, m.Rel i j → i < a ∧ j < b

/-- Nothing is matched. -/
def none : Matching := ⟨fun _ _ => False, nofun, nofun⟩

/-- The numbers below `n` are matched with themselves. -/
def diagonal (n : Nat) : Matching where
  Rel i j := i < n ∧ i = j
  left := by rintro i j j' ⟨-, rfl⟩ ⟨-, rfl⟩; rfl
  right := by rintro i i' j ⟨-, rfl⟩ ⟨-, rfl⟩; rfl

/-- Matches `n` more numbers, from `a` and `b` on. -/
def extend (m : Matching) (a b n : Nat) (h : m.Below a b) : Matching where
  Rel i j := m.Rel i j ∨ ∃ d < n, i = a + d ∧ j = b + d
  left := by
    rintro i j j' (hij | ⟨d, -, rfl, rfl⟩) (hij' | ⟨d', -, heq, rfl⟩)
    · exact m.left hij hij'
    · have hlt := (h i j hij).1
      omega
    · have hlt := (h _ j' hij').1
      omega
    · omega
  right := by
    rintro i i' j (hij | ⟨d, -, rfl, rfl⟩) (hij' | ⟨d', -, rfl, heq⟩)
    · exact m.right hij hij'
    · have hlt := (h i j hij).2
      omega
    · have hlt := (h i' _ hij').2
      omega
    · omega

theorem extend_new (h : m.Below a b) (d : Nat) (hd : d < n) :
    (m.extend a b n h).Rel (a + d) (b + d) := .inr ⟨d, hd, rfl, rfl⟩

theorem Below.extend (h : m.Below a b) : (m.extend a b n h).Below (a + n) (b + n) := by
  rintro i j (hij | ⟨d, hd, rfl, rfl⟩)
  · have hlt := h i j hij
    omega
  · omega

theorem Below.mono {a' b' : Nat} (h : m.Below a b) (ha : a ≤ a') (hb : b ≤ b') : m.Below a' b' :=
  fun i j hij => ⟨Nat.lt_of_lt_of_le (h i j hij).1 ha, Nat.lt_of_lt_of_le (h i j hij).2 hb⟩

/-- Equal numbers on one side are equal on the other side. -/
theorem beq_eq (h : m.Rel i i') (h' : m.Rel j j') : (i' == j') = (i == j) := by
  by_cases hij : i = j
  · subst hij
    rw [m.left h h', beq_self_eq_true, beq_self_eq_true]
  · have hij' : i' ≠ j' := fun heq => hij (m.right h (heq ▸ h'))
    rw [beq_eq_false_iff_ne.mpr hij, beq_eq_false_iff_ne.mpr hij']

end Matching

/-- Which numbers of one run stand for the same thing as numbers of another run. Identities below
`base` are older than both runs. -/
structure Correspondence (base : Nat) where
  closures : Matching
  cells : Matching
  lists : Matching
  instances : Matching
  /-- Identities of arrays, nodes and lambdas. -/
  ids : Matching
  old : ∀ i < base, ids.Rel i i

variable {base : Nat}

/-- The correspondence `σ` relates whatever `ρ` does. -/
structure Correspondence.Extends (ρ σ : Correspondence base) : Prop where
  closures : ∀ i j, ρ.closures.Rel i j → σ.closures.Rel i j
  cells : ∀ i j, ρ.cells.Rel i j → σ.cells.Rel i j
  lists : ∀ i j, ρ.lists.Rel i j → σ.lists.Rel i j
  instances : ∀ i j, ρ.instances.Rel i j → σ.instances.Rel i j
  ids : ∀ i j, ρ.ids.Rel i j → σ.ids.Rel i j

namespace Correspondence.Extends

theorem refl (ρ : Correspondence base) : ρ.Extends ρ :=
  ⟨fun _ _ h => h, fun _ _ h => h, fun _ _ h => h, fun _ _ h => h, fun _ _ h => h⟩

theorem trans {ρ σ τ : Correspondence base} (h : ρ.Extends σ) (h' : σ.Extends τ) : ρ.Extends τ where
  closures i j hij := h'.closures i j (h.closures i j hij)
  cells i j hij := h'.cells i j (h.cells i j hij)
  lists i j hij := h'.lists i j (h.lists i j hij)
  instances i j hij := h'.instances i j (h.instances i j hij)
  ids i j hij := h'.ids i j (h.ids i j hij)

end Correspondence.Extends

/-! ## Values -/

/-- The value refers to no list, instance or function, and all identities in it are below `n`. -/
inductive Value.Grounded (n : Nat) : Value → Prop
  | scalar {v : Value} (h : v.isScalar = true) : Value.Grounded n v
  | array {id : Nat} {xs : List Value} (below : id < n) (items : ∀ v ∈ xs, Value.Grounded n v) :
      Value.Grounded n (.array id xs)
  | expression {t : Tree} (below : ∀ i, Occurs t.walk i → i < n)
      (constants : ∀ v ∈ t.constants, Value.Grounded n v) : Value.Grounded n (.expression t)

theorem Value.grounded_expression {n : Nat} {t : Tree} :
    (Value.expression t).Grounded n ↔
      (∀ i, Occurs t.walk i → i < n) ∧ ∀ v ∈ t.constants, v.Grounded n := by
  constructor
  · intro h
    cases h with
    | scalar h => cases h
    | expression below constants => exact ⟨below, constants⟩
  · exact fun h => .expression h.1 h.2

/-- The same value, up to corresponding numbers. -/
inductive Value.Alike (ρ : Correspondence base) : Value → Value → Prop
  | scalar {v : Value} (h : v.isScalar = true) : Value.Alike ρ v v
  | array {i j : Nat} {xs ys : List Value} (id : ρ.ids.Rel i j) (length : xs.length = ys.length)
      (items : ∀ p ∈ xs.zip ys, Value.Alike ρ p.1 p.2) : Value.Alike ρ (.array i xs) (.array j ys)
  | list {i j : Nat} (id : ρ.lists.Rel i j) : Value.Alike ρ (.list i) (.list j)
  | object {r : RecordRef} {i j : Nat} (id : ρ.instances.Rel i j) :
      Value.Alike ρ (.object r i) (.object r j)
  | function {i j : Nat} {signature : Signature} {name : Option String}
      (id : ρ.closures.Rel i j) :
      Value.Alike ρ (.function ⟨i, signature, name⟩) (.function ⟨j, signature, name⟩)
  | expression {t u : Tree} (tree : t.Similar ρ.ids.Rel u)
      (length : t.constants.length = u.constants.length)
      (constants : ∀ p ∈ t.constants.zip u.constants, Value.Alike ρ p.1 p.2) :
      Value.Alike ρ (.expression t) (.expression u)

/-- The same values, one by one. -/
abbrev Value.AlikeAll (ρ : Correspondence base) : List Value → List Value → Prop :=
  List.Forall₂ (Value.Alike ρ)

namespace Value

variable {ρ σ : Correspondence base} {v v' l l' r r' : Value} {xs ys : List Value}

theorem AlikeAll.ofZip (hlength : xs.length = ys.length)
    (h : ∀ p ∈ xs.zip ys, Alike ρ p.1 p.2) : AlikeAll ρ xs ys :=
  List.forall₂_iff_zip.mpr ⟨hlength, fun hab => h _ hab⟩

theorem Alike.ofItems {i j : Nat} (id : ρ.ids.Rel i j) (items : AlikeAll ρ xs ys) :
    Alike ρ (.array i xs) (.array j ys) :=
  .array id items.length_eq fun _ hp => (List.forall₂_iff_zip.mp items).2 hp

theorem Alike.ofConstants {t u : Tree} (tree : t.Similar ρ.ids.Rel u)
    (constants : AlikeAll ρ t.constants u.constants) : Alike ρ (.expression t) (.expression u) :=
  .expression tree constants.length_eq fun _ hp => (List.forall₂_iff_zip.mp constants).2 hp

theorem Alike.mono (hext : ρ.Extends σ) (h : v.Alike ρ v') : v.Alike σ v' := by
  induction h with
  | scalar h => exact .scalar h
  | array id length _ ih => exact .array (hext.ids _ _ id) length ih
  | list id => exact .list (hext.lists _ _ id)
  | object id => exact .object (hext.instances _ _ id)
  | function id => exact .function (hext.closures _ _ id)
  | expression tree length _ ih => exact .expression (tree.mono hext.ids) length ih

theorem AlikeAll.mono (hext : ρ.Extends σ) (h : AlikeAll ρ xs ys) : AlikeAll σ xs ys :=
  h.imp fun _ _ hv => hv.mono hext

theorem Alike.null : Alike ρ .null .null := .scalar rfl

/-- Values that are older than both runs are the same in both. -/
theorem Grounded.alike (ρ : Correspondence base) (h : v.Grounded base) : v.Alike ρ v := by
  induction h with
  | scalar h => exact .scalar h
  | array below _ ih =>
      exact .ofItems (ρ.old _ below) (List.forall₂_same.mpr ih)
  | @expression t below _ ih =>
      have htree : t.Similar ρ.ids.Rel t :=
        Node.Similar.refl (fun i hi => ρ.old i (below i hi)) t (List.Subset.refl _)
      exact .ofConstants htree (List.forall₂_same.mpr ih)

theorem alikeAll_scalars (h : ∀ v ∈ xs, v.isScalar = true) : AlikeAll ρ xs xs :=
  List.forall₂_same.mpr fun v hv => .scalar (h v hv)

/-! ## What operands look like -/

namespace Alike

theorem isNull (h : v.Alike ρ v') : v'.isNull = v.isNull := by cases h <;> rfl

theorem typeName (h : v.Alike ρ v') : v'.typeName = v.typeName := by cases h <;> rfl

theorem asWord (h : v.Alike ρ v') (t : IntType) : v'.asWord t = v.asWord t := by cases h <;> rfl

theorem asF32 (h : v.Alike ρ v') : v'.asF32 = v.asF32 := by cases h <;> rfl

theorem asF64 (h : v.Alike ρ v') : v'.asF64 = v.asF64 := by cases h <;> rfl

theorem asChar (h : v.Alike ρ v') : v'.asChar = v.asChar := by cases h <;> rfl

theorem asBool (h : v.Alike ρ v') : v'.asBool = v.asBool := by cases h <;> rfl

theorem asOptionalBool (h : v.Alike ρ v') : v'.asOptionalBool = v.asOptionalBool := by
  cases h <;> rfl

theorem asIndex (h : v.Alike ρ v') : v'.asIndex = v.asIndex := by cases h <;> rfl

theorem asLength (h : v.Alike ρ v') (limit : Nat) : v'.asLength limit = v.asLength limit := by
  rw [Value.asLength, Value.asLength, h.asIndex]

theorem conformsTo (schema : Schema) (h : v.Alike ρ v') : (ty : Ty) →
    v'.conformsTo schema ty = v.conformsTo schema ty
  | .nullable inner => by
      rw [Value.conformsTo, Value.conformsTo, h.isNull, h.conformsTo schema inner]
  | .unit | .bool | .char | .int _ | .f32 | .f64 | .string | .object | .array _ | .list _
  | .record _ | .function .. | .expression .. => by cases h <;> rfl

/-- The same node has the same identity. -/
theorem nodeId {t u : Tree} (h : t.Similar ρ.ids.Rel u) : ρ.ids.Rel t.id u.id := by
  cases h with
  | mk id _ => exact id

theorem nodeText {t u : Tree} (h : t.Similar ρ.ids.Rel u) : u.text = t.text := by
  cases h
  rfl

end Alike

/-- A scalar is not equal to anything with an identity. -/
theorem operatorEq_of_isScalar (hl : l.isScalar = true) (hr : r.isScalar = false) :
    l.operatorEq r = false ∧ r.operatorEq l = false := by
  cases l with
  | array | list | object | function | expression => cases hl
  | _ =>
      cases r with
      | array | list | object | function | expression => exact ⟨rfl, rfl⟩
      | _ => cases hr

/-- What is the same on one side is the same on the other side. -/
theorem Alike.operatorEq (hl : l.Alike ρ l') (hr : r.Alike ρ r') :
    l'.operatorEq r' = l.operatorEq r := by
  cases hl with
  | scalar h =>
      cases hr with
      | scalar => rfl
      | _ => rw [(operatorEq_of_isScalar h rfl).1, (operatorEq_of_isScalar h rfl).1]
  | array id =>
      cases hr with
      | scalar h => rw [(operatorEq_of_isScalar h rfl).2, (operatorEq_of_isScalar h rfl).2]
      | array id' => exact ρ.ids.beq_eq id id'
      | _ => rfl
  | list id =>
      cases hr with
      | scalar h => rw [(operatorEq_of_isScalar h rfl).2, (operatorEq_of_isScalar h rfl).2]
      | list id' => exact ρ.lists.beq_eq id id'
      | _ => rfl
  | object id =>
      cases hr with
      | scalar h => rw [(operatorEq_of_isScalar h rfl).2, (operatorEq_of_isScalar h rfl).2]
      | object id' => exact ρ.instances.beq_eq id id'
      | _ => rfl
  | function id =>
      cases hr with
      | scalar h => rw [(operatorEq_of_isScalar h rfl).2, (operatorEq_of_isScalar h rfl).2]
      | function id' => exact ρ.closures.beq_eq id id'
      | _ => rfl
  | expression tree =>
      cases hr with
      | scalar h => rw [(operatorEq_of_isScalar h rfl).2, (operatorEq_of_isScalar h rfl).2]
      | expression tree' => exact ρ.ids.beq_eq (nodeId tree) (nodeId tree')
      | _ => rfl

/-! ## Texts -/

/-- Values with the same texts, one by one. -/
theorem textsWith_congr {list list' : Nat → Option String} {vs vs' : List Value}
    (h : List.Forall₂ (fun v v' => textWith list' v' = textWith list v) vs vs') :
    textsWith list' vs' = textsWith list vs := by
  induction h with
  | nil => rfl
  | cons hv _ ih => rw [textsWith, textsWith, hv, ih]

/-- A text shows no number, if corresponding lists have the same text. -/
theorem Alike.textWith {list list' : Nat → Option String}
    (hlists : ∀ i j, ρ.lists.Rel i j → list' j = list i) (h : v.Alike ρ v') :
    v'.textWith list' = v.textWith list := by
  induction h with
  | @scalar v h =>
      cases v with
      | array | list | object | function | expression => cases h
      | _ => rfl
  | @array i j xs ys _ length _ ih =>
      have hitems : List.Forall₂ (fun x y => y.textWith list' = x.textWith list) xs ys :=
        List.forall₂_iff_zip.mpr ⟨length, fun hab => ih _ hab⟩
      rw [Value.textWith, Value.textWith, textsWith_congr hitems]
  | list id => exact hlists _ _ id
  | object _ => rfl
  | function _ => rfl
  | expression tree => rw [Value.textWith, Value.textWith, nodeText tree]

/-- However deep lists are followed, an empty list has the same text. -/
theorem listText_of_empty {heap : Heap} {id : Nat} (h : heap.listItems id = []) (depth : Nat) :
    listText heap (depth + 1) id = some "[]" := by
  rw [listText, h]
  rfl

end Value

/-- Corresponding lists are empty: nothing was ever added to them. -/
def Heap.EmptyLists (ρ : Correspondence base) (heap heap' : Heap) : Prop :=
  ∀ i j, ρ.lists.Rel i j → heap.listItems i = [] ∧ heap'.listItems j = []

namespace Value.Alike

variable {ρ : Correspondence base} {heap heap' : Heap} {v v' : Value}

theorem text (hlists : heap.EmptyLists ρ heap') (h : v.Alike ρ v') :
    v'.text heap' = v.text heap := by
  refine h.textWith fun i j hij => ?_
  rw [listText_of_empty (hlists i j hij).1, listText_of_empty (hlists i j hij).2]

theorem concatText (hlists : heap.EmptyLists ρ heap') (h : v.Alike ρ v') :
    v'.concatText heap' = v.concatText heap := by
  have htext := h.text hlists
  cases h with
  | scalar h =>
      cases v with
      | null => rfl
      | _ => exact htext
  | _ => exact htext

end Value.Alike

/-! ## Operators -/

/-- The same error, or related results. -/
inductive SameOutcome {ε β γ : Type} (R : β → γ → Prop) : Except ε β → Except ε γ → Prop
  | ok {a : β} {b : γ} (h : R a b) : SameOutcome R (.ok a) (.ok b)
  | error (e : ε) : SameOutcome R (.error e) (.error e)

section Operators

variable {ρ : Correspondence base} {heap heap' : Heap} {v v' l l' r r' : Value}

/-- Both go on from the same result. -/
theorem SameOutcome.bindSame {β γ δ : Type} {R : γ → δ → Prop} (x : Except RuntimeError β)
    {f : β → Except RuntimeError γ} {g : β → Except RuntimeError δ}
    (h : ∀ a, SameOutcome R (f a) (g a)) : SameOutcome R (x >>= f) (x >>= g) := by
  cases x with
  | ok a => exact h a
  | error e => exact .error e

/-- A result that is always a scalar is related to itself. -/
theorem SameOutcome.ofScalar {x y : Except RuntimeError Value} (h : y = x)
    (hscalar : ∀ v, x = .ok v → v.isScalar = true) : SameOutcome (Value.Alike ρ) x y := by
  subst h
  cases y with
  | ok v => exact .ok (.scalar (hscalar v rfl))
  | error e => exact .error e

theorem Number.ofValue_alike (h : v.Alike ρ v') : Number.ofValue v' = Number.ofValue v := by
  cases h <;> rfl

theorem NullResult.resolve_alike (n : NullResult) (hl : l.Alike ρ l') (hr : r.Alike ρ r') :
    n.resolve l' r' = n.resolve l r := by
  cases n <;> simp [resolve, hl.isNull, hr.isNull]

theorem UnaryOp.apply_alike (op : UnaryOp) (h : v.Alike ρ v') :
    SameOutcome (Value.Alike ρ) (op.apply v) (op.apply v') := by
  cases op with
  | plus => exact .ok h
  | arrayLength =>
      cases h with
      | scalar h =>
          cases v with
          | array | list | object | function | expression => cases h
          | _ => exact .error _
      | array _ length =>
          simp only [apply, length]
          split
          · exact .ok (.scalar rfl)
          · exact .error _
      | _ => exact .error _
  | negate t | notBits t =>
      simp only [apply, h.asWord]
      exact .bindSame _ fun a => .ok (.scalar rfl)
  | negateChecked t =>
      simp only [apply, h.asWord]
      exact .bindSame _ fun a => .bindSame _ fun b => .ok (.scalar rfl)
  | negate32 =>
      simp only [apply, h.asF32]
      exact .bindSame _ fun a => .ok (.scalar rfl)
  | negate64 =>
      simp only [apply, h.asF64]
      exact .bindSame _ fun a => .ok (.scalar rfl)
  | notBool =>
      simp only [apply, h.asBool]
      exact .bindSame _ fun a => .ok (.scalar rfl)

theorem OrderOp.apply_alike (op : OrderOp) (t : Ordered) (hl : l.Alike ρ l') (hr : r.Alike ρ r') :
    op.apply t l' r' = op.apply t l r := by
  cases t <;> simp [apply, hl.asChar, hr.asChar, hl.asWord, hr.asWord, hl.asF32, hr.asF32,
    hl.asF64, hr.asF64]

/-- Operators on two values see no number, so they give the same scalar. -/
theorem BinaryOp.apply_alike (op : BinaryOp) (hlists : heap.EmptyLists ρ heap')
    (hl : l.Alike ρ l') (hr : r.Alike ρ r') : op.apply heap' l' r' = op.apply heap l r := by
  cases op <;> simp [apply, hl.concatText hlists, hr.concatText hlists, hl.operatorEq hr,
    hl.asWord, hr.asWord, hl.asF32, hr.asF32, hl.asF64, hr.asF64, hl.asBool, hr.asBool,
    OrderOp.apply_alike _ _ hl hr]

theorem Conversion.apply_alike (schema : Schema) (c : Conversion) (h : v.Alike ρ v') :
    SameOutcome (Value.Alike ρ) (c.apply schema v) (c.apply schema v') := by
  induction c with
  | identity => exact .ok h
  | lifted inner ih =>
      simp only [apply, h.isNull]
      split
      · exact .ok .null
      · exact ih
  | unwrap inner ih =>
      simp only [apply, h.isNull]
      split
      · exact .error _
      · exact ih
  | cast target =>
      simp only [apply, castTo, h.isNull, h.conformsTo, h.typeName]
      split
      · split
        · exact .ok .null
        · exact .error _
      · split
        · exact .ok h
        · exact .error _
  | numeric target checked =>
      refine .ofScalar ?_ fun v hv => ?_
      · rw [apply, apply, Number.ofValue_alike h]
      · obtain ⟨n, -, hn⟩ := ok_of_bind hv
        exact Numeric.convert_isScalar hn

theorem getElem?_forall₂ {α β : Type} {R : α → β → Prop} {xs : List α} {ys : List β}
    (h : List.Forall₂ R xs ys) (i : Nat) : Option.Rel R xs[i]? ys[i]? := by
  induction h generalizing i with
  | nil => exact .none
  | cons hxy _ ih =>
      cases i with
      | zero => exact .some hxy
      | succ i => exact ih i

theorem Value.element_alike (hlists : heap.EmptyLists ρ heap') (hl : l.Alike ρ l')
    (hr : r.Alike ρ r') :
    SameOutcome (Value.Alike ρ) (l.element heap r) (l'.element heap' r') := by
  simp only [Value.element, hr.asIndex]
  refine .bindSame _ fun i => ?_
  cases hl with
  | scalar h =>
      cases l with
      | array | list | object | function | expression => cases h
      | _ => exact .error _
  | @array _ _ xs ys _ length items =>
      simp only [length]
      by_cases hi : i < 0
      · simp only [if_pos hi]
        exact .error _
      · simp only [if_neg hi]
        have hitem := getElem?_forall₂ (AlikeAll.ofZip length items) i.toNat
        revert hitem
        generalize xs[i.toNat]? = x
        generalize ys[i.toNat]? = y
        rintro (hxy | _)
        · exact .ok hxy
        · exact .error _
  | list id =>
      obtain ⟨hitems, hitems'⟩ := hlists _ _ id
      simp only [hitems, hitems', List.getElem?_nil, ite_self]
      exact .error _
  | _ => exact .error _

end Operators

end ExprTree
