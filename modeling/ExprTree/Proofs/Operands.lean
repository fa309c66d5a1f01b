import ExprTree.Proofs.Arithmetic

set_option autoImplicit false

/-! # Trees over given operands

An `Operand` is a constant or a parameter, and a lambda that declares the parameters among some
operands can be evaluated on arguments of their types (`Operand.Given`). `Node.Gives` says what a
tree over such operands evaluates to; it has a rule for operands and one for every conversion and
type test, and `Supplies.eval` takes it to the evaluation of the lambda. For operators on integers,
`Operand.Given.missing_or_words` and `Operand.Given.eval_integers` say what there is to evaluate.
-/

namespace ExprTree

/-! ## Results of trees -/

/-- The parameters `used` are all that the tree needs: it reads none from inside a lambda or a
quote, and it evaluates to `r` wherever they are in the slots of their arguments. -/
structure Node.Gives (schema : Schema) (args : List Value) (ρ : Nat → Value)
    (used : List Parameter) (heap : Heap) (n : Tree) (r : Outcome Value) : Prop where
  within : ∀ o ∈ n.occurrences, o.within = []
  evaluatesTo : ∀ captures scope, ReadsSlots schema scope args ρ used →
    n.EvaluatesTo ⟨schema, captures⟩ scope args heap r

/-- Evaluating a lambda around such a tree. -/
theorem Supplies.eval {e : Environment} {params used : List Parameter} {args : List Value}
    {n : Tree} {w : World} {r : Outcome Value}
    (h : Supplies e.schema params args used)
    (hn : n.Gives e.schema args (argumentOf params args) used w.heap r) (i j : Nat)
    (name : Option String) :
    e.eval (.ofLambda i (.mk j name params n)) args w = (r.report, w) := by
  have hcaptures : (Lambda.mk j name params n).captures.ofLambda j = [] :=
    Lambda.captures_ofLambda_eq_nil (l := .mk j name params n) hn.within
  have hreads := Supplies.readsSlots (l := .mk j name params n) h hcaptures
  have hargs := Supplies.checkArguments (l := .mk j name params n) h
  exact Environment.eval_of_evaluatesTo i hcaptures hargs (hn.evaluatesTo _ _ hreads)

/-- A conversion that reports an overflow, or one that wraps around. -/
def Node.convertBy (checked : Bool) (id : Nat) (operand : Tree) (ty : Ty) : Tree :=
  if checked then .convertChecked id operand ty else .convert id operand ty

@[simp] theorem Node.ty_convertBy (checked : Bool) (id : Nat) (operand : Tree) (ty : Ty) :
    (Node.convertBy checked id operand ty).ty = ty := by
  cases checked <;> rfl

namespace Node.Gives

variable {schema : Schema} {args : List Value} {ρ : Nat → Value} {used : List Parameter}
  {heap : Heap} {x : Tree} {r : Outcome Value}

theorem convertBy (checked : Bool) (id : Nat) {ty : Ty} {c : Conversion}
    (hc : Conversion.select? schema checked x.ty ty = some c)
    (hx : x.Gives schema args ρ used heap r) :
    (Node.convertBy checked id x ty).Gives schema args ρ used heap 
      (r >>= fun v => .ofExcept (c.apply schema v)) where
  within := by cases checked <;> exact hx.within
  evaluatesTo := fun captures scope hreads => by
    have hnode := (hx.evaluatesTo captures scope hreads).convert id hc
    cases checked <;> exact hnode

theorem typeAs (id : Nat) {ty : Ty} (hty : ty.admitsNull = true)
    (hx : x.Gives schema args ρ used heap r) :
    (Node.typeAs id x ty).Gives schema args ρ used heap
      (r >>= fun v => .ok (if v.conformsTo schema ty then v else .null)) :=
  ⟨hx.within, fun captures scope hreads => (hx.evaluatesTo captures scope hreads).typeAs id hty⟩

theorem typeIs (id : Nat) (ty : Ty) (hx : x.Gives schema args ρ used heap r) :
    (Node.typeIs id x ty).Gives schema args ρ used heap
      (r >>= fun v => .ok (.bool (!v.isNull && v.conformsTo schema ty))) :=
  ⟨hx.within, fun captures scope hreads => (hx.evaluatesTo captures scope hreads).typeIs id ty⟩

end Node.Gives

/-! ## Operands -/

/-- A constant or a parameter; `id` is the identity of its node. -/
inductive Operand
  | constant (id : Nat) (v : Value) (ty : Ty)
  | parameter (id : Nat) (p : Parameter)

namespace Operand

/-- The node of the operand. -/
def node : Operand → Tree
  | .constant id v ty => Node.constant id v ty
  | .parameter id p => Node.parameter id p

/-- The static type. -/
def ty : Operand → Ty
  | .constant _ _ ty => ty
  | .parameter _ p => p.ty

/-- The parameter that the operand reads. -/
def parameters : Operand → List Parameter
  | .constant .. => []
  | .parameter _ p => [p]

/-- The value, where `ρ` gives the values of parameters. -/
def value (ρ : Nat → Value) : Operand → Value
  | .constant _ v _ => v
  | .parameter _ p => ρ p.id

/-- A lambda with these parameters can be applied to these arguments in order to evaluate trees over
these operands: constants have values of their types, and the arguments supply the parameters. -/
structure Given (schema : Schema) (params : List Parameter) (args : List Value)
    (xs : List Operand) : Prop where
  constants : ∀ id v ty, .constant id v ty ∈ xs → v.conformsTo schema ty = true
  supplies : Supplies schema params args (xs.flatMap parameters)

@[simp] theorem ty_node (x : Operand) : x.node.ty = x.ty := by
  cases x <;> rfl

variable {schema : Schema} {params : List Parameter} {args : List Value} {xs : List Operand}
  {x : Operand}

theorem within_eq_nil {o : Occurrence} (ho : o ∈ x.node.occurrences) : o.within = [] := by
  cases x with
  | constant => cases ho
  | parameter => rw [List.mem_singleton.mp ho]

theorem computes {cx : EmitContext} {scope : EmitScope} {ρ : Nat → Value} {heap : Heap}
    (h : ReadsSlots schema scope args ρ (xs.flatMap parameters)) (hx : x ∈ xs) :
    x.node.Computes cx scope args heap (.ok (x.value ρ)) := by
  cases x with
  | constant id v ty => exact .constant id v ty
  | parameter id p =>
      obtain ⟨-, i, ha, hv⟩ := h p (List.mem_flatMap.mpr ⟨_, hx, List.mem_singleton_self p⟩)
      exact .parameter id ha hv

theorem gives {ρ : Nat → Value} {heap : Heap} (hx : x ∈ xs) :
    x.node.Gives schema args ρ (xs.flatMap parameters) heap (.ok (x.value ρ)) :=
  ⟨fun _ => within_eq_nil, fun _ _ hreads => (computes hreads hx).evaluatesTo⟩

/-- A primitive operator with two operands. -/
theorem gives_binary {ρ : Nat → Value} {heap : Heap} {y : Operand} (hx : x ∈ xs) (hy : y ∈ xs)
    (id : Nat) {kind : Kind} {op : BinaryOp} {onNull : Option NullResult}
    (h : binaryForm? schema kind (Node.binary id kind x.node y.node).ty x.ty none
      (Node.operandsOptional x.node y.node) = some (.strict (.primitive op) onNull)) :
    (Node.binary id kind x.node y.node).Gives schema args ρ (xs.flatMap parameters) heap
      (op.applyLifted onNull heap (x.value ρ) (y.value ρ)) := by
  rw [← ty_node x] at h
  refine ⟨fun o ho => ?_, fun captures scope hreads => ?_⟩
  · exact (List.mem_append.mp ho).elim within_eq_nil within_eq_nil
  · exact (Node.Computes.binary id h (computes hreads hx) (computes hreads hy)).evaluatesTo

/-- Every operand has a value of its type. -/
theorem Given.conforms (h : Given schema params args xs) (hx : x ∈ xs) :
    (x.value (argumentOf params args)).conformsTo schema x.ty = true := by
  cases x with
  | constant id v ty => exact h.constants id v ty hx
  | parameter id p =>
      exact (h.supplies.argument (List.mem_flatMap.mpr ⟨_, hx, List.mem_singleton_self p⟩)).1

/-- The argument of a lambda with one parameter. -/
theorem given_parameter {p : Parameter} {v : Value} (hv : v.conformsTo schema p.ty = true)
    (id : Nat) : Given schema [p] [v] [.parameter id p] where
  constants := by simp
  supplies :=
    { declared := fun _ hq => hq
      identified := by
        intro q hq q' hq' _
        rw [List.mem_singleton.mp hq, List.mem_singleton.mp hq']
      conform := .cons hv .nil }

/-- The arguments of a lambda with two parameters. -/
theorem given_parameters {p q : Parameter} {v u : Value} (hpq : p.id ≠ q.id)
    (hv : v.conformsTo schema p.ty = true) (hu : u.conformsTo schema q.ty = true) (i j : Nat) :
    Given schema [p, q] [v, u] [.parameter i p, .parameter j q] where
  constants := by simp
  supplies :=
    { declared := fun _ hr => hr
      identified := by simp [hpq, hpq.symm]
      conform := .cons hv (.cons hu .nil) }

/-! ## Integer operands -/

section Integers

variable {y : Operand} {t s : IntType} {a b : Bool}

/-- Two operands are words, unless one is missing. -/
theorem Given.missing_or_words (h : Given schema params args [x, y]) (hx : x.ty = t.operandTy a)
    (hy : y.ty = s.operandTy b) :
    let ρ := argumentOf params args
    ((x.value ρ = .null ∨ y.value ρ = .null) ∧ (a || b) = true) ∨
      ∃ (l : Word t) (r : Word s), x.value ρ = .int t l ∧ y.value ρ = .int s r := by
  intro ρ
  have hleft : (x.value ρ).conformsTo schema (t.operandTy a) = true := hx ▸ h.conforms (by simp)
  have hright : (y.value ρ).conformsTo schema (s.operandTy b) = true := hy ▸ h.conforms (by simp)
  rcases Value.eq_null_or_int hleft with ⟨hnull, rfl⟩ | ⟨l, hl⟩
  · exact .inl ⟨.inl hnull, rfl⟩
  rcases Value.eq_null_or_int hright with ⟨hnull, rfl⟩ | ⟨r, hr⟩
  · exact .inl ⟨.inr hnull, Bool.or_true a⟩
  · exact .inr ⟨l, r, hl, hr⟩

/-- The operator of a kind on integers; it is lifted if an operand is optional. -/
theorem binaryForm?_integers {kind : Kind} {op : BinaryOp} (hk : kind.isOperator = true)
    (hrel : kind.isRelational = false) (hop : BinaryOp.select? kind (.int t) = some op) (ty : Ty)
    (a lifted : Bool) :
    binaryForm? schema kind ty (t.operandTy a) none lifted
      = some (.strict (.primitive op) (if lifted then some .null else none)) := by
  have hplain : (t.operandTy a).nonNullable = .int t := by cases a <;> rfl
  have hnull : NullResult.ofKind kind ty = .null := by simp [NullResult.ofKind, hrel]
  rw [binaryForm?_operator hk, hplain, hop, hnull]
  simp [Ty.isBool]

/-- Evaluating an operator on integers. -/
theorem Given.eval_integers {e : Environment} (h : Given e.schema params args [x, y])
    (hx : x.ty = t.operandTy a) (hy : y.ty = s.operandTy b) {kind : Kind} {op : BinaryOp}
    (hk : kind.isOperator = true) (hrel : kind.isRelational = false)
    (hop : BinaryOp.select? kind (.int t) = some op) (i j k : Nat) (name : Option String)
    (w : World) :
    e.eval (.ofLambda i (.mk j name params (.binary k kind x.node y.node))) args w
      = ((op.applyLifted (if a || b then some .null else none) w.heap
          (x.value (argumentOf params args)) (y.value (argumentOf params args))).report, w) := by
  refine h.supplies.eval (gives_binary (by simp) (by simp) k ?_) i j name
  have hoptional : Node.operandsOptional x.node y.node = (a || b) := by
    simp only [Node.operandsOptional, ty_node, hx, hy, IntType.isNullable_operandTy]
  rw [hx, hoptional]
  exact binaryForm?_integers hk hrel hop _ a (a || b)

end Integers

end Operand

end ExprTree
