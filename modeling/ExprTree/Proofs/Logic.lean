import Mathlib.Data.Option.NAry
import ExprTree.Proofs.Computation

set_option autoImplicit false

/-! # Three-valued logic

A `BoolExpr` is a tree of logical operators over constants and parameters whose type is `bool` or
its optional form. A missing value counts as unknown, and the tree stands for the truth value that
the strong Kleene tables give it (`BoolExpr.truth`). The compiler has several ways to carry out an
operator, among them two that skip the right operand where the left one decides. Which one it takes
depends on the kind of the node and on the static types of its operands, but the value does not
(`eval_three_valued_logic`).
-/

namespace ExprTree

/-! ## Truth values -/

/-- A truth value, or none if it is unknown. -/
abbrev Truth := Option Bool

namespace Truth

/-- What is unknown stays unknown. -/
def not (a : Truth) : Truth := Option.map Bool.not a

/-- False as soon as one side is, and true only if both are. -/
def and : Truth → Truth → Truth
  | some false, _ | _, some false => some false
  | some true, some true => some true
  | _, _ => none

/-- True as soon as one side is, and false only if both are. -/
def or (a b : Truth) : Truth := not (and (not a) (not b))

/-- One side holds and the other one does not. -/
def xor (a b : Truth) : Truth := or (and a (not b)) (and (not a) b)

end Truth

/-- The value of a truth value: an unknown one is missing. -/
def Value.ofTruth : Truth → Value
  | some b => .bool b
  | none => .null

/-- The truth value of a value. -/
def Value.truth? : Value → Truth
  | .bool b => some b
  | _ => none

/-! ## Expressions -/

/-- A logical operator with two operands. -/
inductive Connective
  | and | or | xor
  /-- Conjunction that may skip its right operand. -/
  | andAlso
  /-- Disjunction that may skip its right operand. -/
  | orElse
deriving DecidableEq

namespace Connective

/-- The kind of the nodes with this operator. -/
def kind : Connective → Kind
  | .and => .and
  | .or => .or
  | .xor => .exclusiveOr
  | .andAlso => .andAlso
  | .orElse => .orElse

/-- The operator on truth values. -/
def truth : Connective → Truth → Truth → Truth
  | .and | .andAlso => Truth.and
  | .or | .orElse => Truth.or
  | .xor => Truth.xor

/-- The operator on booleans. -/
def bitOp : Connective → BitOp
  | .and | .andAlso => .and
  | .or | .orElse => .or
  | .xor => .xor

/-- The same operator, evaluating both operands. -/
def strict : Connective → Connective
  | .andAlso => .and
  | .orElse => .or
  | op => op

end Connective

/-- The type of truth values, or its optional form. -/
def Ty.logical (optional : Bool) : Ty := if optional then .nullable .bool else .bool

/-- A logical expression; nodes have the identities that they get in a tree. -/
inductive BoolExpr
  | constant (id : Nat) (optional b : Bool)
  /-- A missing value of the optional type. -/
  | missing (id : Nat)
  | parameter (id : Nat) (optional : Bool) (number : Nat) (name : String)
  | not (id : Nat) (x : BoolExpr)
  | binary (id : Nat) (op : Connective) (x y : BoolExpr)

namespace BoolExpr

/-- The tree of the expression. -/
def node : BoolExpr → Tree
  | .constant id optional b => Node.constant id (.bool b) (.logical optional)
  | .missing id => Node.null id (.logical true)
  | .parameter id optional number name => Node.parameter id ⟨number, name, .logical optional⟩
  | .not id x => Node.unary id .not x.node
  | .binary id op x y => Node.binary id op.kind x.node y.node

/-- Whether a leaf has the optional type. -/
def isOptional : BoolExpr → Bool
  | .constant _ optional _ | .parameter _ optional _ _ => optional
  | .missing _ => true
  | .not _ x => x.isOptional
  | .binary _ _ x y => x.isOptional || y.isOptional

/-- The parameters, in the order of their uses. -/
def parameters : BoolExpr → List Parameter
  | .constant .. | .missing _ => []
  | .parameter _ optional number name => [⟨number, name, .logical optional⟩]
  | .not _ x => x.parameters
  | .binary _ _ x y => x.parameters ++ y.parameters

/-- The truth value of an expression, where `ρ` gives the values of parameters. -/
def truth (ρ : Nat → Value) : BoolExpr → Truth
  | .constant _ _ b => some b
  | .missing _ => none
  | .parameter _ _ number _ => (ρ number).truth?
  | .not _ x => Truth.not (x.truth ρ)
  | .binary _ op x y => op.truth (x.truth ρ) (y.truth ρ)

/-- A lambda around the tree. -/
def lambda (id : Nat) (name : Option String) (params : List Parameter) (x : BoolExpr) :
    Lambda Value :=
  .mk id name params x.node

/-- The second expression is the first one with operators that may skip an operand put in the place
of those that do not, or the other way round, at any nodes. -/
inductive Exchanges : BoolExpr → BoolExpr → Prop
  | constant (i j : Nat) (optional b : Bool) :
      Exchanges (.constant i optional b) (.constant j optional b)
  | missing (i j : Nat) : Exchanges (.missing i) (.missing j)
  | parameter (i j : Nat) (optional : Bool) (number : Nat) (name : String) :
      Exchanges (.parameter i optional number name) (.parameter j optional number name)
  | not (i j : Nat) {x x' : BoolExpr} (operand : Exchanges x x') :
      Exchanges (.not i x) (.not j x')
  | binary (i j : Nat) {op op' : Connective} {x y x' y' : BoolExpr} (same : op.strict = op'.strict)
      (left : Exchanges x x') (right : Exchanges y y') :
      Exchanges (.binary i op x y) (.binary j op' x' y')

end BoolExpr

/-! ## Operators on truth values -/

theorem Value.asOptionalBool_ofTruth (a : Truth) : (Value.ofTruth a).asOptionalBool = .ok a := by
  cases a <;> rfl

/-- A value of type `bool` or its optional form is that of its truth value. -/
theorem Value.ofTruth_truth? {schema : Schema} {optional : Bool} {v : Value}
    (h : v.conformsTo schema (.logical optional) = true) : .ofTruth v.truth? = v := by
  cases optional with
  | false =>
      obtain ⟨b, rfl⟩ := Value.eq_bool h
      rfl
  | true =>
      rcases Bool.or_eq_true_iff.mp h with hnull | hv
      · rw [Value.eq_null hnull]
        rfl
      · obtain ⟨b, rfl⟩ := Value.eq_bool hv
        rfl

/-- Truth values that are known have a known result. -/
theorem Connective.truth_eq_none {op : Connective} {a b : Truth} (h : op.truth a b = none) :
    a = none ∨ b = none := by
  cases a with
  | none => exact .inl rfl
  | some a =>
      cases b with
      | none => exact .inr rfl
      | some b => cases op <;> cases a <;> cases b <;> cases h

/-- On truth values that are known, the operator is the one on booleans. -/
theorem Connective.truth_some (op : Connective) (a b : Bool) :
    op.truth (some a) (some b) = some (op.bitOp.onBools a b) := by
  cases op <;> cases a <;> cases b <;> rfl

/-- Nothing decides an exclusive disjunction alone. -/
theorem Truth.xor_eq_map₂ (a b : Truth) : Truth.xor a b = Option.map₂ BitOp.xor.onBools a b := by
  rcases a with _ | _ | _ <;> rcases b with _ | _ | _ <;> rfl

/-- A lifted negation passes an unknown operand on. -/
theorem UnaryOp.applyLifted_notBool {lifted : Bool} {a : Truth} (h : a = none → lifted = true) :
    UnaryOp.notBool.applyLifted lifted (.ofTruth a) = .ok (.ofTruth (Truth.not a)) := by
  cases a with
  | none =>
      rw [h rfl]
      rfl
  | some a => cases lifted <;> rfl

theorem BinaryOp.applyLifted_bools {op : BitOp} {lifted : Bool} {heap : Heap} {a b : Truth}
    (ha : a = none → lifted = true) (hb : b = none → lifted = true) :
    (BinaryOp.bools op).applyLifted (if lifted then some .null else none) heap
      (.ofTruth a) (.ofTruth b) = .ok (.ofTruth (Option.map₂ op.onBools a b)) := by
  cases a with
  | none =>
      rw [ha rfl]
      rfl
  | some a =>
      cases b with
      | none =>
          rw [hb rfl]
          rfl
      | some b => cases lifted <;> rfl

theorem kleeneValue_eq (conjunction : Bool) (a b : Truth) :
    kleeneValue conjunction a b
      = .ofTruth (if conjunction then Truth.and a b else Truth.or a b) := by
  cases conjunction <;> rcases a with _ | _ | _ <;> rcases b with _ | _ | _ <;> rfl

/-- A known left operand decides, or leaves the decision to the right one. -/
theorem Truth.decide_some (decisive a : Bool) (b : Truth) :
    (if decisive then Truth.or (some a) b else Truth.and (some a) b)
      = if a = decisive then some a else b := by
  cases decisive <;> cases a <;> rcases b with _ | _ | _ <;> rfl

/-! ## Code -/

namespace Code

variable {cx : Context} {f : Frame} {m : Machine} {left right : Code} {a b : Truth}
  (hl : left.run cx f m = .ok (.ofTruth a) m)
  (hr : right.run cx f m = .ok (.ofTruth b) m)

include hl hr

theorem run_kleene (conjunction : Bool) :
    (Code.kleene conjunction left right).run cx f m
      = .ok (.ofTruth (if conjunction then Truth.and a b else Truth.or a b)) m := by
  rw [← kleeneValue_eq, Code.run, bind_of_ok hl, Value.asOptionalBool_ofTruth,
    Exec.ofExcept_ok_bind, bind_of_ok hr, Value.asOptionalBool_ofTruth, Exec.ofExcept_ok_bind]
  rfl

/-- The right operand is not needed where the left one decides. -/
theorem run_shortCircuit (decisive : Bool) {lifted : Bool} (h : a = none → lifted = true) :
    (Code.shortCircuit decisive lifted left right).run cx f m
      = .ok (.ofTruth (if decisive then Truth.or a b else Truth.and a b)) m := by
  rw [Code.run, bind_of_ok hl]
  cases a with
  | none =>
      rw [h rfl, if_pos rfl, Value.asOptionalBool_ofTruth, Exec.ofExcept_ok_bind]
      dsimp only
      rw [bind_of_ok hr, Value.asOptionalBool_ofTruth, Exec.ofExcept_ok_bind]
      rcases b with _ | _ | _ <;> cases decisive <;> rfl
  | some a =>
      have hknown : (if a = decisive then pure (.bool a) else right.run cx f : Exec Value) m
          = .ok (.ofTruth (if a = decisive then some a else b)) m := by
        split
        · rfl
        · exact hr
      rw [Truth.decide_some, ← hknown]
      cases lifted with
      | true =>
          rw [if_pos rfl, Value.asOptionalBool_ofTruth, Exec.ofExcept_ok_bind]
      | false =>
          have hbool : (Value.ofTruth (some a)).asBool = .ok a := rfl
          rw [if_neg Bool.false_ne_true, hbool, Exec.ofExcept_ok_bind]

end Code

/-! ## Nodes -/

namespace Connective

/-- What a node with this operator does. -/
def form (lifted : Bool) : Connective → BinaryForm
  | .and => if lifted then .kleene true else .strict (.primitive (.bools .and)) none
  | .or => if lifted then .kleene false else .strict (.primitive (.bools .or)) none
  | .xor => .strict (.primitive (.bools .xor)) (if lifted then some .null else none)
  | .andAlso => .shortCircuit false lifted
  | .orElse => .shortCircuit true lifted

theorem binaryForm?_eq (op : Connective) (schema : Schema) (a b : Bool) :
    binaryForm? schema op.kind (.logical (a || b)) (.logical a) none (a || b)
      = some (op.form (a || b)) := by
  cases op <;> cases a <;> cases b <;> rfl

/-- Whatever a node does, its result is that of the operator. A plain operator has operands that are
known. -/
theorem run_form (op : Connective) {cx : Context} {f : Frame} {m : Machine} {left right : Code}
    {lifted : Bool} {a b : Truth} (ha : a = none → lifted = true) (hb : b = none → lifted = true)
    (hl : left.run cx f m = .ok (.ofTruth a) m)
    (hr : right.run cx f m = .ok (.ofTruth b) m) :
    ((op.form lifted).code left right).run cx f m
      = .ok (.ofTruth (op.truth a b)) m := by
  have hbools : ∀ op : BitOp, (Code.binary (.primitive (.bools op))
      (if lifted then some .null else none) left right).run cx f m
        = .ok (.ofTruth (Option.map₂ op.onBools a b)) m := by
    intro op
    have hrun := Code.run_binary (l := .ok (.ofTruth a)) (r := .ok (.ofTruth b)) (.bools op)
      (if lifted then some .null else none) hl hr
    exact hrun.trans (congrArg (Outcome.inState · m) (BinaryOp.applyLifted_bools ha hb))
  have hplain : lifted = false → op.truth a b = Option.map₂ op.bitOp.onBools a b := by
    rintro rfl
    obtain ⟨a, rfl⟩ := Option.ne_none_iff_exists'.mp fun h => Bool.false_ne_true (ha h)
    obtain ⟨b, rfl⟩ := Option.ne_none_iff_exists'.mp fun h => Bool.false_ne_true (hb h)
    rw [op.truth_some, Option.map₂_some_some]
  cases op with
  | and =>
      cases lifted with
      | true => exact Code.run_kleene hl hr true
      | false =>
          rw [hplain rfl]
          exact hbools .and
  | or =>
      cases lifted with
      | true => exact Code.run_kleene hl hr false
      | false =>
          rw [hplain rfl]
          exact hbools .or
  | xor =>
      rw [truth, Truth.xor_eq_map₂]
      exact hbools .xor
  | andAlso => exact Code.run_shortCircuit hl hr false ha
  | orElse => exact Code.run_shortCircuit hl hr true ha

/-- The result of an operator is optional as soon as an operand is. -/
theorem binaryType (op : Connective) (a b toNull : Bool) :
    Node.binaryType op.kind (.logical a) (a || b) toNull = .logical (a || b) := by
  cases op <;> cases a <;> cases b <;> rfl

theorem isRelational_kind (op : Connective) : op.kind.isRelational = false := by
  cases op <;> rfl

end Connective

@[simp] theorem Ty.isNullable_logical (optional : Bool) :
    (Ty.logical optional).isNullable = optional := by
  cases optional <;> rfl

namespace BoolExpr

/-- The static type of a tree is optional exactly if that of a leaf is. -/
theorem ty_node (x : BoolExpr) : x.node.ty = .logical x.isOptional := by
  induction x with
  | constant | missing | parameter => rfl
  | not id x ih => exact ih
  | binary id op x y ihx ihy =>
      show Node.binaryType _ _ (Node.operandsOptional _ _) _ = _
      rw [Node.operandsOptional, ihx, ihy, Ty.isNullable_logical, Ty.isNullable_logical,
        Connective.binaryType, isOptional]

theorem node_not (id : Nat) (x : BoolExpr) :
    (not id x).node = .mk id .not (.logical x.isOptional) (.unary x.node none x.isOptional) := by
  simp only [node, Node.unary, ty_node, Ty.isNullable_logical]

theorem node_binary (id : Nat) (op : Connective) (x y : BoolExpr) :
    (binary id op x y).node = .mk id op.kind (.logical (x.isOptional || y.isOptional))
      (.binary x.node y.node none (x.isOptional || y.isOptional) (x.isOptional || y.isOptional)
        none) := by
  simp only [node, Node.binary, Node.operandsOptional, ty_node, Ty.isNullable_logical,
    Connective.binaryType, Connective.isRelational_kind, Bool.not_false, Bool.and_true]

/-- No parameter is used from inside a lambda or a quote. -/
theorem within_eq_nil {x : BoolExpr} {o : Occurrence} (ho : o ∈ x.node.occurrences) :
    o.within = [] := by
  induction x with
  | constant | missing => cases ho
  | parameter => rw [List.mem_singleton.mp ho]
  | not _ _ ih => exact ih ho
  | binary _ op _ _ ihx ihy =>
      cases op <;> exact (List.mem_append.mp ho).elim ihx ihy

section Results

variable {schema : Schema} {scope : EmitScope} {args : List Value} {ρ : Nat → Value} {x : BoolExpr}
  {cx : EmitContext} {heap : Heap}

/-- Only an optional tree may be unknown. -/
theorem isOptional_of_truth (h : ReadsSlots schema scope args ρ x.parameters)
    (hx : x.truth ρ = none) : x.isOptional = true := by
  induction x with
  | constant => cases hx
  | missing => rfl
  | parameter id optional number name =>
      cases optional with
      | true => rfl
      | false =>
          obtain ⟨b, hb⟩ := Value.eq_bool (h _ (List.mem_singleton_self _)).1
          rw [truth, hb] at hx
          cases hx
  | not _ _ ih => exact ih h (Option.map_eq_none_iff.mp hx)
  | binary _ _ _ _ ihx ihy =>
      rw [isOptional, Bool.or_eq_true_iff]
      exact (Connective.truth_eq_none hx).imp (ihx h.left) (ihy h.right)

/-- **The code of a logical tree computes its truth value.** The induction is on the expression; an
unknown operand makes the operators above it lifted. -/
theorem computes (h : ReadsSlots schema scope args ρ x.parameters) :
    x.node.Computes cx scope args heap (.ok (.ofTruth (x.truth ρ))) := by
  induction x with
  | constant id optional b => exact .constant id _ _
  | missing id => exact .constant id .null _
  | parameter id optional number name =>
      obtain ⟨hconf, i, ha, hv⟩ := h _ (List.mem_singleton_self _)
      rw [truth, Value.ofTruth_truth? hconf]
      exact .parameter id ha hv
  | not id x ih =>
      have haction : unaryAction? cx.schema .not (.logical x.isOptional) x.node.ty none x.isOptional
          = some (.primitive .notBool, x.isOptional) := by
        rw [ty_node]
        cases x.isOptional <;> rfl
      rw [truth, ← UnaryOp.applyLifted_notBool (isOptional_of_truth (x := x) h), node_not]
      exact .unary id haction (ih h)
  | binary id op x y ihx ihy =>
      have hform := op.binaryForm?_eq cx.schema x.isOptional y.isOptional
      rw [← ty_node x] at hform
      rw [node_binary]
      refine .ofForm id hform (ihx h.left) (ihy h.right) fun _ _ _ _ _ _ hl hr =>
        op.run_form ?_ ?_ hl hr
      · intro hnone
        rw [isOptional_of_truth h.left hnone, Bool.true_or]
      · intro hnone
        rw [isOptional_of_truth h.right hnone, Bool.or_true]

end Results

/-! ## Evaluations -/

theorem captures_lambda (id : Nat) (name : Option String) (params : List Parameter)
    (x : BoolExpr) : (x.lambda id name params).captures.ofLambda id = [] :=
  Lambda.captures_ofLambda_eq_nil (l := x.lambda id name params) fun _ ho => within_eq_nil ho

theorem eval_lambda {e : Environment} {params : List Parameter} {args : List Value} {x : BoolExpr}
    (h : Supplies e.schema params args x.parameters) (i j : Nat) (name : Option String)
    (w : World) :
    e.eval (.ofLambda i (x.lambda j name params)) args w
      = (.ok (.ofTruth (x.truth (argumentOf params args))), w) := by
  have hcaptures := captures_lambda j name params x
  have hreads := Supplies.readsSlots (l := x.lambda j name params) h hcaptures
  have hargs := Supplies.checkArguments (l := x.lambda j name params) h
  exact Environment.eval_of_computes i hcaptures hargs (computes hreads)

namespace Exchanges

variable {x y : BoolExpr}

theorem parameters_eq (h : x.Exchanges y) : y.parameters = x.parameters := by
  induction h with
  | constant | missing | parameter => rfl
  | not _ _ _ ih => exact ih
  | binary _ _ _ _ _ ihx ihy => rw [parameters, parameters, ihx, ihy]

/-- The tables do not know which operators may skip an operand. -/
theorem truth_eq (h : x.Exchanges y) (ρ : Nat → Value) : y.truth ρ = x.truth ρ := by
  induction h with
  | constant | missing | parameter => rfl
  | not _ _ _ ih => rw [truth, truth, ih]
  | @binary _ _ op op' _ _ _ _ same _ _ ihx ihy =>
      have htable : ∀ op : Connective, op.truth = op.strict.truth := fun op => by cases op <;> rfl
      rw [truth, truth, ihx, ihy, htable op, htable op', same]

end Exchanges

end BoolExpr

/-- **Logical operators follow the strong Kleene tables.** Evaluating a tree of logical operators
over truth values and optional truth values always succeeds, with the truth value that the tables
give; a missing value counts as unknown. The result is the same whatever operators, at any set of
nodes, are exchanged for those that may skip an operand or for those that do not. -/
theorem eval_three_valued_logic {e : Environment} {params : List Parameter} {args : List Value}
    {x : BoolExpr} (h : Supplies e.schema params args x.parameters) (i j : Nat)
    (name : Option String) (w : World) :
    e.eval (.ofLambda i (x.lambda j name params)) args w
        = (.ok (.ofTruth (x.truth (argumentOf params args))), w) ∧
      ∀ y, x.Exchanges y → ∀ i' j' name',
        e.eval (.ofLambda i' (y.lambda j' name' params)) args w
          = e.eval (.ofLambda i (x.lambda j name params)) args w := by
  have hx := BoolExpr.eval_lambda h i j name w
  refine ⟨hx, fun y hxy i' j' name' => ?_⟩
  rw [← hxy.parameters_eq] at h
  rw [hx, BoolExpr.eval_lambda h i' j' name' w, hxy.truth_eq]

/-- A mixed expression over `a` and the optional `b`, where the operators are
`a and b or not (b xor (a and missing))`. -/
def BoolExpr.mixed (conj disj conj' : Connective) : BoolExpr :=
  .binary 0 disj
    (.binary 1 conj (.parameter 2 false 0 "a") (.parameter 3 true 1 "b"))
    (.not 4 (.binary 5 .xor (.parameter 6 true 1 "b")
      (.binary 7 conj' (.parameter 8 false 0 "a") (.missing 9))))

def BoolExpr.mixedParams : List Parameter :=
  [⟨0, "a", .logical false⟩, ⟨1, "b", .logical true⟩]

theorem BoolExpr.mixed_supplies {b : Value} (hb : b.conformsTo .empty (.logical true) = true) :
    Supplies .empty mixedParams [.bool false, b]
      (mixed .and .orElse .andAlso).parameters where
  declared := by simp [mixed, mixedParams, parameters]
  identified := by simp [mixedParams]
  conform := .cons rfl (.cons hb .nil)

/-- With `a` false, the result is false if `b` is true and unknown if `b` is missing; it remains so
if every operator that has a twin is exchanged for it. -/
theorem eval_three_valued_logic_mixed :
    let e : Environment := ⟨.empty, fun _ _ heap _ => .done (.ok .unit) heap, 1000, 0⟩
    let x : Tree := .ofLambda 11
      ((BoolExpr.mixed .and .orElse .andAlso).lambda 10 none BoolExpr.mixedParams)
    let y : Tree := .ofLambda 13
      ((BoolExpr.mixed .andAlso .or .and).lambda 12 none BoolExpr.mixedParams)
    e.eval x [.bool false, .bool true] {} = (.ok (.bool false), {}) ∧
      e.eval x [.bool false, .null] {} = (.ok .null, {}) ∧
      e.eval y [.bool false, .bool true] {} = (.ok (.bool false), {}) ∧
      e.eval y [.bool false, .null] {} = (.ok .null, {}) := by
  intro e x y
  have hxy : (BoolExpr.mixed .and .orElse .andAlso).Exchanges (.mixed .andAlso .or .and) :=
    .binary _ _ rfl (.binary _ _ rfl (.parameter ..) (.parameter ..))
      (.not _ _ (.binary _ _ rfl (.parameter ..)
        (.binary _ _ rfl (.parameter ..) (.missing ..))))
  obtain ⟨hfalse, hfalse'⟩ := eval_three_valued_logic (e := e)
    (BoolExpr.mixed_supplies (b := .bool true) rfl) 11 10 none {}
  obtain ⟨hnull, hnull'⟩ := eval_three_valued_logic (e := e)
    (BoolExpr.mixed_supplies (b := .null) rfl) 11 10 none {}
  exact ⟨hfalse, hnull, (hfalse' _ hxy 13 12 none).trans hfalse,
    (hnull' _ hxy 13 12 none).trans hnull⟩

end ExprTree
