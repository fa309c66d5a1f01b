import ExprTree.Proofs.Conversions
import ExprTree.Proofs.Operands

set_option autoImplicit false

/-! # Natural types

A constant takes its static type from its value. For every value but a quoted tree this natural type
is one that the value conforms to, so that it may be stored in places of that type and passed for
parameters of that type. A quoted tree has the natural type of a quoted lambda if its own type is
that of a function; any other tree has its own type, to which it conforms only if a place of that
type may hold a quoted tree (`naturalType_conforms_iff`).
-/

namespace ExprTree

/-! ## Values -/

/-- Whether a place of the type may hold a quoted tree. -/
def Ty.holdsTrees : Ty → Bool
  | .nullable inner => inner.holdsTrees
  | .object | .expression .. => true
  | _ => false

section Values

variable {schema : Schema}

theorem Value.conformsTo_expression (n : Tree) :
    (t : Ty) → (Value.expression n).conformsTo schema t = t.holdsTrees
  | .nullable t => Value.conformsTo_expression n t
  | .unit | .bool | .char | .int _ | .f32 | .f64 | .string | .object | .array _ | .list _
  | .function .. | .expression .. | .record _ => rfl

/-- The natural type of a quoted tree. -/
theorem Value.holdsTrees_naturalType (n : Tree) :
    (Value.expression n).naturalType.holdsTrees = (n.ty.isFunction || n.ty.holdsTrees) := by
  rw [Value.naturalType]
  cases n.ty <;> rfl

theorem Value.conformsTo_naturalType_iff (v : Value) :
    v.conformsTo schema v.naturalType = true ↔
      ∀ n, v = .expression n → n.ty.isFunction = true ∨ n.ty.holdsTrees = true := by
  cases v with
  | expression n =>
      rw [Value.conformsTo_expression, Value.holdsTrees_naturalType, Bool.or_eq_true]
      constructor
      · rintro h _ ⟨⟩
        exact h
      · exact fun h => h n rfl
  | object r id => simpa [naturalType, conformsTo] using Schema.derivesFrom_refl r
  | int t w => simp [naturalType, conformsTo]
  | _ => simp [naturalType, conformsTo, Ty.admitsNull, Ty.isReference, Signature.function]

end Values

/-! ## Arguments -/

section Arguments

variable {schema : Schema} {types rest : List Ty} {before after : List Value}

/-- Arguments that conform are passed over. -/
theorem firstMismatch_append
    (h : List.Forall₂ (fun u t => Value.conformsTo schema u t = true) before types) (i : Nat)
    (args : List Value) (rest : List Ty) :
    firstMismatch schema i (before ++ args) (types ++ rest)
      = firstMismatch schema (i + before.length) args rest := by
  induction h generalizing i with
  | nil => rfl
  | cons hu _ ih =>
      rw [List.cons_append, List.cons_append, firstMismatch, if_pos hu, ih, List.length_cons]
      congr 1
      omega

/-- One argument decides, if all others conform. -/
theorem checkArguments_append {s : Signature} {t : Ty} {v : Value}
    (hs : s.params = types ++ t :: rest)
    (hbefore : List.Forall₂ (fun u t => Value.conformsTo schema u t = true) before types)
    (hafter : List.Forall₂ (fun u t => Value.conformsTo schema u t = true) after rest) :
    checkArguments schema s (before ++ v :: after)
      = if v.conformsTo schema t then .ok ()
        else .error (.argumentType before.length t v.typeName) := by
  have hlen : (before ++ v :: after).length = s.params.length := by
    simp [hs, hbefore.length_eq, hafter.length_eq]
  have hnone : firstMismatch schema (before.length + 1) after rest = none := by
    have hall := firstMismatch_append hafter (before.length + 1) [] []
    rwa [List.append_nil, List.append_nil] at hall
  rw [checkArguments, if_pos hlen, hs, firstMismatch_append hbefore, firstMismatch, Nat.zero_add,
    hnone]
  by_cases hv : v.conformsTo schema t = true
  · rw [if_pos hv, if_pos hv]
  · rw [if_neg hv, if_neg hv]

end Arguments

/-! ## Evaluations -/

section Evaluations

/-- **Natural types.** A value conforms to its natural type exactly if it is no quoted tree, or a
quoted function, or a quoted tree whose type is that of a place for quoted trees. This decides
whether the constant of a value, which evaluates to that value, carries a type that it conforms to,
and whether a lambda with a parameter of that type accepts the value next to other arguments that
conform: if not, the lambda fails before it is run, and if so, it gets the value. -/
theorem naturalType_conforms_iff (e : Environment) (v : Value) :
    let fits := ∀ n, v = .expression n → n.ty.isFunction = true ∨ n.ty.holdsTrees = true
    (v.conformsTo e.schema v.naturalType = true ↔ fits) ∧
    (∀ i j k name w, e.eval (.ofLambda i (.mk j name [] (.constantOf k v))) [] w = (.ok v, w) ∧
      (v.conformsTo e.schema (Node.constantOf k v).ty = true ↔ fits)) ∧
    (∀ i (l : Lambda Value) types rest before after w,
      l.signature.params = types ++ v.naturalType :: rest →
      List.Forall₂ (fun u t => Value.conformsTo e.schema u t = true) before types →
      List.Forall₂ (fun u t => Value.conformsTo e.schema u t = true) after rest →
      (checkArguments e.schema l.signature (before ++ v :: after) = .ok () ↔ fits) ∧
      (¬ fits → ∀ p, Program.compile e.schema {} (.ofLambda i l) = .ok p →
        e.eval (.ofLambda i l) (before ++ v :: after) w
          = (.error (.raised (.runtime
              (.argumentType before.length v.naturalType v.typeName))), w))) ∧
    (∀ i j k name w (p : Parameter), p.ty = v.naturalType → fits →
      e.eval (.ofLambda i (.mk j name [p] (.parameter k p))) [v] w = (.ok v, w)) := by
  intro fits
  have hfits : v.conformsTo e.schema v.naturalType = true ↔ fits := v.conformsTo_naturalType_iff
  refine ⟨hfits, fun i j k name w => ⟨?_, hfits⟩, ?_, ?_⟩
  · have hsupplies : Supplies e.schema [] [] ([Operand.constant k v v.naturalType].flatMap
        Operand.parameters) := ⟨by simp [Operand.parameters], by simp, .nil⟩
    exact hsupplies.eval (Operand.gives (List.mem_singleton_self _)) i j name
  · intro i l types rest before after w hparams hbefore hafter
    have hcheck := checkArguments_append (v := v) hparams hbefore hafter
    refine ⟨?_, fun hmisfits p hp => ?_⟩
    · rw [hcheck, ← hfits]
      split <;> simp [*]
    · rw [if_neg (mt hfits.mp hmisfits)] at hcheck
      exact Environment.eval_eq_error hp hcheck
  · intro i j k name w p hp hv
    have hgiven := Operand.given_parameter (p := p) (hp ▸ hfits.mpr hv) k
    have heval := hgiven.supplies.eval (w := w) (Operand.gives (List.mem_singleton_self _)) i j name
    have hvalue : argumentOf [p] [v] p.id = v := by simp [argumentOf, lastIndex?]
    rw [Operand.value, hvalue] at heval
    exact heval

/-- A quoted number is a value that a lambda returns, its natural type is that of the number, and
it does not conform to it: the identity on that type refuses it. The quoted identity itself is
accepted. -/
theorem quoted_number_misfits :
    let e : Environment := ⟨.empty, fun _ _ heap _ => .done (.ok .unit) heap, 1000, 0⟩
    let five : Tree := .constant 0 (.ofInt .i8 5) (.int .i8)
    let identity (ty : Ty) : Tree :=
      .ofLambda 4 (.mk 3 none [⟨0, "x", ty⟩] (.parameter 2 ⟨0, "x", ty⟩))
    let accepts (v : Value) := e.eval (identity v.naturalType) [v] {}
    e.eval (.ofLambda 6 (.mk 5 none [] (.quote 1 five))) [] {} = (.ok (.expression five), {}) ∧
      (Value.expression five).naturalType = .int .i8 ∧
      (Value.expression five).conformsTo e.schema (.int .i8) = false ∧
      accepts (.expression five)
        = (.error (.raised (.runtime (.argumentType 0 (.int .i8) "expression"))), {}) ∧
      accepts (.expression (identity (.int .i8)))
        = (.ok (.expression (identity (.int .i8))), {}) := by
  intro e five identity accepts
  exact ⟨rfl, rfl, rfl, rfl, rfl⟩

end Evaluations

end ExprTree
