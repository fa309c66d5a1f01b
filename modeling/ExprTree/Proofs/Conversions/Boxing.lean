import ExprTree.Proofs.Conversions
import ExprTree.Proofs.Operands

set_option autoImplicit false

/-! # Boxing and type tests

Every type converts to `object` without a change of the value, and a conversion from `object` is a
cast. There are three ways to ask whether a value belongs to a type: to test it, to cast it, and to
take it as the type or else as missing. They are carried out by different code, which treats a
missing value and optional types each in its own way, and they give the same answer
(`eval_type_tests_agree`).
-/

namespace ExprTree

section Casts

variable {schema : Schema} {v : Value}

theorem Value.isNull_eq_false : v.isNull = false ↔ v ≠ .null := by
  constructor
  · rintro h rfl
    cases h
  · intro h
    cases hv : v.isNull with
    | true => exact absurd (Value.eq_null hv) h
    | false => rfl

/-- The answer of a type test. -/
theorem Value.typeIs_iff {t : Ty} :
    (!v.isNull && v.conformsTo schema t) = true ↔ v ≠ .null ∧ v.conformsTo schema t = true := by
  rw [Bool.and_eq_true, Bool.not_eq_true', Value.isNull_eq_false]

namespace Conversion

theorem castTo_of_conformsTo {t : Ty} (h : v.conformsTo schema t = true) :
    castTo schema t v = .ok v := by
  cases hv : v.isNull with
  | true =>
      obtain rfl := Value.eq_null hv
      rw [Value.conformsTo_null] at h
      simp only [castTo, hv, h, ↓reduceIte]
  | false => simp only [castTo, hv, h, Bool.false_eq_true, ↓reduceIte]

/-- A cast succeeds on the values of its type only. -/
theorem conformsTo_of_castTo {t : Ty} {r : Value} (h : castTo schema t v = .ok r) :
    v.conformsTo schema t = true := by
  unfold castTo at h
  split at h
  case isTrue hv =>
    obtain rfl := Value.eq_null hv
    rw [Value.conformsTo_null]
    split at h
    · assumption
    · cases h
  case isFalse =>
    split at h
    · assumption
    · cases h

theorem select?_object (checked : Bool) (source : Ty) :
    select? schema checked source .object = some .identity := by
  have hplain : plain? schema checked source .object = some .identity := by
    unfold plain?
    split <;> rfl
  cases source with
  | nullable inner =>
      rw [select?_nullable_plain rfl]
      exact hplain
  | _ => exact hplain

/-- From `object`, every conversion does what a cast does. -/
theorem select?_of_object (schema : Schema) (checked : Bool) (target : Ty) :
    ∃ c, select? schema checked .object target = some c ∧
      ∀ v, c.apply schema v = castTo schema target v := by
  cases target with
  | object => exact ⟨.identity, rfl, fun v => (castTo_of_conformsTo v.conformsTo_object).symm⟩
  | _ => exact ⟨.cast _, rfl, fun _ => rfl⟩

end Conversion

end Casts

namespace Node.Gives

variable {schema : Schema} {args : List Value} {ρ : Nat → Value} {used : List Parameter}
  {heap : Heap} {x : Tree} {v : Value}

theorem box (hx : x.Gives schema args ρ used heap (.ok v)) (id : Nat) :
    (Node.convert id x .object).Gives schema args ρ used heap (.ok v) :=
  hx.convertBy false id (Conversion.select?_object false x.ty)

theorem cast (hx : x.Gives schema args ρ used heap (.ok v)) (hty : x.ty = .object) (id : Nat)
    (t : Ty) :
    (Node.convert id x t).Gives schema args ρ used heap
      (.ofExcept (Conversion.castTo schema t v)) := by
  obtain ⟨c, hc, happly⟩ := Conversion.select?_of_object schema false t
  rw [← hty] at hc
  rw [← happly v]
  exact hx.convertBy false id hc

end Node.Gives

section Evaluations

variable {e : Environment} {params : List Parameter} {args : List Value} {x : Operand}

/-- **Boxing is lossless, and the three type tests agree.** A value that is converted to `object`
and back to its type returns as it was. For every type `t`, a value is of type `t` by a test exactly
if it is not missing and its conversion from `object` to `t` succeeds; and, if `t` admits a missing
value, exactly if it is not missing after it was taken as a `t`. Both then give the value itself. -/
theorem eval_type_tests_agree (h : Operand.Given e.schema params args [x]) (i j k l : Nat)
    (name : Option String) (w : World) :
    let v := x.value (argumentOf params args)
    let eval (body : Tree) := e.eval (.ofLambda i (.mk j name params body)) args w
    let boxed : Tree := .convert k x.node .object
    eval (.convert l boxed x.ty) = (.ok v, w) ∧
    ∀ t : Ty, ∃ test : Bool, eval (.typeIs k x.node t) = (.ok (.bool test), w) ∧
      (test = true ↔ v ≠ .null ∧ ∃ r w', eval (.convert l boxed t) = (.ok r, w')) ∧
      (test = true → eval (.convert l boxed t) = (.ok v, w)) ∧
      (x.ty = .object → eval (.convert l x.node t) = eval (.convert l boxed t)) ∧
      (t.admitsNull = true →
        (test = true ↔ ∃ r w', r ≠ .null ∧ eval (.typeAs k x.node t) = (.ok r, w')) ∧
        (test = true → eval (.typeAs k x.node t) = (.ok v, w))) := by
  intro v eval boxed
  have hmem : x ∈ [x] := List.mem_singleton_self x
  have hoperand : x.node.Gives e.schema args (argumentOf params args)
      ([x].flatMap Operand.parameters) w.heap (.ok v) := Operand.gives hmem
  have hcast (t : Ty) :
      eval (.convert l boxed t)
        = (Outcome.report (.ofExcept (Conversion.castTo e.schema t v)), w) :=
    h.supplies.eval ((hoperand.box k).cast rfl l t) i j name
  have hcast_ok {t : Ty} (ht : v.conformsTo e.schema t = true) :
      eval (.convert l boxed t) = (.ok v, w) := by
    rw [hcast, Conversion.castTo_of_conformsTo ht]
    rfl
  refine ⟨hcast_ok (h.conforms hmem), fun t => ?_⟩
  refine ⟨_, h.supplies.eval (hoperand.typeIs k t) i j name, ?_⟩
  rw [Value.typeIs_iff]
  refine ⟨and_congr_right fun _ => ⟨fun ht => ⟨_, _, hcast_ok ht⟩, ?_⟩, fun hv => hcast_ok hv.2,
    ?_, ?_⟩
  · rintro ⟨r, w', hr⟩
    rw [hcast] at hr
    cases hok : Conversion.castTo e.schema t v with
    | ok r => exact Conversion.conformsTo_of_castTo hok
    | error err =>
        rw [hok] at hr
        cases hr
  · intro hobject
    rw [hcast]
    exact h.supplies.eval (hoperand.cast (x.ty_node.trans hobject) l t) i j name
  · intro hnull
    have htake : eval (.typeAs k x.node t)
        = (.ok (if v.conformsTo e.schema t then v else .null), w) :=
      h.supplies.eval (hoperand.typeAs k hnull) i j name
    rw [htake]
    constructor
    · constructor
      · rintro ⟨hv, ht⟩
        exact ⟨v, w, hv, by rw [if_pos ht]⟩
      · rintro ⟨r, w', hr, heq⟩
        split at heq
        · cases heq
          exact ⟨hr, by assumption⟩
        · cases heq
          exact absurd rfl hr
    · rintro ⟨-, ht⟩
      rw [if_pos ht]

/-- An instance of `C` that is known as an optional `B` returns from its box, and it is an `A` by
all three tests. -/
theorem eval_type_tests_agree_derived :
    let e : Environment := ⟨.threeRecords, fun _ _ heap _ => .done (.ok .unit) heap, 1000, 0⟩
    let p : Parameter := ⟨0, "x", .nullable (.record ⟨1, "B"⟩)⟩
    let v : Value := .object ⟨2, "C"⟩ 0
    let base : Ty := .record ⟨0, "A"⟩
    let x : Tree := .parameter 1 p
    let eval (body : Tree) := e.eval (.ofLambda 3 (.mk 2 none [p] body)) [v] {}
    eval (.convert 5 (.convert 4 x .object) p.ty) = (.ok v, {}) ∧
      eval (.typeIs 4 x base) = (.ok (.bool true), {}) ∧
      eval (.convert 5 (.convert 4 x .object) base) = (.ok v, {}) ∧
      eval (.typeAs 4 x base) = (.ok v, {}) := by
  intro e p v base x eval
  obtain ⟨hbox, htests⟩ := eval_type_tests_agree (e := e)
    (Operand.given_parameter (p := p) (v := v) rfl 1) 3 2 4 5 none {}
  obtain ⟨test, htest, -, hcast, -, htake⟩ := htests base
  have htrue : eval (.typeIs 4 x base) = (.ok (.bool true), {}) := rfl
  obtain rfl : test = true := by
    cases htest.symm.trans htrue
    rfl
  exact ⟨hbox, htrue, hcast rfl, (htake rfl).2 rfl⟩

end Evaluations

end ExprTree
