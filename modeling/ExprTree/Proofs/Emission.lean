import ExprTree.Proofs.Captures
import ExprTree.Proofs.Lexical

set_option autoImplicit false

/-! # What a successful emission looks like

One equivalence per form of node: the node is emitted, with this code and this final state, exactly
if its parts are, one after the other, and the code is put together from theirs. Later proofs use
these equivalences and never unfold the emitter.

The second half says what an emission leaves alone: units and constants that are there stay where
they are (`EmitState.Grows`).
-/

namespace ExprTree

/-! ## Steps of a compilation -/

namespace Emit

variable {β γ : Type} {s : EmitState}

theorem bind_eq_ok {x : Emit β} {f : β → Emit γ} {r : γ × EmitState} :
    (x >>= f) s = .ok r ↔ ∃ a s', x s = .ok (a, s') ∧ f a s' = .ok r := by
  show StateT.bind x f s = .ok r ↔ _
  unfold StateT.bind
  cases hx : x s with
  | error e => simp [bind, Except.bind]
  | ok p =>
      obtain ⟨a, s'⟩ := p
      constructor
      · exact fun h => ⟨a, s', rfl, h⟩
      · rintro ⟨a', s'', h, hf⟩
        cases h
        exact hf

theorem pure_eq_ok {a : β} {r : β × EmitState} : (pure a : Emit β) s = .ok r ↔ (a, s) = r := by
  show Except.ok (a, s) = Except.ok r ↔ _
  simp

theorem throw_eq_ok {e : CompileError} {r : β × EmitState} :
    (throw e : Emit β) s = .ok r ↔ False := by
  show Except.error e = Except.ok r ↔ _
  simp

theorem unsupported_eq_ok {kind : Kind} {reason : String} {r : β × EmitState} :
    (unsupported kind reason : Emit β) s = .ok r ↔ False := throw_eq_ok

theorem mismatched_eq_ok {kind : Kind} {r : β × EmitState} :
    (mismatched kind : Emit β) s = .ok r ↔ False := throw_eq_ok

theorem temporary_bind {f : Nat → Emit γ} :
    (temporary >>= f) s = f s.slots { s with slots := s.slots + 1 } := rfl

/-- One part, and code made from it. -/
theorem map_eq_ok {x : Emit β} {f : β → γ} {c : γ} {s' : EmitState} :
    (do return f (← x) : Emit γ) s = .ok (c, s') ↔ ∃ a, x s = .ok (a, s') ∧ c = f a := by
  simp only [bind_eq_ok, pure_eq_ok, Prod.mk.injEq]
  constructor
  · rintro ⟨a, _, h, rfl, rfl⟩
    exact ⟨a, h, rfl⟩
  · rintro ⟨a, h, rfl⟩
    exact ⟨a, s', h, rfl, rfl⟩

/-- Two parts in order, and code made from them. -/
theorem map₂_eq_ok {δ : Type} {x : Emit β} {y : Emit γ} {f : β → γ → δ} {c : δ} {s' : EmitState} :
    (do
      let a ← x
      let b ← y
      return f a b : Emit δ) s = .ok (c, s') ↔
      ∃ a s₁ b, x s = .ok (a, s₁) ∧ y s₁ = .ok (b, s') ∧ c = f a b := by
  rw [bind_eq_ok]
  simp only [map_eq_ok]
  constructor
  · rintro ⟨a, s₁, hx, b, hy, rfl⟩
    exact ⟨a, s₁, b, hx, hy, rfl⟩
  · rintro ⟨a, s₁, b, hx, hy, rfl⟩
    exact ⟨a, s₁, hx, b, hy, rfl⟩

end Emit

/-- The address of a parameter is found. -/
theorem EmitScope.resolve_eq_ok {scope : EmitScope} {p : Parameter} {s : EmitState}
    {r : Address × EmitState} :
    (liftM (scope.resolve p) : Emit Address) s = .ok r ↔
      ∃ a, scope.address? p.id = some a ∧ (a, s) = r := by
  unfold EmitScope.resolve
  cases scope.address? p.id with
  | none =>
      show Except.error _ = Except.ok r ↔ _
      simp
  | some a =>
      show Except.ok (a, s) = Except.ok r ↔ _
      simp

/-! ## Nodes -/

namespace Payload

attribute [local simp] emit

variable {cx : EmitContext} {scope : EmitScope} {kind : Kind} {ty : Ty} {s s' : EmitState}
  {c : Code}

theorem emit_parameter {p : Parameter} :
    emit cx scope kind ty (.parameter p) s = .ok (c, s') ↔
      kind = .parameter ∧ s = s' ∧ ∃ a, scope.address? p.id = some a ∧ c = .load a := by
  simp only [emit]
  by_cases hk : kind = .parameter
  · rw [if_pos hk, Emit.map_eq_ok]
    simp only [EmitScope.resolve_eq_ok, Prod.mk.injEq]
    constructor
    · rintro ⟨_, ⟨a, ha, rfl, rfl⟩, rfl⟩
      exact ⟨hk, rfl, a, ha, rfl⟩
    · rintro ⟨-, rfl, a, ha, rfl⟩
      exact ⟨a, ⟨a, ha, rfl, rfl⟩, rfl⟩
  · simp [hk, Emit.mismatched_eq_ok]

theorem emit_quote {x : Tree} {method : Option Method} {lifted : Bool} :
    emit cx scope .quote ty (.unary x method lifted) s = .ok (c, s') ↔
      (∀ p ∈ x.freeParameters, (scope.address? p.id).isSome) ∧
        Emit.pool (.expression x) s = .ok (s.pool.size, s') ∧ c = .quote s.pool.size := by
  simp only [emit, emitQuote]
  cases hf : x.freeParameters.find? fun p => (scope.address? p.id).isNone with
  | some p =>
      have hp : scope.address? p.id = none := by simpa using List.find?_some hf
      simp only [Emit.throw_eq_ok, false_iff, not_and]
      intro hall
      have hsome := hall p (List.mem_of_find?_eq_some hf)
      simp [hp] at hsome
  | none =>
      have hall : ∀ p ∈ x.freeParameters, (scope.address? p.id).isSome := by
        intro p hp
        have hne := List.find?_eq_none.mp hf p hp
        simpa [Option.isSome_iff_ne_none] using hne
      rw [Emit.map_eq_ok]
      constructor
      · rintro ⟨i, hi, rfl⟩
        cases hi
        exact ⟨hall, rfl, rfl⟩
      · rintro ⟨-, hi, rfl⟩
        exact ⟨_, hi, rfl⟩

/-- The emitter on a conversion. -/
theorem emit_conversion {x : Tree} {method : Option Method} {lifted : Bool}
    (hk : kind = .convert ∨ kind = .convertChecked) :
    emit cx scope kind ty (.unary x method lifted) = (do
      let operand ← x.emit cx scope
      match method with
      | some m => return .unary (.user m) lifted operand
      | none =>
        match Conversion.select? cx.schema (kind = .convertChecked) x.ty ty with
        | some c => return .unary (.convert c) false operand
        | none =>
            Emit.unsupported kind ("no conversion from " ++ x.ty.text ++ " to " ++ ty.text)) := by
  rcases hk with rfl | rfl <;> rfl

/-- The emitter on an operator with one operand. -/
theorem emit_operator {x : Tree} {method : Option Method} {lifted : Bool} (hq : kind ≠ .quote)
    (hc : ¬(kind = .convert ∨ kind = .convertChecked)) (ht : kind ≠ .typeAs)
    (hk : kind.isUnary = true) :
    emit cx scope kind ty (.unary x method lifted) = (match method with
      | some m => do return .unary (.user m) lifted (← x.emit cx scope)
      | none => do
          let op ← unaryOperator kind x.ty.nonNullable
          return .unary (.primitive op) lifted (← x.emit cx scope)) := by
  simp only [emit]
  -- every branch but the last is for a kind that is excluded here
  split <;> first | (exfalso; simp_all; done) | exact if_pos hk

theorem emit_unary_of_some {x : Tree} {method : Option Method} {lifted lift : Bool}
    {action : UnaryAction}
    (h : unaryAction? cx.schema kind ty x.ty method lifted = some (action, lift)) :
    emit cx scope kind ty (.unary x method lifted) s = .ok (c, s') ↔
      ∃ operand, x.emit cx scope s = .ok (operand, s') ∧ c = .unary action lift operand := by
  unfold unaryAction? at h
  by_cases hk : (kind = .quote || !kind.isUnary) = true
  · simp [hk] at h
  rw [if_neg hk] at h
  simp only [Bool.or_eq_true, decide_eq_true_eq, Bool.not_eq_eq_eq_not, Bool.not_true, not_or,
    Bool.not_eq_false] at hk
  -- from here on both sides branch on the kind in the same order: type tests, conversions,
  -- then operators
  by_cases ht : kind = .typeAs
  · subst ht
    simp only [↓reduceIte, Option.ite_none_right_eq_some, Option.some.injEq, Prod.mk.injEq] at h
    obtain ⟨hn, rfl, rfl⟩ := h
    simp only [emit, hn, ↓reduceIte]
    exact Emit.map_eq_ok
  rw [if_neg ht] at h
  by_cases hc : kind = .convert ∨ kind = .convertChecked
  · rw [emit_conversion hc]
    cases method with
    | some m =>
        simp only [Option.some.injEq, Prod.mk.injEq] at h
        obtain ⟨rfl, rfl⟩ := h
        exact Emit.map_eq_ok
    | none =>
        simp only [Bool.or_eq_true, decide_eq_true_eq, hc, ↓reduceIte, Option.map_eq_some_iff,
          Prod.mk.injEq] at h
        obtain ⟨d, hd, rfl, rfl⟩ := h
        simp only [hd]
        exact Emit.map_eq_ok
  · rw [emit_operator hk.1 hc ht hk.2]
    cases method with
    | some m =>
        simp only [Option.some.injEq, Prod.mk.injEq] at h
        obtain ⟨rfl, rfl⟩ := h
        exact Emit.map_eq_ok
    | none =>
        simp only [Bool.or_eq_true, decide_eq_true_eq, hc, ↓reduceIte, Option.map_eq_some_iff,
          Prod.mk.injEq] at h
        obtain ⟨op, hop, rfl, rfl⟩ := h
        simp only [unaryOperator, hop, pure_bind]
        exact Emit.map_eq_ok

/-- A node with one operand is refused if there is no action for it. -/
theorem emit_unary_of_none {x : Tree} {method : Option Method} {lifted : Bool} (hq : kind ≠ .quote)
    (h : unaryAction? cx.schema kind ty x.ty method lifted = none) :
    emit cx scope kind ty (.unary x method lifted) s ≠ .ok (c, s') := by
  unfold unaryAction? at h
  -- the emitter reports a node whose content does not belong to its kind before anything else
  by_cases hk : kind.isUnary = true
  case neg =>
    simp only [emit]
    split <;> first | (exfalso; simp_all [Kind.isUnary]; done) | skip
    rw [if_neg hk]
    exact Emit.mismatched_eq_ok.mp
  simp only [hq, hk, decide_false, Bool.not_true, Bool.or_self, Bool.false_eq_true,
    ↓reduceIte] at h
  by_cases ht : kind = .typeAs
  · subst ht
    simp only [↓reduceIte, ite_eq_right_iff, reduceCtorEq, imp_false] at h
    simp only [emit, h]
    exact Emit.unsupported_eq_ok.mp
  rw [if_neg ht] at h
  cases method with
  | some m => simp at h
  | none =>
      by_cases hc : kind = .convert ∨ kind = .convertChecked
      · simp only [Bool.or_eq_true, decide_eq_true_eq, hc, ↓reduceIte, Option.map_eq_none_iff] at h
        rw [emit_conversion hc]
        simp only [h, ne_eq, Emit.bind_eq_ok, Emit.unsupported_eq_ok, and_false, exists_false,
          not_false_eq_true]
      · simp only [Bool.or_eq_true, decide_eq_true_eq, hc, ↓reduceIte, Option.map_eq_none_iff] at h
        rw [emit_operator hq hc ht hk]
        simp only [unaryOperator, h, ne_eq, Emit.bind_eq_ok, Emit.unsupported_eq_ok, false_and,
          exists_false, not_false_eq_true]

/-- A node with one operand that is evaluated. -/
theorem emit_unary {x : Tree} {method : Option Method} {lifted : Bool} (hq : kind ≠ .quote) :
    emit cx scope kind ty (.unary x method lifted) s = .ok (c, s') ↔
      ∃ action lift operand,
        unaryAction? cx.schema kind ty x.ty method lifted = some (action, lift) ∧
        x.emit cx scope s = .ok (operand, s') ∧ c = .unary action lift operand := by
  cases h : unaryAction? cx.schema kind ty x.ty method lifted with
  | none => simp only [emit_unary_of_none hq h, reduceCtorEq, false_and, exists_false]
  | some a =>
      rw [emit_unary_of_some h]
      constructor
      · rintro ⟨o, ho, rfl⟩
        exact ⟨a.1, a.2, o, rfl, ho, rfl⟩
      · rintro ⟨_, _, o, heq, ho, rfl⟩
        cases heq
        exact ⟨o, ho, rfl⟩

/-! ### Two operands -/

/-- The emitter on a short-circuiting node. -/
theorem emit_logical {l r : Tree} {method : Option Method} {lifted toNull : Bool}
    {conversion : Option (Lambda Value)} (hk : kind = .andAlso ∨ kind = .orElse) :
    emit cx scope kind ty (.binary l r method lifted toNull conversion) = (match method with
      | none => do
          let left ← l.emit cx scope
          let right ← r.emit cx scope
          return .shortCircuit (kind = .orElse) lifted left right
      | some m => do
          let test ← truthTest cx.schema kind l.ty
          let left ← l.emit cx scope
          let right ← r.emit cx scope
          return .userShortCircuit test m lifted left right) := by
  rcases hk with rfl | rfl <;> rfl

/-- The emitter on an operator with two operands that are both evaluated. -/
theorem emit_strict {l r : Tree} {method : Option Method} {lifted toNull : Bool}
    {conversion : Option (Lambda Value)} (hc : kind ≠ .coalesce)
    (hl : ¬(kind = .andAlso ∨ kind = .orElse)) (hi : kind ≠ .arrayIndex)
    (hk : kind.isBinary = true) :
    emit cx scope kind ty (.binary l r method lifted toNull conversion) = (
      let onNull := if lifted then some (NullResult.ofKind kind ty) else none
      match method with
      | some m => do
          let left ← l.emit cx scope
          let right ← r.emit cx scope
          return .binary (.user m) onNull left right
      | none =>
          if lifted && (kind = .and || kind = .or) && l.ty.nonNullable.isBool then do
            let left ← l.emit cx scope
            let right ← r.emit cx scope
            return .kleene (kind = .and) left right
          else do
            let op ← binaryOperator kind l.ty.nonNullable
            let left ← l.emit cx scope
            let right ← r.emit cx scope
            return .binary (.primitive op) onNull left right) := by
  unfold emit
  -- every branch but the last is for a kind that is excluded here
  split <;> first | (exfalso; simp_all; done) | exact if_pos hk

end Payload

/-- The code of a node with two operands. -/
def BinaryForm.code (left right : Code) : BinaryForm → Code
  | .strict action onNull => .binary action onNull left right
  | .kleene conjunction => .kleene conjunction left right
  | .shortCircuit decisive lifted => .shortCircuit decisive lifted left right
  | .userShortCircuit test method lifted => .userShortCircuit test method lifted left right

namespace Payload

variable {cx : EmitContext} {scope : EmitScope} {kind : Kind} {ty : Ty} {s s' : EmitState}
  {c : Code} {l r : Tree} {method : Option Method} {lifted toNull : Bool}
  {conversion : Option (Lambda Value)}

theorem emit_binary_of_some {form : BinaryForm}
    (h : binaryForm? cx.schema kind ty l.ty method lifted = some form) :
    emit cx scope kind ty (.binary l r method lifted toNull conversion) s = .ok (c, s') ↔
      ∃ left s₁ right, l.emit cx scope s = .ok (left, s₁) ∧ r.emit cx scope s₁ = .ok (right, s') ∧
        c = form.code left right := by
  unfold binaryForm? at h
  by_cases hk : (kind = .coalesce || !kind.isBinary) = true
  · simp [hk] at h
  rw [if_neg hk] at h
  simp only [Bool.or_eq_true, decide_eq_true_eq, Bool.not_eq_eq_eq_not, Bool.not_true, not_or,
    Bool.not_eq_false] at hk
  -- as for one operand: indexing, logical operators, then operators that evaluate both sides
  by_cases hi : kind = .arrayIndex
  · subst hi
    simp only [↓reduceIte, Option.some.injEq] at h
    subst h
    exact Emit.map₂_eq_ok
  rw [if_neg hi] at h
  by_cases hl : kind = .andAlso ∨ kind = .orElse
  · rw [emit_logical hl]
    simp only [Bool.or_eq_true, decide_eq_true_eq, hl, ↓reduceIte] at h
    cases method with
    | none =>
        simp only [Option.some.injEq] at h
        subst h
        exact Emit.map₂_eq_ok
    | some m =>
        simp only [Option.map_eq_some_iff] at h
        obtain ⟨ops, hops, rfl⟩ := h
        simp only [truthTest, hops, pure_bind]
        exact Emit.map₂_eq_ok
  · rw [emit_strict hk.1 hl hi hk.2]
    simp only [Bool.or_eq_true, decide_eq_true_eq, hl, ↓reduceIte] at h
    cases method with
    | some m =>
        simp only [Option.some.injEq] at h
        subst h
        exact Emit.map₂_eq_ok
    | none =>
        simp only at h ⊢
        split at h
        case isTrue hkl =>
          simp only [Option.some.injEq] at h
          subst h
          rw [if_pos (by simpa using hkl)]
          exact Emit.map₂_eq_ok
        case isFalse hkl =>
          simp only [Option.map_eq_some_iff] at h
          obtain ⟨op, hop, rfl⟩ := h
          rw [if_neg (by simpa using hkl)]
          simp only [binaryOperator, hop, pure_bind]
          exact Emit.map₂_eq_ok

/-- A node with two operands is refused if there is no form for it. -/
theorem emit_binary_of_none (hc : kind ≠ .coalesce)
    (h : binaryForm? cx.schema kind ty l.ty method lifted = none) :
    emit cx scope kind ty (.binary l r method lifted toNull conversion) s ≠ .ok (c, s') := by
  unfold binaryForm? at h
  by_cases hk : kind.isBinary = true
  case neg =>
    unfold emit
    split <;> first | (exfalso; simp_all [Kind.isBinary]; done) | skip
    rw [if_neg hk]
    exact Emit.mismatched_eq_ok.mp
  simp only [hc, hk, decide_false, Bool.not_true, Bool.or_self, Bool.false_eq_true,
    ↓reduceIte] at h
  by_cases hi : kind = .arrayIndex
  · simp [hi] at h
  rw [if_neg hi] at h
  by_cases hl : kind = .andAlso ∨ kind = .orElse
  · simp only [Bool.or_eq_true, decide_eq_true_eq, hl, ↓reduceIte] at h
    rw [emit_logical hl]
    cases method with
    | none => simp at h
    | some m =>
        simp only [Option.map_eq_none_iff] at h
        simp only [truthTest, h, ne_eq, Emit.bind_eq_ok, Emit.throw_eq_ok, false_and, exists_false,
          not_false_eq_true]
  · simp only [Bool.or_eq_true, decide_eq_true_eq, hl, ↓reduceIte] at h
    rw [emit_strict hc hl hi hk]
    cases method with
    | some m => simp at h
    | none =>
        simp only at h ⊢
        split at h
        case isTrue => simp at h
        case isFalse hkl =>
          simp only [Option.map_eq_none_iff] at h
          rw [if_neg (by simpa using hkl)]
          simp only [binaryOperator, h, ne_eq, Emit.bind_eq_ok, Emit.unsupported_eq_ok, false_and,
            exists_false, not_false_eq_true]

/-- A node with two operands, coalescing apart. -/
theorem emit_binary (hc : kind ≠ .coalesce) :
    emit cx scope kind ty (.binary l r method lifted toNull conversion) s = .ok (c, s') ↔
      ∃ form left s₁ right, binaryForm? cx.schema kind ty l.ty method lifted = some form ∧
        l.emit cx scope s = .ok (left, s₁) ∧ r.emit cx scope s₁ = .ok (right, s') ∧
        c = form.code left right := by
  cases h : binaryForm? cx.schema kind ty l.ty method lifted with
  | none => simp [emit_binary_of_none hc h]
  | some form =>
      rw [emit_binary_of_some h]
      constructor
      · rintro ⟨left, s₁, right, hl, hr, rfl⟩
        exact ⟨form, left, s₁, right, rfl, hl, hr, rfl⟩
      · rintro ⟨_, left, s₁, right, heq, hl, hr, rfl⟩
        cases heq
        exact ⟨left, s₁, right, hl, hr, rfl⟩

theorem emit_coalesce :
    emit cx scope .coalesce ty (.binary l r method lifted toNull none) s = .ok (c, s') ↔
      ∃ left s₁ right, l.emit cx scope s = .ok (left, s₁) ∧ r.emit cx scope s₁ = .ok (right, s') ∧
        c = .coalesce left right :=
  Emit.map₂_eq_ok

theorem emit_coalesceWith {conv : Lambda Value} :
    emit cx scope .coalesce ty (.binary l r method lifted toNull (some conv)) s = .ok (c, s') ↔
      ∃ left s₁ right s₂ unit, l.emit cx scope s = .ok (left, s₁) ∧
        r.emit cx scope s₁ = .ok (right, s₂) ∧ conv.emit cx (some scope) s₂ = .ok (unit, s') ∧
        c = .coalesceWith unit left right := by
  have heq : emit cx scope .coalesce ty (.binary l r method lifted toNull (some conv)) = (do
      let left ← l.emit cx scope
      let right ← r.emit cx scope
      return .coalesceWith (← conv.emit cx (some scope)) left right) := rfl
  rw [heq, Emit.bind_eq_ok]
  simp only [Emit.map₂_eq_ok]
  constructor
  · rintro ⟨left, s₁, hl, right, s₂, unit, hr, hu, rfl⟩
    exact ⟨left, s₁, right, s₂, unit, hl, hr, hu, rfl⟩
  · rintro ⟨left, s₁, right, s₂, unit, hl, hr, hu, rfl⟩
    exact ⟨left, s₁, hl, right, s₂, unit, hr, hu, rfl⟩

/-! ### Other nodes

Their content has to belong to their kind. -/

theorem emit_constant {v : Value} :
    emit cx scope kind ty (.constant v) s = .ok (c, s') ↔
      kind = .constant ∧ emitConstant v s = .ok (c, s') := by
  simp only [emit]
  by_cases hk : kind = .constant
  · simp [hk]
  · simp [hk, Emit.mismatched_eq_ok]

theorem emit_conditional {t a b : Tree} :
    emit cx scope kind ty (.conditional t a b) s = .ok (c, s') ↔
      kind = .conditional ∧ ∃ test s₁ ifTrue s₂ ifFalse, t.emit cx scope s = .ok (test, s₁) ∧
        a.emit cx scope s₁ = .ok (ifTrue, s₂) ∧ b.emit cx scope s₂ = .ok (ifFalse, s') ∧
        c = .conditional test ifTrue ifFalse := by
  simp only [emit]
  by_cases hk : kind = .conditional
  · rw [if_pos hk, Emit.bind_eq_ok]
    simp only [Emit.map₂_eq_ok]
    constructor
    · rintro ⟨test, s₁, ht, ifTrue, s₂, ifFalse, ha, hb, rfl⟩
      exact ⟨hk, test, s₁, ifTrue, s₂, ifFalse, ht, ha, hb, rfl⟩
    · rintro ⟨-, test, s₁, ifTrue, s₂, ifFalse, ht, ha, hb, rfl⟩
      exact ⟨test, s₁, ht, ifTrue, s₂, ifFalse, ha, hb, rfl⟩
  · simp [hk, Emit.mismatched_eq_ok]

theorem emit_staticMember {target : Option Tree} {m : Member} (hm : m.isStatic = true) :
    emit cx scope kind ty (.memberAccess target m) s = .ok (c, s') ↔
      kind = .memberAccess ∧ s = s' ∧ c = .staticMember m := by
  cases target <;>
  · simp only [emit, hm, ↓reduceIte]
    by_cases hk : kind = .memberAccess
    · simp only [hk, ↓reduceIte, Emit.pure_eq_ok, Prod.mk.injEq, true_and]
      constructor <;> rintro ⟨rfl, rfl⟩ <;> exact ⟨rfl, rfl⟩
    · simp [hk, Emit.mismatched_eq_ok]

theorem emit_member {target : Option Tree} {m : Member} (hm : m.isStatic = false) :
    emit cx scope kind ty (.memberAccess target m) s = .ok (c, s') ↔
      kind = .memberAccess ∧ ∃ x this, target = some x ∧ x.emit cx scope s = .ok (this, s') ∧
        c = .member m this := by
  cases target with
  | none =>
      simp only [emit, hm, Bool.false_eq_true, ↓reduceIte, reduceCtorEq, false_and, exists_false,
        and_false, iff_false]
      split
      · exact Emit.unsupported_eq_ok.mp
      · exact Emit.mismatched_eq_ok.mp
  | some x =>
      simp only [emit, hm, Bool.false_eq_true, ↓reduceIte, Option.some.injEq]
      by_cases hk : kind = .memberAccess
      · rw [if_pos hk, Emit.map_eq_ok]
        constructor
        · rintro ⟨this, hx, rfl⟩
          exact ⟨hk, x, this, rfl, hx, rfl⟩
        · rintro ⟨-, _, this, rfl, hx, rfl⟩
          exact ⟨this, hx, rfl⟩
      · simp [hk, Emit.mismatched_eq_ok]

theorem emit_callStatic {target : Option Tree} {m : Method} {args : List Tree}
    (hm : m.isStatic = true) :
    emit cx scope kind ty (.call target m args) s = .ok (c, s') ↔
      kind = .call ∧ ∃ codes, Node.emitAll cx scope args s = .ok (codes, s') ∧
        c = .callStatic m codes := by
  cases target <;>
  · simp only [emit, hm, ↓reduceIte]
    by_cases hk : kind = .call
    · rw [if_pos hk, Emit.map_eq_ok]
      simp [hk]
    · simp [hk, Emit.mismatched_eq_ok]

theorem emit_callInstance {target : Option Tree} {m : Method} {args : List Tree}
    (hm : m.isStatic = false) :
    emit cx scope kind ty (.call target m args) s = .ok (c, s') ↔
      kind = .call ∧ ∃ x this s₁ codes, target = some x ∧ x.emit cx scope s = .ok (this, s₁) ∧
        Node.emitAll cx scope args s₁ = .ok (codes, s') ∧ c = .callInstance m this codes := by
  cases target with
  | none =>
      simp only [emit, hm, Bool.false_eq_true, ↓reduceIte, reduceCtorEq, false_and, exists_false,
        and_false, iff_false]
      split
      · exact Emit.unsupported_eq_ok.mp
      · exact Emit.mismatched_eq_ok.mp
  | some x =>
      simp only [emit, hm, Bool.false_eq_true, ↓reduceIte, Option.some.injEq]
      by_cases hk : kind = .call
      · rw [if_pos hk, Emit.map₂_eq_ok]
        constructor
        · rintro ⟨this, s₁, codes, hx, ha, rfl⟩
          exact ⟨hk, x, this, s₁, codes, rfl, hx, ha, rfl⟩
        · rintro ⟨-, _, this, s₁, codes, rfl, hx, ha, rfl⟩
          exact ⟨this, s₁, codes, hx, ha, rfl⟩
      · simp [hk, Emit.mismatched_eq_ok]

theorem emit_construct {constructor : Constructor} {args : List Tree} :
    emit cx scope kind ty (.new (some constructor) args) s = .ok (c, s') ↔
      kind = .new ∧ ∃ codes, Node.emitAll cx scope args s = .ok (codes, s') ∧
        c = .construct constructor codes := by
  simp only [emit]
  by_cases hk : kind = .new
  · rw [if_pos hk, Emit.map_eq_ok]
    simp [hk]
  · simp [hk, Emit.mismatched_eq_ok]

theorem emit_newDefault {args : List Tree} :
    emit cx scope kind ty (.new none args) s = .ok (c, s') ↔
      kind = .new ∧ emitDefault cx.schema ty s = .ok (c, s') := by
  simp only [emit]
  by_cases hk : kind = .new
  · simp [hk]
  · simp [hk, Emit.mismatched_eq_ok]

/-- An array is given by its elements, or by its length alone. -/
theorem emit_newArray {items : List Tree} :
    emit cx scope kind ty (.newArray items) s = .ok (c, s') ↔
      (kind = .newArrayInit ∧ ∃ codes, Node.emitAll cx scope items s = .ok (codes, s') ∧
        c = .newArray codes) ∨
      (kind = .newArrayBounds ∧ ∃ x e length, items = [x] ∧ ty.element? = some e ∧
        x.emit cx scope s = .ok (length, s') ∧ c = .newArrayOf e.default length) := by
  unfold emit
  split
  case h_1 =>
    rw [Emit.map_eq_ok]
    simp
  case h_2 =>
    simp only [reduceCtorEq, false_and, true_and, false_or]
    split
    case h_1 x =>
      cases ty.element? with
      | none => simp [Emit.unsupported_eq_ok]
      | some e =>
          rw [Emit.map_eq_ok]
          constructor
          · rintro ⟨length, hx, rfl⟩
            exact ⟨x, e, length, rfl, rfl, hx, rfl⟩
          · rintro ⟨_, _, length, hx', he, hx, rfl⟩
            cases hx'
            cases he
            exact ⟨length, hx, rfl⟩
    case h_2 hne =>
      -- bounds take one length; any other number of operands is refused
      simp only [Emit.unsupported_eq_ok, false_iff]
      rintro ⟨x, e, length, rfl, -⟩
      exact hne x rfl
  case h_3 hi hb =>
    simp only [Emit.mismatched_eq_ok, false_iff]
    rintro (⟨rfl, -⟩ | ⟨rfl, -⟩)
    · exact hi rfl
    · exact hb rfl

theorem emit_lambda {l : Lambda Value} :
    emit cx scope kind ty (.lambda l) s = .ok (c, s') ↔
      kind = .lambda ∧ ∃ unit, l.emit cx (some scope) s = .ok (unit, s') ∧ c = .closure unit := by
  simp only [emit]
  by_cases hk : kind = .lambda
  · rw [if_pos hk, Emit.map_eq_ok]
    simp [hk]
  · simp [hk, Emit.mismatched_eq_ok]

theorem emit_invoke {x : Tree} {args : List Tree} :
    emit cx scope kind ty (.invoke x args) s = .ok (c, s') ↔
      kind = .invoke ∧ ∃ callee s₁ codes, x.emit cx scope s = .ok (callee, s₁) ∧
        Node.emitAll cx scope args s₁ = .ok (codes, s') ∧ c = .invoke callee codes := by
  simp only [emit]
  by_cases hk : kind = .invoke
  · rw [if_pos hk, Emit.map₂_eq_ok]
    simp [hk]
  · simp [hk, Emit.mismatched_eq_ok]

theorem emit_typeIs {x : Tree} {t : Ty} :
    emit cx scope kind ty (.typeIs x t) s = .ok (c, s') ↔
      kind = .typeIs ∧ ∃ operand, x.emit cx scope s = .ok (operand, s') ∧
        c = .unary (.typeIs t) false operand := by
  simp only [emit]
  by_cases hk : kind = .typeIs
  · rw [if_pos hk, Emit.map_eq_ok]
    simp [hk]
  · simp [hk, Emit.mismatched_eq_ok]

theorem emit_assign {p : Parameter} {x : Tree} :
    emit cx scope kind ty (.assign p x) s = .ok (c, s') ↔
      kind = .assign ∧ ∃ value a, x.emit cx scope s = .ok (value, s') ∧
        scope.address? p.id = some a ∧ c = .store a value := by
  simp only [emit]
  by_cases hk : kind = .assign
  · rw [if_pos hk, Emit.map₂_eq_ok]
    simp only [EmitScope.resolve_eq_ok, Prod.mk.injEq]
    constructor
    · rintro ⟨value, s₁, _, hx, ⟨a, ha, rfl, rfl⟩, rfl⟩
      exact ⟨hk, value, a, hx, ha, rfl⟩
    · rintro ⟨-, value, a, hx, ha, rfl⟩
      exact ⟨value, s', a, hx, ⟨a, ha, rfl, rfl⟩, rfl⟩
  · simp [hk, Emit.mismatched_eq_ok]

theorem emit_block {items : List Tree} :
    emit cx scope kind ty (.block items) s = .ok (c, s') ↔
      kind = .block ∧ ∃ codes, Node.emitAll cx scope items s = .ok (codes, s') ∧
        c = .block codes := by
  simp only [emit]
  by_cases hk : kind = .block
  · rw [if_pos hk, Emit.map_eq_ok]
    simp [hk]
  · simp [hk, Emit.mismatched_eq_ok]

/-- The new value gets a slot of its own, after the slots that its own code uses. -/
theorem emit_listInit {x : Tree} {inits : List (ElementInit Value)} :
    emit cx scope kind ty (.listInit x inits) s = .ok (c, s') ↔
      kind = .listInit ∧ ∃ new s₁ steps, x.emit cx scope s = .ok (new, s₁) ∧
        ElementInit.emitAll cx scope s₁.slots inits { s₁ with slots := s₁.slots + 1 }
          = .ok (steps, s') ∧ c = .assemble s₁.slots new steps := by
  simp only [emit]
  by_cases hk : kind = .listInit
  · rw [if_pos hk, Emit.bind_eq_ok]
    simp only [Emit.temporary_bind, Emit.map_eq_ok]
    constructor
    · rintro ⟨new, s₁, hx, steps, hs, rfl⟩
      exact ⟨hk, new, s₁, steps, hx, hs, rfl⟩
    · rintro ⟨-, new, s₁, steps, hx, hs, rfl⟩
      exact ⟨new, s₁, hx, steps, hs, rfl⟩
  · simp [hk, Emit.mismatched_eq_ok]

theorem emit_memberInit {x : Tree} {bindings : List (MemberBinding Value)} :
    emit cx scope kind ty (.memberInit x bindings) s = .ok (c, s') ↔
      kind = .memberInit ∧ ∃ new s₁ steps, x.emit cx scope s = .ok (new, s₁) ∧
        MemberBinding.emitAll cx scope s₁.slots bindings { s₁ with slots := s₁.slots + 1 }
          = .ok (steps, s') ∧ c = .assemble s₁.slots new steps := by
  simp only [emit]
  by_cases hk : kind = .memberInit
  · rw [if_pos hk, Emit.bind_eq_ok]
    simp only [Emit.temporary_bind, Emit.map_eq_ok]
    constructor
    · rintro ⟨new, s₁, hx, steps, hs, rfl⟩
      exact ⟨hk, new, s₁, steps, hx, hs, rfl⟩
    · rintro ⟨-, new, s₁, steps, hx, hs, rfl⟩
      exact ⟨new, s₁, hx, steps, hs, rfl⟩
  · simp [hk, Emit.mismatched_eq_ok]

end Payload

/-- A constant is carried by the code, or pooled. -/
theorem emitConstant_eq_ok {v : Value} {s s' : EmitState} {c : Code} :
    emitConstant v s = .ok (c, s') ↔
      (v.isImmediate = true ∧ c = .immediate v ∧ s' = s) ∨
      (v.isImmediate = false ∧ c = .pooled s.pool.size ∧
        s' = { s with pool := (s.pool.alloc v).2 }) := by
  unfold emitConstant
  cases hv : v.isImmediate with
  | true =>
      simp only [↓reduceIte, Emit.pure_eq_ok, Prod.mk.injEq, true_and, Bool.true_eq_false,
        false_and, or_false]
      constructor <;> rintro ⟨rfl, rfl⟩ <;> exact ⟨rfl, rfl⟩
  | false =>
      simp only [Bool.false_eq_true, ↓reduceIte, false_and, false_or, true_and]
      rw [Emit.map_eq_ok]
      constructor
      · rintro ⟨_, hp, rfl⟩
        cases hp
        exact ⟨rfl, rfl⟩
      · rintro ⟨rfl, rfl⟩
        exact ⟨_, rfl, rfl⟩

theorem emitConstant_total (v : Value) (st : EmitState) : ∃ r, emitConstant v st = .ok r := by
  cases hv : v.isImmediate with
  | true => exact ⟨_, emitConstant_eq_ok.mpr (.inl ⟨hv, rfl, rfl⟩)⟩
  | false => exact ⟨_, emitConstant_eq_ok.mpr (.inr ⟨hv, rfl, rfl⟩)⟩

/-- A default value is made without changing the state. -/
theorem emitDefault_eq_ok {schema : Schema} {ty : Ty} {s s' : EmitState} {c : Code}
    (h : emitDefault schema ty s = .ok (c, s')) :
    s' = s ∧ (c = .immediate ty.default ∧ (∀ r, ty ≠ .record r) ∧ (∀ e, ty ≠ .list e) ∨
      (∃ r, ty = .record r ∧ c = .newInstance r (schema.defaults r)) ∨
      (∃ e, ty = .list e ∧ c = .newList)) := by
  unfold emitDefault at h
  split at h
  case h_1 r =>
    cases h
    exact ⟨rfl, .inr (.inl ⟨r, rfl, rfl⟩)⟩
  case h_2 e =>
    cases h
    exact ⟨rfl, .inr (.inr ⟨e, rfl, rfl⟩)⟩
  case h_3 hr hl =>
    split at h
    · cases h
      exact ⟨rfl, .inl ⟨rfl, fun r => hr r, fun e => hl e⟩⟩
    · exact (Emit.unsupported_eq_ok.mp h).elim

/-! ## Lists -/

section Lists

attribute [local simp] Node.emitAll ElementInit.emitAll MemberBinding.emitAll

variable {cx : EmitContext} {scope : EmitScope} {slot : Nat} {s s' : EmitState} {codes : List Code}

theorem Node.emitAll_nil : Node.emitAll cx scope [] s = .ok (codes, s') ↔ codes = [] ∧ s = s' := by
  simp only [Node.emitAll, Emit.pure_eq_ok, Prod.mk.injEq]
  constructor <;> rintro ⟨rfl, rfl⟩ <;> exact ⟨rfl, rfl⟩

theorem Node.emitAll_cons {n : Tree} {ns : List Tree} :
    Node.emitAll cx scope (n :: ns) s = .ok (codes, s') ↔
      ∃ code s₁ rest, n.emit cx scope s = .ok (code, s₁) ∧
        Node.emitAll cx scope ns s₁ = .ok (rest, s') ∧ codes = code :: rest := by
  simp only [Node.emitAll]
  exact Emit.map₂_eq_ok

theorem ElementInit.emitAll_nil :
    ElementInit.emitAll cx scope slot [] s = .ok (codes, s') ↔ codes = [] ∧ s = s' := by
  simp only [ElementInit.emitAll, Emit.pure_eq_ok, Prod.mk.injEq]
  constructor <;> rintro ⟨rfl, rfl⟩ <;> exact ⟨rfl, rfl⟩

theorem ElementInit.emitAll_cons {add : Method} {args : List Tree}
    {rest : List (ElementInit Value)} :
    ElementInit.emitAll cx scope slot (.mk add args :: rest) s = .ok (codes, s') ↔
      add.isStatic = false ∧ ∃ argCodes s₁ steps,
        Node.emitAll cx scope args s = .ok (argCodes, s₁) ∧
        ElementInit.emitAll cx scope slot rest s₁ = .ok (steps, s') ∧
        codes = .append slot add argCodes :: steps := by
  simp only [ElementInit.emitAll, checkInstance]
  cases hs : add.isStatic with
  | true => simp [Emit.bind_eq_ok, Emit.unsupported_eq_ok]
  | false =>
      simp only [Bool.false_eq_true, ↓reduceIte, pure_bind, true_and]
      exact Emit.map₂_eq_ok

theorem MemberBinding.emitAll_nil :
    MemberBinding.emitAll cx scope slot [] s = .ok (codes, s') ↔ codes = [] ∧ s = s' := by
  simp only [MemberBinding.emitAll, Emit.pure_eq_ok, Prod.mk.injEq]
  constructor <;> rintro ⟨rfl, rfl⟩ <;> exact ⟨rfl, rfl⟩

theorem MemberBinding.emitAll_assign {m : Member} {x : Tree} {rest : List (MemberBinding Value)}
    (h : MemberBinding.emitAll cx scope slot (.assign m x :: rest) s = .ok (codes, s')) :
    ∃ value s₁ steps, x.emit cx scope s = .ok (value, s₁) ∧
      MemberBinding.emitAll cx scope slot rest s₁ = .ok (steps, s') ∧
      codes = .setMember slot m value :: steps := by
  simp only [MemberBinding.emitAll] at h
  obtain ⟨_, s₀, hw, hr⟩ := Emit.bind_eq_ok.mp h
  have hs : s₀ = s := by
    unfold checkWritable at hw
    split at hw
    · exact (Emit.unsupported_eq_ok.mp hw).elim
    · cases hw
      rfl
  rw [hs] at hr
  exact Emit.map₂_eq_ok.mp hr

theorem MemberBinding.emitAll_bind {m : Member} {nested rest : List (MemberBinding Value)} :
    MemberBinding.emitAll cx scope slot (.bind m nested :: rest) s = .ok (codes, s') ↔
      ∃ inner s₁ steps,
        MemberBinding.emitAll cx scope s.slots nested { s with slots := s.slots + 1 }
          = .ok (inner, s₁) ∧
        MemberBinding.emitAll cx scope slot rest s₁ = .ok (steps, s') ∧
        codes = .descend slot m s.slots inner :: steps := by
  simp only [MemberBinding.emitAll]
  rw [Emit.temporary_bind, Emit.map₂_eq_ok]

theorem MemberBinding.emitAll_list {m : Member} {inits : List (ElementInit Value)}
    {rest : List (MemberBinding Value)} :
    MemberBinding.emitAll cx scope slot (.list m inits :: rest) s = .ok (codes, s') ↔
      ∃ inner s₁ steps,
        ElementInit.emitAll cx scope s.slots inits { s with slots := s.slots + 1 }
          = .ok (inner, s₁) ∧
        MemberBinding.emitAll cx scope slot rest s₁ = .ok (steps, s') ∧
        codes = .descend slot m s.slots inner :: steps := by
  simp only [MemberBinding.emitAll]
  rw [Emit.temporary_bind, Emit.map₂_eq_ok]

end Lists

/-! ## Lambdas -/

/-- What the code of a lambda can address, if its unit is `unit` and it stands directly inside the
lambda of `parent`. -/
def Lambda.emitScope (captures : Captures) (parent : Option EmitScope) (unit : Nat)
    (l : Lambda Value) : EmitScope where
  unit := unit
  arguments := l.params.map (·.id)
  hoisted := captures.idsOf l.id
  ancestors := match parent with
    | some p => p.hoisted :: p.ancestors
    | none => []

/-- The finished unit of a lambda with that code. -/
def Lambda.codeUnit (captures : Captures) (parent : Option Nat) (l : Lambda Value)
    (slotCount : Nat) (body : Code) : CodeUnit where
  name := l.name
  signature := l.signature
  hoisted := hoistedOf (l.params.map (·.id)) (captures.ofLambda l.id)
  parent := parent
  slotCount := slotCount
  body := body

/-- The state in which the body of a lambda is emitted, after the unit got its position. -/
def EmitState.enter (s : EmitState) (parent : Option Nat) (l : Lambda Value) : EmitState where
  units := (s.units.alloc ⟨l.name, l.signature, [], parent, l.params.length, .block []⟩).2
  pool := s.pool
  slots := l.params.length

/-- The state after the unit at a position is finished. -/
def EmitState.finish (s : EmitState) (outer : EmitState) (unit : CodeUnit) : EmitState where
  units := s.units.set outer.units.size unit
  pool := s.pool
  slots := outer.slots

/-- A unit takes the next position; its code has slots of its own. -/
theorem Lambda.emit_eq_ok {cx : EmitContext} {parent : Option EmitScope} {l : Lambda Value}
    {s s' : EmitState} {u : Nat} :
    l.emit cx parent s = .ok (u, s') ↔
      u = s.units.size ∧ ∃ code s₁,
        l.body.emit cx (l.emitScope cx.captures parent u) (s.enter (parent.map (·.unit)) l)
          = .ok (code, s₁) ∧
        s' = s₁.finish s (l.codeUnit cx.captures (parent.map (·.unit)) s₁.slots code) := by
  obtain ⟨id, name, params, body⟩ := l
  simp only [Lambda.emit, Emit.bind_eq_ok (f := fun _ => _ >>= _)]
  -- reserve a unit, take the slots over, emit the body, put the slots back, finish the unit
  constructor
  · rintro ⟨_, _, hr, _, _, hm, code, s₁, hb, _, _, hs, hf⟩
    cases hr
    cases hm
    cases hs
    cases hf
    exact ⟨rfl, code, s₁, hb, rfl⟩
  · rintro ⟨rfl, code, s₁, hb, rfl⟩
    exact ⟨_, _, rfl, _, _, rfl, code, s₁, hb, _, _, rfl, rfl⟩

/-- A node with a lambda in it is a lambda node, whatever its kind. -/
theorem Node.lambda?_eq_some {tree : Tree} {l : Lambda Value} (h : tree.lambda? = some l) :
    ∃ id kind ty, tree = .mk id kind ty (.lambda l) := by
  obtain ⟨id, kind, ty, payload⟩ := tree
  cases payload with
  | lambda l' => exact ⟨id, kind, ty, by rw [Option.some.inj h]⟩
  | _ => cases h

/-- A tree that compiles is a lambda. -/
theorem Program.ofLambda_of_compile {schema : Schema} {options : Options} {tree : Tree}
    {p : Program} (h : compile schema options tree = .ok p) :
    ∃ root, tree.lambda? = some root ∧ ofLambda schema options root = .ok p := by
  unfold compile at h
  cases hroot : tree.lambda? with
  | none =>
      rw [hroot] at h
      cases h
  | some root =>
      rw [hroot] at h
      exact ⟨root, rfl, h⟩

/-! ## What an emission leaves alone -/

/-- The elements of one table stay where they are in the other. -/
structure Arena.Extends {β : Type} (a b : Arena β) : Prop where
  size : a.size ≤ b.size
  get : ∀ i < a.size, b.get? i = a.get? i

namespace Arena.Extends

variable {β : Type} {a b c : Arena β}

theorem refl (a : Arena β) : a.Extends a := ⟨Nat.le_refl _, fun _ _ => rfl⟩

theorem trans (h : a.Extends b) (h' : b.Extends c) : a.Extends c :=
  ⟨Nat.le_trans h.size h'.size, fun i hi =>
    (h'.get i (Nat.lt_of_lt_of_le hi h.size)).trans (h.get i hi)⟩

theorem alloc (a : Arena β) (x : β) : a.Extends (a.alloc x).2 :=
  ⟨by simp, fun _ hi => get?_alloc_of_lt a x hi⟩

/-- A position that is new may still change. -/
theorem set (h : a.Extends b) {i : Nat} (hi : a.size ≤ i) (x : β) : a.Extends (b.set i x) := by
  refine ⟨by simpa using h.size, fun j hj => ?_⟩
  -- `j` is an old position and `i` is not
  rw [← h.get j hj]
  simp only [Arena.set, get?]
  exact Array.getElem?_setIfInBounds_ne (by omega)

theorem get?_some (h : a.Extends b) {i : Nat} {x : β} (hx : a.get? i = some x) :
    b.get? i = some x := by
  rw [h.get i ?_, hx]
  exact (Array.getElem?_eq_some_iff.mp hx).1

end Arena.Extends

/-- Units and constants that are there stay, and slots are not given back. -/
structure EmitState.Grows (s s' : EmitState) : Prop where
  units : s.units.Extends s'.units
  pool : s.pool.Extends s'.pool
  slots : s.slots ≤ s'.slots

namespace EmitState.Grows

variable {s s₁ s' : EmitState}

theorem refl (s : EmitState) : s.Grows s := ⟨.refl _, .refl _, Nat.le_refl _⟩

theorem trans (h : s.Grows s₁) (h' : s₁.Grows s') : s.Grows s' :=
  ⟨h.units.trans h'.units, h.pool.trans h'.pool, Nat.le_trans h.slots h'.slots⟩

theorem temporary (s : EmitState) : s.Grows { s with slots := s.slots + 1 } :=
  ⟨.refl _, .refl _, Nat.le_succ _⟩

theorem pool_alloc (s : EmitState) (v : Value) : s.Grows { s with pool := (s.pool.alloc v).2 } :=
  ⟨.refl _, .alloc _ _, Nat.le_refl _⟩

/-- From before a lambda to after it, if its body grows the state. -/
theorem finish {parent : Option Nat} {l : Lambda Value} (h : (s.enter parent l).Grows s₁)
    (unit : CodeUnit) : s.Grows (s₁.finish s unit) :=
  ⟨((Arena.Extends.alloc _ _).trans h.units).set (Nat.le_refl _) unit, h.pool, Nat.le_refl _⟩

end EmitState.Grows

section Growth

variable {cx : EmitContext}

mutual

theorem Node.emit_grows : (n : Tree) → {scope : EmitScope} → {c : Code} → {s s' : EmitState} →
    n.emit cx scope s = .ok (c, s') → s.Grows s'
  | .mk _ kind ty payload, _, _, _, _, h => Payload.emit_grows kind ty payload h

theorem Payload.emit_grows (kind : Kind) (ty : Ty) : (payload : Payload Value) →
    {scope : EmitScope} → {c : Code} → {s s' : EmitState} →
    payload.emit cx scope kind ty s = .ok (c, s') → s.Grows s'
  | .constant v, _, _, s, _, h => by
      rcases emitConstant_eq_ok.mp (Payload.emit_constant.mp h).2 with ⟨-, -, rfl⟩ | ⟨-, -, rfl⟩
      · exact .refl _
      · exact .pool_alloc s v
  | .parameter p, _, _, _, _, h => by
      obtain ⟨-, rfl, -⟩ := Payload.emit_parameter.mp h
      exact .refl _
  | .unary x method lifted, _, _, s, _, h => by
      by_cases hq : kind = .quote
      · subst hq
        obtain ⟨-, hp, -⟩ := Payload.emit_quote.mp h
        cases hp
        exact .pool_alloc s (.expression x)
      · obtain ⟨_, _, _, -, hx, -⟩ := (Payload.emit_unary hq).mp h
        exact Node.emit_grows x hx
  | .binary l r method lifted _ none, _, _, _, _, h => by
      by_cases hc : kind = .coalesce
      · subst hc
        obtain ⟨_, _, _, hl, hr, -⟩ := Payload.emit_coalesce.mp h
        exact (Node.emit_grows l hl).trans (Node.emit_grows r hr)
      · obtain ⟨_, _, _, _, -, hl, hr, -⟩ := (Payload.emit_binary hc).mp h
        exact (Node.emit_grows l hl).trans (Node.emit_grows r hr)
  | .binary l r method lifted _ (some conv), _, _, _, _, h => by
      by_cases hc : kind = .coalesce
      · subst hc
        obtain ⟨_, _, _, _, _, hl, hr, hc, -⟩ := Payload.emit_coalesceWith.mp h
        exact ((Node.emit_grows l hl).trans (Node.emit_grows r hr)).trans
          (Lambda.emit_grows conv hc)
      · obtain ⟨_, _, _, _, -, hl, hr, -⟩ := (Payload.emit_binary hc).mp h
        exact (Node.emit_grows l hl).trans (Node.emit_grows r hr)
  | .conditional t a b, _, _, _, _, h => by
      obtain ⟨-, _, _, _, _, _, ht, ha, hb, -⟩ := Payload.emit_conditional.mp h
      exact ((Node.emit_grows t ht).trans (Node.emit_grows a ha)).trans (Node.emit_grows b hb)
  | .memberAccess none m, _, _, _, _, h => by
      cases hm : m.isStatic with
      | true =>
          obtain ⟨-, rfl, -⟩ := (Payload.emit_staticMember hm).mp h
          exact .refl _
      | false =>
          obtain ⟨-, _, _, hx, -⟩ := (Payload.emit_member hm).mp h
          cases hx
  | .memberAccess (some x) m, _, _, _, _, h => by
      cases hm : m.isStatic with
      | true =>
          obtain ⟨-, rfl, -⟩ := (Payload.emit_staticMember hm).mp h
          exact .refl _
      | false =>
          obtain ⟨-, _, _, heq, hx, -⟩ := (Payload.emit_member hm).mp h
          cases heq
          exact Node.emit_grows x hx
  | .call none m args, _, _, _, _, h => by
      cases hm : m.isStatic with
      | true =>
          obtain ⟨-, _, ha, -⟩ := (Payload.emit_callStatic hm).mp h
          exact Node.emitAll_grows args ha
      | false =>
          obtain ⟨-, _, _, _, _, hx, -⟩ := (Payload.emit_callInstance hm).mp h
          cases hx
  | .call (some x) m args, _, _, _, _, h => by
      cases hm : m.isStatic with
      | true =>
          obtain ⟨-, _, ha, -⟩ := (Payload.emit_callStatic hm).mp h
          exact Node.emitAll_grows args ha
      | false =>
          obtain ⟨-, _, _, _, _, heq, hx, ha, -⟩ := (Payload.emit_callInstance hm).mp h
          cases heq
          exact (Node.emit_grows x hx).trans (Node.emitAll_grows args ha)
  | .new (some _) args, _, _, _, _, h => by
      obtain ⟨-, _, ha, -⟩ := Payload.emit_construct.mp h
      exact Node.emitAll_grows args ha
  | .new none _, _, _, _, _, h => by
      obtain ⟨rfl, -⟩ := emitDefault_eq_ok (Payload.emit_newDefault.mp h).2
      exact .refl _
  | .newArray items, _, _, _, _, h => by
      -- the length of an array is emitted like a list of one item
      rcases Payload.emit_newArray.mp h with ⟨-, _, hi, -⟩ | ⟨-, x, _, _, hi, -, hx, -⟩
      · exact Node.emitAll_grows items hi
      · exact Node.emitAll_grows items (hi ▸ Node.emitAll_cons.mpr
          ⟨_, _, _, hx, Node.emitAll_nil.mpr ⟨rfl, rfl⟩, rfl⟩)
  | .listInit x inits, _, _, _, _, h => by
      obtain ⟨-, _, s₁, _, hx, hs, -⟩ := Payload.emit_listInit.mp h
      exact ((Node.emit_grows x hx).trans (.temporary s₁)).trans
        (ElementInit.emitAll_grows inits hs)
  | .memberInit x bindings, _, _, _, _, h => by
      obtain ⟨-, _, s₁, _, hx, hs, -⟩ := Payload.emit_memberInit.mp h
      exact ((Node.emit_grows x hx).trans (.temporary s₁)).trans
        (MemberBinding.emitAll_grows bindings hs)
  | .lambda l, _, _, _, _, h => by
      obtain ⟨-, _, hl, -⟩ := Payload.emit_lambda.mp h
      exact Lambda.emit_grows l hl
  | .invoke x args, _, _, _, _, h => by
      obtain ⟨-, _, _, _, hx, ha, -⟩ := Payload.emit_invoke.mp h
      exact (Node.emit_grows x hx).trans (Node.emitAll_grows args ha)
  | .typeIs x _, _, _, _, _, h => by
      obtain ⟨-, _, hx, -⟩ := Payload.emit_typeIs.mp h
      exact Node.emit_grows x hx
  | .assign _ x, _, _, _, _, h => by
      obtain ⟨-, _, _, hx, -⟩ := Payload.emit_assign.mp h
      exact Node.emit_grows x hx
  | .block items, _, _, _, _, h => by
      obtain ⟨-, _, hi, -⟩ := Payload.emit_block.mp h
      exact Node.emitAll_grows items hi

theorem Lambda.emit_grows : (l : Lambda Value) → {parent : Option EmitScope} → {u : Nat} →
    {s s' : EmitState} → l.emit cx parent s = .ok (u, s') → s.Grows s'
  | .mk id name params body, _, _, _, _, h => by
      obtain ⟨-, _, _, hb, rfl⟩ := Lambda.emit_eq_ok.mp h
      exact .finish (Node.emit_grows body hb) _

theorem Node.emitAll_grows : (ns : List Tree) → {scope : EmitScope} → {cs : List Code} →
    {s s' : EmitState} → Node.emitAll cx scope ns s = .ok (cs, s') → s.Grows s'
  | [], _, _, _, _, h => by
      obtain ⟨-, rfl⟩ := Node.emitAll_nil.mp h
      exact .refl _
  | n :: ns, _, _, _, _, h => by
      obtain ⟨_, _, _, hn, hns, -⟩ := Node.emitAll_cons.mp h
      exact (Node.emit_grows n hn).trans (Node.emitAll_grows ns hns)

theorem ElementInit.emitAll_grows : (inits : List (ElementInit Value)) → {scope : EmitScope} →
    {slot : Nat} → {cs : List Code} → {s s' : EmitState} →
    ElementInit.emitAll cx scope slot inits s = .ok (cs, s') → s.Grows s'
  | [], _, _, _, _, _, h => by
      obtain ⟨-, rfl⟩ := ElementInit.emitAll_nil.mp h
      exact .refl _
  | .mk _ args :: rest, _, _, _, _, _, h => by
      obtain ⟨-, _, _, _, ha, hr, -⟩ := ElementInit.emitAll_cons.mp h
      exact (Node.emitAll_grows args ha).trans (ElementInit.emitAll_grows rest hr)

theorem MemberBinding.emitAll_grows : (bindings : List (MemberBinding Value)) →
    {scope : EmitScope} → {slot : Nat} → {cs : List Code} → {s s' : EmitState} →
    MemberBinding.emitAll cx scope slot bindings s = .ok (cs, s') → s.Grows s'
  | [], _, _, _, _, _, h => by
      obtain ⟨-, rfl⟩ := MemberBinding.emitAll_nil.mp h
      exact .refl _
  | .assign _ x :: rest, _, _, _, _, _, h => by
      obtain ⟨_, _, _, hx, hr, -⟩ := MemberBinding.emitAll_assign h
      exact (Node.emit_grows x hx).trans (MemberBinding.emitAll_grows rest hr)
  | .bind _ nested :: rest, _, _, _, s, _, h => by
      obtain ⟨_, _, _, hn, hr, -⟩ := MemberBinding.emitAll_bind.mp h
      exact ((EmitState.Grows.temporary s).trans (MemberBinding.emitAll_grows nested hn)).trans
        (MemberBinding.emitAll_grows rest hr)
  | .list _ inits :: rest, _, _, _, s, _, h => by
      obtain ⟨_, _, _, hn, hr, -⟩ := MemberBinding.emitAll_list.mp h
      exact ((EmitState.Grows.temporary s).trans (ElementInit.emitAll_grows inits hn)).trans
        (MemberBinding.emitAll_grows rest hr)

end

end Growth

/-! ## Where the results of an emission are -/

/-- The units that an emission from `s` to `s'` has added are units of the program, its constants
are constants of the program, and its slots are among the first `count`. -/
structure EmitState.Installed (p : Program) (count : Nat) (s s' : EmitState) : Prop where
  units : ∀ i, s.units.size ≤ i → i < s'.units.size → p.units.get? i = s'.units.get? i
  pool : s'.pool.Extends p.pool
  slots : s'.slots ≤ count

namespace EmitState.Installed

variable {p : Program} {count : Nat} {s s₁ s' : EmitState}

theorem left (h : Installed p count s s') (hg : s₁.Grows s') : Installed p count s s₁ :=
  ⟨fun i hi hi' => (h.units i hi (Nat.lt_of_lt_of_le hi' hg.units.size)).trans (hg.units.get i hi'),
    hg.pool.trans h.pool, Nat.le_trans hg.slots h.slots⟩

theorem right (h : Installed p count s s') (hg : s.Grows s₁) : Installed p count s₁ s' :=
  ⟨fun i hi hi' => h.units i (Nat.le_trans hg.units.size hi) hi', h.pool, h.slots⟩

/-- The finished unit of a lambda is where it was put. -/
theorem unit {parent : Option Nat} {l : Lambda Value} {unit : CodeUnit}
    (h : Installed p count s (s₁.finish s unit)) (hg : (s.enter parent l).Grows s₁) :
    p.units.get? s.units.size = some unit := by
  have hlt : s.units.size < s₁.units.size :=
    Nat.lt_of_lt_of_le (by simp [enter]) hg.units.size
  rw [h.units _ (Nat.le_refl _) (by simpa [finish] using hlt)]
  exact Array.getElem?_setIfInBounds_self_of_lt hlt

/-- The units inside a lambda are installed if the lambda is. -/
theorem body {parent : Option Nat} {l : Lambda Value} {unit : CodeUnit}
    (h : Installed p count s (s₁.finish s unit)) :
    Installed p s₁.slots (s.enter parent l) s₁ := by
  refine ⟨fun i hi hi' => ?_, h.pool, Nat.le_refl _⟩
  -- the unit of the lambda itself is the one that changed last, and it is not among these
  have hlt : s.units.size < i := by simpa [enter, Nat.succ_le_iff] using hi
  rw [h.units i (by omega) (by simpa [finish] using hi')]
  exact Array.getElem?_setIfInBounds_ne (by omega)

end EmitState.Installed

/-! ## Programs -/

section Programs

variable {schema : Schema} {options : Options} {root : Lambda Value}

/-- A program comes from an emission of the root lambda. -/
theorem Program.emit_of_ofLambda {p : Program}
    (h : Program.ofLambda schema options root = .ok p) :
    ∃ out, root.emit ⟨schema, root.captures⟩ none {} = .ok out := by
  unfold Program.ofLambda StateT.run at h
  cases hr : root.emit ⟨schema, root.captures⟩ none {} with
  | error e =>
      rw [hr] at h
      cases h
  | ok out => exact ⟨out, rfl⟩

theorem Program.ofLambda_of_emit {out : Nat × EmitState}
    (h : root.emit ⟨schema, root.captures⟩ none {} = .ok out) :
    Program.ofLambda schema options root = .ok ⟨out.2.units, out.2.pool, options⟩ := by
  unfold Program.ofLambda StateT.run
  rw [h]
  rfl

/-- What refuses a root lambda is the emission. -/
theorem Program.emit_error_of_ofLambda {e : CompileError}
    (h : Program.ofLambda schema options root = .error e) :
    root.emit ⟨schema, root.captures⟩ none {} = .error e := by
  unfold Program.ofLambda StateT.run at h
  cases hr : root.emit ⟨schema, root.captures⟩ none {} with
  | error e' =>
      rw [hr] at h
      cases h
      rfl
  | ok out =>
      rw [hr] at h
      cases h

end Programs

end ExprTree
