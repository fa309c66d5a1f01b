import ExprTree.Proofs.Scoping
import ExprTree.Proofs.Interleaving.Runs

set_option autoImplicit false

/-! # Self-contained trees

A tree that names no method, member or constructor, and whose constants refer to no list, instance
or function, is compiled to a self-contained program (`Program.selfContained_of_compile`).
-/

namespace ExprTree

/-! ## Constants of a tree -/

section Constants

variable {α : Type}

theorem constants_between {first last : Event α} (hf : first.constant? = none)
    (hl : last.constant? = none) (es : List (Event α)) :
    (first :: es ++ [last]).filterMap Event.constant? = es.filterMap Event.constant? := by
  simp [hf, hl]

mutual

/-- The leaves that are constants are the constants that a walk meets. -/
theorem Node.constants_leaves : (n : Node α) →
    n.leaves.filterMap Leaf.constant? = n.walk.filterMap Event.constant?
  | .mk id kind ty payload => by
      cases payload with
      | constant v => rfl
      | _ => exact Payload.constants_leaves kind _ nofun

theorem Payload.constants_leaves (kind : Kind) : (p : Payload α) → (∀ v, p ≠ .constant v) →
    (p.leaves kind).filterMap Leaf.constant? = (p.walk kind).filterMap Event.constant?
  | .constant v, h => absurd rfl (h v)
  | .parameter _, _ => rfl
  | .unary x _ _, _ => by
      simp only [Payload.leaves, Payload.walk, Node.constants_leaves x]
      split
      · exact (constants_between rfl rfl x.walk).symm
      · rfl
  | .binary l r _ _ _ none, _ => by
      simp [Payload.leaves, Payload.walk, Node.constants_leaves l, Node.constants_leaves r]
  | .binary l r _ _ _ (some c), _ => by
      simp only [Payload.leaves, Payload.walk]
      split <;> simp [Node.constants_leaves l, Node.constants_leaves r, Lambda.constants_leaves c]
  | .conditional t a b, _ => by
      simp [Payload.leaves, Payload.walk, Node.constants_leaves t, Node.constants_leaves a,
        Node.constants_leaves b]
  | .memberAccess none _, _ => rfl
  | .memberAccess (some x) _, _ => by
      simp only [Payload.leaves, Payload.walk]
      split <;> simp [Node.constants_leaves x]
  | .call none _ args, _ => Node.constants_leavesAll args
  | .call (some x) _ args, _ => by
      simp only [Payload.leaves, Payload.walk]
      split <;> simp [Node.constants_leaves x, Node.constants_leavesAll args]
  | .new none args, _ => by
      simp [Payload.leaves, Payload.walk, Node.constants_leavesAll args]
  | .new (some _) args, _ => Node.constants_leavesAll args
  | .newArray items, _ => Node.constants_leavesAll items
  | .listInit x inits, _ => by
      simp [Payload.leaves, Payload.walk, Node.constants_leaves x,
        ElementInit.constants_leavesAll inits]
  | .memberInit x bindings, _ => by
      simp [Payload.leaves, Payload.walk, Node.constants_leaves x,
        MemberBinding.constants_leavesAll bindings]
  | .lambda l, _ => Lambda.constants_leaves l
  | .invoke x args, _ => by
      simp [Payload.leaves, Payload.walk, Node.constants_leaves x, Node.constants_leavesAll args]
  | .typeIs x _, _ => Node.constants_leaves x
  | .assign _ x, _ => Node.constants_leaves x
  | .block items, _ => Node.constants_leavesAll items

theorem Lambda.constants_leaves : (l : Lambda α) →
    l.leaves.filterMap Leaf.constant? = l.walk.filterMap Event.constant?
  | .mk _ _ params body => by
      rw [Lambda.walk, constants_between rfl rfl, ← Node.constants_leaves body]
      simp [Lambda.leaves]

theorem Node.constants_leavesAll : (ns : List (Node α)) →
    (Node.leavesAll ns).filterMap Leaf.constant? = (Node.walkAll ns).filterMap Event.constant?
  | [] => rfl
  | n :: ns => by
      simp [Node.leavesAll, Node.walkAll, Node.constants_leaves n, Node.constants_leavesAll ns]

theorem ElementInit.constants_leavesAll : (inits : List (ElementInit α)) →
    (ElementInit.leavesAll inits).filterMap Leaf.constant?
      = (ElementInit.walkAll inits).filterMap Event.constant?
  | [] => rfl
  | .mk _ args :: rest => by
      simp [ElementInit.leavesAll, ElementInit.walkAll, Node.constants_leavesAll args,
        ElementInit.constants_leavesAll rest]

theorem MemberBinding.constants_leavesAll : (bindings : List (MemberBinding α)) →
    (MemberBinding.leavesAll bindings).filterMap Leaf.constant?
      = (MemberBinding.walkAll bindings).filterMap Event.constant?
  | [] => rfl
  | .assign _ x :: rest => by
      simp [MemberBinding.leavesAll, MemberBinding.walkAll, Node.constants_leaves x,
        MemberBinding.constants_leavesAll rest]
  | .bind _ nested :: rest => by
      simp [MemberBinding.leavesAll, MemberBinding.walkAll,
        MemberBinding.constants_leavesAll nested, MemberBinding.constants_leavesAll rest]
  | .list _ inits :: rest => by
      simp [MemberBinding.leavesAll, MemberBinding.walkAll, ElementInit.constants_leavesAll inits,
        MemberBinding.constants_leavesAll rest]

end

end Constants

/-! ## Trees -/

/-- The content names a method, a member or a constructor. -/
def Payload.isForeign {α : Type} : Payload α → Bool
  | .unary _ method _ => method.isSome
  | .binary _ _ method _ _ _ => method.isSome
  | .memberAccess .. | .call .. => true
  | .new constructor _ => constructor.isSome
  | .listInit _ inits => !inits.isEmpty
  | .memberInit _ bindings => !bindings.isEmpty
  | _ => false

/-- A node is met that names a method, a member or a constructor. -/
def Event.isForeign {α : Type} : Event α → Bool
  | .node n => n.payload.isForeign
  | _ => false

/-- The part of a tree with these events names no method, member or constructor. Its constants refer
to no list, instance or function, and all identities in it are below `n`. -/
structure SelfContainedEvents (n : Nat) (es : List (Event Value)) : Prop where
  native : ∀ e ∈ es, e.isForeign = false
  constants : ∀ e ∈ es, ∀ v, e.constant? = some v → v.Grounded n
  below : ∀ i, Occurs es i → i < n

namespace SelfContainedEvents

variable {n : Nat} {es es' : List (Event Value)}

theorem mono (h : SelfContainedEvents n es) (hsub : es' ⊆ es) : SelfContainedEvents n es' where
  native e he := h.native e (hsub he)
  constants e he := h.constants e (hsub he)
  below i := fun ⟨e, he, hi⟩ => h.below i ⟨e, hsub he, hi⟩

/-- If all constants are scalars, the rest can be checked by computation. -/
theorem ofScalars (hnative : es.any (·.isForeign) = false)
    (hconstants : (es.filterMap Event.constant?).all (·.isScalar) = true)
    (hbelow : (es.filterMap Event.identity?).all (· < n) = true) : SelfContainedEvents n es where
  native e he := Bool.eq_false_iff.mpr (List.any_eq_false.mp hnative e he)
  constants e he v hv :=
    .scalar (List.all_eq_true.mp hconstants v (List.mem_filterMap.mpr ⟨e, he, hv⟩))
  below := by
    rintro i ⟨e, he, hi⟩
    have hlt := List.all_eq_true.mp hbelow i (List.mem_filterMap.mpr ⟨e, he, hi⟩)
    exact of_decide_eq_true hlt

/-- A part of such a tree can be a constant itself. -/
theorem grounded {t : Tree} (h : SelfContainedEvents n t.walk) :
    (Value.expression t).Grounded n := by
  refine .expression h.below fun v hv => ?_
  rw [Node.constants, Node.constants_leaves] at hv
  obtain ⟨e, he, hev⟩ := List.mem_filterMap.mp hv
  exact h.constants e he v hev

end SelfContainedEvents

/-! ## Emission -/

theorem Value.isScalar_of_isImmediate {v : Value} (h : v.isImmediate = true) :
    v.isScalar = true := by
  cases v with
  | array | list | object | function | expression => cases h
  | _ => rfl

theorem BinaryForm.code_isSelfContained {form : BinaryForm} (h : form.isPrimitive = true)
    {left right : Code} (hl : left.isSelfContained = true) (hr : right.isSelfContained = true) :
    (form.code left right).isSelfContained = true := by
  cases form with
  | strict action onNull =>
      have haction : action.isPrimitive = true := h
      simp [BinaryForm.code, Code.isSelfContained, haction, hl, hr]
  | kleene | shortCircuit => simp [BinaryForm.code, Code.isSelfContained, hl, hr]
  | userShortCircuit => cases h

/-- All code and constants so far are self-contained. -/
structure EmitState.SelfContained (n : Nat) (s : EmitState) : Prop where
  units : ∀ i u, s.units.get? i = some u → u.body.isSelfContained = true
  pool : ∀ i v, s.pool.get? i = some v → v.Grounded n

namespace EmitState.SelfContained

variable {n : Nat} {s : EmitState}

theorem empty (n : Nat) : EmitState.SelfContained n {} := ⟨nofun, nofun⟩

theorem pool_alloc (h : s.SelfContained n) {v : Value} (hv : v.Grounded n) :
    EmitState.SelfContained n { s with pool := (s.pool.alloc v).2 } := by
  refine ⟨h.units, fun i x hx => ?_⟩
  simp only [Arena.alloc, Arena.get?, Array.getElem?_push] at hx
  split at hx
  · cases hx
    exact hv
  · exact h.pool i x hx

/-- The unit of a lambda is empty until it is finished. -/
theorem enter (h : s.SelfContained n) (parent : Option Nat) (l : Lambda Value) :
    (s.enter parent l).SelfContained n := by
  refine ⟨fun i u hu => ?_, h.pool⟩
  simp only [EmitState.enter, Arena.alloc, Arena.get?, Array.getElem?_push] at hu
  split at hu
  · cases hu
    rfl
  · exact h.units i u hu

theorem finish (h : s.SelfContained n) (outer : EmitState) {unit : CodeUnit}
    (hunit : unit.body.isSelfContained = true) : (s.finish outer unit).SelfContained n := by
  refine ⟨fun i u hu => ?_, h.pool⟩
  simp only [EmitState.finish, Arena.set, Arena.get?, Array.getElem?_setIfInBounds] at hu
  split at hu
  · split at hu
    · cases hu
      exact hunit
    · cases hu
  · exact h.units i u hu

end EmitState.SelfContained

section Emission

variable {cx : EmitContext} {n : Nat}

mutual

theorem Node.emit_selfContained : (t : Tree) → SelfContainedEvents n t.walk →
    {scope : EmitScope} → {c : Code} → {s s' : EmitState} → t.emit cx scope s = .ok (c, s') →
    s.SelfContained n → c.isSelfContained = true ∧ s'.SelfContained n
  | .mk id kind ty payload, ht, _, _, _, _, h, hs => by
      have hpayload : ∀ v, payload = .constant v → v.Grounded n := by
        rintro v rfl
        exact ht.constants _ List.mem_cons_self v rfl
      exact Payload.emit_selfContained kind ty payload (ht.native _ List.mem_cons_self) hpayload
        (ht.mono (List.subset_cons_self _ _)) h hs

theorem Payload.emit_selfContained (kind : Kind) (ty : Ty) : (payload : Payload Value) →
    payload.isForeign = false → (∀ v, payload = .constant v → v.Grounded n) →
    SelfContainedEvents n (payload.walk kind) →
    {scope : EmitScope} → {c : Code} → {s s' : EmitState} →
    payload.emit cx scope kind ty s = .ok (c, s') →
    s.SelfContained n → c.isSelfContained = true ∧ s'.SelfContained n
  | .constant v, _, hv, _, _, _, _, _, h, hs => by
      rcases emitConstant_eq_ok.mp (Payload.emit_constant.mp h).2 with
        ⟨himm, rfl, rfl⟩ | ⟨-, rfl, rfl⟩
      · exact ⟨Value.isScalar_of_isImmediate himm, hs⟩
      · exact ⟨rfl, hs.pool_alloc (hv v rfl)⟩
  | .parameter _, _, _, _, _, _, _, _, h, hs => by
      obtain ⟨-, rfl, _, -, rfl⟩ := Payload.emit_parameter.mp h
      exact ⟨rfl, hs⟩
  | .unary x (some _) _, hforeign, _, _, _, _, _, _, _, _ => by cases hforeign
  | .unary x none lifted, _, _, ht, _, _, _, _, h, hs => by
      have hx := ht.mono (Payload.walk_unary_subset (List.Subset.refl _))
      by_cases hq : kind = .quote
      · subst hq
        obtain ⟨-, hpool, rfl⟩ := Payload.emit_quote.mp h
        cases hpool
        exact ⟨rfl, hs.pool_alloc hx.grounded⟩
      · obtain ⟨action, lift, operand, haction, hemit, rfl⟩ := (Payload.emit_unary hq).mp h
        obtain ⟨hoperand, hs'⟩ := Node.emit_selfContained x hx hemit hs
        have hprimitive := unaryAction?_isPrimitive haction
        exact ⟨by simp [Code.isSelfContained, hprimitive, hoperand], hs'⟩
  | .binary _ _ (some _) _ _ _, hforeign, _, _, _, _, _, _, _, _ => by cases hforeign
  | .binary l r none lifted _ none, _, _, ht, _, _, _, _, h, hs => by
      have hl := ht.mono (List.subset_append_left l.walk r.walk)
      have hr := ht.mono (List.subset_append_right l.walk r.walk)
      by_cases hc : kind = .coalesce
      · subst hc
        obtain ⟨left, s₁, right, hemit, hemit', rfl⟩ := Payload.emit_coalesce.mp h
        obtain ⟨hleft, hs₁⟩ := Node.emit_selfContained l hl hemit hs
        obtain ⟨hright, hs'⟩ := Node.emit_selfContained r hr hemit' hs₁
        exact ⟨by simp [Code.isSelfContained, hleft, hright], hs'⟩
      · obtain ⟨form, left, s₁, right, hform, hemit, hemit', rfl⟩ := (Payload.emit_binary hc).mp h
        obtain ⟨hleft, hs₁⟩ := Node.emit_selfContained l hl hemit hs
        obtain ⟨hright, hs'⟩ := Node.emit_selfContained r hr hemit' hs₁
        exact ⟨BinaryForm.code_isSelfContained (binaryForm?_isPrimitive hform) hleft hright, hs'⟩
  | .binary l r none lifted _ (some conv), _, _, ht, _, _, _, _, h, hs => by
      have hl := ht.mono (List.subset_append_left l.walk (r.walk ++ conv.walk))
      have hrest := ht.mono (List.subset_append_right l.walk (r.walk ++ conv.walk))
      have hr := hrest.mono (List.subset_append_left r.walk conv.walk)
      by_cases hc : kind = .coalesce
      · subst hc
        obtain ⟨left, s₁, right, s₂, unit, hemit, hemit', hconv, rfl⟩ :=
          Payload.emit_coalesceWith.mp h
        obtain ⟨hleft, hs₁⟩ := Node.emit_selfContained l hl hemit hs
        obtain ⟨hright, hs₂⟩ := Node.emit_selfContained r hr hemit' hs₁
        have hs' := Lambda.emit_selfContained conv
          (hrest.mono (List.subset_append_right r.walk conv.walk)) hconv hs₂
        exact ⟨by simp [Code.isSelfContained, hleft, hright], hs'⟩
      · obtain ⟨form, left, s₁, right, hform, hemit, hemit', rfl⟩ := (Payload.emit_binary hc).mp h
        obtain ⟨hleft, hs₁⟩ := Node.emit_selfContained l hl hemit hs
        obtain ⟨hright, hs'⟩ := Node.emit_selfContained r hr hemit' hs₁
        exact ⟨BinaryForm.code_isSelfContained (binaryForm?_isPrimitive hform) hleft hright, hs'⟩
  | .conditional t a b, _, _, ht, _, _, _, _, h, hs => by
      have htest := ht.mono (List.subset_append_left t.walk (a.walk ++ b.walk))
      have hrest := ht.mono (List.subset_append_right t.walk (a.walk ++ b.walk))
      obtain ⟨-, _, s₁, _, s₂, _, hemit, hemit₁, hemit₂, rfl⟩ := Payload.emit_conditional.mp h
      obtain ⟨hcode, hs₁⟩ := Node.emit_selfContained t htest hemit hs
      obtain ⟨hcode₁, hs₂⟩ := Node.emit_selfContained a
        (hrest.mono (List.subset_append_left a.walk b.walk)) hemit₁ hs₁
      obtain ⟨hcode₂, hs'⟩ := Node.emit_selfContained b
        (hrest.mono (List.subset_append_right a.walk b.walk)) hemit₂ hs₂
      exact ⟨by simp [Code.isSelfContained, hcode, hcode₁, hcode₂], hs'⟩
  | .memberAccess .., hforeign, _, _, _, _, _, _, _, _ => by cases hforeign
  | .call .., hforeign, _, _, _, _, _, _, _, _ => by cases hforeign
  | .new (some _) _, hforeign, _, _, _, _, _, _, _, _ => by cases hforeign
  | .new none _, _, _, _, _, _, _, _, h, hs => by
      obtain ⟨rfl, hcode⟩ := emitDefault_eq_ok (Payload.emit_newDefault.mp h).2
      refine ⟨?_, hs⟩
      rcases hcode with ⟨rfl, -⟩ | ⟨r, -, rfl⟩ | ⟨_, -, rfl⟩
      · exact Ty.default_isScalar ty
      · refine List.all_eq_true.mpr fun v hv => ?_
        obtain ⟨field, -, rfl⟩ := List.mem_map.mp hv
        exact Ty.default_isScalar field.ty
      · rfl
  | .newArray items, _, _, ht, _, _, _, _, h, hs => by
      rcases Payload.emit_newArray.mp h with
        ⟨-, codes, hemit, rfl⟩ | ⟨-, x, e, length, hitems, -, hemit, rfl⟩
      · exact Node.emitAll_selfContained items ht hemit hs
      · -- the length of an array is emitted like a list of one item
        have hall := Node.emitAll_cons.mpr
          ⟨_, _, _, hemit, Node.emitAll_nil.mpr ⟨rfl, rfl⟩, rfl⟩
        obtain ⟨hcodes, hs'⟩ := Node.emitAll_selfContained items ht (hitems ▸ hall) hs
        have hlength : length.isSelfContained = true := by
          simpa [Code.areSelfContained] using hcodes
        exact ⟨by simp [Code.isSelfContained, Ty.default_isScalar, hlength], hs'⟩
  | .listInit _ (_ :: _), hforeign, _, _, _, _, _, _, _, _ => by cases hforeign
  | .listInit x [], _, _, ht, _, _, _, _, h, hs => by
      have hx := ht.mono (List.subset_append_left x.walk _)
      obtain ⟨-, new, s₁, steps, hemit, hsteps, rfl⟩ := Payload.emit_listInit.mp h
      obtain ⟨rfl, rfl⟩ := ElementInit.emitAll_nil.mp hsteps
      obtain ⟨hnew, hs₁⟩ := Node.emit_selfContained x hx hemit hs
      exact ⟨by simp [Code.isSelfContained, Code.areSelfContained, hnew], hs₁.units, hs₁.pool⟩
  | .memberInit _ (_ :: _), hforeign, _, _, _, _, _, _, _, _ => by cases hforeign
  | .memberInit x [], _, _, ht, _, _, _, _, h, hs => by
      have hx := ht.mono (List.subset_append_left x.walk _)
      obtain ⟨-, new, s₁, steps, hemit, hsteps, rfl⟩ := Payload.emit_memberInit.mp h
      obtain ⟨rfl, rfl⟩ := MemberBinding.emitAll_nil.mp hsteps
      obtain ⟨hnew, hs₁⟩ := Node.emit_selfContained x hx hemit hs
      exact ⟨by simp [Code.isSelfContained, Code.areSelfContained, hnew], hs₁.units, hs₁.pool⟩
  | .lambda l, _, _, ht, _, _, _, _, h, hs => by
      obtain ⟨-, unit, hemit, rfl⟩ := Payload.emit_lambda.mp h
      exact ⟨rfl, Lambda.emit_selfContained l ht hemit hs⟩
  | .invoke x args, _, _, ht, _, _, _, _, h, hs => by
      obtain ⟨-, callee, s₁, codes, hemit, hemit', rfl⟩ := Payload.emit_invoke.mp h
      obtain ⟨hcallee, hs₁⟩ := Node.emit_selfContained x
        (ht.mono (List.subset_append_left x.walk (Node.walkAll args))) hemit hs
      obtain ⟨hcodes, hs'⟩ := Node.emitAll_selfContained args
        (ht.mono (List.subset_append_right x.walk (Node.walkAll args))) hemit' hs₁
      exact ⟨by simp [Code.isSelfContained, hcallee, hcodes], hs'⟩
  | .typeIs x _, _, _, ht, _, _, _, _, h, hs => by
      obtain ⟨-, operand, hemit, rfl⟩ := Payload.emit_typeIs.mp h
      obtain ⟨hoperand, hs'⟩ := Node.emit_selfContained x ht hemit hs
      exact ⟨by simp [Code.isSelfContained, UnaryAction.isPrimitive, hoperand], hs'⟩
  | .assign _ x, _, _, ht, _, _, _, _, h, hs => by
      obtain ⟨-, value, a, hemit, -, rfl⟩ := Payload.emit_assign.mp h
      have hx : SelfContainedEvents n x.walk := ht.mono (List.subset_cons_self _ _)
      obtain ⟨hvalue, hs'⟩ := Node.emit_selfContained x hx hemit hs
      exact ⟨hvalue, hs'⟩
  | .block items, _, _, ht, _, _, _, _, h, hs => by
      obtain ⟨-, codes, hemit, rfl⟩ := Payload.emit_block.mp h
      exact Node.emitAll_selfContained items ht hemit hs

theorem Lambda.emit_selfContained : (l : Lambda Value) → SelfContainedEvents n l.walk →
    {parent : Option EmitScope} → {u : Nat} → {s s' : EmitState} →
    l.emit cx parent s = .ok (u, s') → s.SelfContained n → s'.SelfContained n
  | .mk id name params body, ht, parent, _, s, _, h, hs => by
      have hbody : SelfContainedEvents n body.walk := ht.mono fun e he =>
        List.mem_cons_of_mem _ (List.mem_append_left _ he)
      obtain ⟨-, code, s₁, hemit, rfl⟩ := Lambda.emit_eq_ok.mp h
      obtain ⟨hcode, hs₁⟩ := Node.emit_selfContained body hbody hemit (hs.enter _ _)
      exact hs₁.finish s hcode

theorem Node.emitAll_selfContained : (ts : List Tree) → SelfContainedEvents n (Node.walkAll ts) →
    {scope : EmitScope} → {cs : List Code} → {s s' : EmitState} →
    Node.emitAll cx scope ts s = .ok (cs, s') → s.SelfContained n →
    Code.areSelfContained cs = true ∧ s'.SelfContained n
  | [], _, _, _, _, _, h, hs => by
      obtain ⟨rfl, rfl⟩ := Node.emitAll_nil.mp h
      exact ⟨rfl, hs⟩
  | t :: ts, ht, _, _, _, _, h, hs => by
      obtain ⟨code, s₁, codes, hemit, hemit', rfl⟩ := Node.emitAll_cons.mp h
      obtain ⟨hcode, hs₁⟩ := Node.emit_selfContained t
        (ht.mono (List.subset_append_left t.walk (Node.walkAll ts))) hemit hs
      obtain ⟨hcodes, hs'⟩ := Node.emitAll_selfContained ts
        (ht.mono (List.subset_append_right t.walk (Node.walkAll ts))) hemit' hs₁
      exact ⟨by simp [Code.areSelfContained, hcode, hcodes], hs'⟩

end

end Emission

/-- **A self-contained tree compiles to a self-contained program.** -/
theorem Program.selfContained_of_compile {schema : Schema} {options : Options} {tree : Tree}
    {p : Program} {n : Nat} (h : Program.compile schema options tree = .ok p)
    (ht : SelfContainedEvents n tree.walk) : p.SelfContained n := by
  unfold Program.compile at h
  cases hl : tree.lambda? with
  | none =>
      rw [hl] at h
      cases h
  | some l =>
      rw [hl] at h
      obtain ⟨id, kind, ty, rfl⟩ := Node.lambda?_eq_some hl
      have hwalk : SelfContainedEvents n l.walk := ht.mono (List.subset_cons_self _ _)
      obtain ⟨⟨unit, s⟩, hemit⟩ := Program.emit_of_ofLambda h
      have hs := Lambda.emit_selfContained l hwalk hemit (.empty n)
      simp only [Program.ofLambda, StateT.run, hemit] at h
      cases h
      exact ⟨hs.units, hs.pool⟩

end ExprTree
