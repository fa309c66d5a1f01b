import ExprTree.Proofs.Captures.Exact
import ExprTree.Proofs.WellFormed

set_option autoImplicit false

/-! # Compiling after a substitution

A substitution puts constants where parameters were read and leaves the rest of a tree as it is, so
what compiled before compiles afterwards. The emitter meets the same lambdas in the same order and
gives them the same units; a lambda may need fewer cells, because some of the uses from further
inside are gone (`compile_substitute`).

Two inductions over trees carry this. `Node.occurrences_rebuild` compares the uses of parameters
before and after, and `Node.emit_rebuild` lets the emitter run over both trees side by side.
-/

namespace ExprTree

/-! ## Uses that are left -/

/-- The parameters that the surroundings declare. -/
def Enclosure.params : Enclosure → List Parameter
  | .lambda _ params => params
  | .quote => []

theorem Enclosure.declaring?_eq_none {e : Enclosure} {p : Parameter} :
    e.declaring? p = none ↔ e.params.any (·.id == p.id) = false := by
  cases e with
  | quote => simp [declaring?, params]
  | lambda id ps => cases h : ps.any (·.id == p.id) <;> simp [declaring?, params, h]

namespace Occurrence

/-- A use up to the numbers of the lambdas around it. -/
def shape (o : Occurrence) : Parameter × List (List Parameter) :=
  (o.parameter, o.within.map (·.params))

theorem escapes_iff {o : Occurrence} :
    o.Escapes ↔ o.shape.2 ≠ [] ∧ ∀ ps ∈ o.shape.2, ps.any (·.id == o.shape.1.id) = false := by
  simp [Escapes, shape, Enclosure.declaring?_eq_none]

/-- Of these uses, some are left. -/
def Fewer (os' os : List Occurrence) : Prop := (os'.map shape).Sublist (os.map shape)

namespace Fewer

variable {os os₁ os' os₁' : List Occurrence}

theorem refl (os : List Occurrence) : Fewer os os := List.Sublist.refl _

theorem nil (os : List Occurrence) : Fewer [] os := List.nil_sublist _

theorem append (h : Fewer os' os) (h₁ : Fewer os₁' os₁) : Fewer (os' ++ os₁') (os ++ os₁) := by
  unfold Fewer
  rw [List.map_append, List.map_append]
  exact List.Sublist.append h h₁

/-- In another lambda with the same parameters, or in a quote. -/
theorem under (h : Fewer os' os) {e e' : Enclosure} (he : e'.params = e.params) :
    Fewer (os'.map (Occurrence.under [e'])) (os.map (Occurrence.under [e])) := by
  have hshape : ∀ (e : Enclosure) (os : List Occurrence), (os.map (Occurrence.under [e])).map shape
      = (os.map shape).map fun x => (x.1, x.2 ++ [e.params]) := fun e os => by
    simp [Function.comp_def, shape, Occurrence.under]
  unfold Fewer
  rw [hshape, hshape, he]
  exact List.Sublist.map _ h

/-- A use that is left escapes if it did before. -/
theorem escapes (h : Fewer os' os) {o' : Occurrence} (ho' : o' ∈ os') (hesc : o'.Escapes) :
    ∃ o ∈ os, o.parameter = o'.parameter ∧ o.Escapes := by
  obtain ⟨o, ho, hshape⟩ := List.mem_map.mp (h.subset (List.mem_map_of_mem ho'))
  refine ⟨o, ho, congrArg Prod.fst hshape, ?_⟩
  rw [escapes_iff, hshape, ← escapes_iff]
  exact hesc

end Fewer

end Occurrence

open Occurrence (Fewer)

section Uses

variable {α : Type} (σ : Substitution α)

mutual

theorem Node.occurrences_rebuild : (n : Node α) → (k : Nat) →
    Fewer (n.rebuild σ k).1.occurrences n.occurrences
  | .mk id kind ty payload, k => by
      have ih := Payload.occurrences_rebuild kind payload
      cases payload with
      | constant v => exact .refl _
      | parameter p =>
          simp only [Node.rebuild]
          cases hv : σ.lookup p.id with
          | some v => exact .nil _
          | none => exact .refl _
      | binary l r m lifted toNull conversion => cases conversion <;> exact ih k
      | memberAccess target m => cases target <;> exact ih k
      | call target m args => cases target <;> exact ih k
      | _ => exact ih k

theorem Payload.occurrences_rebuild (kind : Kind) : (p : Payload α) → (k : Nat) →
    Fewer ((p.rebuild σ k).1.occurrences kind) (p.occurrences kind)
  | .constant _, _ => .refl _
  | .parameter _, _ => .refl _
  | .unary x m lifted, k => by
      have hx := x.occurrences_rebuild k
      show Fewer (Payload.occurrences kind (.unary (x.rebuild σ k).1 m lifted)) _
      rw [Payload.occurrences, Payload.occurrences]
      split
      · exact hx.under rfl
      · exact hx
  | .binary l r _ _ _ none, k =>
      (l.occurrences_rebuild k).append (r.occurrences_rebuild _)
  | .binary l r _ _ _ (some c), k =>
      (l.occurrences_rebuild k).append
        ((r.occurrences_rebuild _).append (c.occurrences_rebuild _))
  | .conditional t a b, k =>
      (t.occurrences_rebuild k).append
        ((a.occurrences_rebuild _).append (b.occurrences_rebuild _))
  | .memberAccess none _, _ => .refl _
  | .memberAccess (some x) _, k => x.occurrences_rebuild k
  | .call none _ args, k => Node.occurrences_rebuildAll args k
  | .call (some x) _ args, k =>
      (x.occurrences_rebuild k).append (Node.occurrences_rebuildAll args _)
  | .new _ args, k => Node.occurrences_rebuildAll args k
  | .newArray items, k => Node.occurrences_rebuildAll items k
  | .listInit x inits, k =>
      (x.occurrences_rebuild k).append (ElementInit.occurrences_rebuildAll inits _)
  | .memberInit x bindings, k =>
      (x.occurrences_rebuild k).append (MemberBinding.occurrences_rebuildAll bindings _)
  | .lambda l, k => l.occurrences_rebuild k
  | .invoke x args, k =>
      (x.occurrences_rebuild k).append (Node.occurrences_rebuildAll args _)
  | .typeIs x _, k => x.occurrences_rebuild k
  | .assign p x, k => (Fewer.refl [⟨p, []⟩]).append (x.occurrences_rebuild k)
  | .block items, k => Node.occurrences_rebuildAll items k

theorem Lambda.occurrences_rebuild : (l : Lambda α) → (k : Nat) →
    Fewer (l.rebuild σ k).1.occurrences l.occurrences
  | .mk _ _ _ body, k => (body.occurrences_rebuild k).under rfl

theorem Node.occurrences_rebuildAll : (ns : List (Node α)) → (k : Nat) →
    Fewer (Node.occurrencesAll (Node.rebuildAll σ ns k).1) (Node.occurrencesAll ns)
  | [], _ => .refl _
  | n :: ns, k => (n.occurrences_rebuild k).append (Node.occurrences_rebuildAll ns _)

theorem ElementInit.occurrences_rebuildAll : (inits : List (ElementInit α)) → (k : Nat) →
    Fewer (ElementInit.occurrencesAll (ElementInit.rebuildAll σ inits k).1)
      (ElementInit.occurrencesAll inits)
  | [], _ => .refl _
  | .mk _ args :: rest, k =>
      (Node.occurrences_rebuildAll args k).append (ElementInit.occurrences_rebuildAll rest _)

theorem MemberBinding.occurrences_rebuildAll : (bs : List (MemberBinding α)) → (k : Nat) →
    Fewer (MemberBinding.occurrencesAll (MemberBinding.rebuildAll σ bs k).1)
      (MemberBinding.occurrencesAll bs)
  | [], _ => .refl _
  | .assign _ x :: rest, k =>
      (x.occurrences_rebuild k).append (MemberBinding.occurrences_rebuildAll rest _)
  | .bind _ nested :: rest, k =>
      (MemberBinding.occurrences_rebuildAll nested k).append
        (MemberBinding.occurrences_rebuildAll rest _)
  | .list _ inits :: rest, k =>
      (ElementInit.occurrences_rebuildAll inits k).append
        (MemberBinding.occurrences_rebuildAll rest _)

end

end Uses

/-! ## Matching units -/

/-- The second unit has the place and the signature of the first, and keeps no other parameters in
cells. -/
structure CodeUnit.Narrows (u u' : CodeUnit) : Prop where
  parent : u'.parent = u.parent
  signature : u'.signature = u.signature
  hoisted : u'.hoisted.map (·.parameter.id) ⊆ u.hoisted.map (·.parameter.id)

/-- Two tables have matching units at the same positions. -/
structure Arena.Narrows (a a' : Arena CodeUnit) : Prop where
  size : a'.size = a.size
  units : ∀ i u, a.get? i = some u → ∃ u', a'.get? i = some u' ∧ u.Narrows u'

namespace Arena.Narrows

variable {a a' : Arena CodeUnit} {u u' : CodeUnit}

theorem refl (a : Arena CodeUnit) : a.Narrows a :=
  ⟨rfl, fun _ u hu => ⟨u, hu, rfl, rfl, List.Subset.refl _⟩⟩

theorem alloc (h : a.Narrows a') (hu : u.Narrows u') :
    (a.alloc u).2.Narrows (a'.alloc u').2 := by
  refine ⟨by simp [h.size], fun i v hv => ?_⟩
  simp only [Arena.alloc, get?, Array.getElem?_push] at hv ⊢
  have hsize : a'.items.size = a.items.size := h.size
  rw [hsize]
  split at hv
  case isTrue hi =>
    cases hv
    exact ⟨u', by rw [if_pos hi], hu⟩
  case isFalse hi =>
    obtain ⟨v', hv', hn⟩ := h.units i v hv
    exact ⟨v', by rwa [if_neg hi], hn⟩

theorem set (h : a.Narrows a') (hu : u.Narrows u') (j : Nat) :
    (a.set j u).Narrows (a'.set j u') := by
  refine ⟨by simp [h.size], fun i v hv => ?_⟩
  have hsize : a'.items.size = a.items.size := h.size
  simp only [Arena.set, get?, Array.getElem?_setIfInBounds, hsize] at hv ⊢
  split at hv
  case isTrue hi =>
    split at hv
    case isTrue hj =>
      cases hv
      exact ⟨u', by rw [if_pos hi, if_pos hj], hu⟩
    case isFalse => cases hv
  case isFalse hi =>
    obtain ⟨v', hv', hn⟩ := h.units i v hv
    exact ⟨v', by rwa [if_neg hi], hn⟩

end Arena.Narrows

/-! ## Steps side by side

One emitter runs over the old tree and one over the new tree. Their codes differ, and so do the
pooled constants, but nothing that the emitter does depends on either. -/

/-- Where the step `x` succeeds the step `y` does, and leaves matching units behind. -/
structure Retraces {β γ : Type} (x : Emit β) (y : Emit γ) : Prop where
  run : ∀ {s t s' : EmitState} {a : β}, s.units.Narrows s'.units → x s = .ok (a, t) →
    ∃ b t', y s' = .ok (b, t') ∧ t.units.Narrows t'.units

namespace Retraces

variable {β γ δ ε : Type} {x : Emit β} {y : Emit γ}

theorem pure (a : β) (b : γ) : Retraces (Pure.pure a : Emit β) (Pure.pure b : Emit γ) := by
  refine ⟨fun {s t s' c} hn h => ?_⟩
  obtain ⟨rfl, rfl⟩ := Prod.mk.inj (Emit.pure_eq_ok.mp h)
  exact ⟨b, s', rfl, hn⟩

/-- A step that fails. -/
theorem refuse (e : CompileError) (y : Emit γ) : Retraces (throw e : Emit β) y :=
  ⟨fun _ h => (Emit.throw_eq_ok.mp h).elim⟩

theorem bind {f : β → Emit δ} {g : γ → Emit ε} (h : Retraces x y)
    (hf : ∀ a b, Retraces (f a) (g b)) : Retraces (x >>= f) (y >>= g) := by
  refine ⟨fun hn hx => ?_⟩
  obtain ⟨a, s₁, ha, hr⟩ := Emit.bind_eq_ok.mp hx
  obtain ⟨b, s₁', hb, hn₁⟩ := h.run hn ha
  obtain ⟨d, t', hd, hn'⟩ := (hf a b).run hn₁ hr
  exact ⟨d, t', Emit.bind_eq_ok.mpr ⟨b, s₁', hb, hd⟩, hn'⟩

theorem map {f : β → δ} {g : γ → ε} (h : Retraces x y) :
    Retraces (do return f (← x) : Emit δ) (do return g (← y) : Emit ε) :=
  h.bind fun _ _ => .pure _ _

theorem map₂ {β' γ' : Type} {x' : Emit β'} {y' : Emit γ'} {f : β → β' → δ} {g : γ → γ' → ε}
    (h : Retraces x y) (h' : Retraces x' y') :
    Retraces (do
      let a ← x
      let b ← x'
      return f a b : Emit δ) (do
      let a ← y
      let b ← y'
      return g a b : Emit ε) := h.bind fun _ _ => h'.map

theorem ite {c : Prop} [Decidable c] {x' : Emit β} {y' : Emit γ} (h : c → Retraces x y)
    (h' : ¬c → Retraces x' y') : Retraces (if c then x else x') (if c then y else y') := by
  by_cases hc : c
  · rw [if_pos hc, if_pos hc]
    exact h hc
  · rw [if_neg hc, if_neg hc]
    exact h' hc

/-- A node whose content does not belong to its kind is refused. -/
theorem ofKind {c : Prop} [Decidable c] {kind : Kind} (h : c → Retraces x y) :
    Retraces (if c then x else Emit.mismatched kind) (if c then y else Emit.mismatched kind) :=
  .ite h fun _ => .refuse _ _

theorem temporary : Retraces Emit.temporary Emit.temporary := by
  refine ⟨fun hn h => ?_⟩
  cases h
  exact ⟨_, _, rfl, hn⟩

/-- A step that leaves the units alone, followed by a constant. -/
theorem constant (hx : ∀ {s t a}, x s = .ok (a, t) → t.units = s.units) (v : Value) :
    Retraces x (emitConstant v) := by
  refine ⟨fun {s t s' a} hn h => ?_⟩
  obtain ⟨⟨c', t'⟩, h'⟩ := emitConstant_total v s'
  refine ⟨c', t', h', ?_⟩
  rw [hx h]
  rcases emitConstant_eq_ok.mp h' with ⟨-, -, rfl⟩ | ⟨-, -, rfl⟩ <;> exact hn

theorem emitDefault {schema schema' : Schema} (h : schema' = schema) (ty : Ty) :
    Retraces (emitDefault schema ty) (emitDefault schema' ty) := by
  subst h
  unfold ExprTree.emitDefault
  split
  · exact .pure _ _
  · exact .pure _ _
  · exact .ite (fun _ => .pure _ _) fun _ => .refuse _ _

theorem checkWritable (m : Member) : Retraces (checkWritable m) (checkWritable m) := by
  unfold ExprTree.checkWritable
  split
  · exact .refuse _ _
  · exact .pure _ _

theorem checkInstance (m : Method) : Retraces (checkInstance m) (checkInstance m) := by
  unfold ExprTree.checkInstance
  exact .ite (fun _ => .refuse _ _) fun _ => .pure _ _

/-- A parameter that has an address keeps one. -/
theorem resolve {scope scope' : EmitScope} {p : Parameter}
    (h : (scope.address? p.id).isSome = true → (scope'.address? p.id).isSome = true) :
    Retraces (liftM (scope.resolve p) : Emit Address)
      (liftM (scope'.resolve p) : Emit Address) := by
  refine ⟨fun {s t s' a} hn hx => ?_⟩
  obtain ⟨_, ha, heq⟩ := EmitScope.resolve_eq_ok.mp hx
  cases heq
  obtain ⟨a', ha'⟩ := Option.isSome_iff_exists.mp (h (by simp [ha]))
  exact ⟨a', s', EmitScope.resolve_eq_ok.mpr ⟨a', ha', rfl⟩, hn⟩

end Retraces

/-! ## Nodes side by side -/

namespace Payload

variable {cx cx' : EmitContext} {scope scope' : EmitScope} {kind : Kind} {ty : Ty}
  {x x' y y' z z' : Tree}

/-- A read of a parameter may give way to a constant. -/
theorem retraces_constant {id id' : Nat} {p : Parameter} {v : Value} :
    Retraces ((Node.mk id kind ty (.parameter p)).emit cx scope)
      ((Node.constant id' v ty).emit cx' scope') := by
  refine .constant (fun h => ?_) v
  rw [Node.emit] at h
  obtain ⟨-, rfl, -⟩ := emit_parameter.mp h
  rfl

theorem retraces_quote {method : Option Method} {lifted : Bool}
    (h : (∀ p ∈ x.freeParameters, (scope.address? p.id).isSome) →
      ∀ p ∈ x'.freeParameters, (scope'.address? p.id).isSome) :
    Retraces (emit cx scope .quote ty (.unary x method lifted))
      (emit cx' scope' .quote ty (.unary x' method lifted)) := by
  refine ⟨fun {s t s' c} hn hx => ?_⟩
  obtain ⟨hfree, hp, -⟩ := emit_quote.mp hx
  cases hp
  exact ⟨_, _, emit_quote.mpr ⟨h hfree, rfl, rfl⟩, hn⟩

theorem retraces_unary (hs : cx'.schema = cx.schema) {method : Option Method} {lifted : Bool}
    (hq : kind ≠ .quote) (hty : x'.ty = x.ty)
    (hx : Retraces (x.emit cx scope) (x'.emit cx' scope')) :
    Retraces (emit cx scope kind ty (.unary x method lifted))
      (emit cx' scope' kind ty (.unary x' method lifted)) := by
  refine ⟨fun hn h => ?_⟩
  obtain ⟨action, lift, _, haction, hx₁, -⟩ := (emit_unary hq).mp h
  obtain ⟨operand, t', hx₁', hn'⟩ := hx.run hn hx₁
  rw [← hs, ← hty] at haction
  exact ⟨_, t', (emit_unary hq).mpr ⟨action, lift, operand, haction, hx₁', rfl⟩, hn'⟩

theorem retraces_binary (hs : cx'.schema = cx.schema) {method : Option Method}
    {lifted toNull : Bool} {c c' : Option (Lambda Value)} (hc : kind ≠ .coalesce)
    (hty : x'.ty = x.ty) (hx : Retraces (x.emit cx scope) (x'.emit cx' scope'))
    (hy : Retraces (y.emit cx scope) (y'.emit cx' scope')) :
    Retraces (emit cx scope kind ty (.binary x y method lifted toNull c))
      (emit cx' scope' kind ty (.binary x' y' method lifted toNull c')) := by
  refine ⟨fun hn h => ?_⟩
  obtain ⟨form, _, _, _, hform, hx₁, hy₁, -⟩ := (emit_binary hc).mp h
  obtain ⟨left, t₁, hx₁', hn₁⟩ := hx.run hn hx₁
  obtain ⟨right, t', hy₁', hn'⟩ := hy.run hn₁ hy₁
  rw [← hs, ← hty] at hform
  exact ⟨_, t', (emit_binary hc).mpr ⟨form, left, t₁, right, hform, hx₁', hy₁', rfl⟩, hn'⟩

/-- An array keeps its number of operands. -/
theorem retraces_newArray {items items' : List Tree} (hlen : items'.length = items.length)
    (h : Retraces (Node.emitAll cx scope items) (Node.emitAll cx' scope' items')) :
    Retraces (emit cx scope kind ty (.newArray items))
      (emit cx' scope' kind ty (.newArray items')) := by
  refine ⟨fun hn hx => ?_⟩
  rcases emit_newArray.mp hx with ⟨hk, codes, hc, -⟩ | ⟨hk, x, e, length, rfl, he, hl, -⟩
  · obtain ⟨codes', t', hc', hn'⟩ := h.run hn hc
    exact ⟨_, t', emit_newArray.mpr (.inl ⟨hk, codes', hc', rfl⟩), hn'⟩
  · obtain ⟨x', rfl⟩ := List.length_eq_one_iff.mp hlen
    have hall := Node.emitAll_cons.mpr ⟨length, _, [], hl, Node.emitAll_nil.mpr ⟨rfl, rfl⟩, rfl⟩
    obtain ⟨_, t', hc', hn'⟩ := h.run hn hall
    obtain ⟨length', t₁, _, hl', hnil, -⟩ := Node.emitAll_cons.mp hc'
    obtain ⟨-, rfl⟩ := Node.emitAll_nil.mp hnil
    exact ⟨_, t₁, emit_newArray.mpr (.inr ⟨hk, x', e, length', rfl, he, hl', rfl⟩), hn'⟩

end Payload

/-- A lambda is emitted again, if its body is and it needs no other cells. -/
theorem Lambda.retraces {cx cx' : EmitContext} {parent parent' : Option EmitScope}
    {l l' : Lambda Value} (hparent : parent'.map (·.unit) = parent.map (·.unit))
    (hsig : l'.signature = l.signature)
    (hcells : (hoistedOf (l'.params.map (·.id)) (cx'.captures.ofLambda l'.id)).map (·.parameter.id)
      ⊆ (hoistedOf (l.params.map (·.id)) (cx.captures.ofLambda l.id)).map (·.parameter.id))
    (hbody : ∀ unit, Retraces (l.body.emit cx (l.emitScope cx.captures parent unit))
      (l'.body.emit cx' (l'.emitScope cx'.captures parent' unit))) :
    Retraces (l.emit cx parent) (l'.emit cx' parent') := by
  refine ⟨fun {s t s' u} hn h => ?_⟩
  obtain ⟨rfl, code, s₁, hb, rfl⟩ := Lambda.emit_eq_ok.mp h
  have henter : (s.enter (parent.map (·.unit)) l).units.Narrows
      (s'.enter (parent'.map (·.unit)) l').units :=
    hn.alloc ⟨hparent, hsig, List.Subset.refl _⟩
  obtain ⟨code', s₁', hb', hn'⟩ := (hbody _).run henter hb
  have hunit : s.units.size = s'.units.size := hn.size.symm
  rw [hunit] at hb'
  refine ⟨_, _, Lambda.emit_eq_ok.mpr ⟨rfl, code', s₁', hb', rfl⟩, ?_⟩
  simp only [EmitState.finish, hunit]
  exact hn'.set ⟨hparent, hsig, hcells⟩ _

/-! ## Trees side by side -/

/-- A substitution leaves the targets, and the reads of parameters that it does not map. -/
theorem Leaf.replace_eq_use {α : Type} {σ : Substitution α} {x : Leaf α} {u : Use} :
    x.replace σ = .use u ↔
      x = .use u ∧ (u.isTarget = true ∨ σ.lookup u.parameter.id = none) := by
  cases x with
  | constant v => simp [Leaf.replace]
  | use v =>
      simp only [Leaf.replace]
      split
      case isTrue ht =>
        rw [Leaf.use.injEq, iff_self_and]
        rintro rfl
        exact .inl ht
      case isFalse ht =>
        cases hv : σ.lookup v.parameter.id with
        | none =>
            rw [Leaf.use.injEq, iff_self_and]
            rintro rfl
            exact .inr hv
        | some w =>
            constructor
            · intro h
              cases h
            · rintro ⟨heq, h⟩
              cases heq
              rw [hv] at h
              rcases h with h | h
              · exact absurd h ht
              · cases h

/-- A place in a root lambda, and the corresponding place in a root lambda that was made from it. -/
structure Beside (C C' : Compilation) (chain chain' : List (Lambda Value))
    (es es' : List (Event Value)) : Prop where
  schema : C'.schema = C.schema
  identified : Identified C.root.walk
  identified' : Identified C'.root.walk
  inside : Inside C.root chain es
  inside' : Inside C'.root chain' es'
  params : chain'.map (·.params) = chain.map (·.params)

theorem declared_iff {chain : List (Lambda Value)} {p : Nat} :
    Declared chain p ↔ ∃ ps ∈ chain.map (·.params), ps.any (·.id == p) = true := by
  simp only [Declared, List.mem_map, exists_exists_and_eq_and]
  rfl

namespace Beside

variable {C C' : Compilation} {chain chain' : List (Lambda Value)}
  {es es' fs fs' : List (Event Value)}

theorem left (h : Beside C C' chain chain' (es ++ fs) (es' ++ fs')) (hb : Balanced es)
    (hb' : Balanced es') : Beside C C' chain chain' es es' :=
  { h with inside := h.inside.left hb, inside' := h.inside'.left hb' }

theorem right (h : Beside C C' chain chain' (es ++ fs) (es' ++ fs')) (hb : Balanced es)
    (hb' : Balanced es') : Beside C C' chain chain' fs fs' :=
  { h with inside := h.inside.right hb, inside' := h.inside'.right hb' }

theorem first {x x' : Tree} (h : Beside C C' chain chain' (x.walk ++ fs) (x'.walk ++ fs')) :
    Beside C C' chain chain' x.walk x'.walk := h.left x.walk_balanced x'.walk_balanced

theorem rest {x x' : Tree} (h : Beside C C' chain chain' (x.walk ++ fs) (x'.walk ++ fs')) :
    Beside C C' chain chain' fs fs' := h.right x.walk_balanced x'.walk_balanced

theorem payload {id id' : Nat} {kind : Kind} {ty : Ty} {p p' : Payload Value}
    (h : Beside C C' chain chain' (Node.mk id kind ty p).walk (Node.mk id' kind ty p').walk) :
    Beside C C' chain chain' (p.walk kind) (p'.walk kind) :=
  { h with inside := h.inside.payload, inside' := h.inside'.payload }

theorem operand {kind : Kind} {x x' : Tree} {method : Option Method} {lifted : Bool}
    (h : Beside C C' chain chain' (Payload.walk kind (.unary x method lifted))
      (Payload.walk kind (.unary x' method lifted))) (hq : kind ≠ .quote) :
    Beside C C' chain chain' x.walk x'.walk := by
  simpa only [Payload.walk, if_neg hq] using h

theorem body {l l' : Lambda Value} (h : Beside C C' chain chain' l.walk l'.walk)
    (hp : l'.params = l.params) :
    Beside C C' (l :: chain) (l' :: chain') l.body.walk l'.body.walk :=
  { h with
    inside := h.inside.body
    inside' := h.inside'.body
    params := by rw [List.map_cons, List.map_cons, hp, h.params] }

theorem declared (h : Beside C C' chain chain' es es') {p : Nat} (hd : Declared chain p) :
    Declared chain' p := by
  rw [declared_iff, h.params, ← declared_iff]
  exact hd

variable {l l' : Lambda Value} {outer outer' : List (Lambda Value)} {unit : Nat}

/-- A parameter that is used in both places. -/
theorem address?_mention {p : Parameter}
    (h : Beside C C' (l :: outer) (l' :: outer') (.mention p :: es) (.mention p :: es'))
    (ha : ((C.scope l outer unit).address? p.id).isSome = true) :
    ((C'.scope l' outer' unit).address? p.id).isSome = true :=
  (h.inside'.address?_mention h.identified').mpr
    (h.declared ((h.inside.address?_mention h.identified).mp ha))

/-- What is free in a tree after a substitution was free in it before. -/
theorem address?_quote {x : Tree} {σ : Substitution Value} {k : Nat}
    (h : Beside C C' (l :: outer) (l' :: outer') (.enterQuote :: x.walk ++ [.leaveQuote])
      (.enterQuote :: (x.rebuild σ k).1.walk ++ [.leaveQuote]))
    (ha : ∀ p ∈ x.freeParameters, ((C.scope l outer unit).address? p.id).isSome) :
    ∀ p ∈ (x.rebuild σ k).1.freeParameters, ((C'.scope l' outer' unit).address? p.id).isSome := by
  intro p hp
  refine (Inside.address?_quote h.identified' h.inside' hp).mpr (h.declared ?_)
  obtain ⟨q, hq, hqp⟩ := Node.mem_freeParameters.mp ⟨p, hp, rfl⟩
  obtain ⟨u, hu, hb, rfl⟩ := mem_freeOf.mp hq
  rw [Node.leaves_rebuild] at hu
  obtain ⟨y, hy, hyu⟩ := List.mem_map.mp hu
  obtain ⟨rfl, -⟩ := Leaf.replace_eq_use.mp hyu
  obtain ⟨r, hr, hrq⟩ := Node.mem_freeParameters.mpr ⟨_, mem_freeOf.mpr ⟨u, hy, hb, rfl⟩, rfl⟩
  rw [← hqp, ← hrq]
  exact (Inside.address?_quote h.identified h.inside hr).mp (ha r hr)

end Beside

theorem emitConstant_units {v : Value} {s t : EmitState} {c : Code}
    (h : emitConstant v s = .ok (c, t)) : t.units = s.units := by
  rcases emitConstant_eq_ok.mp h with ⟨-, -, rfl⟩ | ⟨-, -, rfl⟩ <;> rfl

theorem Node.ty_rebuild {α : Type} (σ : Substitution α) (n : Node α) (k : Nat) :
    (n.rebuild σ k).1.ty = n.ty := by
  obtain ⟨id, kind, ty, payload⟩ := n
  cases payload with
  | parameter p =>
      simp only [Node.rebuild]
      cases hv : σ.lookup p.id <;> rfl
  | _ => rfl

theorem Node.length_rebuildAll (σ : Substitution Value) (ns : List Tree) (k : Nat) :
    (Node.rebuildAll σ ns k).1.length = ns.length := by
  induction ns generalizing k with
  | nil => rfl
  | cons n ns ih => exact congrArg (· + 1) (ih (n.rebuild σ k).2)

/-- A lambda needs no cells that it did not need before. -/
theorem Beside.cells {C C' : Compilation} {chain chain' : List (Lambda Value)} {l : Lambda Value}
    {σ : Substitution Value} {k : Nat}
    (h : Beside C C' chain chain' l.walk (l.rebuild σ k).1.walk) :
    C'.root.captures.idsOf (l.rebuild σ k).1.id ⊆ C.root.captures.idsOf l.id := by
  have hl : .enter l ∈ C.root.walk := h.inside.events _ l.enter_self_mem_walk
  have hl' := h.inside'.events _ (l.rebuild σ k).1.enter_self_mem_walk
  intro p hp
  rw [Captures.idsOf, Lambda.captures_eq_escaping h.identified hl]
  rw [Captures.idsOf, Lambda.captures_eq_escaping h.identified' hl'] at hp
  obtain ⟨hdec, o', ho', rfl, hesc⟩ := Lambda.mem_shared.mp hp
  obtain ⟨id, name, params, body⟩ := l
  obtain ⟨o, ho, hparam, hesc⟩ := (body.occurrences_rebuild σ k).escapes ho' hesc
  exact Lambda.mem_shared.mpr ⟨hdec, o, ho, by rw [hparam], hesc⟩

/-- A lambda is emitted again if its body is, also as a root. -/
theorem Beside.lambda {C C' : Compilation} {chain chain' : List (Lambda Value)} {l : Lambda Value}
    {σ : Substitution Value} {k : Nat}
    (h : Beside C C' chain chain' l.walk (l.rebuild σ k).1.walk)
    {parent parent' : Option EmitScope} (hparent : parent'.map (·.unit) = parent.map (·.unit))
    (hbody : ∀ unit, Retraces (l.body.emit C.context (l.emitScope C.root.captures parent unit))
      ((l.rebuild σ k).1.body.emit C'.context
        ((l.rebuild σ k).1.emitScope C'.root.captures parent' unit))) :
    Retraces (l.emit C.context parent) ((l.rebuild σ k).1.emit C'.context parent') := by
  have hl : .enter l ∈ C.root.walk := h.inside.events _ l.enter_self_mem_walk
  have hl' := h.inside'.events _ (l.rebuild σ k).1.enter_self_mem_walk
  refine Lambda.retraces hparent ?_ ?_ hbody
  · obtain ⟨id, name, params, body⟩ := l
    exact congrArg (Signature.mk _) (body.ty_rebuild σ k)
  · have hdec : ∀ q ∈ C.root.captures.ofLambda l.id, q.id ∈ l.params.map (·.id) := fun q hq =>
      Lambda.declares_iff.mp (idsOf_declares h.identified hl (List.mem_map_of_mem hq))
    have hdec' : ∀ q ∈ C'.root.captures.ofLambda (l.rebuild σ k).1.id,
        q.id ∈ (l.rebuild σ k).1.params.map (·.id) := fun q hq =>
      Lambda.declares_iff.mp (idsOf_declares h.identified' hl' (List.mem_map_of_mem hq))
    have hids := map_id_hoistedOf hdec
    have hids' := map_id_hoistedOf hdec'
    simp only [Compilation.context, hids, hids']
    exact h.cells

section Emitter

variable {C C' : Compilation} (σ : Substitution Value)

mutual

theorem Node.emit_rebuild : (n : Tree) → (k : Nat) → {l l' : Lambda Value} →
    {outer outer' : List (Lambda Value)} → (unit : Nat) →
    Beside C C' (l :: outer) (l' :: outer') n.walk (n.rebuild σ k).1.walk →
    Retraces (n.emit C.context (C.scope l outer unit))
      ((n.rebuild σ k).1.emit C'.context (C'.scope l' outer' unit))
  | .mk id kind ty payload, k, _, _, _, _, unit, h => by
      have ih := @Payload.emit_rebuild kind ty payload k
      cases payload with
      | parameter p =>
          simp only [Node.rebuild] at h ⊢
          cases hv : σ.lookup p.id with
          | some v => exact Payload.retraces_constant
          | none =>
              rw [hv] at h
              exact ih unit h.payload
      | binary l r m lifted toNull conversion => cases conversion <;> exact ih unit h.payload
      | memberAccess target m => cases target <;> exact ih unit h.payload
      | call target m args => cases target <;> exact ih unit h.payload
      | _ => exact ih unit h.payload
termination_by structural n => n

theorem Payload.emit_rebuild (kind : Kind) (ty : Ty) : (payload : Payload Value) → (k : Nat) →
    {l l' : Lambda Value} → {outer outer' : List (Lambda Value)} → (unit : Nat) →
    Beside C C' (l :: outer) (l' :: outer') (payload.walk kind)
      ((payload.rebuild σ k).1.walk kind) →
    Retraces (payload.emit C.context (C.scope l outer unit) kind ty)
      ((payload.rebuild σ k).1.emit C'.context (C'.scope l' outer' unit) kind ty)
  | .constant v, _, _, _, _, _, _, _ => .ofKind fun _ => .constant emitConstant_units v
  | .parameter p, _, _, _, _, _, _, h => .ofKind fun _ => (Retraces.resolve h.address?_mention).map
  | .unary x method lifted, k, _, _, _, _, unit, h => by
      by_cases hq : kind = .quote
      · subst hq
        exact Payload.retraces_quote h.address?_quote
      · have hx := x.emit_rebuild k unit (h.operand hq)
        exact Payload.retraces_unary h.schema hq (x.ty_rebuild σ k) hx
  | .binary l r method lifted toNull none, k, _, _, _, _, unit, h => by
      have hl := l.emit_rebuild k unit h.first
      have hr := r.emit_rebuild _ unit h.rest
      by_cases hc : kind = .coalesce
      · subst hc
        exact hl.map₂ hr
      · exact Payload.retraces_binary h.schema hc (l.ty_rebuild σ k) hl hr
  | .binary l r method lifted toNull (some c), k, _, _, _, _, unit, h => by
      have hl := l.emit_rebuild k unit h.first
      have hr := r.emit_rebuild _ unit h.rest.first
      by_cases hc : kind = .coalesce
      · subst hc
        have hconv := c.emit_rebuild _ unit h.rest.rest
        exact hl.bind fun _ _ => hr.map₂ hconv
      · exact Payload.retraces_binary h.schema hc (l.ty_rebuild σ k) hl hr
  | .conditional t a b, k, _, _, _, _, unit, h => by
      have ht := t.emit_rebuild k unit h.first
      have ha := a.emit_rebuild _ unit h.rest.first
      have hb := b.emit_rebuild _ unit h.rest.rest
      exact .ofKind fun _ => ht.bind fun _ _ => ha.map₂ hb
  | .memberAccess none m, _, _, _, _, _, _, _ =>
      .ofKind fun _ => .ite (fun _ => .pure _ _) fun _ => .refuse _ _
  | .memberAccess (some x) m, k, _, _, _, _, unit, h =>
      .ofKind fun _ => .ite (fun _ => .pure _ _) fun _ => (x.emit_rebuild k unit h).map
  | .call none m args, k, _, _, _, _, unit, h =>
      .ofKind fun _ => .ite (fun _ => (Node.emitAll_rebuild args k unit h).map) fun _ => .refuse _ _
  | .call (some x) m args, k, _, _, _, _, unit, h => by
      have hx := x.emit_rebuild k unit h.first
      have hargs := Node.emitAll_rebuild args _ unit h.rest
      exact .ofKind fun _ => .ite (fun _ => hargs.map) fun _ => hx.map₂ hargs
  | .new none args, _, _, _, _, _, _, h => .ofKind fun _ => .emitDefault h.schema ty
  | .new (some _) args, k, _, _, _, _, unit, h =>
      .ofKind fun _ => (Node.emitAll_rebuild args k unit h).map
  | .newArray items, k, _, _, _, _, unit, h =>
      Payload.retraces_newArray (Node.length_rebuildAll σ items k)
        (Node.emitAll_rebuild items k unit h)
  | .listInit x inits, k, _, _, _, _, unit, h => by
      have hx := x.emit_rebuild k unit h.first
      exact .ofKind fun _ => hx.bind fun _ _ => Retraces.temporary.bind fun slot slot' =>
        (ElementInit.emitAll_rebuild inits _ unit slot slot' h.rest).map
  | .memberInit x bindings, k, _, _, _, _, unit, h => by
      have hx := x.emit_rebuild k unit h.first
      exact .ofKind fun _ => hx.bind fun _ _ => Retraces.temporary.bind fun slot slot' =>
        (MemberBinding.emitAll_rebuild bindings _ unit slot slot' h.rest).map
  | .lambda l, k, _, _, _, _, unit, h => .ofKind fun _ => (l.emit_rebuild k unit h).map
  | .invoke x args, k, _, _, _, _, unit, h => by
      have hx := x.emit_rebuild k unit h.first
      exact .ofKind fun _ => hx.map₂ (Node.emitAll_rebuild args _ unit h.rest)
  | .typeIs x _, k, _, _, _, _, unit, h => .ofKind fun _ => (x.emit_rebuild k unit h).map
  | .assign p x, k, _, _, _, _, unit, h => by
      have hb : Balanced [(.mention p : Event Value)] := .mention p .nil
      have hx := x.emit_rebuild k unit (Beside.right h hb hb)
      exact .ofKind fun _ => hx.bind fun _ _ => (Retraces.resolve (Beside.address?_mention h)).map
  | .block items, k, _, _, _, _, unit, h =>
      .ofKind fun _ => (Node.emitAll_rebuild items k unit h).map
termination_by structural payload => payload

theorem Lambda.emit_rebuild : (l : Lambda Value) → (k : Nat) → {d d' : Lambda Value} →
    {outer outer' : List (Lambda Value)} → (unit : Nat) →
    Beside C C' (d :: outer) (d' :: outer') l.walk (l.rebuild σ k).1.walk →
    Retraces (l.emit C.context (some (C.scope d outer unit)))
      ((l.rebuild σ k).1.emit C'.context (some (C'.scope d' outer' unit)))
  | .mk _ _ _ body, k, _, _, _, _, _, h =>
      h.lambda rfl fun inner => body.emit_rebuild k inner (h.body rfl)
termination_by structural l => l

theorem Node.emitAll_rebuild : (ns : List Tree) → (k : Nat) → {l l' : Lambda Value} →
    {outer outer' : List (Lambda Value)} → (unit : Nat) →
    Beside C C' (l :: outer) (l' :: outer') (Node.walkAll ns)
      (Node.walkAll (Node.rebuildAll σ ns k).1) →
    Retraces (Node.emitAll C.context (C.scope l outer unit) ns)
      (Node.emitAll C'.context (C'.scope l' outer' unit) (Node.rebuildAll σ ns k).1)
  | [], _, _, _, _, _, _, _ => .pure _ _
  | n :: ns, k, _, _, _, _, unit, h =>
      (n.emit_rebuild k unit h.first).map₂ (Node.emitAll_rebuild ns _ unit h.rest)
termination_by structural ns => ns

theorem ElementInit.emitAll_rebuild : (inits : List (ElementInit Value)) → (k : Nat) →
    {l l' : Lambda Value} → {outer outer' : List (Lambda Value)} → (unit slot slot' : Nat) →
    Beside C C' (l :: outer) (l' :: outer') (ElementInit.walkAll inits)
      (ElementInit.walkAll (ElementInit.rebuildAll σ inits k).1) →
    Retraces (ElementInit.emitAll C.context (C.scope l outer unit) slot inits)
      (ElementInit.emitAll C'.context (C'.scope l' outer' unit) slot'
        (ElementInit.rebuildAll σ inits k).1)
  | [], _, _, _, _, _, _, _, _, _ => .pure _ _
  | .mk add args :: rest, k, _, _, _, _, unit, slot, slot', h => by
      have hb := Node.walkAll_balanced args
      have hargs := Node.emitAll_rebuild args k unit (h.left hb (Node.walkAll_balanced _))
      have hrest := ElementInit.emitAll_rebuild rest _ unit slot slot'
        (h.right hb (Node.walkAll_balanced _))
      exact (Retraces.checkInstance add).bind fun _ _ => hargs.map₂ hrest
termination_by structural inits => inits

theorem MemberBinding.emitAll_rebuild : (bindings : List (MemberBinding Value)) → (k : Nat) →
    {l l' : Lambda Value} → {outer outer' : List (Lambda Value)} → (unit slot slot' : Nat) →
    Beside C C' (l :: outer) (l' :: outer') (MemberBinding.walkAll bindings)
      (MemberBinding.walkAll (MemberBinding.rebuildAll σ bindings k).1) →
    Retraces (MemberBinding.emitAll C.context (C.scope l outer unit) slot bindings)
      (MemberBinding.emitAll C'.context (C'.scope l' outer' unit) slot'
        (MemberBinding.rebuildAll σ bindings k).1)
  | [], _, _, _, _, _, _, _, _, _ => .pure _ _
  | .assign m x :: rest, k, _, _, _, _, unit, slot, slot', h => by
      have hx := x.emit_rebuild k unit h.first
      have hrest := MemberBinding.emitAll_rebuild rest _ unit slot slot' h.rest
      exact (Retraces.checkWritable m).bind fun _ _ => hx.map₂ hrest
  | .bind m nested :: rest, k, _, _, _, _, unit, slot, slot', h => by
      have hb := MemberBinding.walkAll_balanced nested
      have hb' := MemberBinding.walkAll_balanced (MemberBinding.rebuildAll σ nested k).1
      have hrest := MemberBinding.emitAll_rebuild rest _ unit slot slot' (h.right hb hb')
      exact Retraces.temporary.bind fun inner inner' =>
        (MemberBinding.emitAll_rebuild nested k unit inner inner' (h.left hb hb')).map₂ hrest
  | .list m inits :: rest, k, _, _, _, _, unit, slot, slot', h => by
      have hb := ElementInit.walkAll_balanced inits
      have hb' := ElementInit.walkAll_balanced (ElementInit.rebuildAll σ inits k).1
      have hrest := MemberBinding.emitAll_rebuild rest _ unit slot slot' (h.right hb hb')
      exact Retraces.temporary.bind fun inner inner' =>
        (ElementInit.emitAll_rebuild inits k unit inner inner' (h.left hb hb')).map₂ hrest
termination_by structural bindings => bindings

end

end Emitter

/-! ## Programs -/

section Programs

variable {schema : Schema} {options : Options} {root : Lambda Value}

/-- A root lambda that compiles compiles again after a substitution. -/
theorem Program.ofLambda_rebuild (hid : Identified root.walk) {p : Program}
    (h : Program.ofLambda schema options root = .ok p) (σ : Substitution Value) (k : Nat) :
    ∃ p', Program.ofLambda schema options (root.rebuild σ k).1 = .ok p' ∧
      p.units.Narrows p'.units := by
  -- the programs of the two compilations do not matter, only their roots
  have hb : Beside ⟨schema, root, p⟩ ⟨schema, (root.rebuild σ k).1, p⟩ [] [] root.walk
      (root.rebuild σ k).1.walk :=
    ⟨rfl, hid, (root.rebuild_rebuilt σ k).identified, .whole _, .whole _, rfl⟩
  have hroot : Retraces (root.emit ⟨schema, root.captures⟩ none)
      ((root.rebuild σ k).1.emit ⟨schema, (root.rebuild σ k).1.captures⟩ none) := by
    refine hb.lambda rfl fun unit => ?_
    obtain ⟨id, name, params, body⟩ := root
    exact body.emit_rebuild σ k unit (hb.body rfl)
  obtain ⟨⟨u, s⟩, hr⟩ := Program.emit_of_ofLambda h
  obtain ⟨u', s', hr', hn⟩ := hroot.run (.refl _) hr
  refine ⟨_, Program.ofLambda_of_emit hr', ?_⟩
  rw [Program.ofLambda_of_emit hr] at h
  obtain rfl := Except.ok.inj h
  exact hn

end Programs

/-- **Substitution preserves compilability and the structure of programs.** If a tree compiles, the
tree with parameters replaced by any values compiles too: to as many units, and every unit has the
parent and the signature that it had before and keeps no parameter in a cell that it did not keep
there before. -/
theorem compile_substitute {tree : Tree} (hid : Identified tree.walk) {schema : Schema}
    {options : Options} {p : Program} (h : Program.compile schema options tree = .ok p)
    (values : Substitution Value) (k : Nat) :
    ∃ p', Program.compile schema options (tree.substitute values k).1 = .ok p' ∧
      p'.units.size = p.units.size ∧
      ∀ i u, p.units.get? i = some u → ∃ u', p'.units.get? i = some u' ∧
        u'.parent = u.parent ∧ u'.signature = u.signature ∧
        u'.hoisted.map (·.parameter.id) ⊆ u.hoisted.map (·.parameter.id) := by
  obtain ⟨p', hp', hn⟩ : ∃ p', Program.compile schema options (tree.substitute values k).1 = .ok p'
      ∧ p.units.Narrows p'.units := by
    unfold Node.substitute
    cases hv : values.isEmpty with
    | true => exact ⟨p, h, .refl _⟩
    | false =>
        obtain ⟨root, hroot, hp⟩ := Program.ofLambda_of_compile h
        obtain ⟨id, kind, ty, rfl⟩ := Node.lambda?_eq_some hroot
        have hid' : Identified root.walk := fun l l' hl hl' =>
          hid l l' (List.mem_cons_of_mem _ hl) (List.mem_cons_of_mem _ hl')
        exact Program.ofLambda_rebuild hid' hp values k
  refine ⟨p', hp', hn.size, fun i u hu => ?_⟩
  obtain ⟨u', hu', hunit⟩ := hn.units i u hu
  exact ⟨u', hu', hunit.parent, hunit.signature, hunit.hoisted⟩

/-- With `7` for `x`, the three units stay, but nothing has to live in a cell any more. -/
theorem compile_substitute_manyParts :
    ∃ p, Program.compile .empty {} Node.manyParts = .ok p ∧
      p.hoisted.map (·.map (·.parameter.id)) = [[0], [], []] ∧
      ∃ p', Program.compile .empty {} (Node.manyParts.substitute [(0, .ofInt .i8 7)] 18).1
          = .ok p' ∧
        p'.hoisted.map (·.map (·.parameter.id)) = [[], [], []] ∧
        p'.units.size = p.units.size ∧
        ∀ i u, p.units.get? i = some u → ∃ u', p'.units.get? i = some u' ∧
          u'.parent = u.parent ∧ u'.signature = u.signature ∧
          u'.hoisted.map (·.parameter.id) ⊆ u.hoisted.map (·.parameter.id) := by
  have hcells : (Program.compile .empty {} Node.manyParts).toOption.map
      (·.hoisted.map (·.map (·.parameter.id))) = some [[0], [], []] := by
    decide +kernel
  have hcells' : (Program.compile .empty {}
      (Node.manyParts.substitute [(0, .ofInt .i8 7)] 18).1).toOption.map
      (·.hoisted.map (·.map (·.parameter.id))) = some [[], [], []] := by
    decide +kernel
  cases h : Program.compile .empty {} Node.manyParts with
  | error e => rw [h] at hcells; cases hcells
  | ok p =>
      rw [h] at hcells
      obtain ⟨p', hp', hrest⟩ := compile_substitute (.ofNodup (by decide)) h [(0, .ofInt .i8 7)] 18
      rw [hp'] at hcells'
      exact ⟨p, rfl, Option.some.inj hcells, p', hp', Option.some.inj hcells', hrest⟩

end ExprTree
