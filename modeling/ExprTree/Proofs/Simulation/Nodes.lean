import ExprTree.Proofs.Simulation.Variables

set_option autoImplicit false

/-! # Compiled trees follow the interpreter

The code of a tree, run in a frame, has the same outcome as the tree, interpreted in the environment
of that frame (`Node.follows`). The proof goes by recursion on the tree; each form of node is put
together from its parts with the rules for `Follows`. What code does outside of its frame is assumed
to be simulated (`ContextsMatch`).
-/

namespace ExprTree

open Lexical (Bindings Env Store Interp Fault Closure location?)

/-! ## Outside of the frame -/

/-- Invocations and host calls have the same outcome on both sides. -/
structure ContextsMatch (A : Assumptions) (schema : Schema) (cx : Context) (cx' : Lexical.Context) :
    Prop where
  schema_left : cx.schema = schema
  schema_right : cx'.schema = schema
  arrayLimit : cx'.arrayLimit = cx.arrayLimit
  invoke : ∀ depth f args,
    Simulates A schema args (cx.invoke depth f args) (cx'.invoke depth f args)
  host : ∀ f args, Simulates A schema args (cx.host f args) (cx'.host f args)

namespace ContextsMatch

variable {A : Assumptions} {schema : Schema} {cx : Context} {cx' : Lexical.Context}

theorem discard_host (h : ContextsMatch A schema cx cx') (f : HostRef) (args : List Value) :
    Simulates A schema args (discard (cx.host f args)) (discard (cx'.host f args)) := by
  have hbind : Simulates A schema args (cx.host f args >>= fun _ => pure PUnit.unit)
      (cx'.host f args >>= fun _ => pure PUnit.unit) :=
    (h.host f args).bind fun _ => .pure (.nil _)
  exact hbind

theorem present {v : Value} {held : List Value} (hv : v ∈ held) :
    Simulates A schema held (Eval.ofExcept v.present) (Interp.ofExcept v.present) := by
  refine .ofExcept (.present v) ?_
  intro u hu
  unfold Value.present at hu
  split at hu <;> cases hu
  exact .mem hv

theorem readMember (h : ContextsMatch A schema cx cx') (m : Member) (target : Value) :
    Simulates A schema [target] (cx.readMember m target) (cx'.readMember m target) := by
  cases m with
  | field name index ty =>
      refine Simulates.bind (.ofExcept (.asInstance target) fun _ _ => .nil _) fun id => ?_
      exact .ofHeap (f := fun heap => .ok (heap.field id index)) (fun _ => .ok _)
        fun heap n v ht _ hv u hu => by
          cases hv
          rw [List.mem_singleton.mp hu]
          exact ht.field id index
  | static name ty cell =>
      exact .ofHeap (f := fun heap => .ok (heap.static cell)) (fun _ => .ok _)
        fun heap n v ht _ hv u hu => by
          cases hv
          rw [List.mem_singleton.mp hu]
          exact ht.static cell
  | property name getter setter =>
      simp only [Context.readMember, Lexical.Context.readMember]
      split
      · exact (h.host getter.impl []).weaken (.subset (by simp))
      · refine (present (by simp)).bind fun v => ?_
        exact (h.host getter.impl [v]).weaken (.subset (by simp [values]))

theorem writeMember (h : ContextsMatch A schema cx cx') (m : Member) (target v : Value) :
    Simulates A schema [target, v] (cx.writeMember m target v) (cx'.writeMember m target v) := by
  cases m with
  | field name index ty =>
      refine Simulates.bind (.ofExcept (.asInstance target) fun _ _ => .nil _) fun id => ?_
      intro place w σ hr hk
      have hv := hk v (by simp [values])
      -- both sides look for the field in the same heap
      rw [get_bind, get_bind, hr.heap]
      cases hset : σ.heap.setField? id index v with
      | none => exact Simulates.raise (by simp [Context.noField]) place w σ hr hk
      | some heap =>
          obtain ⟨ht, hn⟩ := hr.tidy.heap.setField hv hset
          rw [← hn] at ht
          exact ⟨rfl, ⟨place, hr.withHeap (Nat.le_of_eq hn.symm) ht,
            hr.withHeap_later (Nat.le_of_eq hn.symm) _⟩, nofun⟩
  | static name ty cell =>
      exact .onHeap (f := fun heap => ((), heap.setStatic cell v)) fun heap ht hk =>
        ⟨Nat.le_refl _, ht.setStatic (hk v (by simp)), nofun⟩
  | property name getter setter =>
      cases setter with
      | none => exact .pure (.nil _)
      | some setter =>
          simp only [Context.writeMember, Lexical.Context.writeMember]
          split
          · exact (h.discard_host setter.impl [v]).weaken (.subset (by simp))
          · refine (present (by simp)).bind fun u => ?_
            exact (h.discard_host setter.impl [u, v]).weaken (.subset (by simp [values]))

theorem unary (h : ContextsMatch A schema cx cx') (action : UnaryAction) (v : Value) :
    Simulates A schema [v] (cx.unary action v) (cx'.unary action v) := by
  cases action with
  | primitive op =>
      refine .ofExcept (.unary op v) fun r hr n hn u hu => ?_
      rw [List.mem_singleton.mp hu]
      exact UnaryOp.apply_tidy (hn v (by simp)) hr
  | convert c =>
      simp only [Context.unary, Lexical.Context.unary, h.schema_left, h.schema_right]
      refine .ofExcept (.conversion schema c v) fun r hr n hn u hu => ?_
      rw [List.mem_singleton.mp hu]
      exact Conversion.apply_tidy (hn v (by simp)) hr
  | user m => exact h.host m.impl [v]
  | typeAs ty =>
      simp only [Context.unary, Lexical.Context.unary, h.schema_left, h.schema_right]
      split
      · exact .pure (.mem (by simp))
      · exact .pure (.plain rfl)
  | typeIs ty =>
      simp only [Context.unary, Lexical.Context.unary, h.schema_left, h.schema_right]
      exact .pure (.plain rfl)

theorem binary (h : ContextsMatch A schema cx cx') (action : BinaryAction) (l r : Value) :
    Simulates A schema [l, r] (cx.binary action l r) (cx'.binary action l r) := by
  cases action with
  | primitive op =>
      refine .ofHeap? (f := fun heap => op.apply heap l r) (fun heap r hr => .binary hr) ?_
      intro heap n v _ _ hv u hu
      rw [List.mem_singleton.mp hu]
      exact .plain (Value.isPlain_of_isScalar (BinaryOp.apply_isScalar hv))
  | user m => exact h.host m.impl [l, r]
  | element =>
      refine .ofHeap (f := fun heap => l.element heap r) (fun heap => .element heap l r) ?_
      intro heap n v ht hn hv u hu
      rw [List.mem_singleton.mp hu]
      exact Value.element_tidy ht (hn l (by simp)) hv

theorem apply (h : ContextsMatch A schema cx cx') (callee : Value) (args : List Value) :
    Simulates A schema args (cx.apply (cx'.depth + 1) callee args) (cx'.apply callee args) := by
  cases callee with
  | function f => exact h.invoke _ f args
  | _ => exact .raise (by simp)

end ContextsMatch

/-! ## New values -/

theorem Simulates.newArray {A : Assumptions} {schema : Schema} (items : List Value) :
    Simulates A schema items (Eval.alloc (·.newArray items)) (Interp.alloc (·.newArray items)) :=
  .onHeap (f := fun heap => heap.newArray items) fun heap ht hk =>
    ⟨Nat.le_succ _, (ht.mono (Nat.le_succ _)).nextId _, fun v hv => by
      rw [List.mem_singleton.mp hv]
      exact .array fun u hu => (hk u hu).mono (Nat.le_succ _)⟩

theorem Simulates.newList {A : Assumptions} {schema : Schema} :
    Simulates A schema [] (Eval.alloc (·.newList [])) (Interp.alloc (·.newList [])) :=
  .onHeap (f := fun heap => heap.newList []) fun _ ht _ =>
    ⟨Nat.le_refl _, ht.newList nofun, fun v hv => by
      rw [List.mem_singleton.mp hv]
      exact .plain rfl⟩

theorem Simulates.newInstance {A : Assumptions} {schema : Schema} (r : RecordRef) :
    Simulates A schema [] (Eval.alloc (·.newInstance r (schema.defaults r)))
      (Interp.alloc (·.newInstance r (schema.defaults r))) :=
  .onHeap (f := fun heap => heap.newInstance r (schema.defaults r)) fun heap ht _ =>
    ⟨Nat.le_refl _, ht.newInstance (schema.defaults_tidy r heap.nextId), fun v hv => by
      rw [List.mem_singleton.mp hv]
      exact .plain rfl⟩

/-! ## Operators in a frame -/

section Operators

variable {A : Assumptions} {Φ : Activation} {H : Held} {cx : Context} {cx' : Lexical.Context}

theorem Follows.liftedUnary (h : ContextsMatch A Φ.C.schema cx cx') (action : UnaryAction)
    (lifted : Bool) {v : Value} (hv : v ∈ H.values) :
    Follows A Φ H
      (if lifted && v.isNull then Pure.pure .null else Exec.ofEval (cx.unary action v))
      (cx'.liftedUnary action lifted v) := by
  unfold Lexical.Context.liftedUnary
  split
  · exact .pure (.plain rfl)
  · exact .ofEval (h.unary action v) (.mem hv)

theorem Follows.liftedBinary (h : ContextsMatch A Φ.C.schema cx cx') (action : BinaryAction)
    (onNull : Option NullResult) {l r : Value} (hl : l ∈ H.values) (hr : r ∈ H.values) :
    Follows A Φ H
      (match onNull with
        | some n =>
            if l.isNull || r.isNull then Pure.pure (n.resolve l r)
            else Exec.ofEval (cx.binary action l r)
        | none => Exec.ofEval (cx.binary action l r))
      (cx'.liftedBinary action onNull l r) := by
  have hact : Follows A Φ H (Exec.ofEval (cx.binary action l r)) (cx'.binary action l r) :=
    .ofEval (h.binary action l r) (.subset (by simp [hl, hr]))
  cases onNull with
  | none => exact hact
  | some n =>
      simp only [Lexical.Context.liftedBinary]
      split
      · exact .pure (.plain (Value.isPlain_of_isScalar (NullResult.resolve_isScalar n l r)))
      · exact hact

theorem Follows.present {v : Value} (hv : v ∈ H.values) :
    Follows A Φ H (Exec.ofExcept v.present) (Interp.ofExcept v.present) := by
  refine .ofExcept (.present v) ?_
  intro u hu
  unfold Value.present at hu
  split at hu <;> cases hu
  exact .mem hv

/-- A static member needs no target. -/
theorem Follows.staticMember (h : ContextsMatch A Φ.C.schema cx cx') (m : Member) :
    Follows A Φ H (Exec.ofEval (cx.readMember m .null)) (cx'.readMember m .null) :=
  .ofEval (h.readMember m .null) (.plain rfl)

theorem Follows.asBool {v : Value} :
    Follows A Φ H (Exec.ofExcept v.asBool) (Interp.ofExcept v.asBool) :=
  .ofExcept (.asBool v) fun _ _ => .nil _

theorem Follows.asOptionalBool {v : Value} :
    Follows A Φ H (Exec.ofExcept v.asOptionalBool) (Interp.ofExcept v.asOptionalBool) :=
  .ofExcept (.asOptionalBool v) fun _ _ => .nil _

/-- A node with two operands follows the interpreter if its operands do. -/
theorem Follows.form (h : ContextsMatch A Φ.C.schema cx cx') {left right : Code}
    {y y' : Interp Value} (hl : Follows A Φ H (left.run cx Φ.frame) y)
    (hr : ∀ H' : Held, H'.slots = H.slots → Follows A Φ H' (right.run cx Φ.frame) y')
    (form : BinaryForm) :
    Follows A Φ H ((form.code left right).run cx Φ.frame) (cx'.form y y' form) := by
  cases form with
  | strict action onNull =>
      refine hl.bind fun l => Follows.bind (hr _ (by rfl)) fun r => ?_
      exact .liftedBinary h action onNull (by simp [Held.add, values]) (by simp [Held.add, values])
  | kleene conjunction =>
      refine hl.bind fun l => Follows.asOptionalBool.bind fun l' => ?_
      refine Follows.bind (hr _ (by rfl)) fun r => Follows.asOptionalBool.bind fun r' => ?_
      exact .pure (.plain (Value.isPlain_of_isScalar (kleeneValue_isScalar conjunction l' r')))
  | shortCircuit decisive lifted =>
      refine hl.bind fun v => ?_
      cases lifted with
      | true =>
          refine Follows.asOptionalBool.bind fun l => ?_
          cases l with
          | some l =>
              dsimp only
              split
              · exact .pure (.plain rfl)
              · exact hr _ (by rfl)
          | none =>
              refine Follows.bind (hr _ (by rfl)) fun r => Follows.asOptionalBool.bind fun r' => ?_
              cases r' with
              | none => exact .pure (.plain rfl)
              | some r' =>
                  dsimp only
                  split
                  · exact .pure (.plain rfl)
                  · exact .pure (.plain rfl)
      | false =>
          refine Follows.asBool.bind fun l => ?_
          split
          · exact .pure (.plain rfl)
          · exact hr _ (by rfl)
  | userShortCircuit test method lifted =>
      refine hl.bind fun l => ?_
      split
      · exact .pure (.plain rfl)
      refine Follows.bind (.ofEval (h.host test.impl [l]) (.mem (by simp [Held.add, values])))
        fun t => ?_
      refine Follows.asBool.bind fun decided => ?_
      split
      · exact .pure (.mem (by simp [Held.add, values]))
      refine Follows.bind (hr _ (by rfl)) fun r => ?_
      split
      · exact .pure (.plain rfl)
      · exact .ofEval (h.host method.impl [l, r]) (.subset (by simp [Held.add, values]))

end Operators

/-! ## Parts of a unit -/

/-- The part of the running unit with the events `es` was emitted from `s` to `s'`, and the slots
that are known to hold something are not among its own. -/
structure Part (Φ : Activation) (H : Held) (s s' : EmitState) (es : List (Event Value)) : Prop where
  installed : s.Installed Φ.C.program Φ.count s'
  inside : Inside Φ.C.root Φ.chain es
  within : H.Within Φ.lambda.params.length s.slots
  arity : Φ.lambda.params.length ≤ s.slots

namespace Part

variable {Φ : Activation} {H : Held} {s s₁ s' : EmitState} {es es' : List (Event Value)}

theorem left (h : Part Φ H s s' (es ++ es')) (hb : Balanced es) (hg : s₁.Grows s') :
    Part Φ H s s₁ es :=
  ⟨h.installed.left hg, h.inside.left hb, h.within, h.arity⟩

theorem right (h : Part Φ H s s' (es ++ es')) (hb : Balanced es) (hg : s.Grows s₁) :
    Part Φ H s₁ s' es' :=
  ⟨h.installed.right hg, h.inside.right hb, h.within.mono hg.slots,
    Nat.le_trans h.arity hg.slots⟩

/-- What is assigned to a parameter. -/
theorem tail {p : Parameter} (h : Part Φ H s s' (.mention p :: es)) : Part Φ H s s' es := by
  have happ : Part Φ H s s' ([.mention p] ++ es) := h
  exact happ.right (.mention p .nil) (.refl s)

/-- The same part with other values at hand. -/
theorem values (h : Part Φ H s s' es) {H' : Held} (hs : H'.slots = H.slots) : Part Φ H' s s' es :=
  ⟨h.installed, h.inside, fun t v ht => h.within t v (hs ▸ ht), h.arity⟩

/-- The same part with one more temporary in use. -/
theorem keep (h : Part Φ H s s' es) (v : Value) :
    Part Φ (H.keep s.slots v) { s with slots := s.slots + 1 } s' es :=
  ⟨h.installed.right (.temporary s), h.inside, h.within.keep h.arity v,
    Nat.le_succ_of_le h.arity⟩

/-- There is a slot for the next temporary. -/
theorem slot_lt (h : Part Φ H s s' es) (hg : { s with slots := s.slots + 1 }.Grows s') :
    s.slots < Φ.count :=
  Nat.lt_of_lt_of_le (Nat.lt_of_succ_le hg.slots) h.installed.slots

/-- A pooled constant is there at run time. -/
theorem constant (h : Part Φ H s s' es) {i : Nat} {v : Value} (hv : s'.pool.get? i = some v) :
    Φ.frame.constant i = v := by
  unfold Frame.constant
  rw [Φ.program, h.installed.pool.get?_some hv]
  rfl

/-- A lambda inside the unit has a unit of its own. -/
theorem unitAt {l : Lambda Value} {u : Nat} (h : Part Φ H s s' l.walk)
    (he : l.emit Φ.C.context (some Φ.scope) s = .ok (u, s')) :
    Φ.C.UnitAt l Φ.chain (some Φ.frame.scope.unit) u := by
  obtain ⟨rfl, code, s₁, hb, rfl⟩ := Lambda.emit_eq_ok.mp he
  have hg := Node.emit_grows l.body hb
  exact ⟨h.inside.body, _, code, s₁, rfl, hb, h.installed.body, h.installed.unit hg⟩

end Part

/-- A constant of the tree is tidy. -/
theorem Follows.constant {A : Assumptions} {Φ : Activation} {H : Held} {v : Value}
    (hv : ∃ e ∈ Φ.C.root.walk, e.constant? = some v) :
    Follows A Φ H (Pure.pure v) (Pure.pure v) := by
  intro place m σ hr hk
  obtain ⟨e, he, hv⟩ := hv
  refine ⟨rfl, ⟨place, hr, .refl _ _ _, hk⟩, ?_⟩
  intro u hu
  rw [List.mem_singleton.mp hu]
  exact hr.tidy.constants e he v hv

/-- A computation follows the other if the lists of their only results do. -/
theorem Follows.of_singleton {A : Assumptions} {Φ : Activation} {H : Held} {x : Exec Value}
    {y : Interp Value}
    (h : Follows A Φ H (x >>= fun v => Pure.pure [v]) (y >>= fun v => Pure.pure [v])) :
    Follows A Φ H x y := by
  intro place m σ hr hk
  have hxy : Agree A _ (EStateM.bind x _ m) (EStateM.bind y _ σ) := h place m σ hr hk
  unfold EStateM.bind at hxy
  -- the four combinations of outcomes; those that do not agree contradict the hypothesis
  cases hxm : x m with
  | ok v m' =>
      cases hyσ : y σ with
      | ok u σ' =>
          rw [hxm, hyσ] at hxy
          obtain ⟨heq, hrest⟩ := hxy
          exact ⟨List.singleton_inj.mp heq, hrest⟩
      | error e σ' =>
          rw [hxm, hyσ] at hxy
          cases e with
          | stop e => exact False.elim hxy
          | stuck => exact False.elim hxy
          | foreign => exact hxy
  | error e m' =>
      cases hyσ : y σ with
      | ok u σ' =>
          rw [hxm, hyσ] at hxy
          exact False.elim hxy
      | error e' σ' =>
          rw [hxm, hyσ] at hxy
          cases e' with
          | stop e' => exact hxy
          | stuck => exact False.elim hxy
          | foreign => exact hxy

/-! ## Trees -/

/-- The interpreter evaluates the body of the lambda that the frame runs. -/
structure Lexical.Context.Runs (cx : Lexical.Context) (Φ : Activation) : Prop where
  limit : cx.limit = Φ.C.program.options.maxCallDepth
  depth : cx.depth = Φ.frame.depth

section Trees

variable {A : Assumptions} {Φ : Activation} {cx : Context} {cx' : Lexical.Context}

/-- A node with two operands, coalescing apart. -/
theorem Payload.follows_form (hcx : ContextsMatch A Φ.C.schema cx cx') {kind : Kind} {ty : Ty}
    {l r : Tree} {method : Option Method} {lifted toNull : Bool}
    {conversion : Option (Lambda Value)} {c : Code} {s s' : EmitState} {H : Held}
    (hk : kind ≠ .coalesce)
    (he : Payload.emit Φ.C.context Φ.scope kind ty (.binary l r method lifted toNull conversion) s
      = .ok (c, s'))
    (hp : Part Φ H s s' (Payload.walk kind (.binary l r method lifted toNull conversion)))
    (hl : ∀ {c s₁ H}, l.emit Φ.C.context Φ.scope s = .ok (c, s₁) → Part Φ H s s₁ l.walk →
      Follows A Φ H (c.run cx Φ.frame) (l.interpret cx' Φ.environment))
    (hr : ∀ {c s₁ H}, r.emit Φ.C.context Φ.scope s₁ = .ok (c, s') → Part Φ H s₁ s' r.walk →
      Follows A Φ H (c.run cx Φ.frame) (r.interpret cx' Φ.environment)) :
    Follows A Φ H (c.run cx Φ.frame)
      (Payload.interpret cx' Φ.environment kind ty
        (.binary l r method lifted toNull conversion)) := by
  obtain ⟨form, left, s₁, right, hform, hle, hre, rfl⟩ := (Payload.emit_binary hk).mp he
  have hform' : binaryForm? cx'.schema kind ty l.ty method lifted = some form := by
    rw [hcx.schema_right]
    exact hform
  have hpl : Part Φ H s s₁ l.walk := by
    cases conversion with
    | none => exact hp.left l.walk_balanced (Node.emit_grows r hre)
    | some conv => exact hp.left l.walk_balanced (Node.emit_grows r hre)
  -- a conversion belongs to coalescing, so here it is walked over but not emitted
  have hpr : Part Φ H s₁ s' r.walk := by
    cases conversion with
    | none => exact hp.right l.walk_balanced (Node.emit_grows l hle)
    | some conv =>
        exact (hp.right l.walk_balanced (Node.emit_grows l hle)).left r.walk_balanced (.refl _)
  have hinterp : Payload.interpret cx' Φ.environment kind ty
      (.binary l r method lifted toNull conversion)
      = cx'.form (l.interpret cx' Φ.environment) (r.interpret cx' Φ.environment) form := by
    simp only [Payload.interpret, if_neg hk, hform']
  rw [hinterp]
  exact .form hcx (hl hle hpl) (fun H' hs => hr hre (hpr.values hs)) form

/-- A new value stays in its temporary while the steps work on it. -/
theorem Follows.assemble {H : Held} {s s' : EmitState} {es : List (Event Value)} {v : Value}
    {x : Exec PUnit} {y : Interp PUnit} (hp : Part Φ H s s' es)
    (hg : { s with slots := s.slots + 1 }.Grows s') (hv : v ∈ H.values)
    (h : Follows A Φ (H.keep s.slots v) x y) :
    Follows A Φ H
      (do
        Exec.storeSlot s.slots v
        x
        Exec.loadSlot s.slots)
      (do
        y
        return v) := by
  refine .keep hp.within hp.arity (hp.slot_lt hg) (h.bind fun _ => ?_)
  have hload : Follows A Φ (H.keep s.slots v) (Exec.loadSlot s.slots >>= Pure.pure)
      (Pure.pure v) := .loadSlot List.mem_cons_self (.pure (.mem hv))
  rw [bind_pure] at hload
  exact hload

theorem Follows.newDefault {H : Held} (hcx : ContextsMatch A Φ.C.schema cx cx') {ty : Ty} {c : Code}
    (hc : c = .immediate ty.default ∧ (∀ r, ty ≠ .record r) ∧ (∀ e, ty ≠ .list e) ∨
      (∃ r, ty = .record r ∧ c = .newInstance r (Φ.C.schema.defaults r)) ∨
      (∃ e, ty = .list e ∧ c = .newList)) :
    Follows A Φ H (c.run cx Φ.frame) (cx'.newDefault ty) := by
  rcases hc with ⟨rfl, hr, hl⟩ | ⟨r, rfl, rfl⟩ | ⟨e, rfl, rfl⟩
  · have hdefault : cx'.newDefault ty = Pure.pure ty.default := by
      cases ty with
      | record r => exact absurd rfl (hr r)
      | list e => exact absurd rfl (hl e)
      | _ => rfl
    rw [hdefault]
    exact .pure (.plain (Value.isPlain_of_isScalar (Ty.default_isScalar ty)))
  · simp only [Code.run, Lexical.Context.newDefault, hcx.schema_right]
    exact .ofEval (Simulates.newInstance r) (.nil _)
  · exact .ofEval Simulates.newList (.nil _)

/-- The interpreter on an array that is given by its length. -/
theorem Payload.interpret_newArrayBounds {env : Env} {ty e : Ty} {x : Tree}
    (he : ty.element? = some e) :
    Payload.interpret cx' env .newArrayBounds ty (.newArray [x]) = (do
      let n ← Interp.ofExcept ((← x.interpret cx' env).asLength cx'.arrayLimit)
      Interp.alloc (·.newArray (List.replicate n e.default))) := by
  cases ty with
  | array | list =>
      cases he
      rfl
  | _ => cases he

mutual

/-- **The code of a tree follows the interpreter on the tree.** -/
theorem Node.follows (hcx : ContextsMatch A Φ.C.schema cx cx')
    (hruns : cx'.Runs Φ) : (n : Tree) → {c : Code} →
    {s s' : EmitState} → {H : Held} → n.emit Φ.C.context Φ.scope s = .ok (c, s') →
    Part Φ H s s' n.walk → Follows A Φ H (c.run cx Φ.frame) (n.interpret cx' Φ.environment)
  | .mk id kind ty payload, _, _, _, _, he, hp => by
      refine Payload.follows hcx hruns kind ty payload he
        ⟨hp.installed, hp.inside.payload, hp.within, hp.arity⟩ ?_
      rintro v rfl
      exact ⟨_, hp.inside.events _ List.mem_cons_self, rfl⟩

theorem Payload.follows (hcx : ContextsMatch A Φ.C.schema cx cx')
    (hruns : cx'.Runs Φ) (kind : Kind) (ty : Ty) :
    (payload : Payload Value) → {c : Code} → {s s' : EmitState} → {H : Held} →
    payload.emit Φ.C.context Φ.scope kind ty s = .ok (c, s') →
    Part Φ H s s' (payload.walk kind) →
    (∀ v, payload = .constant v → ∃ e ∈ Φ.C.root.walk, e.constant? = some v) →
    Follows A Φ H (c.run cx Φ.frame) (payload.interpret cx' Φ.environment kind ty)
  | .constant v, _, s, _, H, he, hp, hc => by
      have hv : Follows A Φ H (pure v) (pure v) := .constant (hc v rfl)
      rcases emitConstant_eq_ok.mp (Payload.emit_constant.mp he).2 with
        ⟨-, rfl, -⟩ | ⟨-, rfl, rfl⟩
      · exact hv
      · -- what is not immediate was put at the end of the pool
        have hpool : Φ.frame.constant s.pool.size = v :=
          hp.constant (s.pool.get?_alloc_self v)
        simp only [Code.run, hpool]
        exact hv
  | .parameter p, _, _, _, _, he, hp, _ => by
      obtain ⟨-, -, a, ha, rfl⟩ := Payload.emit_parameter.mp he
      exact .load ha hp.inside
  | .unary x method lifted, _, s, _, _, he, hp, _ => by
      by_cases hq : kind = .quote
      · subst hq
        -- the quoted tree is a constant; its free parameters are captured when it is evaluated
        obtain ⟨hfree, hpool, rfl⟩ := Payload.emit_quote.mp he
        cases hpool
        have hconst : Φ.frame.constant s.pool.size = .expression x :=
          hp.constant (s.pool.get?_alloc_self (.expression x))
        simp only [Code.run, hconst, Payload.interpret, ↓reduceIte]
        exact .quote hfree hp.inside
      · obtain ⟨action, lift, operand, haction, hx, rfl⟩ := (Payload.emit_unary hq).mp he
        rw [Payload.walk, if_neg hq] at hp
        have haction' : unaryAction? cx'.schema kind ty x.ty method lifted
            = some (action, lift) := by
          rw [hcx.schema_right]
          exact haction
        simp only [Code.run, Payload.interpret, if_neg hq, haction']
        refine (Node.follows hcx hruns x hx hp).bind fun v => ?_
        exact .liftedUnary hcx action lift (by simp [Held.add, values])
  | .binary l r method lifted toNull none, _, _, _, _, he, hp, _ => by
      by_cases hk : kind = .coalesce
      · subst hk
        obtain ⟨left, s₁, right, hl, hr, rfl⟩ := Payload.emit_coalesce.mp he
        have hpl := hp.left l.walk_balanced (Node.emit_grows r hr)
        have hpr := hp.right l.walk_balanced (Node.emit_grows l hl)
        simp only [Code.run, Payload.interpret, ↓reduceIte]
        refine (Node.follows hcx hruns l hl hpl).bind fun v => ?_
        split
        · exact Node.follows hcx hruns r hr (hpr.values rfl)
        · exact .pure (.mem (by simp [Held.add, values]))
      · exact Payload.follows_form hcx hk he hp
          (fun hl hpl => Node.follows hcx hruns l hl hpl)
          (fun hr hpr => Node.follows hcx hruns r hr hpr)
  | .binary l r method lifted toNull (some conv), _, _, _, _, he, hp, _ => by
      by_cases hk : kind = .coalesce
      · subst hk
        obtain ⟨left, s₁, right, s₂, unit, hl, hr, hc, rfl⟩ := Payload.emit_coalesceWith.mp he
        have hgr := Node.emit_grows r hr
        have hgc := Lambda.emit_grows conv hc
        -- operands and conversion are emitted one after the other
        have hpl := hp.left l.walk_balanced (hgr.trans hgc)
        have hrest := hp.right l.walk_balanced (Node.emit_grows l hl)
        have hpr := hrest.left r.walk_balanced hgc
        have hpc := hrest.right r.walk_balanced hgr
        simp only [Code.run, Payload.interpret, ↓reduceIte]
        refine (Node.follows hcx hruns l hl hpl).bind fun v => ?_
        split
        · exact Node.follows hcx hruns r hr (hpr.values rfl)
        · refine (Follows.closure (hpc.unitAt hc) hruns.limit).bind fun callee => ?_
          rw [← hruns.depth]
          exact .ofEval (hcx.apply callee [v]) (.subset (by simp [Held.add, values]))
      · exact Payload.follows_form hcx hk he hp
          (fun hl hpl => Node.follows hcx hruns l hl hpl)
          (fun hr hpr => Node.follows hcx hruns r hr hpr)
  | .conditional t a b, _, _, _, _, he, hp, _ => by
      obtain ⟨-, test, s₁, ifTrue, s₂, ifFalse, ht, ha, hb, rfl⟩ := Payload.emit_conditional.mp he
      have hga := Node.emit_grows a ha
      have hgb := Node.emit_grows b hb
      have hpt := hp.left t.walk_balanced (hga.trans hgb)
      have hrest := hp.right t.walk_balanced (Node.emit_grows t ht)
      refine (Node.follows hcx hruns t ht hpt).bind fun v => Follows.asBool.bind fun d => ?_
      split
      · exact Node.follows hcx hruns a ha ((hrest.left a.walk_balanced hgb).values rfl)
      · exact Node.follows hcx hruns b hb ((hrest.right a.walk_balanced hga).values rfl)
  | .memberAccess none m, _, _, _, _, he, hp, _ => by
      cases hm : m.isStatic with
      | true =>
          obtain ⟨-, -, rfl⟩ := (Payload.emit_staticMember hm).mp he
          simp only [Code.run, Payload.interpret, hm, ↓reduceIte]
          exact .staticMember hcx m
      | false =>
          obtain ⟨-, _, _, hx, -⟩ := (Payload.emit_member hm).mp he
          cases hx
  | .memberAccess (some x) m, _, _, _, _, he, hp, _ => by
      cases hm : m.isStatic with
      | true =>
          obtain ⟨-, -, rfl⟩ := (Payload.emit_staticMember hm).mp he
          simp only [Code.run, Payload.interpret, hm, ↓reduceIte]
          exact .staticMember hcx m
      | false =>
          obtain ⟨-, _, this, heq, hx, rfl⟩ := (Payload.emit_member hm).mp he
          cases heq
          simp only [Code.run, Payload.interpret, hm, Bool.false_eq_true, ↓reduceIte]
          refine (Node.follows hcx hruns x hx hp).bind fun v => ?_
          exact .ofEval (hcx.readMember m v) (.subset (by simp [Held.add, values]))
  | .call none m args, _, _, _, _, he, hp, _ => by
      cases hm : m.isStatic with
      | true =>
          obtain ⟨-, codes, ha, rfl⟩ := (Payload.emit_callStatic hm).mp he
          simp only [Code.run, Payload.interpret, hm, ↓reduceIte]
          refine (Node.followsAll hcx hruns args ha hp).bind fun vs => ?_
          exact .ofEval (hcx.host m.impl vs) (.subset fun v hv => List.mem_append_left _ hv)
      | false =>
          obtain ⟨-, _, _, _, _, hx, -⟩ := (Payload.emit_callInstance hm).mp he
          cases hx
  | .call (some x) m args, _, _, _, _, he, hp, _ => by
      cases hm : m.isStatic with
      | true =>
          obtain ⟨-, codes, ha, rfl⟩ := (Payload.emit_callStatic hm).mp he
          -- a static method ignores the target, and no code is emitted for it
          have hpa := hp.right x.walk_balanced (.refl _)
          simp only [Code.run, Payload.interpret, hm, ↓reduceIte]
          refine (Node.followsAll hcx hruns args ha hpa).bind fun vs => ?_
          exact .ofEval (hcx.host m.impl vs) (.subset fun v hv => List.mem_append_left _ hv)
      | false =>
          obtain ⟨-, _, this, s₁, codes, heq, hx, ha, rfl⟩ := (Payload.emit_callInstance hm).mp he
          cases heq
          have hpx := hp.left x.walk_balanced (Node.emitAll_grows args ha)
          have hpa := hp.right x.walk_balanced (Node.emit_grows x hx)
          simp only [Code.run, Payload.interpret, hm, Bool.false_eq_true, ↓reduceIte]
          refine (Node.follows hcx hruns x hx hpx).bind fun v => ?_
          refine (Follows.present (by simp [Held.add, values])).bind fun this => ?_
          refine Follows.bind (Node.followsAll hcx hruns args ha (hpa.values (by rfl)))
            fun vs => ?_
          refine .ofEval (hcx.host m.impl (this :: vs)) (.subset fun u hu => ?_)
          rcases List.mem_cons.mp hu with rfl | hu
          · simp [Held.add, values]
          · exact List.mem_append_left _ hu
  | .new (some c) args, _, _, _, _, he, hp, _ => by
      obtain ⟨-, codes, ha, rfl⟩ := Payload.emit_construct.mp he
      refine (Node.followsAll hcx hruns args ha hp).bind fun vs => ?_
      exact .ofEval (hcx.host c.impl vs) (.subset fun v hv => List.mem_append_left _ hv)
  | .new none args, _, _, _, _, he, _, _ => by
      obtain ⟨-, hc⟩ := emitDefault_eq_ok (Payload.emit_newDefault.mp he).2
      exact Follows.newDefault hcx hc
  | .newArray items, _, _, _, _, he, hp, _ => by
      rcases Payload.emit_newArray.mp he with
        ⟨rfl, codes, hi, rfl⟩ | ⟨rfl, x, e, length, hi, hty, hx, rfl⟩
      · refine (Node.followsAll hcx hruns items hi hp).bind fun vs => ?_
        exact .ofEval (Simulates.newArray vs) (.subset fun v hv => List.mem_append_left _ hv)
      · -- the length as a list of one node, as in the walk over the items
        have hall : Node.emitAll Φ.C.context Φ.scope items _ = .ok ([length], _) :=
          hi ▸ Node.emitAll_cons.mpr ⟨_, _, _, hx, Node.emitAll_nil.mpr ⟨rfl, rfl⟩, rfl⟩
        have hone := Node.followsAll hcx hruns items hall hp
        subst hi
        rw [Payload.interpret_newArrayBounds hty]
        refine (Follows.of_singleton hone).bind fun v => ?_
        rw [hcx.arrayLimit]
        refine Follows.bind (.ofExcept (.asLength _ v) fun _ _ => .nil _) fun n => ?_
        refine .ofEval (Simulates.newArray (List.replicate n e.default)) fun k _ u hu => ?_
        rw [List.eq_of_mem_replicate hu]
        exact .plain (Value.isPlain_of_isScalar (Ty.default_isScalar e))
  | .lambda l, _, _, _, _, he, hp, _ => by
      obtain ⟨-, unit, hl, rfl⟩ := Payload.emit_lambda.mp he
      exact .closure (hp.unitAt hl) hruns.limit
  | .invoke x args, _, _, _, _, he, hp, _ => by
      obtain ⟨-, callee, s₁, codes, hx, ha, rfl⟩ := Payload.emit_invoke.mp he
      have hpx := hp.left x.walk_balanced (Node.emitAll_grows args ha)
      have hpa := hp.right x.walk_balanced (Node.emit_grows x hx)
      refine (Node.follows hcx hruns x hx hpx).bind fun f => ?_
      refine Follows.bind (Node.followsAll hcx hruns args ha (hpa.values (by rfl))) fun vs => ?_
      rw [← hruns.depth]
      exact .ofEval (hcx.apply f vs) (.subset fun v hv => List.mem_append_left _ hv)
  | .typeIs x t, _, _, _, _, he, hp, _ => by
      obtain ⟨-, operand, hx, rfl⟩ := Payload.emit_typeIs.mp he
      refine (Node.follows hcx hruns x hx hp).bind fun v => ?_
      exact .ofEval (hcx.unary (.typeIs t) v) (.subset (by simp [Held.add, values]))
  | .assign p x, _, _, _, _, he, hp, _ => by
      obtain ⟨-, value, a, hx, ha, rfl⟩ := Payload.emit_assign.mp he
      refine (Node.follows hcx hruns x hx hp.tail).bind fun v => ?_
      refine Follows.bind (.store (hp.values (by rfl)).within (by simp [Held.add, values]) ha
        hp.inside) fun _ => ?_
      exact .pure (.mem (by simp [Held.add, values]))
  | .block items, _, _, _, _, he, hp, _ => by
      obtain ⟨-, codes, hi, rfl⟩ := Payload.emit_block.mp he
      exact Node.followsBlock hcx hruns items hi hp (.plain rfl)
  | .listInit x inits, _, _, _, _, he, hp, _ => by
      obtain ⟨-, new, s₁, steps, hx, hs, rfl⟩ := Payload.emit_listInit.mp he
      have hgs := ElementInit.emitAll_grows inits hs
      have hpx := hp.left x.walk_balanced ((EmitState.Grows.temporary s₁).trans hgs)
      have hps := hp.right x.walk_balanced (Node.emit_grows x hx)
      refine (Node.follows hcx hruns x hx hpx).bind fun v => ?_
      -- the new value stays in a temporary while the elements are added
      refine Follows.assemble (hps.values (by rfl)) hgs (by simp [Held.add, values]) ?_
      exact ElementInit.follows hcx hruns inits hs ((hps.values (by rfl)).keep v)
        List.mem_cons_self (by simp [Held.add, Held.keep, values])
  | .memberInit x bindings, _, _, _, _, he, hp, _ => by
      obtain ⟨-, new, s₁, steps, hx, hs, rfl⟩ := Payload.emit_memberInit.mp he
      have hgs := MemberBinding.emitAll_grows bindings hs
      have hpx := hp.left x.walk_balanced ((EmitState.Grows.temporary s₁).trans hgs)
      have hps := hp.right x.walk_balanced (Node.emit_grows x hx)
      refine (Node.follows hcx hruns x hx hpx).bind fun v => ?_
      refine Follows.assemble (hps.values (by rfl)) hgs (by simp [Held.add, values]) ?_
      exact MemberBinding.follows hcx hruns bindings hs ((hps.values (by rfl)).keep v)
        List.mem_cons_self (by simp [Held.add, Held.keep, values])

theorem Node.followsAll (hcx : ContextsMatch A Φ.C.schema cx cx')
    (hruns : cx'.Runs Φ) : (ns : List Tree) →
    {cs : List Code} → {s s' : EmitState} → {H : Held} →
    Node.emitAll Φ.C.context Φ.scope ns s = .ok (cs, s') → Part Φ H s s' (Node.walkAll ns) →
    Follows A Φ H (Code.runAll cx Φ.frame cs) (Node.interpretAll cx' Φ.environment ns)
  | [], _, _, _, _, he, _ => by
      obtain ⟨rfl, -⟩ := Node.emitAll_nil.mp he
      exact .pure (.nil _)
  | n :: ns, _, _, _, _, he, hp => by
      obtain ⟨code, s₁, rest, hn, hns, rfl⟩ := Node.emitAll_cons.mp he
      have hpn := hp.left n.walk_balanced (Node.emitAll_grows ns hns)
      have hpns := hp.right n.walk_balanced (Node.emit_grows n hn)
      refine (Node.follows hcx hruns n hn hpn).bind fun v => ?_
      refine Follows.bind (Node.followsAll hcx hruns ns hns (hpns.values (by rfl))) fun vs => ?_
      refine .pure fun k hk u hu => ?_
      rcases List.mem_cons.mp hu with rfl | hu
      · exact hk _ (by simp [Held.add, values])
      · exact hk _ (by simp [Held.add, values, hu])

theorem Node.followsBlock (hcx : ContextsMatch A Φ.C.schema cx cx')
    (hruns : cx'.Runs Φ) : (ns : List Tree) →
    {cs : List Code} → {s s' : EmitState} → {H : Held} → {last : Value} →
    Node.emitAll Φ.C.context Φ.scope ns s = .ok (cs, s') → Part Φ H s s' (Node.walkAll ns) →
    Yields H.values [last] →
    Follows A Φ H (Code.runBlock cx Φ.frame last cs)
      (Node.interpretBlock cx' Φ.environment last ns)
  | [], _, _, _, _, _, he, _, hl => by
      obtain ⟨rfl, -⟩ := Node.emitAll_nil.mp he
      exact .pure hl
  | n :: ns, _, _, _, _, _, he, hp, _ => by
      obtain ⟨code, s₁, rest, hn, hns, rfl⟩ := Node.emitAll_cons.mp he
      have hpn := hp.left n.walk_balanced (Node.emitAll_grows ns hns)
      have hpns := hp.right n.walk_balanced (Node.emit_grows n hn)
      refine (Node.follows hcx hruns n hn hpn).bind fun v => ?_
      exact Node.followsBlock hcx hruns ns hns (hpns.values rfl)
        (.mem (by simp [Held.add, values]))

theorem ElementInit.follows (hcx : ContextsMatch A Φ.C.schema cx cx')
    (hruns : cx'.Runs Φ) :
    (inits : List (ElementInit Value)) → {steps : List Code} → {s s' : EmitState} → {H : Held} →
    {slot : Nat} → {target : Value} →
    ElementInit.emitAll Φ.C.context Φ.scope slot inits s = .ok (steps, s') →
    Part Φ H s s' (ElementInit.walkAll inits) → (slot, target) ∈ H.slots → target ∈ H.values →
    Follows A Φ H (Code.runSteps cx Φ.frame steps)
      (ElementInit.interpretAll cx' Φ.environment target inits)
  | [], _, _, _, _, _, _, he, _, _, _ => by
      obtain ⟨rfl, -⟩ := ElementInit.emitAll_nil.mp he
      exact .pure (.nil _)
  | .mk add args :: rest, _, _, _, _, _, _, he, hp, hs, hv => by
      obtain ⟨-, codes, s₁, steps, ha, hr, rfl⟩ := ElementInit.emitAll_cons.mp he
      have hpa := hp.left (Node.walkAll_balanced args) (ElementInit.emitAll_grows rest hr)
      have hpr := hp.right (Node.walkAll_balanced args) (Node.emitAll_grows args ha)
      simp only [Code.runSteps, Code.run, ElementInit.interpretAll, bind_assoc, pure_bind]
      refine .loadSlot hs ((Follows.present hv).bind fun this => ?_)
      refine Follows.bind (Node.followsAll hcx hruns args ha (hpa.values (by rfl))) fun vs => ?_
      refine Follows.bind (.ofEval (hcx.host add.impl (this :: vs)) (.subset fun u hu => ?_))
        fun _ => ?_
      · rcases List.mem_cons.mp hu with rfl | hu
        · simp [Held.add, values]
        · exact List.mem_append_left _ hu
      · exact ElementInit.follows hcx hruns rest hr (hpr.values (by rfl)) hs
          (by simp [Held.add, hv])

theorem MemberBinding.follows (hcx : ContextsMatch A Φ.C.schema cx cx')
    (hruns : cx'.Runs Φ) :
    (bindings : List (MemberBinding Value)) → {steps : List Code} → {s s' : EmitState} →
    {H : Held} → {slot : Nat} → {target : Value} →
    MemberBinding.emitAll Φ.C.context Φ.scope slot bindings s = .ok (steps, s') →
    Part Φ H s s' (MemberBinding.walkAll bindings) → (slot, target) ∈ H.slots →
    target ∈ H.values →
    Follows A Φ H (Code.runSteps cx Φ.frame steps)
      (MemberBinding.interpretAll cx' Φ.environment target bindings)
  | [], _, _, _, _, _, _, he, _, _, _ => by
      obtain ⟨rfl, -⟩ := MemberBinding.emitAll_nil.mp he
      exact .pure (.nil _)
  | .assign m x :: rest, _, _, _, _, _, target, he, hp, hs, hv => by
      obtain ⟨value, s₁, steps, hx, hr, rfl⟩ := MemberBinding.emitAll_assign he
      have hpx := hp.left x.walk_balanced (MemberBinding.emitAll_grows rest hr)
      have hpr := hp.right x.walk_balanced (Node.emit_grows x hx)
      simp only [Code.runSteps, Code.run, MemberBinding.interpretAll, bind_assoc, pure_bind]
      refine (Node.follows hcx hruns x hx hpx).bind fun v => .loadSlot hs ?_
      refine Follows.bind (.ofEval (hcx.writeMember m target v)
        (.subset (by simp [Held.add, values, hv]))) fun _ => ?_
      exact MemberBinding.follows hcx hruns rest hr (hpr.values (by rfl)) hs
        (by simp [Held.add, hv])
  | .bind m nested :: rest, _, s, _, H, _, target, he, hp, hs, hv => by
      obtain ⟨inner, s₁, steps, hn, hr, rfl⟩ := MemberBinding.emitAll_bind.mp he
      have hgr := MemberBinding.emitAll_grows rest hr
      have hgn := MemberBinding.emitAll_grows nested hn
      have hb := MemberBinding.walkAll_balanced nested
      simp only [Code.runSteps, Code.run, MemberBinding.interpretAll, bind_assoc, pure_bind]
      refine .loadSlot hs ?_
      refine Follows.bind (.ofEval (hcx.readMember m target) (.mem hv)) fun v => ?_
      -- the member that is descended into has a temporary of its own
      have hp' : Part Φ ((H.add [v]).keep s.slots v) _ _ _ := (hp.values (by rfl)).keep v
      refine .keep hp.within hp.arity (hp.slot_lt (hgn.trans hgr)) ?_
      refine Follows.bind (MemberBinding.follows hcx hruns nested hn (hp'.left hb hgr)
        List.mem_cons_self (by simp [Held.add, Held.keep, values])) fun _ => ?_
      exact MemberBinding.follows hcx hruns rest hr ((hp'.right hb hgn).values (by rfl))
        (List.mem_cons_of_mem _ hs) (by simp [Held.add, Held.keep, hv])
  | .list m inits :: rest, _, s, _, H, _, target, he, hp, hs, hv => by
      obtain ⟨inner, s₁, steps, hn, hr, rfl⟩ := MemberBinding.emitAll_list.mp he
      have hgr := MemberBinding.emitAll_grows rest hr
      have hgn := ElementInit.emitAll_grows inits hn
      have hb := ElementInit.walkAll_balanced inits
      simp only [Code.runSteps, Code.run, MemberBinding.interpretAll, bind_assoc, pure_bind]
      refine .loadSlot hs ?_
      refine Follows.bind (.ofEval (hcx.readMember m target) (.mem hv)) fun v => ?_
      have hp' : Part Φ ((H.add [v]).keep s.slots v) _ _ _ := (hp.values (by rfl)).keep v
      refine .keep hp.within hp.arity (hp.slot_lt (hgn.trans hgr)) ?_
      refine Follows.bind (ElementInit.follows hcx hruns inits hn (hp'.left hb hgr)
        List.mem_cons_self (by simp [Held.add, Held.keep, values])) fun _ => ?_
      exact MemberBinding.follows hcx hruns rest hr ((hp'.right hb hgn).values (by rfl))
        (List.mem_cons_of_mem _ hs) (by simp [Held.add, Held.keep, hv])

end

end Trees

end ExprTree
