import ExprTree.Proofs.Isolation
import ExprTree.Proofs.Simulation.Invocations
import ExprTree.Proofs.Interleaving.Worlds

set_option autoImplicit false

/-! # Two runs of the same code

A program is self-contained if it uses no host function, member or constructor and if its constants
refer to no list, instance or function. Run in two worlds that are alike, on arguments that are
alike, its code ends with the same error or with results that are alike, and leaves worlds that are
alike (`invokeAt_alike`). This is proved for each form of code, and from there for invocations that
nest to any depth.
-/

namespace ExprTree

variable {base : Nat} {ρ σ : Correspondence base} {p : Program}

/-! ## Computations -/

/-- A state of a computation, inside or outside of a frame. -/
class HasWorld (M : Type) where
  world : M → World
  /-- The values that the state itself holds. -/
  held : M → List Value

instance : HasWorld World := ⟨id, fun _ => []⟩

instance : HasWorld Machine := ⟨Machine.world, fun m => m.slots.toList⟩

/-- The worlds of the two states are alike, and so are the values that they hold. -/
structure StateAlike {M : Type} [HasWorld M] (ρ : Correspondence base) (p : Program) (s t : M) :
    Prop where
  world : World.Alike ρ p (HasWorld.world s) (HasWorld.world t)
  held : Value.AlikeAll ρ (HasWorld.held s) (HasWorld.held t)

/-- The same error or related results, in states that are alike. The second run started in `t`. -/
inductive EndsAlike {M β γ : Type} [HasWorld M] (p : Program)
    (R : Correspondence base → β → γ → Prop) (ρ : Correspondence base) (t : M) :
    EStateM.Result (Stop RuntimeError) M β → EStateM.Result (Stop RuntimeError) M γ → Prop
  | ok {σ : Correspondence base} {s' t' : M} {a : β} {b : γ}
      (step : Advances ρ σ (HasWorld.world t) (HasWorld.world t')) (state : StateAlike σ p s' t')
      (h : R σ a b) : EndsAlike p R ρ t (.ok a s') (.ok b t')
  | error {σ : Correspondence base} {s' t' : M}
      (step : Advances ρ σ (HasWorld.world t) (HasWorld.world t')) (state : StateAlike σ p s' t')
      (e : Stop RuntimeError) : EndsAlike p R ρ t (.error e s') (.error e t')

/-- From states that are alike, now or later, both computations end alike. -/
def RunsAlike {M β γ : Type} [HasWorld M] (p : Program) (R : Correspondence base → β → γ → Prop)
    (ρ : Correspondence base) (x : EStateM (Stop RuntimeError) M β)
    (y : EStateM (Stop RuntimeError) M γ) : Prop :=
  ∀ σ, ρ.Extends σ → ∀ s t, StateAlike σ p s t → EndsAlike p R σ t (x s) (y t)

namespace RunsAlike

variable {M β γ β' γ' : Type} [HasWorld M] {R : Correspondence base → β → γ → Prop}
  {S : Correspondence base → β' → γ' → Prop}

theorem pure {a : β} {b : γ} (h : ∀ σ, ρ.Extends σ → R σ a b) :
    RunsAlike (M := M) p R ρ (Pure.pure a) (Pure.pure b) :=
  fun σ hext _ t hst => .ok (.refl σ (HasWorld.world t)) hst (h σ hext)

theorem throw (e : Stop RuntimeError) :
    RunsAlike (M := M) p R ρ (MonadExcept.throw e) (MonadExcept.throw e) :=
  fun σ _ _ t hst => .error (.refl σ (HasWorld.world t)) hst e

theorem bind {x : EStateM (Stop RuntimeError) M β} {y : EStateM (Stop RuntimeError) M γ}
    {f : β → EStateM (Stop RuntimeError) M β'} {g : γ → EStateM (Stop RuntimeError) M γ'}
    (hx : RunsAlike p R ρ x y)
    (hf : ∀ σ, ρ.Extends σ → ∀ a b, R σ a b → RunsAlike p S σ (f a) (g b)) :
    RunsAlike p S ρ (x >>= f) (y >>= g) := by
  intro σ hext s t hst
  have hxy := hx σ hext s t hst
  simp only [Bind.bind, EStateM.bind]
  revert hxy
  generalize x s = r
  generalize y t = r'
  rintro (@⟨τ, s', t', a, b, step, state, h⟩ | @⟨τ, s', t', step, state, e⟩)
  · -- the second computation goes on from where the first one ended
    have hrest := hf τ (hext.trans step.correspondence) a b h τ (.refl τ) s' t' state
    show EndsAlike p S σ t (f a s') (g b t')
    revert hrest
    generalize f a s' = r
    generalize g b t' = r'
    rintro (⟨step', state', h'⟩ | ⟨step', state', e⟩)
    · exact .ok (step.trans step') state' h'
    · exact .error (step.trans step') state' e
  · exact .error step state e

/-- The same result on both sides. -/
theorem bindEq {x y : EStateM (Stop RuntimeError) M β} {f : β → EStateM (Stop RuntimeError) M β'}
    {g : β → EStateM (Stop RuntimeError) M γ'} (hx : RunsAlike p (fun _ => Eq) ρ x y)
    (hf : ∀ σ, ρ.Extends σ → ∀ a, RunsAlike p S σ (f a) (g a)) :
    RunsAlike p S ρ (x >>= f) (y >>= g) :=
  hx.bind fun σ hext a _ hab => hab ▸ hf σ hext a

theorem ofSame {a : β} : RunsAlike (M := M) p (fun _ => Eq) ρ (Pure.pure a) (Pure.pure a) :=
  .pure fun _ _ => rfl

theorem scalar {v : Value} (h : v.isScalar = true) :
    RunsAlike (M := M) p Value.Alike ρ (Pure.pure v) (Pure.pure v) :=
  .pure fun _ _ => .scalar h

theorem value {v v' : Value} (h : v.Alike ρ v') :
    RunsAlike (M := M) p Value.Alike ρ (Pure.pure v) (Pure.pure v') :=
  .pure fun _ hext => h.mono hext

/-- A computation that depends on the state. -/
theorem withState {f : M → EStateM (Stop RuntimeError) M β}
    {g : M → EStateM (Stop RuntimeError) M γ}
    (h : ∀ σ, ρ.Extends σ → ∀ s t, StateAlike σ p s t → EndsAlike p R σ t (f s s) (g t t)) :
    RunsAlike p R ρ (get >>= f) (get >>= g) := h

end RunsAlike

/-! ## Outside of a frame -/

section Eval

variable {β γ : Type} {R : Correspondence base → β → γ → Prop}

theorem EndsAlike.evalExcept {w v : World} (hst : StateAlike ρ p w v)
    {x : Except RuntimeError β} {y : Except RuntimeError γ} (h : SameOutcome (R ρ) x y) :
    EndsAlike p R ρ v (Eval.ofExcept x w) (Eval.ofExcept y v) := by
  cases h with
  | ok hab => exact .ok (.refl ρ v) hst hab
  | error e => exact .error (.refl ρ v) hst (.raised e)

theorem RunsAlike.evalExcept {x : Except RuntimeError β} {y : Except RuntimeError γ}
    (h : ∀ σ, ρ.Extends σ → SameOutcome (R σ) x y) :
    RunsAlike p R ρ (Eval.ofExcept x) (Eval.ofExcept y) :=
  fun σ hext _ _ hst => .evalExcept hst (h σ hext)

/-- A result that is read from the heap. -/
theorem RunsAlike.evalHeap {f : Heap → Except RuntimeError β} {g : Heap → Except RuntimeError γ}
    (h : ∀ σ, ρ.Extends σ → ∀ heap heap', heap.EmptyLists σ heap' →
      SameOutcome (R σ) (f heap) (g heap')) :
    RunsAlike p R ρ (do Eval.ofExcept (f (← get).heap)) (do Eval.ofExcept (g (← get).heap)) :=
  .withState fun σ hext w v hst => .evalExcept hst (h σ hext w.heap v.heap hst.world.emptyLists)

/-- A scalar, if any, that is read from the heap. -/
theorem RunsAlike.evalScalar {f g : Heap → Option (Except RuntimeError Value)}
    (hsame : ∀ σ, ρ.Extends σ → ∀ heap heap', heap.EmptyLists σ heap' → g heap' = f heap)
    (hscalar : ∀ heap v, f heap = some (.ok v) → v.isScalar = true) :
    RunsAlike p Value.Alike ρ (do Eval.ofOption (f (← get).heap))
      (do Eval.ofOption (g (← get).heap)) := by
  refine .withState fun σ hext w v hst => ?_
  rw [hsame σ hext w.heap v.heap hst.world.emptyLists]
  cases hf : f w.heap with
  | none => exact .error (.refl σ v) hst .unfinished
  | some r =>
      exact .evalExcept hst (.ofScalar rfl fun x hx => hscalar w.heap x (by rw [hf, hx]))

/-- New values that are alike. -/
theorem RunsAlike.alloc {make make' : Heap → Value × Heap}
    (h : ∀ σ, ρ.Extends σ → ∀ w v, World.Alike σ p w v → ∃ τ,
      Advances σ τ v { v with heap := (make' v.heap).2 } ∧
      World.Alike τ p { w with heap := (make w.heap).2 } { v with heap := (make' v.heap).2 } ∧
      (make w.heap).1.Alike τ (make' v.heap).1) :
    RunsAlike p Value.Alike ρ (Eval.alloc make) (Eval.alloc make') := by
  intro σ hext w v hst
  obtain ⟨τ, hstep, hworld, hvalue⟩ := h σ hext w v hst.world
  exact .ok hstep ⟨hworld, .nil⟩ hvalue

/-- Corresponding closures have scopes that are alike. -/
theorem RunsAlike.scopeOf {f g : FunctionRef} (h : ρ.closures.Rel f.id g.id) :
    RunsAlike p (fun σ s s' => s.Alike σ p s') ρ (Eval.scopeOf f) (Eval.scopeOf g) := by
  refine .withState fun σ hext w v hst => ?_
  obtain ⟨s, s', hs, hs', hss⟩ := hst.world.closures _ _ (hext.closures _ _ h)
  have hscope : w.scope? f = some s := hs
  have hscope' : v.scope? g = some s' := hs'
  rw [hscope, hscope']
  exact .ok (.refl σ v) hst hss

end Eval

/-! ## Frames -/

/-- The same unit runs at the same depth, in corresponding surroundings and with corresponding
cells. -/
structure Frame.Alike (ρ : Correspondence base) (p : Program) (f g : Frame) : Prop where
  scope : f.scope.Alike ρ p g.scope
  cells : Option.Rel ρ.cells.Rel f.cells g.cells
  depth : g.depth = f.depth

namespace Frame.Alike

variable {f g : Frame}

theorem mono (h : f.Alike ρ p g) (hext : ρ.Extends σ) : f.Alike σ p g :=
  ⟨h.scope.mono hext, optionRel_mono h.cells hext.cells, h.depth⟩

theorem cellOf (h : f.Alike ρ p g) (a : Address) :
    Option.Rel ρ.Cell (f.cellOf a) (g.cellOf a) := by
  cases a with
  | slot i => exact .none
  | own position => exact optionRel_map h.cells fun _ _ hcells => ⟨hcells, rfl⟩
  | captured level position =>
      exact optionRel_map (h.scope.localsAt level) fun _ _ hcells => ⟨hcells, rfl⟩

theorem constant (h : f.Alike ρ p g) (i : Nat) :
    f.constant i = (p.pool.get? i).getD .null ∧ g.constant i = (p.pool.get? i).getD .null := by
  obtain ⟨hf, hg⟩ := h.scope.program
  rw [Frame.constant, Frame.constant, hf, hg]
  exact ⟨rfl, rfl⟩

theorem closure (h : f.Alike ρ p g) (unit : Nat) :
    RunsAlike p Value.Alike ρ (f.closure unit) (g.closure unit) := by
  intro σ hext w v hst
  have hscope : Scope.Alike σ p (.nested f.scope unit f.cells) (.nested g.scope unit g.cells) :=
    .nested (h.mono hext).scope unit (h.mono hext).cells
  obtain ⟨τ, hstep, hworld, hvalue⟩ := hst.world.newClosure hscope
  exact .ok hstep ⟨hworld, .nil⟩ hvalue

theorem quote (h : f.Alike ρ p g) {x : Value} (hx : x.Grounded base) :
    RunsAlike p Value.Alike ρ (f.quote x) (g.quote x) := by
  cases x with
  | expression t =>
      refine .withState fun σ hext w v hst => ?_
      have hf := h.mono hext
      have hworld : World.Alike σ p w v := hst.world
      have hisolate := hworld.isolate hf.scope hf.cells hx
      revert hisolate
      generalize w.isolate f.scope f.cells t = r
      generalize v.isolate g.scope g.cells t = r'
      rintro (@⟨a, b, τ, hstep, hworld, hvalue⟩ | e)
      · exact .ok hstep ⟨hworld, .nil⟩ hvalue
      · exact .error (.refl σ v) hst (.raised e)
  | _ => exact .throw _

end Frame.Alike

section Exec

variable {β γ : Type} {R : Correspondence base → β → γ → Prop}

theorem RunsAlike.ofEval {x : Eval β} {y : Eval γ} (h : RunsAlike p R ρ x y) :
    RunsAlike p R ρ (Exec.ofEval x) (Exec.ofEval y) := by
  intro σ hext m n hst
  have hxy := h σ hext m.world n.world ⟨hst.world, .nil⟩
  unfold Exec.ofEval
  revert hxy
  generalize x m.world = r
  generalize y n.world = r'
  -- the slots are as before, and alike under the new correspondence too
  have hstate : ∀ {τ : Correspondence base} {w v : World}, Advances σ τ n.world v →
      StateAlike τ p w v → StateAlike τ p { m with world := w } { n with world := v } :=
    fun step state => ⟨state.world, hst.held.mono step.correspondence⟩
  rintro (⟨step, state, hab⟩ | ⟨step, state, e⟩)
  · exact .ok step (hstate step state) hab
  · refine .error ?_ (hstate step state) e
    exact step

/-- The same result on both sides. -/
theorem RunsAlike.execSame {x y : Except RuntimeError β} (h : y = x) :
    RunsAlike p (fun _ : Correspondence base => Eq) ρ (Exec.ofExcept x) (Exec.ofExcept y) := by
  subst h
  cases y with
  | ok a => exact .ofSame
  | error e => exact .throw (.raised e)

theorem RunsAlike.loadSlot (i : Nat) :
    RunsAlike p Value.Alike ρ (Exec.loadSlot i) (Exec.loadSlot i) := by
  intro σ _ m n hst
  refine .ok (.refl σ n.world) hst ?_
  have hslot : Option.Rel (Value.Alike σ) m.slots[i]? n.slots[i]? := by
    have hitem := getElem?_forall₂ hst.held i
    simpa only [HasWorld.held, Array.getElem?_toList] using hitem
  exact optionRel_getD hslot .null

theorem RunsAlike.storeSlot (i : Nat) {x y : Value} (hxy : x.Alike ρ y) :
    RunsAlike p (fun _ => Eq) ρ (Exec.storeSlot i x) (Exec.storeSlot i y) := by
  intro σ hext m n hst
  refine .ok (.refl σ n.world) ⟨hst.world, ?_⟩ rfl
  show Value.AlikeAll σ (m.slots.setIfInBounds i x).toList (n.slots.setIfInBounds i y).toList
  rw [Array.toList_setIfInBounds, Array.toList_setIfInBounds]
  exact forall₂_set hst.held i (hxy.mono hext)

end Exec

namespace Frame.Alike

variable {f g : Frame}

theorem load (h : f.Alike ρ p g) (a : Address) :
    RunsAlike p Value.Alike ρ (f.load a) (g.load a) := by
  have hcells : ∀ σ, ρ.Extends σ → Option.Rel σ.Cell (f.cellOf a) (g.cellOf a) :=
    fun σ hext => (h.mono hext).cellOf a
  cases a with
  | slot i => exact .loadSlot i
  | _ =>
      refine .withState fun σ hext m n hst => ?_
      rcases optionRel_cases (hcells σ hext) with ⟨hf, hg⟩ | ⟨⟨c, k⟩, ⟨d, l⟩, hf, hg, hab⟩
      · rw [hf, hg]
        exact .error (.refl σ n.world) hst _
      · have hvalue : Option.Rel (Value.Alike σ) (m.world.cell? c k) (n.world.cell? d l) :=
          hst.world.cell? hab
        rw [hf, hg]
        rcases optionRel_cases hvalue with ⟨hx, hy⟩ | ⟨x, y, hx, hy, hxy⟩
        · simp only [Option.bind_some, hx, hy]
          exact .error (.refl σ n.world) hst _
        · simp only [Option.bind_some, hx, hy]
          exact .ok (.refl σ n.world) hst hxy

theorem store (h : f.Alike ρ p g) (a : Address) {x y : Value} (hxy : x.Alike ρ y) :
    RunsAlike p (fun _ => Eq) ρ (f.store a x) (g.store a y) := by
  have hcells : ∀ σ, ρ.Extends σ → Option.Rel σ.Cell (f.cellOf a) (g.cellOf a) :=
    fun σ hext => (h.mono hext).cellOf a
  cases a with
  | slot i => exact .storeSlot i hxy
  | _ =>
      refine .withState fun σ hext m n hst => ?_
      rcases optionRel_cases (hcells σ hext) with ⟨hf, hg⟩ | ⟨⟨c, k⟩, ⟨d, l⟩, hf, hg, hab⟩
      · rw [hf, hg]
        exact .error (.refl σ n.world) hst _
      · have hworlds : Option.Rel (fun w v => Advances σ σ n.world v ∧ World.Alike σ p w v)
            (m.world.setCell? c k x) (n.world.setCell? d l y) :=
          hst.world.setCell? hab (hxy.mono hext)
        rw [hf, hg]
        rcases optionRel_cases hworlds with ⟨hw, hv⟩ | ⟨w, v, hw, hv, hstep, hwv⟩
        · simp only [Option.bind_some, hw, hv]
          exact .error (.refl σ n.world) hst _
        · simp only [Option.bind_some, hw, hv]
          have hstate : StateAlike σ p { m with world := w } { n with world := v } :=
            ⟨hwv, hst.held⟩
          exact .ok hstep hstate rfl

end Frame.Alike

/-! ## Actions -/

/-- Corresponding closures can be invoked, on arguments that are alike. -/
def Context.InvokesAlike (base : Nat) (p : Program) (cx : Context) : Prop :=
  ∀ (ρ : Correspondence base) (depth : UInt32) (f g : FunctionRef) (args args' : List Value),
    ρ.closures.Rel f.id g.id → Value.AlikeAll ρ args args' →
      RunsAlike p Value.Alike ρ (cx.invoke depth f args) (cx.invoke depth g args')

namespace Context

variable {cx : Context} {v v' l l' r r' : Value}

theorem unary_alike {action : UnaryAction} (haction : action.isPrimitive = true)
    (h : v.Alike ρ v') : RunsAlike p Value.Alike ρ (cx.unary action v) (cx.unary action v') := by
  cases action with
  | primitive op => exact .evalExcept fun σ hext => op.apply_alike (h.mono hext)
  | convert c => exact .evalExcept fun σ hext => c.apply_alike cx.schema (h.mono hext)
  | user m => cases haction
  | typeAs ty =>
      simp only [Context.unary, h.conformsTo]
      split
      · exact .value h
      · exact .value .null
  | typeIs ty =>
      simp only [Context.unary, h.conformsTo, h.isNull]
      exact .scalar rfl

theorem binary_alike {action : BinaryAction} (haction : action.isPrimitive = true)
    (hl : l.Alike ρ l') (hr : r.Alike ρ r') :
    RunsAlike p Value.Alike ρ (cx.binary action l r) (cx.binary action l' r') := by
  cases action with
  | primitive op =>
      exact .evalScalar
        (fun σ hext _ _ hlists => op.apply_alike hlists (hl.mono hext) (hr.mono hext))
        fun _ _ hv => op.apply_isScalar hv
  | user m => cases haction
  | element =>
      exact .evalHeap fun σ hext _ _ hlists =>
        Value.element_alike hlists (hl.mono hext) (hr.mono hext)

theorem apply_alike (hcx : cx.InvokesAlike base p) (depth : UInt32) (h : v.Alike ρ v')
    {args args' : List Value} (hargs : Value.AlikeAll ρ args args') :
    RunsAlike p Value.Alike ρ (cx.apply depth v args) (cx.apply depth v' args') := by
  have hname := h.typeName
  cases h with
  | function id => exact hcx ρ _ _ _ _ _ id hargs
  | scalar h =>
      cases v with
      | function f => cases h
      | _ => exact .throw _
  | _ =>
      simp only [Context.apply, hname]
      exact .throw _

end Context

/-! ## Code -/

mutual

/-- The code uses no host function, member or constructor, and its own constants are scalars. -/
def Code.isSelfContained : Code → Bool
  | .immediate v => v.isScalar
  | .pooled _ | .load _ | .closure _ | .newList | .quote _ => true
  | .store _ value => value.isSelfContained
  | .block items | .newArray items => Code.areSelfContained items
  | .invoke callee args => callee.isSelfContained && Code.areSelfContained args
  | .unary action _ operand => action.isPrimitive && operand.isSelfContained
  | .binary action _ left right =>
      action.isPrimitive && (left.isSelfContained && right.isSelfContained)
  | .kleene _ left right | .shortCircuit _ _ left right | .coalesce left right
  | .coalesceWith _ left right => left.isSelfContained && right.isSelfContained
  | .conditional test ifTrue ifFalse =>
      test.isSelfContained && (ifTrue.isSelfContained && ifFalse.isSelfContained)
  | .newInstance _ defaults => defaults.all (·.isScalar)
  | .newArrayOf element length => element.isScalar && length.isSelfContained
  | .assemble _ new steps => new.isSelfContained && Code.areSelfContained steps
  | .userShortCircuit .. | .staticMember _ | .member .. | .callStatic .. | .callInstance ..
  | .construct .. | .setMember .. | .descend .. | .append .. => false

/-- All of the codes are self-contained. -/
def Code.areSelfContained : List Code → Bool
  | [] => true
  | c :: cs => c.isSelfContained && Code.areSelfContained cs

end

/-- All code of the program is self-contained, and its constants refer to nothing that changes. -/
structure Program.SelfContained (base : Nat) (p : Program) : Prop where
  units : ∀ i u, p.units.get? i = some u → u.body.isSelfContained = true
  pool : ∀ i v, p.pool.get? i = some v → v.Grounded base

theorem Program.SelfContained.constant (hp : p.SelfContained base) (i : Nat) :
    ((p.pool.get? i).getD .null).Grounded base := by
  cases hi : p.pool.get? i with
  | none => exact .scalar rfl
  | some v => exact hp.pool i v hi

section Code

variable {cx : Context} {f g : Frame} {lifted : Bool} {l l' r r' : Value}

theorem RunsAlike.liftedUnary {action : UnaryAction} (haction : action.isPrimitive = true)
    (h : l.Alike ρ l') :
    RunsAlike p Value.Alike ρ
      (if lifted && l.isNull then Pure.pure .null else Exec.ofEval (cx.unary action l))
      (if lifted && l'.isNull then Pure.pure .null else Exec.ofEval (cx.unary action l')) := by
  rw [h.isNull]
  split
  · exact .scalar rfl
  · exact .ofEval (Context.unary_alike haction h)

theorem RunsAlike.liftedBinary {action : BinaryAction} (haction : action.isPrimitive = true)
    (n : NullResult) (hl : l.Alike ρ l') (hr : r.Alike ρ r') :
    RunsAlike p Value.Alike ρ
      (if l.isNull || r.isNull then Pure.pure (n.resolve l r)
        else Exec.ofEval (cx.binary action l r))
      (if l'.isNull || r'.isNull then Pure.pure (n.resolve l' r')
        else Exec.ofEval (cx.binary action l' r')) := by
  rw [hl.isNull, hr.isNull, n.resolve_alike hl hr]
  split
  · exact .scalar (n.resolve_isScalar l r)
  · exact .ofEval (Context.binary_alike haction hl hr)

theorem RunsAlike.asBool (h : l.Alike ρ l') :
    RunsAlike p (fun _ => Eq) ρ (Exec.ofExcept l.asBool) (Exec.ofExcept l'.asBool) :=
  .execSame h.asBool

theorem RunsAlike.asOptionalBool (h : l.Alike ρ l') :
    RunsAlike p (fun _ => Eq) ρ (Exec.ofExcept l.asOptionalBool)
      (Exec.ofExcept l'.asOptionalBool) :=
  .execSame h.asOptionalBool

mutual

theorem Code.run_alike (hp : p.SelfContained base) (hcx : cx.InvokesAlike base p) :
    (c : Code) → c.isSelfContained = true → ∀ {ρ : Correspondence base}, f.Alike ρ p g →
    RunsAlike p Value.Alike ρ (c.run cx f) (c.run cx g)
  | .immediate _, h, _, _ => .scalar h
  | .pooled i, _, ρ, hf => by
      obtain ⟨hconstant, hconstant'⟩ := hf.constant i
      simp only [Code.run, hconstant, hconstant']
      exact .value ((hp.constant i).alike ρ)
  | .load a, _, _, hf => hf.load a
  | .store a value, h, _, hf =>
      (Code.run_alike hp hcx value h hf).bind fun _ hσ _ _ hxy =>
        ((hf.mono hσ).store a hxy).bindEq fun _ hτ _ => .value (hxy.mono hτ)
  | .block items, h, _, hf => Code.runBlock_alike hp hcx items h hf (.scalar rfl)
  | .closure unit, _, _, hf => .ofEval (hf.closure unit)
  | .invoke callee args, h, _, hf => by
      obtain ⟨hcallee, hargs⟩ := Bool.and_eq_true_iff.mp h
      refine (Code.run_alike hp hcx callee hcallee hf).bind fun σ hσ x y hxy => ?_
      refine (Code.runAll_alike hp hcx args hargs (hf.mono hσ)).bind fun τ hτ xs ys hxys => ?_
      rw [hf.depth]
      exact .ofEval (Context.apply_alike hcx _ (hxy.mono hτ) hxys)
  | .unary action lifted operand, h, _, hf => by
      obtain ⟨haction, hoperand⟩ := Bool.and_eq_true_iff.mp h
      exact (Code.run_alike hp hcx operand hoperand hf).bind fun _ _ _ _ hxy =>
        .liftedUnary haction hxy
  | .binary action onNull left right, h, _, hf => by
      obtain ⟨haction, hrest⟩ := Bool.and_eq_true_iff.mp h
      obtain ⟨hleft, hright⟩ := Bool.and_eq_true_iff.mp hrest
      refine (Code.run_alike hp hcx left hleft hf).bind fun σ hσ l l' hl => ?_
      refine (Code.run_alike hp hcx right hright (hf.mono hσ)).bind fun τ hτ r r' hr => ?_
      cases onNull with
      | none => exact .ofEval (Context.binary_alike haction (hl.mono hτ) hr)
      | some n => exact .liftedBinary haction n (hl.mono hτ) hr
  | .kleene conjunction left right, h, _, hf => by
      obtain ⟨hleft, hright⟩ := Bool.and_eq_true_iff.mp h
      refine (Code.run_alike hp hcx left hleft hf).bind fun σ hσ l l' hl => ?_
      refine (RunsAlike.asOptionalBool hl).bindEq fun τ hτ a => ?_
      refine (Code.run_alike hp hcx right hright (hf.mono (hσ.trans hτ))).bind
        fun _ _ r r' hr => ?_
      refine (RunsAlike.asOptionalBool hr).bindEq fun _ _ b => ?_
      exact .scalar (kleeneValue_isScalar conjunction a b)
  | .shortCircuit decisive lifted left right, h, _, hf => by
      obtain ⟨hleft, hright⟩ := Bool.and_eq_true_iff.mp h
      refine (Code.run_alike hp hcx left hleft hf).bind fun σ hσ l l' hl => ?_
      cases lifted with
      | true =>
          refine (RunsAlike.asOptionalBool hl).bindEq fun τ hτ a => ?_
          have hrun := Code.run_alike hp hcx right hright (hf.mono (hσ.trans hτ))
          cases a with
          | some a =>
              dsimp only
              split
              · exact .scalar rfl
              · exact hrun
          | none =>
              refine hrun.bind fun _ _ r r' hr => (RunsAlike.asOptionalBool hr).bindEq
                fun _ _ b => ?_
              cases b with
              | none => exact .scalar rfl
              | some b =>
                  dsimp only
                  split <;> exact .scalar rfl
      | false =>
          refine (RunsAlike.asBool hl).bindEq fun τ hτ a => ?_
          split
          · exact .scalar rfl
          · exact Code.run_alike hp hcx right hright (hf.mono (hσ.trans hτ))
  | .coalesce left right, h, _, hf => by
      obtain ⟨hleft, hright⟩ := Bool.and_eq_true_iff.mp h
      refine (Code.run_alike hp hcx left hleft hf).bind fun σ hσ l l' hl => ?_
      simp only [hl.isNull]
      split
      · exact Code.run_alike hp hcx right hright (hf.mono hσ)
      · exact .value hl
  | .coalesceWith conversion left right, h, _, hf => by
      obtain ⟨hleft, hright⟩ := Bool.and_eq_true_iff.mp h
      refine (Code.run_alike hp hcx left hleft hf).bind fun σ hσ l l' hl => ?_
      simp only [hl.isNull]
      split
      · exact Code.run_alike hp hcx right hright (hf.mono hσ)
      · refine (RunsAlike.ofEval ((hf.mono hσ).closure conversion)).bind fun τ hτ x y hxy => ?_
        rw [hf.depth]
        exact .ofEval (Context.apply_alike hcx _ hxy (.cons (hl.mono hτ) .nil))
  | .conditional test ifTrue ifFalse, h, _, hf => by
      obtain ⟨htest, hrest⟩ := Bool.and_eq_true_iff.mp h
      obtain ⟨hifTrue, hifFalse⟩ := Bool.and_eq_true_iff.mp hrest
      refine (Code.run_alike hp hcx test htest hf).bind fun σ hσ l l' hl => ?_
      refine (RunsAlike.asBool hl).bindEq fun τ hτ a => ?_
      cases a with
      | true => exact Code.run_alike hp hcx ifTrue hifTrue (hf.mono (hσ.trans hτ))
      | false => exact Code.run_alike hp hcx ifFalse hifFalse (hf.mono (hσ.trans hτ))
  | .newInstance r defaults, h, _, _ => .ofEval (.alloc fun _ _ _ _ hwv =>
      hwv.newInstance r (List.all_eq_true.mp h))
  | .newList, _, _, _ => .ofEval (.alloc fun _ _ _ _ hwv => hwv.newList)
  | .newArray items, h, _, hf =>
      (Code.runAll_alike hp hcx items h hf).bind fun _ _ _ _ hxy =>
        .ofEval (.alloc fun _ hτ _ _ hwv => hwv.newArray (hxy.mono hτ))
  | .newArrayOf element length, h, _, hf => by
      obtain ⟨helement, hlength⟩ := Bool.and_eq_true_iff.mp h
      refine (Code.run_alike hp hcx length hlength hf).bind fun σ _ l l' hl => ?_
      refine (RunsAlike.execSame (hl.asLength cx.arrayLimit)).bindEq fun τ _ n => ?_
      refine .ofEval (.alloc fun _ _ _ _ hwv => hwv.newArray (Value.alikeAll_scalars ?_))
      intro x hx
      rw [List.eq_of_mem_replicate hx]
      exact helement
  | .assemble slot new steps, h, _, hf => by
      obtain ⟨hnew, hsteps⟩ := Bool.and_eq_true_iff.mp h
      refine (Code.run_alike hp hcx new hnew hf).bind fun σ hσ x y hxy => ?_
      refine (RunsAlike.storeSlot slot hxy).bindEq fun τ hτ _ => ?_
      refine (Code.runSteps_alike hp hcx steps hsteps (hf.mono (hσ.trans hτ))).bindEq
        fun _ _ _ => ?_
      exact .loadSlot slot
  | .quote i, _, _, hf => by
      obtain ⟨hconstant, hconstant'⟩ := hf.constant i
      simp only [Code.run, hconstant, hconstant']
      exact .ofEval (hf.quote (hp.constant i))

theorem Code.runAll_alike (hp : p.SelfContained base) (hcx : cx.InvokesAlike base p) :
    (cs : List Code) → Code.areSelfContained cs = true → ∀ {ρ : Correspondence base},
    f.Alike ρ p g → RunsAlike p Value.AlikeAll ρ (Code.runAll cx f cs) (Code.runAll cx g cs)
  | [], _, _, _ => .pure fun _ _ => .nil
  | c :: cs, h, _, hf => by
      obtain ⟨hc, hcs⟩ := Bool.and_eq_true_iff.mp h
      refine (Code.run_alike hp hcx c hc hf).bind fun σ hσ x y hxy => ?_
      refine (Code.runAll_alike hp hcx cs hcs (hf.mono hσ)).bind fun τ hτ xs ys hxys => ?_
      exact .pure fun υ hυ => .cons ((hxy.mono hτ).mono hυ) (hxys.mono hυ)

theorem Code.runSteps_alike (hp : p.SelfContained base) (hcx : cx.InvokesAlike base p) :
    (cs : List Code) → Code.areSelfContained cs = true → ∀ {ρ : Correspondence base},
    f.Alike ρ p g → RunsAlike p (fun _ => Eq) ρ (Code.runSteps cx f cs) (Code.runSteps cx g cs)
  | [], _, _, _ => .ofSame
  | c :: cs, h, _, hf => by
      obtain ⟨hc, hcs⟩ := Bool.and_eq_true_iff.mp h
      exact (Code.run_alike hp hcx c hc hf).bind fun σ hσ _ _ _ =>
        Code.runSteps_alike hp hcx cs hcs (hf.mono hσ)

theorem Code.runBlock_alike (hp : p.SelfContained base) (hcx : cx.InvokesAlike base p) :
    (cs : List Code) → Code.areSelfContained cs = true → ∀ {ρ : Correspondence base},
    f.Alike ρ p g → ∀ {last last' : Value}, last.Alike ρ last' →
    RunsAlike p Value.Alike ρ (Code.runBlock cx f last cs) (Code.runBlock cx g last' cs)
  | [], _, _, _, _, _, hlast => .value hlast
  | c :: cs, h, _, hf, _, _, _ => by
      obtain ⟨hc, hcs⟩ := Bool.and_eq_true_iff.mp h
      exact (Code.run_alike hp hcx c hc hf).bind fun σ hσ _ _ hxy =>
        Code.runBlock_alike hp hcx cs hcs (hf.mono hσ) hxy

end

end Code

/-! ## Invocations -/

section Invocations

variable {args args' : List Value}

theorem firstMismatch_alike (schema : Schema) (hargs : Value.AlikeAll ρ args args') (i : Nat)
    (types : List Ty) : firstMismatch schema i args' types = firstMismatch schema i args types := by
  induction hargs generalizing i types with
  | nil => rfl
  | cons hxy _ ih =>
      cases types with
      | nil => rfl
      | cons ty types =>
          rw [firstMismatch, firstMismatch, hxy.conformsTo, hxy.typeName, ih]

theorem checkArguments_alike (schema : Schema) (s : Signature)
    (hargs : Value.AlikeAll ρ args args') :
    checkArguments schema s args' = checkArguments schema s args := by
  rw [checkArguments, checkArguments, hargs.length_eq, firstMismatch_alike schema hargs]

theorem CodeUnit.slots_alike (u : CodeUnit) (hargs : Value.AlikeAll ρ args args') :
    Value.AlikeAll ρ (u.slots args).toList (u.slots args').toList := by
  have hnulls : Value.AlikeAll ρ (List.replicate (u.slotCount - args.length) Value.null)
      (List.replicate (u.slotCount - args'.length) Value.null) := by
    rw [hargs.length_eq]
    refine Value.alikeAll_scalars fun x hx => ?_
    rw [List.eq_of_mem_replicate hx]
    rfl
  exact List.rel_append hargs hnulls

/-- The hoisted arguments move into cells, which then correspond. -/
theorem CodeUnit.newCells_alike (u : CodeUnit) {w v : World} (h : World.Alike ρ p w v)
    (hargs : Value.AlikeAll ρ args args') :
    ∃ σ, Advances ρ σ v (u.newCells args' v).2 ∧
      World.Alike σ p (u.newCells args w).2 (u.newCells args' v).2 ∧
      Option.Rel σ.cells.Rel (u.newCells args w).1 (u.newCells args' v).1 := by
  unfold CodeUnit.newCells
  split
  · exact ⟨ρ, .refl ρ v, h, .none⟩
  · have hvalues : Value.AlikeAll ρ
        (u.hoisted.map fun h => (u.slots args)[h.argument]?.getD .null).toArray.toList
        (u.hoisted.map fun h => (u.slots args')[h.argument]?.getD .null).toArray.toList := by
      refine List.forall₂_map_left_iff.mpr (List.forall₂_map_right_iff.mpr ?_)
      refine List.forall₂_same.mpr fun h _ => ?_
      have hslot := getElem?_forall₂ (u.slots_alike hargs) h.argument
      exact optionRel_getD (by simpa only [Array.getElem?_toList] using hslot) .null
    obtain ⟨σ, hstep, hworld, hcells⟩ := h.newCells hvalues
    exact ⟨σ, hstep, hworld, .some hcells⟩

theorem CodeUnit.run_alike {cx : Context} (hp : p.SelfContained base)
    (hcx : cx.InvokesAlike base p) {u : CodeUnit} (hu : u.body.isSelfContained = true)
    {s s' : Scope} (hs : s.Alike ρ p s') (depth : UInt32) (hargs : Value.AlikeAll ρ args args') :
    RunsAlike p Value.Alike ρ (u.run cx s depth args) (u.run cx s' depth args') := by
  intro σ hext w v hst
  obtain ⟨τ, hstep, hworld, hcells⟩ := u.newCells_alike hst.world (hargs.mono hext)
  have hext' := hext.trans hstep.correspondence
  have hframe : Frame.Alike τ p ⟨s, (u.newCells args w).1, depth⟩
      ⟨s', (u.newCells args' v).1, depth⟩ := ⟨hs.mono hext', hcells, rfl⟩
  have hstate : StateAlike τ p (⟨u.slots args, (u.newCells args w).2⟩ : Machine)
      ⟨u.slots args', (u.newCells args' v).2⟩ := ⟨hworld, u.slots_alike (hargs.mono hext')⟩
  have hbody := u.body.run_alike hp hcx hu hframe τ (.refl τ) _ _ hstate
  rw [CodeUnit.run_eq, CodeUnit.run_eq]
  revert hbody
  generalize u.body.run cx _ _ = r
  generalize u.body.run cx _ _ = r'
  rintro (⟨step, state, h⟩ | ⟨step, state, e⟩)
  · exact .ok (hstep.trans step) ⟨state.world, .nil⟩ h
  · exact .error (hstep.trans step) ⟨state.world, .nil⟩ e

/-- A check that does not depend on the state. -/
theorem RunsAlike.evalSame (x : Except RuntimeError PUnit) :
    RunsAlike p (fun _ : Correspondence base => Eq) ρ (Eval.ofExcept x) (Eval.ofExcept x) := by
  refine .evalExcept fun _ _ => ?_
  cases x with
  | ok a => exact .ok rfl
  | error e => exact .error e

/-- **Invocations cannot tell worlds apart that are alike.** By induction on the nesting that is
left: an invocation one level deeper is what the body's own invocations come to. -/
theorem invokeAt_alike (hp : p.SelfContained base) (schema : Schema) (arrayLimit : Nat)
    (host : HostRef → List Value → Eval Value) (nesting : Nat) (depth : UInt32) {s s' : Scope}
    (hs : s.Alike ρ p s') (hargs : Value.AlikeAll ρ args args') :
    RunsAlike p Value.Alike ρ (invokeAt schema arrayLimit host nesting depth s args)
      (invokeAt schema arrayLimit host nesting depth s' args') := by
  induction nesting generalizing ρ depth s s' args args' with
  | zero => exact .throw _
  | succ nesting ih =>
      rw [invokeAt, invokeAt, hs.program.1, hs.program.2, hs.unit?]
      refine (RunsAlike.evalSame _).bindEq fun σ hσ _ => ?_
      cases hu : s.unit? with
      | none => exact .throw _
      | some u =>
          have hunit : p.units.get? s.unit = some u := by rwa [Scope.unit?, hs.program.1] at hu
          dsimp only
          rw [checkArguments_alike schema u.signature hargs]
          refine (RunsAlike.evalSame _).bindEq fun τ hτ _ => ?_
          refine CodeUnit.run_alike hp (fun υ depth f g xs ys hfg hxy => ?_) (hp.units _ u hunit)
            (hs.mono (hσ.trans hτ)) depth (hargs.mono (hσ.trans hτ))
          exact (RunsAlike.scopeOf hfg).bind fun _ hυ t t' ht => ih depth ht (hxy.mono hυ)

/-- Invoking corresponding closures from outside. -/
theorem Environment.invoke_alike (e : Environment) (hp : p.SelfContained base) {f g : FunctionRef}
    (hfg : ρ.closures.Rel f.id g.id) (hargs : Value.AlikeAll ρ args args') :
    RunsAlike p Value.Alike ρ (e.invoke f args) (e.invoke g args') :=
  (RunsAlike.scopeOf hfg).bind fun _ hσ _ _ hs =>
    invokeAt_alike hp e.schema e.arrayLimit e.call callCeiling 0 hs (hargs.mono hσ)

end Invocations

end ExprTree
