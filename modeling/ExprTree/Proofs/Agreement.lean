import ExprTree.Proofs.Layout
import ExprTree.Proofs.Simulation.Invocations
import ExprTree.Proofs.Texts

set_option autoImplicit false

/-! # Two runs that agree

The same code is run twice, in frames whose scopes may differ but give every address and every
parameter the same cell. The two worlds are related by an `Agreement`: they have the same heap and
the same cells, and the relation survives what code does to them. Then both runs end in the same way
and their worlds are related again (`Code.run_agree`), except that the first run may end without a
value in a way that is excused. The agreement also says where a run may be left unfinished: at least
where some list contains itself.

What happens outside of the frame, and the closures that the frame makes, are left to the
assumptions `Context.Parallel` and `Agreement.Closures`. Of the units, only those matter that the
code refers to.
-/

namespace ExprTree

/-! ## Computations -/

section Computations

variable {M β γ : Type}

/-- The same result or the same end without one, in related states; or an excused end of the first
run. -/
inductive EndsEqual (R : M → M → Prop) (allows : Stop RuntimeError → M → Prop)
    (excused : Stop RuntimeError → Prop) : EStateM.Result (Stop RuntimeError) M β →
    EStateM.Result (Stop RuntimeError) M β → Prop
  | ok (a : β) {s t : M} (state : R s t) : EndsEqual R allows excused (.ok a s) (.ok a t)
  | error (e : Stop RuntimeError) {s t : M} (state : R s t) (allowed : allows e s) :
      EndsEqual R allows excused (.error e s) (.error e t)
  | excused {e : Stop RuntimeError} (h : excused e) (s : M)
      (r : EStateM.Result (Stop RuntimeError) M β) : EndsEqual R allows excused (.error e s) r

/-- From related states, both computations end in the same way. -/
def RunsEqual (R : M → M → Prop) (allows : Stop RuntimeError → M → Prop)
    (excused : Stop RuntimeError → Prop) (x y : EStateM (Stop RuntimeError) M β) : Prop :=
  ∀ s t, R s t → EndsEqual R allows excused (x s) (y t)

variable {R : M → M → Prop} {allows : Stop RuntimeError → M → Prop}
  {excused : Stop RuntimeError → Prop}

theorem EndsEqual.mono {S : M → M → Prop} (hRS : ∀ s t, R s t → S s t)
    {r r' : EStateM.Result (Stop RuntimeError) M β} (h : EndsEqual R allows excused r r') :
    EndsEqual S allows excused r r' := by
  cases h with
  | ok a state => exact .ok a (hRS _ _ state)
  | error e state allowed => exact .error e (hRS _ _ state) allowed
  | excused h s => exact .excused h s _

namespace RunsEqual

theorem pure (a : β) : RunsEqual R allows excused (Pure.pure a) (Pure.pure a) :=
  fun _ _ hst => .ok a hst

theorem throw {e : Stop RuntimeError} (he : ∀ s, allows e s) :
    RunsEqual R allows excused (MonadExcept.throw e : EStateM (Stop RuntimeError) M β)
      (MonadExcept.throw e) :=
  fun s _ hst => .error e hst (he s)

theorem bind {x y : EStateM (Stop RuntimeError) M β} {f g : β → EStateM (Stop RuntimeError) M γ}
    (hx : RunsEqual R allows excused x y) (hf : ∀ a, RunsEqual R allows excused (f a) (g a)) :
    RunsEqual R allows excused (x >>= f) (y >>= g) := by
  intro s t hst
  have hxy := hx s t hst
  simp only [Bind.bind, EStateM.bind]
  revert hxy
  generalize x s = r
  generalize y t = r'
  rintro (⟨a, state⟩ | ⟨e, state, allowed⟩ | ⟨h, s', r⟩)
  · exact hf a _ _ state
  · exact .error e state allowed
  · exact .excused h s' _

/-- A computation that depends on the state. -/
theorem withState {f g : M → EStateM (Stop RuntimeError) M β}
    (h : ∀ s t, R s t → EndsEqual R allows excused (f s s) (g t t)) :
    RunsEqual R allows excused (get >>= f) (get >>= g) := h

end RunsEqual

end Computations

/-! ## Worlds -/

/-- A relation between worlds with the same heap, the same cells and the same calls of host
functions, which code keeps; how and where two runs may end without a value; and how the first of
them may end alone. -/
structure Agreement where
  Rel : World → World → Prop
  allows : Stop RuntimeError → World → Prop
  excused : Stop RuntimeError → Prop
  raised (e : RuntimeError) (w : World) : allows (.raised e) w
  unfinished {w : World} : w.heap.Looping → allows .unfinished w
  heap {w v : World} : Rel w v → v.heap = w.heap
  cells {w v : World} : Rel w v → v.cells = w.cells
  calls {w v : World} : Rel w v → v.calls = w.calls
  withHeap {w v : World} (heap : Heap) : Rel w v → Rel { w with heap } { v with heap }
  withCalls {w v : World} (calls : List CallRecord) :
    Rel w v → Rel { w with calls } { v with calls }
  setCell {w v : World} (c k : Nat) (x : Value) : Rel w v →
    Rel { w with cells := w.cells.modify c (·.setIfInBounds k x) }
      { v with cells := v.cells.modify c (·.setIfInBounds k x) }

namespace Agreement

variable (A : Agreement) {β : Type}

/-- Machines with the same slots, `count` of them, in related worlds. -/
structure Machines (count : Nat) (m n : Machine) : Prop where
  slots : n.slots = m.slots
  size : m.slots.size = count
  world : A.Rel m.world n.world

/-- Both computations on worlds end in the same way. -/
abbrev Runs (x y : Eval β) : Prop := RunsEqual A.Rel A.allows A.excused x y

/-- Both computations inside frames with `count` slots end in the same way. -/
abbrev Execs (count : Nat) (x y : Exec β) : Prop :=
  RunsEqual (A.Machines count) (fun e m => A.allows e m.world) A.excused x y

variable {A} {count : Nat}

theorem fail (e : RuntimeError) : A.Runs (Eval.fail e : Eval β) (Eval.fail e) :=
  .throw (A.raised e)

theorem cell? {w v : World} (h : A.Rel w v) (c k : Nat) : v.cell? c k = w.cell? c k := by
  rw [World.cell?, World.cell?, A.cells h]

/-- A cell that is overwritten through a scope. -/
theorem poke? {w v : World} (h : A.Rel w v) (s : Scope) (c : CellName) (x : Value) :
    (w.poke? s c x = none ∧ v.poke? s c x = none) ∨
      ∃ w' v', w.poke? s c x = some w' ∧ v.poke? s c x = some v' ∧ A.Rel w' v' := by
  unfold World.poke?
  cases s.cellNamed c with
  | none => exact .inl ⟨rfl, rfl⟩
  | some cell =>
      simp only [Option.bind_some, World.setCell?, cell? h]
      cases w.cell? cell.1 cell.2 with
      | none => exact .inl ⟨rfl, rfl⟩
      | some old => exact .inr ⟨_, _, rfl, rfl, A.setCell cell.1 cell.2 x h⟩

theorem ofExcept (x : Except RuntimeError β) : A.Runs (Eval.ofExcept x) (Eval.ofExcept x) := by
  cases x with
  | ok a => exact .pure a
  | error e => exact fail e

theorem execExcept (x : Except RuntimeError β) :
    A.Execs count (Exec.ofExcept x) (Exec.ofExcept x) := by
  cases x with
  | ok a => exact .pure a
  | error e => exact .throw fun m => A.raised e m.world

/-- A result that is read from the heap. -/
theorem ofHeap (f : Heap → Except RuntimeError β) :
    A.Runs (do Eval.ofExcept (f (← get).heap)) (do Eval.ofExcept (f (← get).heap)) := by
  refine .withState fun w v hwv => ?_
  rw [A.heap hwv]
  exact ofExcept _ w v hwv

/-- A result that is missing only where some list contains itself. -/
theorem ofHeap? {f : Heap → Option (Except RuntimeError β)}
    (hf : ∀ heap, f heap = none → heap.Looping) :
    A.Runs (do Eval.ofOption (f (← get).heap)) (do Eval.ofOption (f (← get).heap)) := by
  refine .withState fun w v hwv => ?_
  rw [A.heap hwv]
  cases h : f w.heap with
  | none => exact .error _ hwv (A.unfinished (hf _ h))
  | some r => exact ofExcept r w v hwv

theorem alloc (make : Heap → Value × Heap) :
    A.Runs (Eval.alloc make) (Eval.alloc make) := by
  intro w v hwv
  show EndsEqual A.Rel A.allows A.excused (.ok (make w.heap).1 _) (.ok (make v.heap).1 _)
  rw [A.heap hwv]
  exact .ok _ (A.withHeap _ hwv)

theorem ofEval {x y : Eval β} (h : A.Runs x y) :
    A.Execs count (Exec.ofEval x) (Exec.ofEval y) := by
  intro m n hmn
  have hxy := h m.world n.world hmn.world
  unfold Exec.ofEval
  revert hxy
  generalize x m.world = r
  generalize y n.world = r'
  rintro (⟨a, state⟩ | ⟨e, state, allowed⟩ | ⟨h, s, r⟩)
  · exact .ok a ⟨hmn.slots, hmn.size, state⟩
  · exact .error e ⟨hmn.slots, hmn.size, state⟩ allowed
  · exact .excused h _ _

theorem loadSlot (i : Nat) :
    A.Execs count (Exec.loadSlot i) (Exec.loadSlot i) := by
  refine .withState fun m n hmn => ?_
  rw [hmn.slots]
  exact .ok _ hmn

theorem storeSlot (i : Nat) (x : Value) :
    A.Execs count (Exec.storeSlot i x) (Exec.storeSlot i x) := by
  intro m n hmn
  refine .ok PUnit.unit ⟨?_, ?_, hmn.world⟩
  · show n.slots.setIfInBounds i x = m.slots.setIfInBounds i x
    rw [hmn.slots]
  · show (m.slots.setIfInBounds i x).size = count
    rw [Array.size_setIfInBounds, hmn.size]

end Agreement

/-! ## Frames and contexts -/

/-- The frames are equally deep and have the same constants, and the same cell for every address and
parameter. -/
structure Frame.Parallel (f g : Frame) : Prop where
  depth : g.depth = f.depth
  cells : g.cells = f.cells
  localsAt : ∀ level, g.scope.localsAt level = f.scope.localsAt level
  find? : ∀ own p, g.scope.find? own p = f.scope.find? own p
  pool : g.scope.program.pool = f.scope.program.pool

theorem Frame.Parallel.refl (f : Frame) : f.Parallel f :=
  ⟨rfl, rfl, fun _ => rfl, fun _ _ => rfl, rfl⟩

/-- Outside of a frame at the depth, both runs agree. -/
structure Context.Parallel (A : Agreement) (depth : UInt32) (cx cx' : Context) : Prop where
  schema : cx'.schema = cx.schema
  arrayLimit : cx'.arrayLimit = cx.arrayLimit
  invoke : ∀ f args, A.Runs (cx.invoke (depth + 1) f args) (cx'.invoke (depth + 1) f args)
  host : ∀ f args, A.Runs (cx.host f args) (cx'.host f args)

/-- Both frames make closures of the units among the references in the same way. -/
def Agreement.Closures (A : Agreement) (f g : Frame) (refs : List Reference) : Prop :=
  ∀ u, .unit u ∈ refs → A.Runs (f.closure u) (g.closure u)

namespace Agreement.Closures

variable {A : Agreement} {f g : Frame} {r : Reference} {rs ts : List Reference}

theorem tail (h : A.Closures f g (r :: rs)) : A.Closures f g rs :=
  fun u hu => h u (List.mem_cons_of_mem r hu)

theorem left (h : A.Closures f g (rs ++ ts)) : A.Closures f g rs :=
  fun u hu => h u (List.mem_append_left ts hu)

theorem right (h : A.Closures f g (rs ++ ts)) : A.Closures f g ts :=
  fun u hu => h u (List.mem_append_right rs hu)

end Agreement.Closures

namespace Frame.Parallel

variable {A : Agreement} {count : Nat} {f g : Frame}

theorem cellOf (h : f.Parallel g) (a : Address) : g.cellOf a = f.cellOf a := by
  cases a with
  | slot i => rfl
  | own k => rw [Frame.cellOf, Frame.cellOf, h.cells]
  | captured level k => rw [Frame.cellOf, Frame.cellOf, h.localsAt]

theorem constant (h : f.Parallel g) (i : Nat) : g.constant i = f.constant i := by
  rw [Frame.constant, Frame.constant, h.pool]

theorem load (h : f.Parallel g) (a : Address) :
    A.Execs count (f.load a) (g.load a) := by
  have hcell := h.cellOf a
  cases a with
  | slot i => exact Agreement.loadSlot i
  | _ =>
      refine .withState fun m n hmn => ?_
      simp only [hcell, Agreement.cell? hmn.world]
      generalize (f.cellOf _).bind _ = x
      cases x with
      | none => exact .error _ hmn (A.raised _ _)
      | some v => exact .ok v hmn

theorem store (h : f.Parallel g) (a : Address) (x : Value) :
    A.Execs count (f.store a x) (g.store a x) := by
  have hcell := h.cellOf a
  cases a with
  | slot i => exact Agreement.storeSlot i x
  | _ =>
      refine .withState fun m n hmn => ?_
      rw [hcell]
      cases hf : f.cellOf _ with
      | none => exact .error _ hmn (A.raised _ _)
      | some c =>
          simp only [Option.bind_some, World.setCell?, Agreement.cell? hmn.world]
          cases m.world.cell? c.1 c.2 with
          | none => exact .error _ hmn (A.raised _ _)
          | some old => exact .ok _ ⟨hmn.slots, hmn.size, A.setCell c.1 c.2 x hmn.world⟩

/-- A quote takes the same values and the same new identities. -/
theorem quote (h : f.Parallel g) (x : Value) :
    A.Runs (f.quote x) (g.quote x) := by
  cases x with
  | expression t =>
      refine .withState fun w v hwv => ?_
      have hisolate : v.captureAll? g.scope g.cells t.freeParameters
          = w.captureAll? f.scope f.cells t.freeParameters := by
        rw [h.cells]
        induction t.freeParameters with
        | nil => rfl
        | cons p ps ih =>
            simp only [World.captureAll?, h.find?, Agreement.cell? hwv, ih]
      simp only [World.isolate, hisolate, A.heap hwv]
      cases w.captureAll? f.scope f.cells t.freeParameters with
      | none => exact .error _ hwv (A.raised _ _)
      | some values => exact .ok _ (A.withHeap _ hwv)
  | _ => exact Agreement.fail _

end Frame.Parallel

namespace Context.Parallel

variable {A : Agreement} {depth : UInt32} {cx cx' : Context}

theorem unary (h : cx.Parallel A depth cx') (action : UnaryAction) (x : Value) :
    A.Runs (cx.unary action x) (cx'.unary action x) := by
  cases action with
  | primitive op => exact Agreement.ofExcept _
  | convert c =>
      simp only [Context.unary, h.schema]
      exact Agreement.ofExcept _
  | user m => exact h.host m.impl [x]
  | typeAs ty =>
      simp only [Context.unary, h.schema]
      exact .pure _
  | typeIs ty =>
      simp only [Context.unary, h.schema]
      exact .pure _

theorem binary (h : cx.Parallel A depth cx') (action : BinaryAction) (l r : Value) :
    A.Runs (cx.binary action l r) (cx'.binary action l r) := by
  cases action with
  | primitive op => exact Agreement.ofHeap? fun _ => BinaryOp.apply_eq_none
  | user m => exact h.host m.impl [l, r]
  | element => exact Agreement.ofHeap fun heap => l.element heap r

theorem apply (h : cx.Parallel A depth cx') (callee : Value) (args : List Value) :
    A.Runs (cx.apply (depth + 1) callee args) (cx'.apply (depth + 1) callee args) := by
  cases callee with
  | function f => exact h.invoke f args
  | _ => exact Agreement.fail _

theorem readMember (h : cx.Parallel A depth cx') (m : Member) (target : Value) :
    A.Runs (cx.readMember m target) (cx'.readMember m target) := by
  cases m with
  | field name index ty =>
      refine (Agreement.ofExcept _).bind fun id => .withState fun w v hwv => ?_
      rw [A.heap hwv]
      exact .ok _ hwv
  | static name ty cell =>
      refine .withState fun w v hwv => ?_
      rw [A.heap hwv]
      exact .ok _ hwv
  | property name getter setter =>
      simp only [Context.readMember]
      split
      · exact h.host _ _
      · exact (Agreement.ofExcept _).bind fun x => h.host _ _

theorem writeMember (h : cx.Parallel A depth cx') (m : Member) (target x : Value) :
    A.Runs (cx.writeMember m target x) (cx'.writeMember m target x) := by
  cases m with
  | field name index ty =>
      refine (Agreement.ofExcept _).bind fun id => .withState fun w v hwv => ?_
      rw [A.heap hwv]
      cases w.heap.setField? id index x with
      | none => exact .error _ hwv (A.raised _ _)
      | some heap => exact .ok _ (A.withHeap heap hwv)
  | static name ty cell =>
      intro w v hwv
      refine .ok PUnit.unit ?_
      show A.Rel { w with heap := w.heap.setStatic cell x }
        { v with heap := v.heap.setStatic cell x }
      rw [A.heap hwv]
      exact A.withHeap _ hwv
  | property name getter setter =>
      cases setter with
      | none => exact .pure _
      | some setter =>
          simp only [Context.writeMember]
          split
          · exact (h.host _ _).bind fun _ => .pure _
          · exact (Agreement.ofExcept _).bind fun y => (h.host _ _).bind fun _ => .pure _

end Context.Parallel

/-! ## Code -/

section Code

variable {A : Agreement} {count : Nat} {cx cx' : Context} {f g : Frame}

mutual

theorem Code.run_agree (hcx : cx.Parallel A f.depth cx') (hf : f.Parallel g) : (c : Code) →
    A.Closures f g c.references →
    A.Execs count (c.run cx f) (c.run cx' g)
  | .immediate _, _ => .pure _
  | .pooled i, _ => by
      rw [Code.run, Code.run, hf.constant]
      exact .pure _
  | .load a, _ => hf.load a
  | .store a value, h =>
      (Code.run_agree hcx hf value h.tail).bind fun v => (hf.store a v).bind fun _ => .pure v
  | .block items, h => Code.runBlock_agree hcx hf .unit items h
  | .closure u, h => Agreement.ofEval (h u List.mem_cons_self)
  | .invoke callee args, h =>
      (Code.run_agree hcx hf callee h.left).bind fun v =>
        (Code.runAll_agree hcx hf args h.right).bind fun vs => by
          rw [hf.depth]
          exact Agreement.ofEval (hcx.apply v vs)
  | .unary action lifted operand, h => by
      refine (Code.run_agree hcx hf operand h).bind fun v => ?_
      split
      · exact .pure _
      · exact Agreement.ofEval (hcx.unary action v)
  | .binary action onNull left right, h => by
      refine (Code.run_agree hcx hf left h.left).bind fun l => ?_
      refine (Code.run_agree hcx hf right h.right).bind fun r => ?_
      cases onNull with
      | none => exact Agreement.ofEval (hcx.binary action l r)
      | some n =>
          dsimp only
          split
          · exact .pure _
          · exact Agreement.ofEval (hcx.binary action l r)
  | .kleene conjunction left right, h => by
      refine (Code.run_agree hcx hf left h.left).bind fun l => ?_
      refine (Agreement.execExcept _).bind fun a => ?_
      refine (Code.run_agree hcx hf right h.right).bind fun r => ?_
      exact (Agreement.execExcept _).bind fun b => .pure _
  | .shortCircuit decisive lifted left right, h => by
      have hright := Code.run_agree hcx hf right h.right
      refine (Code.run_agree hcx hf left h.left).bind fun l => ?_
      cases lifted with
      | true =>
          refine (Agreement.execExcept _).bind fun a => ?_
          cases a with
          | some a =>
              dsimp only
              split
              · exact .pure _
              · exact hright
          | none =>
              refine hright.bind fun r => (Agreement.execExcept _).bind fun b => ?_
              cases b with
              | none => exact .pure _
              | some b =>
                  dsimp only
                  split <;> exact .pure _
      | false =>
          refine (Agreement.execExcept _).bind fun a => ?_
          split
          · exact .pure _
          · exact hright
  | .userShortCircuit test method lifted left right, h => by
      refine (Code.run_agree hcx hf left h.left).bind fun l => ?_
      split
      · exact .pure _
      refine (Agreement.ofEval (hcx.host _ _)).bind fun t => ?_
      refine (Agreement.execExcept _).bind fun decided => ?_
      split
      · exact .pure _
      refine (Code.run_agree hcx hf right h.right).bind fun r => ?_
      split
      · exact .pure _
      · exact Agreement.ofEval (hcx.host _ _)
  | .coalesce left right, h => by
      refine (Code.run_agree hcx hf left h.left).bind fun l => ?_
      split
      · exact Code.run_agree hcx hf right h.right
      · exact .pure _
  | .coalesceWith u left right, h => by
      refine (Code.run_agree hcx hf left h.left).bind fun l => ?_
      split
      · exact Code.run_agree hcx hf right h.right.left
      · refine (Agreement.ofEval (h.right.right u List.mem_cons_self)).bind fun callee => ?_
        rw [hf.depth]
        exact Agreement.ofEval (hcx.apply callee [l])
  | .conditional test ifTrue ifFalse, h => by
      refine (Code.run_agree hcx hf test h.left).bind fun t => ?_
      refine (Agreement.execExcept _).bind fun b => ?_
      split
      · exact Code.run_agree hcx hf ifTrue h.right.left
      · exact Code.run_agree hcx hf ifFalse h.right.right
  | .staticMember m, _ => Agreement.ofEval (hcx.readMember m .null)
  | .member m target, h =>
      (Code.run_agree hcx hf target h).bind fun v => Agreement.ofEval (hcx.readMember m v)
  | .callStatic m args, h =>
      (Code.runAll_agree hcx hf args h).bind fun vs => Agreement.ofEval (hcx.host m.impl vs)
  | .callInstance m target args, h => by
      refine (Code.run_agree hcx hf target h.left).bind fun v => ?_
      refine (Agreement.execExcept _).bind fun this => ?_
      refine (Code.runAll_agree hcx hf args h.right).bind fun vs => ?_
      exact Agreement.ofEval (hcx.host m.impl (this :: vs))
  | .construct c args, h =>
      (Code.runAll_agree hcx hf args h).bind fun vs => Agreement.ofEval (hcx.host c.impl vs)
  | .newInstance _ _, _ => Agreement.ofEval (Agreement.alloc _)
  | .newList, _ => Agreement.ofEval (Agreement.alloc _)
  | .newArray items, h =>
      (Code.runAll_agree hcx hf items h).bind fun _ => Agreement.ofEval (Agreement.alloc _)
  | .newArrayOf element length, h => by
      rw [Code.run, Code.run, hcx.arrayLimit]
      exact (Code.run_agree hcx hf length h).bind fun _ => (Agreement.execExcept _).bind fun _ =>
        Agreement.ofEval (Agreement.alloc _)
  | .assemble slot new steps, h => by
      refine (Code.run_agree hcx hf new h.tail.left).bind fun v => ?_
      refine (Agreement.storeSlot slot v).bind fun _ => ?_
      refine (Code.runSteps_agree hcx hf steps h.tail.right).bind fun _ => ?_
      exact Agreement.loadSlot slot
  | .setMember slot m value, h => by
      refine (Code.run_agree hcx hf value h.tail).bind fun v => ?_
      refine (Agreement.loadSlot slot).bind fun target => ?_
      exact (Agreement.ofEval (hcx.writeMember m target v)).bind fun _ => .pure _
  | .descend slot m inner steps, h => by
      refine (Agreement.loadSlot slot).bind fun target => ?_
      refine (Agreement.ofEval (hcx.readMember m target)).bind fun v => ?_
      refine (Agreement.storeSlot inner v).bind fun _ => ?_
      exact (Code.runSteps_agree hcx hf steps h.tail.tail).bind fun _ => .pure _
  | .append slot add args, h => by
      refine (Agreement.loadSlot slot).bind fun target => ?_
      refine (Agreement.execExcept _).bind fun target => ?_
      refine (Code.runAll_agree hcx hf args h.tail).bind fun vs => ?_
      exact (Agreement.ofEval (hcx.host add.impl (target :: vs))).bind fun _ => .pure _
  | .quote i, _ => by
      rw [Code.run, Code.run, hf.constant]
      exact Agreement.ofEval (hf.quote _)

theorem Code.runAll_agree (hcx : cx.Parallel A f.depth cx') (hf : f.Parallel g) : (cs : List Code) →
    A.Closures f g (Code.referencesAll cs) →
    A.Execs count (Code.runAll cx f cs) (Code.runAll cx' g cs)
  | [], _ => .pure _
  | c :: cs, h => (Code.run_agree hcx hf c h.left).bind fun _ =>
      (Code.runAll_agree hcx hf cs h.right).bind fun _ => .pure _

theorem Code.runSteps_agree (hcx : cx.Parallel A f.depth cx') (hf : f.Parallel g) :
    (cs : List Code) → A.Closures f g (Code.referencesAll cs) →
    A.Execs count (Code.runSteps cx f cs) (Code.runSteps cx' g cs)
  | [], _ => .pure _
  | c :: cs, h => (Code.run_agree hcx hf c h.left).bind fun _ =>
      Code.runSteps_agree hcx hf cs h.right

theorem Code.runBlock_agree (hcx : cx.Parallel A f.depth cx') (hf : f.Parallel g) (last : Value) :
    (cs : List Code) → A.Closures f g (Code.referencesAll cs) →
    A.Execs count (Code.runBlock cx f last cs)
      (Code.runBlock cx' g last cs)
  | [], _ => .pure _
  | c :: cs, h => (Code.run_agree hcx hf c h.left).bind fun v =>
      Code.runBlock_agree hcx hf v cs h.right

end

end Code

/-- Two runs of a unit: the hoisted arguments move into the same cells, and the bodies run from
there. -/
theorem CodeUnit.run_agree {A : Agreement} {cx cx' : Context} {s s' : Scope} {depth : UInt32}
    (u : CodeUnit) {args : List Value} {w v : World} (hcells : v.cells = w.cells)
    (hstart : A.Rel (u.newCells args w).2 (u.newCells args v).2)
    (hbody : A.Execs (u.slots args).size (u.body.run cx ⟨s, (u.newCells args w).1, depth⟩)
      (u.body.run cx' ⟨s', (u.newCells args w).1, depth⟩)) :
    EndsEqual A.Rel A.allows A.excused (u.run cx s depth args w) (u.run cx' s' depth args v) := by
  have hown : (u.newCells args v).1 = (u.newCells args w).1 := by
    simp only [CodeUnit.newCells, World.newCells, hcells]
    split <;> rfl
  rw [CodeUnit.run_eq, CodeUnit.run_eq, hown]
  have hends := hbody ⟨u.slots args, (u.newCells args w).2⟩ ⟨u.slots args, (u.newCells args v).2⟩
    ⟨rfl, rfl, hstart⟩
  revert hends
  generalize u.body.run cx _ _ = r
  generalize u.body.run cx' _ _ = r'
  rintro (⟨a, state⟩ | ⟨e, state, allowed⟩ | ⟨h, m, _⟩)
  · exact .ok a state.world
  · exact .error e state.world allowed
  · exact .excused h m.world _

/-! ## Host functions -/

section Hosts

variable {A : Agreement} {schema : Schema} {invoke invoke' : FunctionRef → List Value → Eval Value}

/-- A host function that is done leaves both runs with its heap. -/
theorem Agreement.done {result : Except (Stop RuntimeError) Value}
    (h : ∀ e w, result = .error e → A.allows e w) (heap : Heap) :
    A.Runs ((Reply.done result heap).run schema invoke)
      ((Reply.done result heap).run schema invoke') := by
  intro w v hwv
  cases result with
  | ok a => exact .ok a (A.withHeap heap hwv)
  | error e => exact .error e (A.withHeap heap hwv) (h e _ rfl)

/-- Both runs agree on what a host function does besides working on the heap. It may never end. -/
structure Agreement.Serves (A : Agreement) (schema : Schema)
    (invoke invoke' : FunctionRef → List Value → Eval Value) : Prop where
  invoke : ∀ f args, A.Runs (invoke f args) (invoke' f args)
  newClosure {options : Options} {tree : Tree} {p : Program}
    (h : Program.compile schema options tree = .ok p) {w v : World} : A.Rel w v →
    (v.newClosure (.root p 0)).1 = (w.newClosure (.root p 0)).1 ∧
      A.Rel (w.newClosure (.root p 0)).2 (v.newClosure (.root p 0)).2
  scope? {w v : World} : A.Rel w v → ∀ f, v.scope? f = w.scope? f
  allows : ∀ e w, A.allows e w
  excused : ∀ e, A.excused e → e = .unfinished

/-- **Both runs follow a host function in the same way.** The induction is on what it does. -/
theorem Agreement.reply (hs : A.Serves schema invoke invoke') (r : Reply) :
    A.Runs (r.run schema invoke) (r.run schema invoke') := by
  induction r with
  | done result heap => exact done (fun e w _ => hs.allows e w) heap
  | invoke heap f args next ih =>
      intro w v hwv
      have hgo : ∀ result w' v', A.Rel w' v' → EndsEqual A.Rel A.allows A.excused
          ((next result w'.heap w'.calls).run schema invoke w')
          ((next result v'.heap v'.calls).run schema invoke' v') := by
        intro result w' v' h
        rw [A.heap h, A.calls h]
        exact ih result _ _ w' v' h
      have hends := hs.invoke f args _ _ (A.withHeap heap hwv)
      generalize hx : invoke f args { w with heap := heap } = x at hends
      generalize hy : invoke' f args { v with heap := heap } = y at hends
      cases hends with
      | ok a state =>
          rw [Reply.run_invoke_ok hx, Reply.run_invoke_ok hy]
          exact hgo _ _ _ state
      | error e state =>
          cases e with
          | raised e =>
              rw [Reply.run_invoke_raised hx, Reply.run_invoke_raised hy]
              exact hgo _ _ _ state
          | unfinished =>
              rw [Reply.run_invoke_unfinished hx, Reply.run_invoke_unfinished hy]
              exact .error _ state (hs.allows _ _)
      | @excused e h s r =>
          -- what is excused cannot be caught
          obtain rfl := hs.excused e h
          rw [Reply.run_invoke_unfinished hx]
          exact .excused h s _
  | instantiate heap options tree next ih =>
      intro w v hwv
      have hwv' := A.withHeap heap hwv
      cases hp : Program.compile schema options tree with
      | error e =>
          rw [Reply.run_instantiate_error hp, Reply.run_instantiate_error hp]
          exact ih _ _ _ hwv'
      | ok p =>
          obtain ⟨hvalue, hworld⟩ := hs.newClosure hp hwv'
          rw [Reply.run_instantiate_ok hp, Reply.run_instantiate_ok hp, hvalue]
          exact ih _ _ _ hworld
  | peek f c next ih =>
      intro w v hwv
      have hscope := hs.scope? hwv f
      cases h : w.scope? f with
      | none =>
          rw [Reply.run_peek_none h, Reply.run_peek_none (hscope.trans h)]
          exact .error _ hwv (A.raised _ _)
      | some s =>
          have hpeek : v.peek? s c = w.peek? s c := by
            simp only [World.peek?, Agreement.cell? hwv]
          rw [Reply.run_peek h, Reply.run_peek (hscope.trans h), hpeek]
          exact ih _ _ _ hwv
  | poke heap f c x next ih =>
      intro w v hwv
      have hwv' := A.withHeap heap hwv
      have hscope := hs.scope? hwv f
      cases h : w.scope? f with
      | none =>
          rw [Reply.run_poke_stray h, Reply.run_poke_stray (hscope.trans h)]
          exact .error _ hwv' (A.raised _ _)
      | some s =>
          rcases Agreement.poke? hwv' s c x with ⟨hw, hv⟩ | ⟨w', v', hw, hv, state⟩
          · rw [Reply.run_poke_none h hw, Reply.run_poke_none (hscope.trans h) hv]
            exact ih _ _ _ hwv'
          · rw [Reply.run_poke_some h hw, Reply.run_poke_some (hscope.trans h) hv]
            exact ih _ _ _ state

/-- Both runs get the same reply of the host. -/
theorem Agreement.callWith {host : Host} {f : HostRef} {args : List Value}
    (h : ∀ heap calls, A.Runs ((host f args heap calls).run schema invoke)
      ((host f args heap calls).run schema invoke')) :
    A.Runs (callWith schema host invoke f args) (callWith schema host invoke' f args) := by
  have hrecord : A.Runs
      (modify fun w : World => { w with calls := ⟨f, args, w.heap⟩ :: w.calls })
      (modify fun w : World => { w with calls := ⟨f, args, w.heap⟩ :: w.calls }) := by
    intro w v hwv
    have hcalls : (⟨f, args, v.heap⟩ : CallRecord) :: v.calls = ⟨f, args, w.heap⟩ :: w.calls := by
      rw [A.heap hwv, A.calls hwv]
    refine .ok PUnit.unit ?_
    show A.Rel { w with calls := ⟨f, args, w.heap⟩ :: w.calls }
      { v with calls := ⟨f, args, v.heap⟩ :: v.calls }
    rw [hcalls]
    exact A.withCalls _ hwv
  refine hrecord.bind fun _ => .withState fun w v hwv => ?_
  rw [A.heap hwv, A.calls hwv]
  exact h w.heap w.calls w v hwv

end Hosts

/-! ## Runs in the same world -/

/-- Worlds are related only to themselves. -/
def Agreement.ofEq (allows : Stop RuntimeError → World → Prop) (excused : Stop RuntimeError → Prop)
    (raised : ∀ e w, allows (.raised e) w)
    (unfinished : ∀ w : World, w.heap.Looping → allows .unfinished w) : Agreement where
  Rel := Eq
  allows := allows
  excused := excused
  raised := raised
  unfinished := unfinished _
  heap h := h ▸ rfl
  cells h := h ▸ rfl
  calls h := h ▸ rfl
  withHeap _ h := h ▸ rfl
  withCalls _ h := h ▸ rfl
  setCell _ _ _ h := h ▸ rfl

/-- The scope of a closure is the same on both sides, or there is none. -/
theorem Agreement.ofEq_closure {allows : Stop RuntimeError → World → Prop}
    {excused : Stop RuntimeError → Prop} {raised : ∀ e w, allows (.raised e) w}
    {unfinished : ∀ w : World, w.heap.Looping → allows .unfinished w} {f : FunctionRef}
    {x y : Scope → Eval Value} (h : ∀ s, (ofEq allows excused raised unfinished).Runs (x s) (y s)) :
    (ofEq allows excused raised unfinished).Runs (do x (← Eval.scopeOf f))
      (do y (← Eval.scopeOf f)) := by
  rintro w _ rfl
  cases hs : w.scope? f with
  | none =>
      rw [bind_of_error (Eval.scopeOf_of_none hs), bind_of_error (Eval.scopeOf_of_none hs)]
      exact .error _ rfl (raised _ w)
  | some s =>
      rw [bind_of_ok (Eval.scopeOf_of_some hs), bind_of_ok (Eval.scopeOf_of_some hs)]
      exact h s w w rfl

/-- A run may end in any way. -/
def Agreement.self : Agreement :=
  .ofEq (fun _ _ => True) (fun _ => False) (fun _ _ => trivial) fun _ _ => trivial

theorem Agreement.self_runs {β : Type} (x : Eval β) : Agreement.self.Runs x x := by
  intro w v hwv
  have heq : w = v := hwv
  subst heq
  cases x w with
  | ok a w' => exact .ok a rfl
  | error e w' => exact .error e rfl trivial

/-- Code neither adds nor removes slots. -/
theorem Code.size_slots_run {cx : Context} {f : Frame} {c : Code} {m m' : Machine} {x : Value}
    (h : c.run cx f m = .ok x m') : m'.slots.size = m.slots.size := by
  have hcx : cx.Parallel Agreement.self f.depth cx :=
    ⟨rfl, rfl, fun _ _ => Agreement.self_runs _, fun _ _ => Agreement.self_runs _⟩
  have hends := c.run_agree hcx (.refl f) (fun _ _ => Agreement.self_runs _) m m
    ⟨rfl, Eq.refl m.slots.size, rfl⟩
  rw [h] at hends
  cases hends with
  | ok _ state => exact state.size

end ExprTree
