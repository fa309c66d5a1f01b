import ExprTree.Run

set_option autoImplicit false

/-! # The steps of a host function

One equation per step: what following a host function does to the world, and where it goes on. Later
proofs go by induction on the reply and use these equations.
-/

namespace ExprTree

/-- A computation that begins by reading the state. -/
theorem get_bind {ε σ β : Type} (f : σ → EStateM ε σ β) (s : σ) : (get >>= f) s = f s s := rfl

/-- One computation after another that has a value. -/
theorem bind_of_ok {ε σ β γ : Type} {x : EStateM ε σ β} {f : β → EStateM ε σ γ} {s s' : σ} {b : β}
    (h : x s = .ok b s') : (x >>= f) s = f b s' := by
  show EStateM.bind x f s = f b s'
  rw [EStateM.bind, h]

/-- Nothing comes after a computation without a value. -/
theorem bind_of_error {ε σ β γ : Type} {x : EStateM ε σ β} {f : β → EStateM ε σ γ} {s s' : σ}
    {e : ε} (h : x s = .error e s') : (x >>= f) s = .error e s' := by
  show EStateM.bind x f s = .error e s'
  rw [EStateM.bind, h]

namespace Eval

variable {β : Type} {x : Eval β} {w w' : World}

theorem attempt_of_ok {b : β} (h : x w = .ok b w') : x.attempt w = .ok (.ok b) w' := by
  rw [attempt, h]

theorem attempt_of_raised {e : RuntimeError} (h : x w = .error (.raised e) w') :
    x.attempt w = .ok (.error e) w' := by
  rw [attempt, h]

theorem attempt_of_unfinished (h : x w = .error .unfinished w') :
    x.attempt w = .error .unfinished w' := by
  rw [attempt, h]

theorem setHeap_bind {heap : Heap} (f : PUnit → Eval β) :
    (setHeap heap >>= f) w = f ⟨⟩ { w with heap := heap } := rfl

theorem scopeOf_of_some {f : FunctionRef} {s : Scope} (h : w.scope? f = some s) :
    scopeOf f w = .ok s w := by
  rw [scopeOf, get_bind, h]
  rfl

theorem scopeOf_of_none {f : FunctionRef} (h : w.scope? f = none) :
    scopeOf f w = .error (.raised (.notCallable "function")) w := by
  rw [scopeOf, get_bind, h]
  rfl

section Compile

variable {schema : Schema} {options : Options} {tree : Tree}

theorem compile_of_ok {p : Program} (h : Program.compile schema options tree = .ok p) :
    compile schema options tree w
      = .ok (.ok (w.newClosure (.root p 0)).1) (w.newClosure (.root p 0)).2 := by
  rw [compile, h]
  rfl

theorem compile_of_error {e : CompileError} (h : Program.compile schema options tree = .error e) :
    compile schema options tree w = .ok (.error e) w := by
  rw [compile, h]
  rfl

end Compile

section Cells

variable {f : FunctionRef} {c : CellName} {s : Scope} {v : Value}

theorem peek_of_some (h : w.scope? f = some s) : peek f c w = .ok (w.peek? s c) w := by
  rw [peek, bind_of_ok (scopeOf_of_some h)]
  rfl

theorem peek_of_none (h : w.scope? f = none) :
    peek f c w = .error (.raised (.notCallable "function")) w :=
  bind_of_error (scopeOf_of_none h)

theorem poke_of_some (h : w.scope? f = some s) (hw : w.poke? s c v = some w') :
    poke f c v w = .ok true w' := by
  rw [poke, bind_of_ok (scopeOf_of_some h), get_bind, hw]
  rfl

theorem poke_of_none (h : w.scope? f = some s) (hw : w.poke? s c v = none) :
    poke f c v w = .ok false w := by
  rw [poke, bind_of_ok (scopeOf_of_some h), get_bind, hw]
  rfl

theorem poke_of_stray (h : w.scope? f = none) :
    poke f c v w = .error (.raised (.notCallable "function")) w :=
  bind_of_error (scopeOf_of_none h)

end Cells

end Eval

namespace Reply

variable {schema : Schema} {invoke : FunctionRef → List Value → Eval Value} {heap : Heap}
  {f : FunctionRef} {w w' : World}

section Invoke

variable {args : List Value} {next : Except RuntimeError Value → Heap → List CallRecord → Reply}

theorem run_invoke : (Reply.invoke heap f args next).run schema invoke = (do
    Eval.setHeap heap
    let result ← (invoke f args).attempt
    let w ← get
    (next result w.heap w.calls).run schema invoke) := rfl

theorem run_invoke_ok {v : Value} (h : invoke f args { w with heap := heap } = .ok v w') :
    (Reply.invoke heap f args next).run schema invoke w
      = (next (.ok v) w'.heap w'.calls).run schema invoke w' := by
  rw [run_invoke, Eval.setHeap_bind, bind_of_ok (Eval.attempt_of_ok h)]
  rfl

theorem run_invoke_raised {e : RuntimeError}
    (h : invoke f args { w with heap := heap } = .error (.raised e) w') :
    (Reply.invoke heap f args next).run schema invoke w
      = (next (.error e) w'.heap w'.calls).run schema invoke w' := by
  rw [run_invoke, Eval.setHeap_bind, bind_of_ok (Eval.attempt_of_raised h)]
  rfl

theorem run_invoke_unfinished (h : invoke f args { w with heap := heap } = .error .unfinished w') :
    (Reply.invoke heap f args next).run schema invoke w = .error .unfinished w' := by
  rw [run_invoke, Eval.setHeap_bind, bind_of_error (Eval.attempt_of_unfinished h)]

end Invoke

section Instantiate

variable {options : Options} {tree : Tree} {next : Except CompileError Value → Reply}

theorem run_instantiate : (Reply.instantiate heap options tree next).run schema invoke = (do
    Eval.setHeap heap
    (next (← Eval.compile schema options tree)).run schema invoke) := rfl

theorem run_instantiate_ok {p : Program} (h : Program.compile schema options tree = .ok p) :
    (Reply.instantiate heap options tree next).run schema invoke w
      = (next (.ok (World.newClosure { w with heap := heap } (.root p 0)).1)).run schema invoke
          (World.newClosure { w with heap := heap } (.root p 0)).2 := by
  rw [run_instantiate, Eval.setHeap_bind, bind_of_ok (Eval.compile_of_ok h)]

theorem run_instantiate_error {e : CompileError}
    (h : Program.compile schema options tree = .error e) :
    (Reply.instantiate heap options tree next).run schema invoke w
      = (next (.error e)).run schema invoke { w with heap := heap } := by
  rw [run_instantiate, Eval.setHeap_bind, bind_of_ok (Eval.compile_of_error h)]

end Instantiate

section Cells

variable {c : CellName} {s : Scope}

theorem run_peek {next : Option Value → Reply} (h : w.scope? f = some s) :
    (Reply.peek f c next).run schema invoke w
      = (next (w.peek? s c)).run schema invoke w :=
  bind_of_ok (Eval.peek_of_some h)

theorem run_peek_none {next : Option Value → Reply} (h : w.scope? f = none) :
    (Reply.peek f c next).run schema invoke w = .error (.raised (.notCallable "function")) w :=
  bind_of_error (Eval.peek_of_none h)

variable {v : Value} {next : Bool → Reply}

theorem run_poke : (Reply.poke heap f c v next).run schema invoke = (do
    Eval.setHeap heap
    (next (← Eval.poke f c v)).run schema invoke) := rfl

theorem run_poke_some (h : w.scope? f = some s)
    (hw : World.poke? { w with heap := heap } s c v = some w') :
    (Reply.poke heap f c v next).run schema invoke w = (next true).run schema invoke w' := by
  have hpoke : Eval.poke f c v { w with heap := heap } = .ok true w' := Eval.poke_of_some h hw
  rw [run_poke, Eval.setHeap_bind, bind_of_ok hpoke]

theorem run_poke_none (h : w.scope? f = some s)
    (hw : World.poke? { w with heap := heap } s c v = none) :
    (Reply.poke heap f c v next).run schema invoke w
      = (next false).run schema invoke { w with heap := heap } := by
  have hpoke : Eval.poke f c v { w with heap := heap } = .ok false { w with heap := heap } :=
    Eval.poke_of_none h hw
  rw [run_poke, Eval.setHeap_bind, bind_of_ok hpoke]

theorem run_poke_stray (h : w.scope? f = none) :
    (Reply.poke heap f c v next).run schema invoke w
      = .error (.raised (.notCallable "function")) { w with heap := heap } := by
  have hpoke : Eval.poke f c v { w with heap := heap } = .error _ { w with heap := heap } :=
    Eval.poke_of_stray h
  rw [run_poke, Eval.setHeap_bind, bind_of_error hpoke]

end Cells

end Reply

/-! ## Hosts that stay outside -/

/-- A host that never hands over to compiled code. -/
def Host.StaysOutside (host : Host) : Prop :=
  ∀ f args heap calls, ∃ result heap', host f args heap calls = .done result heap'

/-- A host whose functions return or fail by themselves. -/
def Host.Returns (host : Host) : Prop :=
  ∀ f args heap calls, ∃ result heap',
    host f args heap calls = .done result heap' ∧ result ≠ .error .unfinished

/-! ## Depths -/

/-- Below a limit, one level deeper is still a 32-bit number. -/
theorem toNat_add_one_of_lt {depth limit : UInt32} (h : depth < limit) :
    (depth + 1).toNat = depth.toNat + 1 := by
  have hlt : depth.toNat < limit.toNat := h
  have hmax := limit.toNat_lt
  rw [UInt32.toNat_add]
  show (depth.toNat + 1) % 4294967296 = depth.toNat + 1
  omega

theorem lt_of_checkCallDepth {depth limit : UInt32} (h : checkCallDepth depth limit = .ok ()) :
    depth < limit := by
  unfold checkCallDepth at h
  split at h
  case isTrue hlt => exact hlt
  case isFalse => cases h

end ExprTree
