import ExprTree.Proofs.Limits

set_option autoImplicit false

/-! # The calls that a computation makes

Every call of a host function is recorded in the world, and nothing removes a record. `Records T x`
says that whatever the computation `x` starts from, `T` holds of the calls that it makes and of
whether it succeeds. There is one rule for each way in which code is put together; what leaves the
host alone is `Quiet`.
-/

namespace ExprTree

section Records

variable {σ β γ : Type}

/-- A run that started with the calls `before` ends after the further calls `made`, earliest first,
and `T` holds of them. -/
inductive EndsAfter (calls : σ → List CallRecord) (T : (ok : Bool) → List CallRecord → Prop)
    (before : List CallRecord) : EStateM.Result (Stop RuntimeError) σ β → Prop
  | ok (a : β) {s : σ} (made : List CallRecord) (recorded : calls s = made.reverse ++ before)
      (trace : T true made) : EndsAfter calls T before (.ok a s)
  | error (e : Stop RuntimeError) {s : σ} (made : List CallRecord)
      (recorded : calls s = made.reverse ++ before) (trace : T false made) :
      EndsAfter calls T before (.error e s)

/-- Whatever the computation starts from, `T` holds of the calls that it makes. -/
def Records (calls : σ → List CallRecord) (T : (ok : Bool) → List CallRecord → Prop)
    (x : EStateM (Stop RuntimeError) σ β) : Prop :=
  ∀ s, EndsAfter calls T (calls s) (x s)

/-- The computation makes no call. -/
abbrev Quiet (calls : σ → List CallRecord) (x : EStateM (Stop RuntimeError) σ β) : Prop :=
  Records calls (fun _ made => made = []) x

variable {calls : σ → List CallRecord} {T T' T'' : Bool → List CallRecord → Prop}

theorem EndsAfter.mono {before : List CallRecord} {r : EStateM.Result (Stop RuntimeError) σ β}
    (h : EndsAfter calls T before r) (hT : ∀ ok made, T ok made → T' ok made) :
    EndsAfter calls T' before r := by
  cases h with
  | ok a made hrec ht => exact .ok a made hrec (hT _ _ ht)
  | error e made hrec ht => exact .error e made hrec (hT _ _ ht)

theorem Records.mono {x : EStateM (Stop RuntimeError) σ β} (h : Records calls T x)
    (hT : ∀ ok made, T ok made → T' ok made) : Records calls T' x := fun s => (h s).mono hT

/-- The calls of the second computation come after those of the first one. -/
theorem EndsAfter.bind {x : EStateM (Stop RuntimeError) σ β}
    {k : β → EStateM (Stop RuntimeError) σ γ} {s : σ} {before : List CallRecord}
    (hx : EndsAfter calls T before (x s))
    (hk : ∀ a s', x s = .ok a s' → EndsAfter calls T' (calls s') (k a s'))
    (hboth : ∀ ok made made', T true made → T' ok made' → T'' ok (made ++ made'))
    (hfirst : ∀ made, T false made → T'' false made) :
    EndsAfter calls T'' before ((x >>= k) s) := by
  show EndsAfter calls T'' before (EStateM.bind x k s)
  rw [EStateM.bind]
  revert hx hk
  generalize x s = r
  rintro (⟨a, made, hrec, ht⟩ | ⟨e, made, hrec, ht⟩) hk
  · rename_i s'
    have hends := hk a s' rfl
    revert hends
    show EndsAfter calls T' (calls s') (k a s') → EndsAfter calls T'' before (k a s')
    generalize k a s' = r
    rintro (⟨b, made', hrec', ht'⟩ | ⟨e, made', hrec', ht'⟩)
    · refine .ok b (made ++ made') ?_ (hboth _ _ _ ht ht')
      rw [hrec', hrec, List.reverse_append, List.append_assoc]
    · refine .error e (made ++ made') ?_ (hboth _ _ _ ht ht')
      rw [hrec', hrec, List.reverse_append, List.append_assoc]
  · exact .error e made hrec (hfirst _ ht)

theorem Records.bind {x : EStateM (Stop RuntimeError) σ β} {k : β → EStateM (Stop RuntimeError) σ γ}
    (hx : Records calls T x) (hk : ∀ a, Records calls T' (k a))
    (hboth : ∀ ok made made', T true made → T' ok made' → T'' ok (made ++ made'))
    (hfirst : ∀ made, T false made → T'' false made) : Records calls T'' (x >>= k) :=
  fun s => (hx s).bind (fun a s' _ => hk a s') hboth hfirst

namespace Quiet

theorem pure (a : β) : Quiet calls (Pure.pure a) := fun _ => .ok a [] rfl rfl

theorem throw (e : Stop RuntimeError) :
    Quiet calls (MonadExcept.throw e : EStateM (Stop RuntimeError) σ β) :=
  fun _ => .error e [] rfl rfl

theorem bind {x : EStateM (Stop RuntimeError) σ β} {k : β → EStateM (Stop RuntimeError) σ γ}
    (hx : Quiet calls x) (hk : ∀ a, Quiet calls (k a)) : Quiet calls (x >>= k) := by
  refine Records.bind hx hk (fun _ made made' h h' => ?_) (fun _ h => h)
  rw [h, h']
  rfl

/-- A computation that depends on the state. -/
theorem withState {k : σ → EStateM (Stop RuntimeError) σ β}
    (h : ∀ s, EndsAfter calls (fun _ made => made = []) (calls s) (k s s)) :
    Quiet calls (get >>= k) := h

end Quiet

end Records

/-! ## Frames and contexts -/

/-- The calls that a machine has recorded. -/
def Machine.calls (m : Machine) : List CallRecord := m.world.calls

theorem Records.ofEval {β : Type} {T : Bool → List CallRecord → Prop} {x : Eval β}
    (h : Records World.calls T x) : Records Machine.calls T (Exec.ofEval x) := by
  intro m
  have hends := h m.world
  unfold Exec.ofEval
  revert hends
  generalize x m.world = r
  rintro (⟨a, made, hrec, ht⟩ | ⟨e, made, hrec, ht⟩)
  · exact .ok a made hrec ht
  · exact .error e made hrec ht

namespace Quiet

variable {β : Type}

theorem ofEval {x : Eval β} (h : Quiet World.calls x) : Quiet Machine.calls (Exec.ofEval x) :=
  Records.ofEval h

theorem evalExcept (x : Except RuntimeError β) : Quiet World.calls (Eval.ofExcept x) := by
  cases x with
  | ok a => exact .pure a
  | error e => exact .throw (.raised e)

theorem evalOption (x : Option (Except RuntimeError β)) : Quiet World.calls (Eval.ofOption x) := by
  cases x with
  | some r => exact evalExcept r
  | none => exact .throw _

theorem execExcept (x : Except RuntimeError β) : Quiet Machine.calls (Exec.ofExcept x) := by
  cases x with
  | ok a => exact .pure a
  | error e => exact .throw (.raised e)

theorem alloc (make : Heap → Value × Heap) : Quiet World.calls (Eval.alloc make) :=
  fun _ => .ok _ [] rfl rfl

theorem loadSlot (i : Nat) : Quiet Machine.calls (Exec.loadSlot i) := fun _ => .ok _ [] rfl rfl

theorem storeSlot (i : Nat) (v : Value) : Quiet Machine.calls (Exec.storeSlot i v) :=
  fun _ => .ok _ [] rfl rfl

theorem closure (f : Frame) (unit : Nat) : Quiet World.calls (f.closure unit) :=
  fun _ => .ok _ [] rfl rfl

theorem load (f : Frame) (a : Address) : Quiet Machine.calls (f.load a) := by
  cases a with
  | slot i => exact loadSlot i
  | _ =>
      refine .withState fun m => ?_
      generalize (f.cellOf _).bind _ = x
      cases x with
      | none => exact .error _ [] rfl rfl
      | some v => exact .ok v [] rfl rfl

theorem store (f : Frame) (a : Address) (v : Value) : Quiet Machine.calls (f.store a v) := by
  cases a with
  | slot i => exact storeSlot i v
  | _ =>
      refine .withState fun m => ?_
      cases f.cellOf _ with
      | none => exact .error _ [] rfl rfl
      | some c =>
          simp only [Option.bind_some, World.setCell?]
          cases m.world.cell? c.1 c.2 with
          | none => exact .error _ [] rfl rfl
          | some old => exact .ok _ [] rfl rfl

theorem quote (f : Frame) (v : Value) : Quiet World.calls (f.quote v) := by
  cases v with
  | expression t =>
      refine .withState fun w => ?_
      rw [World.isolate]
      cases w.captureAll? f.scope f.cells t.freeParameters with
      | none => exact .error _ [] rfl rfl
      | some values => exact .ok _ [] rfl rfl
  | _ => exact .throw _

/-- A primitive operator or a test of the type. -/
theorem unary (cx : Context) {action : UnaryAction} (h : ∀ m, action ≠ .user m) (v : Value) :
    Quiet World.calls (cx.unary action v) := by
  cases action with
  | primitive op => exact evalExcept _
  | convert c => exact evalExcept _
  | user m => exact absurd rfl (h m)
  | typeAs ty => exact .pure _
  | typeIs ty => exact .pure _

/-- A primitive operator or an element. -/
theorem binary (cx : Context) {action : BinaryAction} (h : ∀ m, action ≠ .user m) (l r : Value) :
    Quiet World.calls (cx.binary action l r) := by
  cases action with
  | primitive op => exact .withState fun w => evalOption _ w
  | user m => exact absurd rfl (h m)
  | element => exact .withState fun w => evalExcept _ w

end Quiet

/-- Every call of a host function is one call: it does not lead to others. -/
def Context.CallsOnce (cx : Context) : Prop :=
  ∀ g args, Records World.calls (fun _ made => ∃ heap, made = [⟨g, args, heap⟩]) (cx.host g args)

/-- What follows the record of a call, if the host stays outside of compiled code. -/
theorem Quiet.reply {host : Host} (h : host.StaysOutside) (schema : Schema)
    (invoke : FunctionRef → List Value → Eval Value) (g : HostRef) (args : List Value) :
    Quiet World.calls (do
      let w ← get
      (host g args w.heap w.calls).run schema invoke : Eval Value) := by
  refine .withState fun w => ?_
  obtain ⟨result, heap, hdone⟩ := h g args w.heap w.calls
  rw [hdone]
  cases result with
  | ok v => exact .ok v [] rfl rfl
  | error e => exact .error e [] rfl rfl

theorem Records.callWith {host : Host} (h : host.StaysOutside) (schema : Schema)
    (invoke : FunctionRef → List Value → Eval Value) (g : HostRef) (args : List Value) :
    Records World.calls (fun _ made => ∃ heap, made = [⟨g, args, heap⟩])
      (callWith schema host invoke g args) := by
  have hrecord : Records World.calls (fun ok made => ok = true ∧ ∃ heap, made = [⟨g, args, heap⟩])
      (modify fun w : World => { w with calls := ⟨g, args, w.heap⟩ :: w.calls }) :=
    fun w => .ok _ [⟨g, args, w.heap⟩] rfl ⟨rfl, w.heap, rfl⟩
  refine hrecord.bind (fun _ => Quiet.reply h schema invoke g args) ?_ ?_
  · rintro ok made made' ⟨-, heap, rfl⟩ rfl
    exact ⟨heap, rfl⟩
  · exact fun made hmade => absurd hmade.1 Bool.false_ne_true

theorem Records.hostCall {host : Host} (h : host.StaysOutside) (schema : Schema)
    (arrayLimit reentries : Nat) (g : HostRef) (args : List Value) :
    Records World.calls (fun _ made => ∃ heap, made = [⟨g, args, heap⟩])
      (hostCall schema arrayLimit host reentries g args) := by
  cases reentries with
  | zero => exact Records.callWith h schema _ g args
  | succ reentries => exact Records.callWith h schema _ g args

end ExprTree
