import ExprTree.Proofs.Captures.Exact
import ExprTree.Proofs.Layout
import ExprTree.Proofs.Soundness

set_option autoImplicit false

/-! # Trees that only compute

A tree of primitive operators over constants and parameters compiles everywhere; its code reads the
slots of the frame, leaves the state as it is, and gives a result that the operators alone
determine. `Node.Computes` says this of a tree and its result, and has one rule for each form of
node. Casts and type tests depend on the declared records as well, and for them there is the weaker
`Node.EvaluatesTo`. `Environment.eval_of_computes` and `Environment.eval_of_evaluatesTo` take both
to the evaluation of a lambda around such a tree.
-/

namespace ExprTree

/-! ## Outcomes -/

/-- How a computation without effects comes out. -/
abbrev Outcome (β : Type) := Except (Stop RuntimeError) β

namespace Outcome

variable {β γ σ : Type}

/-- A value or an error. -/
def ofExcept : Except RuntimeError β → Outcome β
  | .ok a => .ok a
  | .error e => .error (.raised e)

/-- A value or an error, or there is none. -/
def ofOption : Option (Except RuntimeError β) → Outcome β
  | some r => ofExcept r
  | none => .error .unfinished

/-- What an evaluation reports. -/
def report (r : Outcome β) : Except (Stop Error) β := r.mapError (.map .runtime)

/-- The end of a computation that leaves the state as it is. -/
def inState (r : Outcome β) (s : σ) : EStateM.Result (Stop RuntimeError) σ β :=
  match r with
  | .ok a => .ok a s
  | .error e => .error e s

theorem eval_ofExcept (r : Except RuntimeError β) (w : World) :
    Eval.ofExcept r w = (ofExcept r).inState w := by
  cases r <;> rfl

theorem exec_ofEval {x : Eval β} {r : Outcome β} {m : Machine} (h : x m.world = r.inState m.world) :
    Exec.ofEval x m = r.inState m := by
  rw [Exec.ofEval, h]
  cases r <;> rfl

end Outcome

/-! ## Code -/

namespace Exec

variable {β γ : Type} {m : Machine}

/-- A computation that leaves the state as it is may be followed by another one. -/
theorem bind_inState {x : Exec β} {r : Outcome β} {k : β → Exec γ} {k' : β → Outcome γ}
    (hx : x m = r.inState m) (hk : ∀ b, k b m = (k' b).inState m) :
    (x >>= k) m = (r >>= k').inState m := by
  cases r with
  | ok b => exact (bind_of_ok hx).trans (hk b)
  | error e => exact bind_of_error hx

theorem ofExcept_ok_bind (b : β) (k : β → Exec γ) : (ofExcept (.ok b) >>= k) m = k b m := rfl

end Exec

/-- The result of a primitive operator that may be lifted over a missing operand. -/
def UnaryOp.applyLifted (lifted : Bool) (op : UnaryOp) (v : Value) : Outcome Value :=
  if lifted && v.isNull then .ok .null else .ofExcept (op.apply v)

/-- The result of a primitive operator that may be lifted over missing operands. -/
def BinaryOp.applyLifted (onNull : Option NullResult) (heap : Heap) (op : BinaryOp) (l r : Value) :
    Outcome Value :=
  match onNull with
  | some n => if l.isNull || r.isNull then .ok (n.resolve l r) else .ofOption (op.apply heap l r)
  | none => .ofOption (op.apply heap l r)

/-- A lifted operator passes a missing operand on. -/
theorem BinaryOp.applyLifted_of_null {l r : Value} (h : l = .null ∨ r = .null) (heap : Heap)
    (op : BinaryOp) : op.applyLifted (some .null) heap l r = .ok .null := by
  have hnull : (l.isNull || r.isNull) = true := by rcases h with rfl | rfl <;> simp [Value.isNull]
  rw [applyLifted, hnull, if_pos rfl]
  rfl

/-- Lifting makes no difference where no operand is missing. -/
theorem BinaryOp.applyLifted_of_isNull {l r : Value} (h : (l.isNull || r.isNull) = false)
    (onNull : Option NullResult) (heap : Heap) (op : BinaryOp) :
    op.applyLifted onNull heap l r = .ofOption (op.apply heap l r) := by
  cases onNull with
  | none => rfl
  | some n => rw [applyLifted, h, if_neg Bool.false_ne_true]

namespace Code

variable {cx : Context} {f : Frame} {m : Machine}

theorem run_load_slot {i : Nat} {v : Value} (h : m.slots[i]? = some v) :
    (Code.load (.slot i)).run cx f m = .ok v m := by
  rw [Code.run]
  show EStateM.Result.ok ((m.slots[i]?).getD .null) m = .ok v m
  rw [h]
  rfl

/-- An action whose result depends on its operand alone. -/
theorem run_action {action : UnaryAction} {g : Value → Outcome Value}
    (hg : ∀ v w, cx.unary action v w = (g v).inState w) (lifted : Bool) {operand : Code}
    {r : Outcome Value} (h : operand.run cx f m = r.inState m) :
    (Code.unary action lifted operand).run cx f m
      = Outcome.inState (r >>= fun v => if lifted && v.isNull then .ok .null else g v) m := by
  simp only [Code.run]
  refine Exec.bind_inState h fun v => ?_
  split
  · rfl
  · exact Outcome.exec_ofEval (hg v m.world)

theorem run_unary (op : UnaryOp) (lifted : Bool) {operand : Code} {r : Outcome Value}
    (h : operand.run cx f m = r.inState m) :
    (Code.unary (.primitive op) lifted operand).run cx f m
      = Outcome.inState (r >>= op.applyLifted lifted) m := by
  have hop : ∀ v w, cx.unary (.primitive op) v w = (Outcome.ofExcept (op.apply v)).inState w :=
    fun v w => Outcome.eval_ofExcept (op.apply v) w
  exact run_action hop lifted h

theorem run_binary (op : BinaryOp) (onNull : Option NullResult) {left right : Code}
    {l r : Outcome Value} (hl : left.run cx f m = l.inState m)
    (hr : right.run cx f m = r.inState m) :
    (Code.binary (.primitive op) onNull left right).run cx f m
      = Outcome.inState (l >>= fun a => r >>= op.applyLifted onNull m.world.heap a) m := by
  have happly : ∀ a b, Exec.ofEval (cx.binary (.primitive op) a b) m
      = (Outcome.ofOption (op.apply m.world.heap a b)).inState m := by
    intro a b
    refine Outcome.exec_ofEval ?_
    rw [Context.binary, get_bind]
    cases op.apply m.world.heap a b with
    | none => rfl
    | some r => exact Outcome.eval_ofExcept r m.world
  simp only [Code.run]
  refine Exec.bind_inState hl fun a => Exec.bind_inState hr fun b => ?_
  unfold BinaryOp.applyLifted
  cases onNull with
  | none => exact happly a b
  | some n =>
      show (if (a.isNull || b.isNull) = true then _ else _ : Exec Value) m = Outcome.inState _ m
      split
      · rfl
      · exact happly a b

end Code

/-! ## Trees -/

/-- The frame and the state of code that runs on `args` and may use the constants in `pool`. -/
structure Frame.RunsOn (args : List Value) (heap : Heap) (pool : Arena Value) (f : Frame)
    (m : Machine) : Prop where
  slots : ∀ (i : Nat) (v : Value), args[i]? = some v → m.slots[i]? = some v
  heap : m.world.heap = heap
  pool : pool.Extends f.scope.program.pool

theorem Frame.RunsOn.mono {args : List Value} {heap : Heap} {pool pool' : Arena Value} {f : Frame}
    {m : Machine} (h : f.RunsOn args heap pool' m) (hp : pool.Extends pool') :
    f.RunsOn args heap pool m :=
  ⟨h.slots, h.heap, hp.trans h.pool⟩

/-- The tree compiles, and its code gives the result `r` on these arguments wherever it runs,
without a change of the state. -/
def Node.Computes (cx : EmitContext) (scope : EmitScope) (args : List Value) (heap : Heap)
    (n : Tree) (r : Outcome Value) : Prop :=
  ∀ s, ∃ code s', n.emit cx scope s = .ok (code, s') ∧ ∀ run f m,
    f.RunsOn args heap s'.pool m → code.run run f m = r.inState m

namespace Node.Computes

variable {cx : EmitContext} {scope : EmitScope} {args : List Value} {heap : Heap}

theorem constant (id : Nat) (v : Value) (ty : Ty) :
    (Node.constant id v ty).Computes cx scope args heap (.ok v) := by
  intro s
  obtain ⟨⟨code, s'⟩, h⟩ := emitConstant_total v s
  have hemit : (Node.constant id v ty).emit cx scope s = .ok (code, s') := by
    rw [Node.constant, Node.emit, Payload.emit_constant]
    exact ⟨rfl, h⟩
  refine ⟨code, s', hemit, fun run f m hf => ?_⟩
  rcases emitConstant_eq_ok.mp h with ⟨-, rfl, -⟩ | ⟨-, rfl, rfl⟩
  · rfl
  · have hpool := hf.pool.get?_some (Arena.get?_alloc_self s.pool v)
    show EStateM.Result.ok ((f.scope.program.pool.get? s.pool.size).getD .null) m = .ok v m
    rw [hpool]
    rfl

/-- A parameter that is not in a cell. -/
theorem parameter (id : Nat) {p : Parameter} {i : Nat} {v : Value}
    (ha : scope.address? p.id = some (.slot i)) (hv : args[i]? = some v) :
    (Node.parameter id p).Computes cx scope args heap (.ok v) := by
  intro s
  have hemit : (Node.parameter id p).emit cx scope s = .ok (.load (.slot i), s) := by
    rw [Node.parameter, Node.emit, Payload.emit_parameter]
    exact ⟨rfl, rfl, _, ha, rfl⟩
  exact ⟨_, s, hemit, fun _ _ _ hf => Code.run_load_slot (hf.slots i v hv)⟩

theorem unary (id : Nat) {kind : Kind} {ty : Ty} {x : Tree} {lifted lift : Bool} {op : UnaryOp}
    {r : Outcome Value}
    (h : unaryAction? cx.schema kind ty x.ty none lifted = some (.primitive op, lift))
    (hx : x.Computes cx scope args heap r) :
    Node.Computes cx scope args heap (.mk id kind ty (.unary x none lifted))
      (r >>= op.applyLifted lift) := by
  intro s
  obtain ⟨code, s', he, hrun⟩ := hx s
  refine ⟨.unary (.primitive op) lift code, s', ?_, fun run f m hf => ?_⟩
  · rw [Node.emit, Payload.emit_unary_of_some h]
    exact ⟨code, he, rfl⟩
  · exact Code.run_unary op lift (hrun run f m hf)

/-- A node with two operands, given what its code makes of their results. -/
theorem ofForm (id : Nat) {kind : Kind} {ty : Ty} {x y : Tree} {lifted toNull : Bool}
    {form : BinaryForm} {l r result : Outcome Value}
    (h : binaryForm? cx.schema kind ty x.ty none lifted = some form)
    (hx : x.Computes cx scope args heap l) (hy : y.Computes cx scope args heap r)
    (hcode : ∀ run f m left right, m.world.heap = heap → left.run run f m = l.inState m →
      right.run run f m = r.inState m →
      (form.code left right).run run f m = result.inState m) :
    Node.Computes cx scope args heap (.mk id kind ty (.binary x y none lifted toNull none))
      result := by
  intro s
  obtain ⟨left, s₁, hel, hl⟩ := hx s
  obtain ⟨right, s', her, hr⟩ := hy s₁
  refine ⟨form.code left right, s', ?_, fun run f m hf => ?_⟩
  · rw [Node.emit, Payload.emit_binary_of_some h]
    exact ⟨left, s₁, right, hel, her, rfl⟩
  · -- the constants of the left operand are still there after the right one
    have hleft := hl run f m (hf.mono (Node.emit_grows y her).pool)
    exact hcode run f m left right hf.heap hleft (hr run f m hf)

theorem binary (id : Nat) {kind : Kind} {ty : Ty} {x y : Tree} {lifted toNull : Bool}
    {op : BinaryOp} {onNull : Option NullResult} {l r : Outcome Value}
    (h : binaryForm? cx.schema kind ty x.ty none lifted = some (.strict (.primitive op) onNull))
    (hx : x.Computes cx scope args heap l) (hy : y.Computes cx scope args heap r) :
    Node.Computes cx scope args heap (.mk id kind ty (.binary x y none lifted toNull none))
      (l >>= fun a => r >>= op.applyLifted onNull heap a) := by
  refine ofForm id h hx hy fun run f m left right hheap hl hr => ?_
  rw [← hheap]
  exact Code.run_binary op onNull hl hr

end Node.Computes

/-- The tree compiles, and where records are those of the compilation, its code gives the result `r`
on these arguments without a change of the state. Casts and type tests ask which record derives from
which. -/
def Node.EvaluatesTo (cx : EmitContext) (scope : EmitScope) (args : List Value) (heap : Heap)
    (n : Tree) (r : Outcome Value) : Prop :=
  ∀ s, ∃ code s', n.emit cx scope s = .ok (code, s') ∧ ∀ run f m, run.schema = cx.schema →
    f.RunsOn args heap s'.pool m → code.run run f m = r.inState m

section EvaluatesTo

variable {cx : EmitContext} {scope : EmitScope} {args : List Value} {heap : Heap} {x : Tree}
  {r : Outcome Value}

theorem Node.Computes.evaluatesTo (h : x.Computes cx scope args heap r) :
    x.EvaluatesTo cx scope args heap r := by
  intro s
  obtain ⟨code, s', hemit, hrun⟩ := h s
  exact ⟨code, s', hemit, fun run f m _ hf => hrun run f m hf⟩

namespace Node.EvaluatesTo

/-- A node whose action is never lifted, such as a conversion. -/
theorem action (u : UnaryAction) (id : Nat) {kind : Kind} {ty : Ty} {lifted : Bool}
    {g : Value → Outcome Value}
    (h : unaryAction? cx.schema kind ty x.ty none lifted = some (u, false))
    (hg : ∀ run v w, run.schema = cx.schema → Context.unary run u v w = (g v).inState w)
    (hx : x.EvaluatesTo cx scope args heap r) :
    Node.EvaluatesTo cx scope args heap (.mk id kind ty (.unary x none lifted)) (r >>= g) := by
  intro s
  obtain ⟨code, s', he, hrun⟩ := hx s
  refine ⟨.unary u false code, s', ?_, fun run f m hs hf => ?_⟩
  · rw [Node.emit, Payload.emit_unary_of_some h]
    exact ⟨code, he, rfl⟩
  · exact Code.run_action (fun v w => hg run v w hs) false (hrun run f m hs hf)

theorem convert (id : Nat) {checked : Bool} {ty : Ty} {c : Conversion}
    (h : Conversion.select? cx.schema checked x.ty ty = some c)
    (hx : x.EvaluatesTo cx scope args heap r) :
    Node.EvaluatesTo cx scope args heap
      (.conversion id (if checked then .convertChecked else .convert) x ty none)
      (r >>= fun v => .ofExcept (c.apply cx.schema v)) := by
  refine action (.convert c) id ?_ (fun run v w hs => ?_) hx
  · cases checked <;> simp [unaryAction?, Kind.isUnary, h]
  · rw [Context.unary, hs, Outcome.eval_ofExcept]

theorem typeAs (id : Nat) {ty : Ty} (h : ty.admitsNull = true)
    (hx : x.EvaluatesTo cx scope args heap r) :
    Node.EvaluatesTo cx scope args heap (.typeAs id x ty)
      (r >>= fun v => .ok (if v.conformsTo cx.schema ty then v else .null)) := by
  refine action (.typeAs ty) id ?_ (fun run v w hs => ?_) hx
  · simp [unaryAction?, Kind.isUnary, h]
  · rw [Context.unary, hs]
    rfl

theorem typeIs (id : Nat) (ty : Ty) (hx : x.EvaluatesTo cx scope args heap r) :
    Node.EvaluatesTo cx scope args heap (.typeIs id x ty)
      (r >>= fun v => .ok (.bool (!v.isNull && v.conformsTo cx.schema ty))) := by
  intro s
  obtain ⟨code, s', he, hrun⟩ := hx s
  refine ⟨.unary (.typeIs ty) false code, s', ?_, fun run f m hs hf => ?_⟩
  · rw [Node.typeIs, Node.emit, Payload.emit_typeIs]
    exact ⟨rfl, code, he, rfl⟩
  · refine Code.run_action (fun v w => ?_) false (hrun run f m hs hf)
    rw [Context.unary, hs]
    rfl

end Node.EvaluatesTo

end EvaluatesTo

/-! ## Evaluations -/

/-- A lambda captures nothing if its parameters are used outside of nested lambdas and quotes
only. -/
theorem Lambda.captures_ofLambda_eq_nil {l : Lambda Value}
    (h : ∀ o ∈ l.body.occurrences, o.within = []) : l.captures.ofLambda l.id = [] := by
  have huses : capturedUses [] l.walk = [] := by
    have hwalk := capturedUses_lambda l [] []
    rw [List.append_nil] at hwalk
    rw [hwalk, Node.capturedUses_walk, capturedUses, List.append_nil, List.flatMap_eq_nil_iff]
    intro o ho
    rw [h o ho, List.nil_append, capturedUse]
    cases hd : Enclosure.declaring? o.parameter (.lambda l.id l.params) with
    | none => simp [hd]
    | some i =>
        obtain ⟨-, rfl⟩ : _ ∧ l.id = i := by simpa [Enclosure.declaring?] using hd
        simp [hd, Enclosure.lambda?]
  rw [Lambda.captures_ofLambda, huses]
  rfl

/-- Without captured parameters, a parameter is read from the slot of its last declaration. -/
theorem Lambda.address?_emitScope {l : Lambda Value} {p i : Nat}
    (h : l.captures.ofLambda l.id = []) (hi : lastIndex? p (l.params.map (·.id)) = some i) :
    (l.emitScope l.captures none 0).address? p = some (.slot i) := by
  simp [EmitScope.address?, Lambda.emitScope, Captures.idsOf, h, hi]

/-- What a lambda compiles to, given the code of its body. -/
theorem Program.compile_ofLambda {schema : Schema} (options : Options) (id : Nat)
    {l : Lambda Value} {code : Code} {s : EmitState}
    (h : l.body.emit ⟨schema, l.captures⟩ (l.emitScope l.captures none 0)
      (EmitState.enter {} none l) = .ok (code, s)) :
    Program.compile schema options (.ofLambda id l)
      = .ok ⟨(s.finish {} (l.codeUnit l.captures none s.slots code)).units, s.pool, options⟩ := by
  have hroot : l.emit ⟨schema, l.captures⟩ none {}
      = .ok (0, s.finish {} (l.codeUnit l.captures none s.slots code)) :=
    Lambda.emit_eq_ok.mpr ⟨rfl, code, s, h, rfl⟩
  exact Program.ofLambda_of_emit hroot

theorem Lambda.hoisted_codeUnit {l : Lambda Value} (parent : Option Nat) (slots : Nat) (code : Code)
    (h : l.captures.ofLambda l.id = []) :
    (l.codeUnit l.captures parent slots code).hoisted = [] := by
  rw [Lambda.codeUnit, h]
  rfl

/-- A unit without cells runs its body on its slots. -/
theorem CodeUnit.run_eq_inState {u : CodeUnit} {cx : Context} {scope : Scope} {depth : UInt32}
    {args : List Value} {w : World} {r : Outcome Value} (hu : u.hoisted = [])
    (h : u.body.run cx ⟨scope, none, depth⟩ ⟨u.slots args, w⟩ = r.inState ⟨u.slots args, w⟩) :
    u.run cx scope depth args w = r.inState w := by
  simp only [CodeUnit.run, hu, List.isEmpty_nil, ↓reduceIte, h]
  cases r <;> rfl

theorem CodeUnit.getElem?_slots {u : CodeUnit} {args : List Value} {i : Nat} {v : Value}
    (h : args[i]? = some v) : (u.slots args)[i]? = some v := by
  have hlt := (List.getElem?_eq_some_iff.mp h).1
  rw [CodeUnit.slots, List.getElem?_toArray, List.getElem?_append_left hlt, h]

/-- The argument of a parameter; of several declarations the last one counts. -/
def argumentOf (params : List Parameter) (args : List Value) (number : Nat) : Value :=
  ((lastIndex? number (params.map (·.id))).bind fun i => args[i]?).getD .null

/-- The parameters are read from slots, and `ρ` gives the values there, which have their types. -/
def ReadsSlots (schema : Schema) (scope : EmitScope) (args : List Value) (ρ : Nat → Value)
    (used : List Parameter) : Prop :=
  ∀ p ∈ used, (ρ p.id).conformsTo schema p.ty = true ∧
    ∃ i, scope.address? p.id = some (.slot i) ∧ args[i]? = some (ρ p.id)

section ReadsSlots

variable {schema : Schema} {scope : EmitScope} {args : List Value} {ρ : Nat → Value}
  {used used' : List Parameter}

theorem ReadsSlots.left (h : ReadsSlots schema scope args ρ (used ++ used')) :
    ReadsSlots schema scope args ρ used :=
  fun p hp => h p (List.mem_append_left _ hp)

theorem ReadsSlots.right (h : ReadsSlots schema scope args ρ (used ++ used')) :
    ReadsSlots schema scope args ρ used' :=
  fun p hp => h p (List.mem_append_right _ hp)

end ReadsSlots

/-- A lambda with these parameters that uses some of them can be applied to these arguments: it
declares what it uses, a number stands for one parameter only, and every argument has the type of
its parameter. -/
structure Supplies (schema : Schema) (params : List Parameter) (args : List Value)
    (used : List Parameter) : Prop where
  declared : ∀ p ∈ used, p ∈ params
  identified : ∀ p ∈ params, ∀ q ∈ params, p.id = q.id → p = q
  conform : List.Forall₂ (fun v (p : Parameter) => v.conformsTo schema p.ty = true) args params

namespace Supplies

variable {schema : Schema} {args : List Value} {used : List Parameter} {l : Lambda Value}

theorem checkArguments (h : Supplies schema l.params args used) :
    checkArguments schema l.signature args = .ok () := by
  obtain ⟨hlen, hzip⟩ := List.forall₂_iff_zip.mp h.conform
  refine checkArguments_eq_ok (hlen.trans (List.length_map _).symm) fun a ha => ?_
  rw [Lambda.signature, List.zip_map_right] at ha
  obtain ⟨b, hb, rfl⟩ := List.mem_map.mp ha
  exact hzip hb

/-- The argument of a parameter is where its last declaration stands, and has its type. -/
theorem argument {params : List Parameter} (h : Supplies schema params args used) {p : Parameter}
    (hp : p ∈ used) :
    (argumentOf params args p.id).conformsTo schema p.ty = true ∧
      ∃ i, lastIndex? p.id (params.map (·.id)) = some i ∧
        args[i]? = some (argumentOf params args p.id) := by
  obtain ⟨hlen, hzip⟩ := List.forall₂_iff_zip.mp h.conform
  have hmem : p.id ∈ params.map (·.id) := List.mem_map_of_mem (h.declared p hp)
  obtain ⟨i, hi⟩ : ∃ i, lastIndex? p.id (params.map (·.id)) = some i :=
    Option.ne_none_iff_exists'.mp fun hnone => lastIndex?_eq_none.mp hnone hmem
  -- the parameter that is declared there is the same one
  have hq : params[i]? = some p := by
    have hget := getElem?_of_lastIndex? hi
    rw [List.getElem?_map] at hget
    obtain ⟨q, hq, hid⟩ := Option.map_eq_some_iff.mp hget
    rw [hq, h.identified q (List.mem_of_getElem? hq) p (h.declared p hp) hid]
  obtain ⟨v, hv⟩ : ∃ v, args[i]? = some v := by
    have hlt := (List.getElem?_eq_some_iff.mp hq).1
    exact ⟨_, List.getElem?_eq_getElem (hlen ▸ hlt)⟩
  have hvalue : argumentOf params args p.id = v := by
    rw [argumentOf, hi, Option.bind_some, hv, Option.getD_some]
  have hpair : (v, p) ∈ args.zip params :=
    List.mem_of_getElem? (List.getElem?_zip_eq_some.mpr ⟨hv, hq⟩)
  rw [hvalue]
  exact ⟨hzip hpair, i, hi, hv⟩

/-- Without captured parameters, the parameters are in the slots of their arguments. -/
theorem readsSlots (h : Supplies schema l.params args used)
    (hcaptures : l.captures.ofLambda l.id = []) :
    ReadsSlots schema (l.emitScope l.captures none 0) args (argumentOf l.params args) used := by
  intro p hp
  obtain ⟨hconforms, i, hi, hv⟩ := h.argument hp
  exact ⟨hconforms, i, Lambda.address?_emitScope hcaptures hi, hv⟩

end Supplies

namespace Environment

variable {e : Environment} {args : List Value} {w : World}

/-- Within the depth limit, the arguments are checked, and then the unit is run. -/
theorem enter_eq_check {s : Scope} {u : CodeUnit} (hu : s.unit? = some u)
    (hlimit : 0 < s.program.options.maxCallDepth) (args : List Value) (w : World) :
    ∃ cx, cx.schema = e.schema ∧ cx.host = e.call ∧
      e.enter s args w = (do
        Eval.ofExcept (checkArguments e.schema u.signature args)
        u.run cx s 0 args : Eval Value) w := by
  have hdepth : checkCallDepth 0 s.program.options.maxCallDepth = .ok () := if_pos hlimit
  -- the ceiling is a large number that must not be unfolded
  obtain ⟨nesting, hsucc⟩ : ∃ n, callCeiling = n + 1 := ⟨4294967295, rfl⟩
  rw [Environment.enter, hsucc, invokeAt]
  simp only [hdepth, hu]
  exact ⟨_, rfl, rfl, rfl⟩

/-- Arguments that fit are passed on to the unit. -/
theorem enter_eq_run {s : Scope} {u : CodeUnit} (hu : s.unit? = some u)
    (hlimit : 0 < s.program.options.maxCallDepth)
    (hargs : checkArguments e.schema u.signature args = .ok ()) :
    ∃ cx, cx.schema = e.schema ∧ cx.host = e.call ∧ e.enter s args w = u.run cx s 0 args w := by
  obtain ⟨cx, hschema, hhost, henter⟩ := enter_eq_check hu hlimit args w
  rw [hargs] at henter
  exact ⟨cx, hschema, hhost, henter⟩

/-- Arguments that do not fit are refused before anything is run. -/
theorem enter_eq_error {s : Scope} {u : CodeUnit} {err : RuntimeError} (hu : s.unit? = some u)
    (hlimit : 0 < s.program.options.maxCallDepth)
    (hargs : checkArguments e.schema u.signature args = .error err) :
    e.enter s args w = .error (.raised err) w := by
  obtain ⟨cx, -, -, henter⟩ := enter_eq_check hu hlimit args w
  rw [hargs] at henter
  exact henter

/-- A lambda around a tree that compiles is the root of a program, and its unit can be entered. -/
theorem root_ofLambda (id : Nat) {l : Lambda Value} {code : Code} {s : EmitState}
    (hemit : l.body.emit ⟨e.schema, l.captures⟩ (l.emitScope l.captures none 0)
      (EmitState.enter {} none l) = .ok (code, s)) :
    ∃ p, Program.compile e.schema {} (.ofLambda id l) = .ok p ∧ p.pool = s.pool ∧
      (Scope.root p 0).unit? = some (l.codeUnit l.captures none s.slots code) ∧
      0 < (Scope.root p 0).program.options.maxCallDepth := by
  refine ⟨_, Program.compile_ofLambda {} id hemit, rfl, ?_, ?_⟩
  · exact EmitState.finish_get? (Node.emit_grows _ hemit) _
  · show 0 < ({} : Options).maxCallDepth
    decide

/-- A lambda around a tree that compiles is evaluated by running its unit. -/
theorem enter_ofLambda (id : Nat) {l : Lambda Value} {code : Code} {s : EmitState}
    (hargs : checkArguments e.schema l.signature args = .ok ())
    (hemit : l.body.emit ⟨e.schema, l.captures⟩ (l.emitScope l.captures none 0)
      (EmitState.enter {} none l) = .ok (code, s)) :
    ∃ p cx, Program.compile e.schema {} (.ofLambda id l) = .ok p ∧ p.pool = s.pool ∧
      cx.schema = e.schema ∧ cx.host = e.call ∧
      e.enter (.root p 0) args w
        = (l.codeUnit l.captures none s.slots code).run cx (.root p 0) 0 args w := by
  obtain ⟨p, hcompile, hpool, hunit, hlimit⟩ := root_ofLambda (e := e) id hemit
  obtain ⟨cx, hschema, hhost, henter⟩ := enter_eq_run (w := w) hunit hlimit hargs
  exact ⟨p, cx, hcompile, hpool, hschema, hhost, henter⟩

/-- A lambda that compiles refuses arguments that do not fit. -/
theorem eval_eq_error {id : Nat} {l : Lambda Value} {p : Program} {err : RuntimeError}
    (hp : Program.compile e.schema {} (.ofLambda id l) = .ok p)
    (hargs : checkArguments e.schema l.signature args = .error err) :
    e.eval (.ofLambda id l) args w = (.error (.raised (.runtime err)), w) := by
  obtain ⟨⟨u, s'⟩, hroot⟩ := Program.emit_of_ofLambda hp
  obtain ⟨hu, code, s, hemit, -⟩ := Lambda.emit_eq_ok.mp hroot
  obtain rfl : u = 0 := hu
  obtain ⟨p', hcompile, -, hunit, hlimit⟩ := root_ofLambda (e := e) id hemit
  unfold Environment.eval
  rw [hcompile]
  simp only [enter_eq_error (w := w) hunit hlimit hargs]
  rfl

/-- **Evaluating a lambda around a tree without effects.** The result is that of the tree, and the
world stays as it is. -/
theorem eval_of_evaluatesTo (id : Nat) {l : Lambda Value} {r : Outcome Value}
    (hcaptures : l.captures.ofLambda l.id = [])
    (hargs : checkArguments e.schema l.signature args = .ok ())
    (h : l.body.EvaluatesTo ⟨e.schema, l.captures⟩ (l.emitScope l.captures none 0) args w.heap r) :
    e.eval (.ofLambda id l) args w = (r.report, w) := by
  obtain ⟨code, s, hemit, hrun⟩ := h (EmitState.enter {} none l)
  obtain ⟨p, cx, hcompile, hpool, hschema, -, henter⟩ := enter_ofLambda (w := w) id hargs hemit
  have hframe : Frame.RunsOn args w.heap s.pool ⟨.root p 0, none, 0⟩
      ⟨(l.codeUnit l.captures none s.slots code).slots args, w⟩ := by
    refine ⟨fun i v hv => CodeUnit.getElem?_slots hv, rfl, ?_⟩
    rw [← hpool]
    exact .refl _
  have hhoisted := Lambda.hoisted_codeUnit none s.slots code hcaptures
  rw [CodeUnit.run_eq_inState hhoisted (hrun cx _ _ hschema hframe)] at henter
  unfold Environment.eval
  rw [hcompile]
  simp only [henter]
  cases r <;> rfl

/-- Evaluating a lambda around a tree that only computes. -/
theorem eval_of_computes (id : Nat) {l : Lambda Value} {r : Outcome Value}
    (hcaptures : l.captures.ofLambda l.id = [])
    (hargs : checkArguments e.schema l.signature args = .ok ())
    (h : l.body.Computes ⟨e.schema, l.captures⟩ (l.emitScope l.captures none 0) args w.heap r) :
    e.eval (.ofLambda id l) args w = (r.report, w) :=
  eval_of_evaluatesTo id hcaptures hargs h.evaluatesTo

end Environment

end ExprTree
