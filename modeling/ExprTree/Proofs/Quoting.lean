import ExprTree.Proofs.Isolation

set_option autoImplicit false

/-! # Quoting and evaluating

A tree stands in the innermost of several nested lambdas. The lambdas are instantiated and invoked
from outside, one closure after the other. If the innermost body quotes the tree, the result is a
tree of its own. Compiling that one and running it has the same outcome as the innermost body has if
it is the tree itself.

Two compilations and three runs are compared: each run agrees with the interpreter, and the
interpreter does the same on the tree in place and on the quoted one.
-/

namespace ExprTree

open Lexical (Env Store Interp Fault Closure)

/-! ## Nested lambdas -/

/-- A lambda around a tree, and the arguments on which its closure is invoked. -/
structure Enclosing where
  /-- Identity of the node that holds the lambda. -/
  node : Nat
  id : Nat
  name : Option String
  params : List Parameter
  args : List Value

/-- The lambda with that body. -/
def Enclosing.lambda (l : Enclosing) (body : Tree) : Lambda Value := .mk l.id l.name l.params body

/-- The tree inside the lambdas, outermost first. -/
def enclose : List Enclosing → Tree → Tree
  | [], body => body
  | l :: ls, body => .ofLambda l.node (l.lambda (enclose ls body))

/-- Invokes a value that should be a function, from outside. -/
def Environment.apply (e : Environment) (callee : Value) (args : List Value) : Eval Value :=
  match callee with
  | .function f => e.invoke f args
  | v => Eval.fail (.notCallable v.typeName)

/-- Instantiates a program, invokes the closure, then the closure that comes out, and so on. -/
def Environment.runNested (e : Environment) (p : Program) (ls : List Enclosing) : Eval Value := do
  (ls.map (·.args)).foldlM e.apply (← p.instantiate)

/-- Compiles a tree and runs it once; a tree that is no lambda gets one around it. -/
def Environment.evalTree (e : Environment) (tree : Tree) (w : World) :
    Except (Stop Error) Value × World :=
  let (root, heap) := w.heap.withFresh tree.asRoot
  e.eval root [] { w with heap := heap }

/-- Invokes a value that should be a function, from outside. -/
def Lexical.apply (schema : Schema) (arrayLimit : Nat) (host : HostRef → List Value → Interp Value)
    (callee : Value) (args : List Value) : Interp Value :=
  match callee with
  | .function f => do invokeAt schema arrayLimit host callCeiling 0 (← Interp.closureOf f) args
  | v => Interp.raise (.notCallable v.typeName)

section Simulation

variable {A : Assumptions} {e : Environment} {host : HostRef → List Value → Interp Value}

theorem Simulates.apply
    (hhost : ∀ f args, Simulates A e.schema args (e.call f args) (host f args)) (v : Value)
    (args : List Value) :
    Simulates A e.schema args (e.apply v args)
      (Lexical.apply e.schema e.arrayLimit host v args) := by
  cases v with
  | function f =>
      exact .ofClosure fun _ _ _ _ _ hr hc hargs =>
        invokeAt_agrees hhost e.arrayLimit callCeiling 0 hr hc hargs
  | _ => exact .raise RuntimeError.noConfusion

/-- Invocations in a row. -/
theorem Simulates.applyAll
    (hhost : ∀ f args, Simulates A e.schema args (e.call f args) (host f args)) (v : Value)
    (argss : List (List Value)) :
    Simulates A e.schema (v :: argss.flatten) (argss.foldlM e.apply v)
      (argss.foldlM (Lexical.apply e.schema e.arrayLimit host) v) := by
  induction argss generalizing v with
  | nil => exact .pure (.mem List.mem_cons_self)
  | cons args rest ih =>
      rw [List.foldlM_cons, List.foldlM_cons]
      refine Simulates.bind ((Simulates.apply hhost v args).weaken (.subset fun u hu => ?_))
        fun b => (ih b).weaken (.subset fun u hu => ?_)
      · exact List.mem_cons_of_mem _ (List.mem_append_left _ hu)
      · rcases List.mem_cons.mp hu with rfl | hu
        · exact List.mem_append_left _ List.mem_cons_self
        · exact List.mem_append_right _ (List.mem_cons_of_mem _ (List.mem_append_right _ hu))

end Simulation

/-! ## The interpreter on nested lambdas

What host functions can reach of a closure depends on its body; where a parameter stands does not.
The nested lambdas are followed up to this difference. -/

/-- Both environments have each parameter at the same location. -/
def Lexical.SameLocations (env env' : Env) : Prop := ∀ p, location? env p = location? env' p

theorem Lexical.SameLocations.cons {env env' : Env} (h : SameLocations env env') {b b' : Bindings}
    (hparams : b.params = b'.params) (hbase : b.base = b'.base) :
    SameLocations (b :: env) (b' :: env') := by
  intro p
  have hb : b.location? p = b'.location? p := by
    rw [Bindings.location?, Bindings.location?, hparams, hbase]
  rw [location?, location?, List.findSome?_cons, List.findSome?_cons, hb]
  cases b'.location? p with
  | none => exact h p
  | some l => rfl

theorem Lexical.Store.value?_congr {env env' : Env} (h : SameLocations env env') {σ σ' : Store}
    (hlocations : σ.locations = σ'.locations) (p : Nat) : σ.value? env p = σ'.value? env' p := by
  rw [Store.value?, Store.value?, h p, hlocations]

/-- One invocation from outside, where the depth of calls is zero. -/
theorem Lexical.invokeAt_callCeiling (schema : Schema) (arrayLimit : Nat)
    (host : HostRef → List Value → Interp Value) (c : Closure) (args : List Value) :
    ∃ cx : Lexical.Context, cx.schema = schema ∧ cx.arrayLimit = arrayLimit ∧ cx.limit = c.limit ∧
      Lexical.invokeAt schema arrayLimit host callCeiling 0 c args = (do
        Interp.ofExcept (checkCallDepth 0 c.limit)
        Interp.ofExcept (checkArguments schema c.lambda.signature args)
        let bindings ← modifyGet (·.bind c.lambda args)
        c.lambda.body.interpret cx (bindings :: c.env)) := by
  -- the ceiling is a large number that must not be unfolded
  have hsucc : callCeiling = (callCeiling - 1) + 1 := rfl
  rw [hsucc, Lexical.invokeAt]
  exact ⟨_, rfl, rfl, rfl, rfl⟩

/-- The environment and the locations inside a lambda, given those outside. -/
def Enclosing.enter (schema : Schema) (limit : UInt32) (outside : Env × Array Value)
    (l : Enclosing) : Except RuntimeError (Env × Array Value) := do
  checkCallDepth 0 limit
  checkArguments schema ⟨l.params.map (·.ty), .unit⟩ l.args
  return (⟨l.params.map (·.id), [], outside.2.size⟩ :: outside.1, outside.2 ++ l.args.toArray)

section Nested

variable {limit : UInt32} {f : FunctionRef} {σ : Store} {env outside : Env}

/-- One closure: its body is evaluated inside the lambda. -/
theorem Lexical.apply_closure (schema : Schema) (arrayLimit : Nat)
    (host : HostRef → List Value → Interp Value) {l : Enclosing} {body : Tree}
    (hf : σ.closures[f.id]? = some ⟨l.lambda body, env, limit⟩)
    (henv : SameLocations env outside) :
    ∃ cx : Lexical.Context, cx.schema = schema ∧ cx.arrayLimit = arrayLimit ∧ cx.limit = limit ∧
      match l.enter schema limit (outside, σ.locations) with
      | .ok inside => ∃ env', SameLocations env' inside.1 ∧
          Lexical.apply schema arrayLimit host (.function f) l.args σ
            = body.interpret cx env' { σ with locations := inside.2 }
      | .error e => Lexical.apply schema arrayLimit host (.function f) l.args σ
          = .error (.stop (.raised e)) σ := by
  obtain ⟨cx, hcx, harray, hlimit, hinvoke⟩ :=
    Lexical.invokeAt_callCeiling schema arrayLimit host ⟨l.lambda body, env, limit⟩ l.args
  refine ⟨cx, hcx, harray, hlimit, ?_⟩
  have happly : Lexical.apply schema arrayLimit host (.function f) l.args σ
      = Lexical.invokeAt schema arrayLimit host callCeiling 0 ⟨l.lambda body, env, limit⟩ l.args
        σ := bind_of_ok (Interp.closureOf_eq hf)
  have hsignature : checkArguments schema (l.lambda body).signature l.args
      = checkArguments schema ⟨l.params.map (·.ty), .unit⟩ l.args := rfl
  rw [happly, hinvoke, Enclosing.enter, hsignature]
  cases checkCallDepth 0 limit with
  | error e => rfl
  | ok _ =>
      cases checkArguments schema ⟨l.params.map (·.ty), .unit⟩ l.args with
      | error e => rfl
      | ok _ => exact ⟨bindingsOf (l.lambda body) σ.locations.size :: env, henv.cons rfl rfl, rfl⟩

/-- **What nested closures do does not depend on the innermost body until it is reached.** The
induction is on the lambdas inside the closure. -/
theorem Lexical.applyAll_enclose (schema : Schema) (arrayLimit : Nat)
    (host : HostRef → List Value → Interp Value) (body : Tree) (ls : List Enclosing) (l : Enclosing)
    (hf : σ.closures[f.id]? = some ⟨l.lambda (enclose ls body), env, limit⟩)
    (henv : SameLocations env outside) :
    match (l :: ls).foldlM (Enclosing.enter schema limit) (outside, σ.locations) with
    | .ok inside => ∃ cx env' σ', cx.schema = schema ∧ cx.arrayLimit = arrayLimit ∧
        SameLocations env' inside.1 ∧ σ'.heap = σ.heap ∧ σ'.locations = inside.2 ∧
        ((l :: ls).map (·.args)).foldlM (Lexical.apply schema arrayLimit host) (.function f) σ
          = body.interpret cx env' σ'
    | .error e => ∃ σ',
        ((l :: ls).map (·.args)).foldlM (Lexical.apply schema arrayLimit host) (.function f) σ
          = .error (.stop (.raised e)) σ' := by
  induction ls generalizing l f σ env outside with
  | nil =>
      obtain ⟨cx, hcx, harray, -, happly⟩ :=
        Lexical.apply_closure schema arrayLimit host hf henv
      have hlast : ([l].map (·.args)).foldlM (Lexical.apply schema arrayLimit host) (.function f) σ
          = Lexical.apply schema arrayLimit host (.function f) l.args σ := by
        simp only [List.map_cons, List.map_nil, List.foldlM_cons, List.foldlM_nil, bind_pure]
      simp only [List.foldlM_cons, List.foldlM_nil, bind_pure]
      rw [hlast]
      cases henter : l.enter schema limit (outside, σ.locations) with
      | ok inside =>
          rw [henter] at happly
          obtain ⟨env', henv', happly⟩ := happly
          exact ⟨cx, env', { σ with locations := inside.2 }, hcx, harray, henv', rfl, rfl, happly⟩
      | error e =>
          rw [henter] at happly
          exact ⟨σ, happly⟩
  | cons m ms ih =>
      obtain ⟨cx, hcx, harray, hlimit, happly⟩ :=
        Lexical.apply_closure schema arrayLimit host hf henv
      rw [List.map_cons, List.foldlM_cons, List.foldlM_cons]
      cases henter : l.enter schema limit (outside, σ.locations) with
      | error e =>
          rw [henter] at happly
          refine ⟨σ, ?_⟩
          show EStateM.bind _ _ σ = _
          rw [EStateM.bind, happly]
      | ok inside =>
          rw [henter] at happly
          obtain ⟨env', henv', happly⟩ := happly
          -- The body is the next lambda, so the result is a closure of it.
          obtain ⟨g, σ₁, hclose, hg, hheap, hlocations⟩ : ∃ g σ₁,
              (enclose (m :: ms) body).interpret cx env' { σ with locations := inside.2 }
                = .ok (.function g) σ₁ ∧
              σ₁.closures[g.id]? = some ⟨m.lambda (enclose ms body), env', limit⟩ ∧
              σ₁.heap = σ.heap ∧ σ₁.locations = inside.2 := by
            rw [← hlimit]
            exact ⟨_, _, rfl, Array.getElem?_push_size, rfl, rfl⟩
          have hnext := ih m hg henv'
          rw [hlocations, hheap] at hnext
          simp only [bind_of_ok (happly.trans hclose)]
          exact hnext

end Nested

/-! ## Compiling nested lambdas -/

/-- To compile the lambdas, the innermost body is compiled. -/
theorem Enclosing.emit_body {cx : EmitContext} {body : Tree} (ls : List Enclosing) (l : Enclosing)
    {parent : Option EmitScope} {st : EmitState} {out : Nat × EmitState}
    (h : (l.lambda (enclose ls body)).emit cx parent st = .ok out) :
    ∃ scope st' out', body.emit cx scope st' = .ok out' := by
  induction ls generalizing l parent st out with
  | nil =>
      obtain ⟨-, code, st₁, hbody, -⟩ := Lambda.emit_eq_ok.mp h
      exact ⟨_, _, _, hbody⟩
  | cons m ms ih =>
      obtain ⟨-, code, st₁, hbody, -⟩ := Lambda.emit_eq_ok.mp h
      -- the body of a lambda around is the next lambda
      simp only [Enclosing.lambda, Lambda.body, enclose, Node.ofLambda, Node.emit] at hbody
      obtain ⟨-, unit, hm, -⟩ := Payload.emit_lambda.mp hbody
      exact ih m hm

/-- A lambda compiles if its body does. -/
theorem Program.ofLambda_total {schema : Schema} (options : Options) {root : Lambda Value}
    (h : ∀ scope st, ∃ out, root.body.emit ⟨schema, root.captures⟩ scope st = .ok out) :
    ∃ p, Program.ofLambda schema options root = .ok p := by
  obtain ⟨out, hout⟩ := h (root.emitScope root.captures none 0) (EmitState.enter {} none root)
  have hroot : root.emit ⟨schema, root.captures⟩ none {} = .ok (0, _) :=
    Lambda.emit_eq_ok.mpr ⟨rfl, out.1, out.2, hout, rfl⟩
  exact ⟨_, Program.ofLambda_of_emit hroot⟩

/-- Without lambdas, a part of a tree makes sense if its constants do. -/
theorem TidyEvents.ofConstants {n : Nat} {es : List (Event Value)} (hno : ∀ l, .enter l ∉ es)
    (hc : ∀ e ∈ es, ∀ v, e.constant? = some v → v.Tidy n) : TidyEvents n es :=
  ⟨fun l _ hl => absurd hl (hno l), fun l hl => absurd hl (hno l), hc⟩

/-- Lambdas with different numbers make sense if the tree inside of them does. -/
theorem Enclosing.tidy {n : Nat} {body : Tree} (hbody : TidyEvents n body.walk)
    (hno : ∀ l, .enter l ∉ body.walk) (ls : List Enclosing) (hids : (ls.map (·.id)).Nodup)
    (hbelow : ∀ l ∈ ls, l.id < n) :
    TidyEvents n (enclose ls body).walk ∧
      ∀ l, .enter l ∈ (enclose ls body).walk → l.id ∈ ls.map (·.id) := by
  induction ls with
  | nil => exact ⟨hbody, fun l hl => absurd hl (hno l)⟩
  | cons m ms ih =>
      obtain ⟨hnot, hids⟩ := List.nodup_cons.mp hids
      obtain ⟨hinner, hinside⟩ := ih hids fun l hl => hbelow l (List.mem_cons_of_mem m hl)
      -- the numbers inside are those of the other lambdas, and all are different
      have hne : ∀ l : Lambda Value, .enter l ∈ (enclose ms body).walk → l.id ≠ m.id := by
        intro l hl heq
        have hmem := hinside l hl
        rw [heq] at hmem
        exact hnot hmem
      have hwrap : TidyEvents n (m.lambda (enclose ms body)).walk :=
        hinner.wrap (hbelow m List.mem_cons_self) hne
      have henter : ∀ l : Lambda Value, .enter l ∈ (enclose (m :: ms) body).walk →
          .enter l ∈ (m.lambda (enclose ms body)).walk := by
        intro l hl
        simpa [enclose, Node.ofLambda, Node.walk, Payload.walk] using hl
      refine ⟨⟨fun l l' hl hl' => ?_, fun l hl => ?_, fun e he v hv => ?_⟩, fun l hl => ?_⟩
      · exact hwrap.identified l l' (henter l hl) (henter l' hl')
      · exact hwrap.below l (henter l hl)
      · rcases List.mem_cons.mp he with rfl | he
        · cases hv
        · exact hwrap.constants e he v hv
      · rcases Lambda.enter_mem_walk.mp (henter l hl) with rfl | hl'
        · exact List.mem_cons_self
        · exact List.mem_cons_of_mem _ (hinside l hl')

/-! ## Runs of nested lambdas -/

section Runs

variable {e : Environment} {options : Options} {heap : Heap} {l : Enclosing} {ls : List Enclosing}
  {body : Tree} {p : Program}

/-- A compiled run of the closures ends as the interpreter does on the innermost body, unless it
ends before that. -/
theorem Environment.runNested_agrees
    (hp : Program.ofLambda e.schema options (l.lambda (enclose ls body)) = .ok p)
    (htidy : TidyEvents heap.nextId (enclose (l :: ls) body).walk)
    (hheap : heap.Tidy heap.nextId) (hargs : ∀ m ∈ l :: ls, ∀ v ∈ m.args, v.Tidy heap.nextId) :
    match (l :: ls).foldlM (Enclosing.enter e.schema options.maxCallDepth) ([], #[]) with
    | .ok inside => ∃ cx env σ, cx.schema = e.schema ∧ cx.arrayLimit = e.arrayLimit ∧
        Lexical.SameLocations env inside.1 ∧ σ.heap = heap ∧ σ.locations = inside.2 ∧
        Agree (.closed heap.nextId)
          (fun w σ' => ∃ place, Related (.closed heap.nextId) e.schema place w σ')
          (e.runNested p (l :: ls) { heap := heap }) (body.interpret cx env σ)
    | .error err => ∃ w, e.runNested p (l :: ls) { heap := heap } = .error (.raised err) w := by
  have hroot : TidyEvents heap.nextId (l.lambda (enclose ls body)).walk :=
    htidy.part fun ev hev => List.mem_cons_of_mem _ hev
  have hheld : ∀ v ∈ ((l :: ls).map (·.args)).flatten, v.Tidy heap.nextId := by
    intro v hv
    obtain ⟨args, hargs', hmem⟩ := List.mem_flatten.mp hv
    obtain ⟨m, hm, rfl⟩ := List.mem_map.mp hargs'
    exact hargs m hm v hmem
  -- the root is instantiated, then one closure after the other is invoked
  have hsim : Simulates (.closed heap.nextId) e.schema ((l :: ls).map (·.args)).flatten
      (e.runNested p (l :: ls))
      (do
        let callee ← Interp.close ⟨l.lambda (enclose ls body), [], options.maxCallDepth⟩
        ((l :: ls).map (·.args)).foldlM (Lexical.apply e.schema e.arrayLimit Lexical.noHost)
          callee) := by
    refine Simulates.bind ((Simulates.instantiate hp hroot).weaken (.nil _)) fun v => ?_
    exact .applyAll (fun f args => .noHost (e.call f args) f) v _
  have hagree := (hsim _ _ _ (Related.start hheap (Nat.le_refl _)) hheld).mono
    (fun w σ' ⟨place, hr, _⟩ => (⟨place, hr⟩ : ∃ place, Related _ _ place w σ'))
  -- The interpreter starts with one closure, without an environment.
  have hclosure : (⟨heap, #[],
      #[⟨l.lambda (enclose ls body), [], options.maxCallDepth⟩], []⟩ : Store).closures[
        (FunctionRef.mk 0 (l.lambda (enclose ls body)).signature l.name).id]?
        = some ⟨l.lambda (enclose ls body), [], options.maxCallDepth⟩ := rfl
  have hrun := Lexical.applyAll_enclose e.schema e.arrayLimit Lexical.noHost body ls l hclosure
    fun _ => rfl
  cases hfold : (l :: ls).foldlM (Enclosing.enter e.schema options.maxCallDepth) ([], #[]) with
  | ok inside =>
      rw [hfold] at hrun
      obtain ⟨cx, env, σ', hcx, harray, henv, hheap', hlocations, heq⟩ := hrun
      refine ⟨cx, env, σ', hcx, harray, henv, hheap', hlocations, ?_⟩
      rw [← heq]
      exact hagree
  | error err =>
      rw [hfold] at hrun
      obtain ⟨σ', heq⟩ := hrun
      have hfails : Agree (.closed heap.nextId)
          (fun w σ' => ∃ place, Related (.closed heap.nextId) e.schema place w σ')
          (e.runNested p (l :: ls) { heap := heap }) (.error (.stop (.raised err)) σ') := by
        rw [← heq]
        exact hagree
      rcases hfails.cases with ⟨_, _, _, _, hy, _⟩ | ⟨_, w, _, hx, hy, _⟩ | ⟨_, hy, _⟩
      · cases hy
      · cases hy
        exact ⟨w, hx⟩
      · cases hy

theorem Environment.eval_of_compile {root : Tree} (h : Program.compile e.schema {} root = .ok p)
    (args : List Value) (w : World) :
    (e.eval root args w).1
      = (Session.outcome (e.enter (.root p 0) args w)).1.mapError (.map .runtime) := by
  unfold Environment.eval
  rw [h]
  cases hrun : e.enter (.root p 0) args w with
  | ok v w' =>
      simp only [hrun]
      rfl
  | error err w' =>
      simp only [hrun]
      rfl

/-- A tree that compiles everywhere is evaluated as the interpreter does it, in a store with two
identities less: one is for the node around the tree, one for the lambda. -/
theorem Environment.evalTree_agrees {base : Nat} {place : Placement} {w : World} {σ : Store}
    {t : Tree} (hr : Related (.closed base) e.schema place w σ)
    (ht : TidyEvents σ.heap.nextId t.walk) (hlambda : t.lambda? = none)
    (hemit : ∀ cx scope st, cx.schema = e.schema → ∃ out, t.emit cx scope st = .ok out) :
    ∃ cx env σ' x, cx.schema = e.schema ∧ cx.arrayLimit = e.arrayLimit ∧
      σ'.heap = { σ.heap with nextId := σ.heap.nextId + 2 } ∧
      (e.evalTree t w).1 = (Session.outcome x).1.mapError (.map .runtime) ∧
      Agree (.closed base) (fun (_ : World) _ => True) x (t.interpret cx env σ') := by
  have hasRoot : t.asRoot σ.heap.nextId
      = (Node.ofLambda σ.heap.nextId (.mk (σ.heap.nextId + 1) none [] t), σ.heap.nextId + 2) := by
    unfold Node.asRoot
    rw [hlambda]
    rfl
  obtain ⟨hle, root, hroot, hrootTidy⟩ := Node.asRoot_tidy ht
  rw [hasRoot] at hle hroot hrootTidy
  cases hroot
  obtain ⟨p, hp⟩ : ∃ p, Program.ofLambda e.schema {} (.mk (σ.heap.nextId + 1) none [] t) = .ok p :=
    Program.ofLambda_total {} fun scope st => hemit _ scope st rfl
  have hheap : Heap.Tidy (σ.heap.nextId + 2) { σ.heap with nextId := σ.heap.nextId + 2 } :=
    (hr.tidy.heap.mono hle).nextId _
  have hr' : Related (.closed base) e.schema place
      { w with heap := { σ.heap with nextId := σ.heap.nextId + 2 } }
      { σ with heap := { σ.heap with nextId := σ.heap.nextId + 2 } } := hr.withHeap hle hheap
  have hagree : Agree (.closed base) _
      (e.enter (.root p 0) [] { w with heap := { σ.heap with nextId := σ.heap.nextId + 2 } }) _ :=
    invokeAt_agrees (fun f args => .noHost (e.call f args) f) e.arrayLimit callCeiling 0 hr'
      (ClosuresMatch.root hp hrootTidy place) nofun
  obtain ⟨cx, hcx, harray, -, hinvoke⟩ :=
    Lexical.invokeAt_callCeiling e.schema e.arrayLimit Lexical.noHost
      ⟨.mk (σ.heap.nextId + 1) none [] t, [], p.options.maxCallDepth⟩ []
  -- the default limit admits the one call that is made
  have hlimit : checkCallDepth 0 ({} : Options).maxCallDepth = .ok () := rfl
  rw [hinvoke, Program.options_eq hp, hlimit] at hagree
  refine ⟨cx, _, _, _, hcx, harray, rfl, ?_, hagree.mono fun _ _ _ => trivial⟩
  show (e.eval (t.asRoot w.heap.nextId).1 []
    { w with heap := { w.heap with nextId := (t.asRoot w.heap.nextId).2 } }).1 = _
  rw [hr.heap, hasRoot]
  have hcompile : Program.compile e.schema {}
      (Node.ofLambda σ.heap.nextId (.mk (σ.heap.nextId + 1) none [] t)) = .ok p := hp
  exact Environment.eval_of_compile hcompile [] _

end Runs

/-! ## The quote -/

/-- A quote captures the values of the free parameters, if they all have one. -/
theorem Node.interpret_quote (cx : Lexical.Context) (env : Env) (q : Nat) (t : Tree) (σ : Store) :
    (Node.quote q t).interpret cx env σ =
      match σ.values? env t.freeParameters with
      | some s => .ok (.expression (t.substitute s σ.heap.nextId).1)
          { σ with heap := { σ.heap with nextId := (t.substitute s σ.heap.nextId).2 } }
      | none => .error .stuck σ := by
  show Interp.quote env t σ = _
  cases hs : σ.values? env t.freeParameters with
  | none => exact Interp.quote_of_none hs
  | some s => exact Interp.quote_eq hs

/-- What is bound on the way in are the arguments. -/
theorem Enclosing.mem_args {schema : Schema} {limit : UInt32} {ls : List Enclosing}
    {outside inside : Env × Array Value}
    (h : ls.foldlM (Enclosing.enter schema limit) outside = .ok inside) {v : Value}
    (hv : v ∈ inside.2) : v ∈ outside.2 ∨ ∃ l ∈ ls, v ∈ l.args := by
  induction ls generalizing outside with
  | nil =>
      cases h
      exact .inl hv
  | cons l ls ih =>
      rw [List.foldlM_cons] at h
      obtain ⟨next, hnext, h⟩ := ok_of_bind h
      rcases ih h with hmem | ⟨m, hm, hmem⟩
      · obtain ⟨_, -, hnext⟩ := ok_of_bind hnext
        obtain ⟨_, -, hnext⟩ := ok_of_bind hnext
        cases hnext
        rcases Array.mem_append.mp hmem with hmem | hmem
        · exact .inl hmem
        · exact .inr ⟨l, List.mem_cons_self, by simpa using hmem⟩
      · exact .inr ⟨m, List.mem_cons_of_mem l hm, hmem⟩

theorem Isolated.lambda?_eq_none {n : Nat} {s : Substitution Value} {t t' : Tree}
    (h : Isolated n s t t') : t'.lambda? = none := by
  cases h <;> rfl

/-- If the interpreter does the same up to a renaming, so does what agrees with it. -/
theorem Agree.mirrored {A : Assumptions} {R R' : World → Store → Prop} {K : Shift} {env : Env}
    {s : Substitution Value} {rename : Value → Value}
    {x x' : EStateM.Result (Stop RuntimeError) World Value}
    {y y' : EStateM.Result Fault Store Value} (hx : Agree A R x y) (hx' : Agree A R' x' y')
    (h : SameEnd K env s rename y y') :
    (Session.outcome x').1 = (Session.outcome x).1.map rename := by
  rcases hx.cases with ⟨b, w, σ, rfl, rfl, -⟩ | ⟨e, w, σ, rfl, rfl, -⟩ | ⟨σ, rfl, -⟩
  · rcases hx'.cases with ⟨b', w', σ', rfl, rfl, -⟩ | ⟨e', w', σ', rfl, rfl, -⟩ | ⟨σ', rfl, -⟩
    · cases h.1
      rfl
    · exact False.elim h
    · exact False.elim h
  · rcases hx'.cases with ⟨b', w', σ', rfl, rfl, -⟩ | ⟨e', w', σ', rfl, rfl, -⟩ | ⟨σ', rfl, -⟩
    · exact False.elim h
    · cases h.1
      rfl
    · cases h.1
  · -- no run here calls a host function
    cases y' with
    | ok b' σ' => exact False.elim h
    | error e' σ' => exact absurd rfl h.2

theorem Lexical.Store.mem_of_value? {σ : Store} {env : Env} {p : Nat} {v : Value}
    (h : σ.value? env p = some v) : v ∈ σ.locations := by
  obtain ⟨loc, -, hloc⟩ := Option.bind_eq_some_iff.mp h
  exact Array.mem_of_getElem? hloc

/-- The tree that a quote gives, if what is bound and what the tree holds was made before `n`. -/
theorem Node.Elementary.isolated {n : Nat} {t : Tree} (h : t.Elementary) {σ : Store} {env : Env}
    {s : Substitution Value} (hs : σ.values? env t.freeParameters = some s)
    (hbound : ∀ v ∈ σ.locations, v.Known n)
    (hconstants : ∀ ev ∈ t.walk, ∀ v, ev.constant? = some v → v.Known n) (k : Nat) :
    Isolated n s t (t.substitute s k).1 := by
  obtain ⟨hfound, hvalues⟩ := Lexical.Store.values?_eq_some hs
  refine h.substitute ⟨fun p hp => ?_, hconstants⟩ k
  obtain ⟨p', hfree, hid⟩ := h.mem_freeParameters hp
  obtain ⟨v, hv⟩ := hfound p' hfree
  rw [hid] at hv
  exact ⟨v, hv, hbound v (Lexical.Store.mem_of_value? (hvalues p.id v hv))⟩

/-- A quote adds its borders to the events of the tree, and no lambda. -/
theorem Node.mem_walk_quote {q : Nat} {t : Tree} {ev : Event Value}
    (h : ev ∈ (Node.quote q t).walk) :
    ev ∈ t.walk ∨ (ev.constant? = none ∧ ∀ l, ev ≠ .enter l) := by
  have hwalk : (Node.quote q t).walk
      = .node (Node.quote q t) :: (.enterQuote :: t.walk ++ [.leaveQuote]) := rfl
  rw [hwalk] at h
  simp only [List.cons_append, List.mem_cons, List.mem_append, List.not_mem_nil, or_false] at h
  rcases h with rfl | rfl | h | rfl
  · exact .inr ⟨rfl, fun _ heq => by cases heq⟩
  · exact .inr ⟨rfl, fun _ heq => by cases heq⟩
  · exact .inl h
  · exact .inr ⟨rfl, fun _ heq => by cases heq⟩

/-- A compiled run that agrees with the interpreter on a tree has the outcome that the tree with its
parameters replaced has on its own, in a later state with the same heap. -/
theorem Environment.evalTree_isolated {e : Environment} {s : Substitution Value} {body t : Tree}
    {cx : Lexical.Context} {env : Env} {σ σ₁ : Store} {place : Placement} {w : World} {k : Nat}
    {R : World → Store → Prop} {x : EStateM.Result (Stop RuntimeError) World Value}
    {emitCx : EmitContext} {scope : EmitScope} {st : EmitState} {out : Code × EmitState}
    (hiso : Isolated σ.heap.nextId s body t) (hcx : cx.schema = e.schema)
    (harray : cx.arrayLimit = e.arrayLimit)
    (hagree : Agree (.closed σ.heap.nextId) R x (body.interpret cx env σ))
    (hvalues : ∀ p v, s.lookup p = some v → σ.value? env p = some v)
    (hknown : σ.heap.Known σ.heap.nextId) (hschema : emitCx.schema = e.schema)
    (hemit : body.emit emitCx scope st = .ok out)
    (hr : Related (.closed σ.heap.nextId) e.schema place w σ₁)
    (hheap : σ₁.heap = { σ.heap with nextId := k }) (ht : TidyEvents σ₁.heap.nextId t.walk) :
    ∃ f : Nat → Nat, (∀ i j, f i = f j → i = j) ∧ (∀ i < σ.heap.nextId, f i = i) ∧
      (e.evalTree t w).1 = ((Session.outcome x).1.map (·.rename f)).mapError (.map .runtime) := by
  obtain ⟨cx', env', σ', x', hcx', harray', hσ', heval, hagree'⟩ :=
    Environment.evalTree_agrees hr ht hiso.lambda?_eq_none fun emitCx' scope' st' hschema' =>
      hiso.emits (hschema'.trans hschema.symm) hemit st'
  have hle : σ.heap.nextId ≤ k := by
    have hbase := hr.base
    rw [hheap] at hbase
    exact hbase
  -- The second evaluation starts `k + 2 - σ.heap.nextId` identities later.
  have hmirrored : Mirrored ⟨σ.heap.nextId, k + 2 - σ.heap.nextId⟩ env s σ σ' := by
    refine ⟨?_, Nat.le_refl _, hknown, hvalues⟩
    have hnext : σ.heap.nextId + (k + 2 - σ.heap.nextId) = k + 2 := by omega
    rw [hσ', hheap]
    simp only [hnext]
  refine ⟨Shift.apply ⟨σ.heap.nextId, k + 2 - σ.heap.nextId⟩, Shift.injective _,
    fun i hi => Shift.apply_of_lt hi, ?_⟩
  rw [heval, hagree.mirrored hagree'
    (hiso.mirrors (hcx'.trans hcx.symm) (harray'.trans harray.symm) σ σ' hmirrored)]

/-- Everything inside the value was made before `n`: its trees make sense and its arrays have
identities below `n`. -/
structure Value.Old (n : Nat) (v : Value) : Prop where
  tidy : v.Tidy n
  known : v.Known n

/-- What is known of nested lambdas around a tree before they are compiled. -/
structure Enclosing.Ready (n : Nat) (ls : List Enclosing) (body : Tree) : Prop where
  elementary : body.Elementary
  /-- Every constant was made before. -/
  constants : ∀ ev ∈ body.walk, ∀ v, ev.constant? = some v → v.Old n
  /-- Every argument was made before. -/
  args : ∀ l ∈ ls, ∀ v ∈ l.args, v.Old n
  /-- Different lambdas have different numbers. -/
  distinct : (ls.map (·.id)).Nodup
  below : ∀ l ∈ ls, l.id < n

section Quoting

variable {e : Environment} {options : Options} {heap : Heap} {l : Enclosing} {ls : List Enclosing}
  {q : Nat} {body t : Tree} {p : Program} {w : World}

theorem Enclosing.Ready.tidy (h : Enclosing.Ready heap.nextId ls body) :
    TidyEvents heap.nextId (enclose ls body).walk := by
  have hbody : TidyEvents heap.nextId body.walk :=
    .ofConstants h.elementary.not_enter fun ev hev v hv => (h.constants ev hev v hv).tidy
  exact (Enclosing.tidy hbody h.elementary.not_enter ls h.distinct h.below).1

theorem Enclosing.Ready.tidy_quote (h : Enclosing.Ready heap.nextId ls body) (q : Nat) :
    TidyEvents heap.nextId (enclose ls (.quote q body)).walk := by
  have hno : ∀ m, .enter m ∉ (Node.quote q body).walk := by
    intro m hm
    rcases Node.mem_walk_quote hm with hm | ⟨-, hne⟩
    · exact h.elementary.not_enter m hm
    · exact hne m rfl
  have hquote : TidyEvents heap.nextId (Node.quote q body).walk := by
    refine .ofConstants hno fun ev hev v hv => ?_
    rcases Node.mem_walk_quote hev with hev | ⟨hnone, -⟩
    · exact (h.constants ev hev v hv).tidy
    · rw [hnone] at hv
      cases hv
  exact (Enclosing.tidy hquote hno ls h.distinct h.below).1

/-- What is bound around the tree was made before. -/
theorem Enclosing.Ready.known {n : Nat} {limit : UInt32} {schema : Schema}
    {inside : Env × Array Value} (h : Enclosing.Ready n ls body)
    (hfold : ls.foldlM (Enclosing.enter schema limit) ([], #[]) = .ok inside) :
    ∀ v ∈ inside.2, v.Known n := by
  intro v hv
  rcases Enclosing.mem_args hfold hv with hv | ⟨l, hl, hv⟩
  · exact absurd hv (Array.not_mem_empty v)
  · exact (h.args l hl v hv).known

/-- **The run that quotes.** If it returns a tree, then the innermost body was reached, all free
parameters had values there, and the tree is the body with these values. -/
theorem Environment.runNested_quote (h : Enclosing.Ready heap.nextId (l :: ls) body)
    (hheap : heap.Tidy heap.nextId)
    (hp : Program.ofLambda e.schema options (l.lambda (enclose ls (.quote q body))) = .ok p)
    (hrun : e.runNested p (l :: ls) { heap := heap } = .ok (.expression t) w) :
    ∃ inside σ s k place,
      (l :: ls).foldlM (Enclosing.enter e.schema options.maxCallDepth) ([], #[]) = .ok inside ∧
      (∀ p v, s.lookup p = some v → ∀ (env : Env) (σ' : Store),
        Lexical.SameLocations env inside.1 → σ'.locations = inside.2 →
        σ'.value? env p = some v) ∧
      Isolated heap.nextId s body t ∧ Related (.closed heap.nextId) e.schema place w σ ∧
      σ.heap = { heap with nextId := k } ∧ TidyEvents σ.heap.nextId t.walk := by
  have hnested := Environment.runNested_agrees hp (h.tidy_quote q) hheap fun m hm v hv =>
    (h.args m hm v hv).tidy
  cases hfold : (l :: ls).foldlM (Enclosing.enter e.schema options.maxCallDepth) ([], #[]) with
  | error err =>
      rw [hfold] at hnested
      obtain ⟨w', hw'⟩ := hnested
      rw [hrun] at hw'
      cases hw'
  | ok inside =>
      rw [hfold] at hnested
      obtain ⟨cx, env, σ, -, -, henv, rfl, hlocations, hagree⟩ := hnested
      rw [hrun, Node.interpret_quote] at hagree
      cases hs : σ.values? env body.freeParameters with
      | none =>
          -- a parameter without a value has no meaning, and this agrees with no result
          rw [hs] at hagree
          exact False.elim hagree
      | some s =>
          rw [hs] at hagree
          obtain ⟨heq, ⟨place, hr⟩, htidy⟩ := hagree
          cases heq
          have hiso : Isolated σ.heap.nextId s body (body.substitute s σ.heap.nextId).1 := by
            refine h.elementary.isolated hs ?_
              (fun ev hev v hv => (h.constants ev hev v hv).known) _
            rw [hlocations]
            exact h.known hfold
          refine ⟨inside, _, s, _, place, rfl, fun p v hv env' σ' henv' hσ' => ?_, hiso, hr, rfl,
            ?_⟩
          · have hsame : σ.value? env p = σ'.value? env' p :=
              Lexical.Store.value?_congr (fun p => (henv p).trans (henv' p).symm)
                (hlocations.trans hσ'.symm) p
            rw [← hsame]
            exact (Lexical.Store.values?_eq_some hs).2 p v hv
          · exact Value.tidy_expression.mp (htidy _ List.mem_cons_self)

end Quoting

/-- **Quoting, then evaluating, is evaluating in place.** An elementary tree stands inside lambdas
whose closures are invoked one after the other. If the innermost one quotes the tree and so returns
another tree, that one compiles on its own, and has the value that the tree itself has in the same
place, or the same failure. Only arrays made on the way have other identities. -/
theorem evalTree_quote_eq_inPlace {e : Environment} {options : Options} {ls : List Enclosing}
    {q : Nat} {body t : Tree} {quoting plain : Program} {w : World} (heap : Heap)
    (hready : Enclosing.Ready heap.nextId ls body) (hheap : heap.Tidy heap.nextId)
    (hknown : heap.Known heap.nextId)
    (hquoting : Program.compile e.schema options (enclose ls (.quote q body)) = .ok quoting)
    (hplain : Program.compile e.schema options (enclose ls body) = .ok plain)
    (hquoted : e.runNested quoting ls { heap := heap } = .ok (.expression t) w) :
    ∃ f : Nat → Nat, (∀ i j, f i = f j → i = j) ∧ (∀ i < heap.nextId, f i = i) ∧
      (e.evalTree t w).1
        = ((Session.outcome (e.runNested plain ls { heap := heap })).1.map (·.rename f)).mapError
          (.map .runtime) := by
  cases ls with
  | nil => cases hquoting
  | cons l ls =>
      obtain ⟨inside, σ', s, k, place, hfold, hvalues, hiso, hr, hlater, htidy⟩ :=
        Environment.runNested_quote hready hheap hquoting hquoted
      -- the same lambdas around the tree itself are entered with the same bindings
      have hnested := Environment.runNested_agrees hplain hready.tidy hheap fun m hm v hv =>
        (hready.args m hm v hv).tidy
      rw [hfold] at hnested
      obtain ⟨cx, env, σ, hcx, harray, henv, rfl, hlocations, hagree⟩ := hnested
      -- the tree compiles in place, so it does with constants instead of parameters
      obtain ⟨unit, hunit⟩ := Program.emit_of_ofLambda hplain
      obtain ⟨scope, st, out, hemit⟩ := Enclosing.emit_body ls l hunit
      exact Environment.evalTree_isolated hiso hcx harray hagree
        (fun p v hv => hvalues p v hv env σ henv hlocations) hknown rfl hemit hr hlater htidy

theorem Value.Old.plain {n : Nat} {v : Value} (h : v.isPlain = true) : v.Old n := by
  refine ⟨.plain h, .single ?_⟩
  rintro id items rfl
  cases h

/-- The value is a tree. -/
def Value.isQuoted : Value → Bool
  | .expression _ => true
  | _ => false

theorem Value.eq_expression {v : Value} (h : v.isQuoted = true) : ∃ t, v = .expression t := by
  cases v with
  | expression t => exact ⟨t, rfl⟩
  | _ => cases h

/-- `x ↦ (y ↦ ·)`, invoked on 7 and then on 2. -/
def Enclosing.sevenTwo : List Enclosing :=
  [⟨0, 1, none, [⟨0, "x", .int .i8⟩], [.ofInt .i8 7]⟩,
    ⟨2, 3, none, [⟨1, "y", .int .i8⟩], [.ofInt .i8 2]⟩]

/-- `[x + y, x / y]`: both variables are captured, and an array is made. -/
def Node.sumAndQuotient : Tree :=
  let x : Tree := .parameter 4 ⟨0, "x", .int .i8⟩
  let y : Tree := .parameter 5 ⟨1, "y", .int .i8⟩
  .newArray 6 (.int .i8) [.binary 7 .add x y, .binary 8 .divide x y]

theorem Enclosing.sevenTwo_ready : Enclosing.Ready 10 Enclosing.sevenTwo Node.sumAndQuotient where
  elementary := by
    refine .newArray fun t ht => ?_
    rcases List.mem_cons.mp ht with rfl | ht
    · exact .binary .parameter .parameter
    · rw [List.mem_singleton.mp ht]
      exact .binary .parameter .parameter
  constants ev hev v hv := by
    have hnone : Node.sumAndQuotient.walk.filterMap Event.constant? = [] := rfl
    have hmem : v ∈ Node.sumAndQuotient.walk.filterMap Event.constant? :=
      List.mem_filterMap.mpr ⟨ev, hev, hv⟩
    rw [hnone] at hmem
    cases hmem
  args l hl v hv := .plain (by
    have hall : (Enclosing.sevenTwo.all fun l => l.args.all (·.isPlain)) = true := rfl
    exact List.all_eq_true.mp (List.all_eq_true.mp hall l hl) v hv)
  distinct := by decide
  below := by decide

instance decidableEqArray (id : Nat) (items : List Value) [∀ vs, Decidable (vs = items)] :
    (v : Value) → Decidable (v = .array id items)
  | .array id' vs => decidable_of_iff (id' = id ∧ vs = items) (by simp)
  | .null | .unit | .bool _ | .char _ | .int .. | .f32 _ | .f64 _ | .string _ | .list _
  | .object .. | .function _ | .expression _ => .isFalse nofun

theorem evalTree_quote_eq_inPlace_pair :
    let e : Environment := ⟨.empty, Native.host .empty 0 #[], 1000, 0⟩
    ∃ quoting plain t w,
      Program.compile .empty {} (enclose Enclosing.sevenTwo (.quote 9 Node.sumAndQuotient))
        = .ok quoting ∧
      Program.compile .empty {} (enclose Enclosing.sevenTwo Node.sumAndQuotient) = .ok plain ∧
      e.runNested quoting Enclosing.sevenTwo { heap := { nextId := 10 } } = .ok (.expression t) w ∧
      (Session.outcome (e.runNested plain Enclosing.sevenTwo { heap := { nextId := 10 } })).1
        = .ok (.array 10 [.ofInt .i8 9, .ofInt .i8 3]) ∧
      ∃ f : Nat → Nat, (∀ i j, f i = f j → i = j) ∧ (∀ i < 10, f i = i) ∧
        (e.evalTree t w).1
          = ((Session.outcome (e.runNested plain Enclosing.sevenTwo
              { heap := { nextId := 10 } })).1.map (·.rename f)).mapError (.map .runtime) := by
  obtain ⟨quoting, hquoting, htree⟩ : ∃ quoting,
      Program.compile .empty {} (enclose Enclosing.sevenTwo (.quote 9 Node.sumAndQuotient))
        = .ok quoting ∧
      (Session.outcome (Environment.runNested ⟨.empty, Native.host .empty 0 #[], 1000, 0⟩ quoting
          Enclosing.sevenTwo { heap := { nextId := 10 } })).1.map (·.isQuoted)
        = .ok true := ⟨_, rfl, by decide +kernel⟩
  obtain ⟨plain, hplain, hvalue⟩ : ∃ plain,
      Program.compile .empty {} (enclose Enclosing.sevenTwo Node.sumAndQuotient) = .ok plain ∧
      (Session.outcome (Environment.runNested ⟨.empty, Native.host .empty 0 #[], 1000, 0⟩ plain
          Enclosing.sevenTwo { heap := { nextId := 10 } })).1
        = .ok (.array 10 [.ofInt .i8 9, .ofInt .i8 3]) := ⟨_, rfl, by decide +kernel⟩
  cases hrun : Environment.runNested ⟨.empty, Native.host .empty 0 #[], 1000, 0⟩ quoting
      Enclosing.sevenTwo { heap := { nextId := 10 } } with
  | error e w =>
      rw [hrun] at htree
      cases htree
  | ok v w =>
      rw [hrun] at htree
      obtain ⟨t, rfl⟩ := Value.eq_expression (Except.ok.inj htree)
      exact ⟨quoting, plain, t, w, hquoting, hplain, hrun, hvalue,
        evalTree_quote_eq_inPlace { nextId := 10 } Enclosing.sevenTwo_ready (.empty 10 10)
          (by simp [Heap.Known]) hquoting hplain hrun⟩

end ExprTree
