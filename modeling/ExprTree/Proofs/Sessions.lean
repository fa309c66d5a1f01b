import ExprTree.Host.Native
import ExprTree.Proofs.Simulation.Invocations

set_option autoImplicit false

/-! # Sessions

A host instantiates a program, invokes the root, invokes closures it got back, and so on, whether or
not an invocation fails. A session is such a sequence of requests. Compiled code and the interpreter
give the same answers in every session, and leave the same state; and no answer is ever the error of
a captured variable that cannot be reached.
-/

namespace ExprTree

open Lexical (Store Interp Fault Closure)

/-! ## Requests -/

/-- What can be asked of a program from outside. -/
inductive Request
  /-- A new closure of the root lambda. -/
  | instantiate
  /-- An invocation of a closure. -/
  | invoke (f : FunctionRef) (args : List Value)

/-- The values that come with a request. -/
def Request.values : Request → List Value
  | .instantiate => []
  | .invoke _ args => args

/-- The answer of compiled code. -/
def Environment.answer (e : Environment) (p : Program) : Request → Eval Value
  | .instantiate => p.instantiate
  | .invoke f args => e.invoke f args

/-- The answer of the interpreter. -/
def Lexical.answer (e : Environment) (root : Closure) : Request → Interp Value
  | .instantiate => Interp.close root
  | .invoke f args => Lexical.invoke e f args

namespace Session

variable {ε μ β : Type}

/-- A result and the state it leaves. -/
def outcome : EStateM.Result ε μ β → Except ε β × μ
  | .ok b m => (.ok b, m)
  | .error e m => (.error e, m)

/-- The results of several computations, each in the state that the one before has left. -/
def run : List (EStateM ε μ β) → μ → List (Except ε β) × μ
  | [], m => ([], m)
  | x :: xs, m =>
      let (result, m) := outcome (x m)
      let (results, m) := run xs m
      (result :: results, m)

/-- Every request comes with values that make sense at that moment. -/
def Admissible (answer : Request → Eval Value) : List Request → World → Prop
  | [], _ => True
  | r :: rs, w => (∀ v ∈ r.values, v.Tidy w.heap.nextId) ∧
      Admissible answer rs (outcome (answer r w)).2

end Session

/-! ## Simulation of sessions -/

section Simulation

variable {A : Assumptions}

theorem Simulates.invoke {e : Environment} (hhost : e.host.Careful A) (f : FunctionRef)
    (args : List Value) :
    Simulates A e.schema args (e.invoke f args) (Lexical.invoke e f args) :=
  .ofClosure fun _ _ _ _ _ hr hc hargs =>
    invokeAt_agrees (Simulates.hostCall hhost e.arrayLimit e.reentries) e.arrayLimit callCeiling 0
      hr hc hargs

/-- A program whose root makes sense from the start can be instantiated at any time. -/
theorem Simulates.instantiate {schema : Schema} {options : Options} {root : Lambda Value}
    {p : Program} (hp : Program.ofLambda schema options root = .ok p)
    (hroot : TidyEvents A.base root.walk) :
    Simulates A schema [] p.instantiate (Interp.close ⟨root, [], options.maxCallDepth⟩) := by
  intro place w σ hr _
  obtain ⟨hvalue, hafter⟩ := hr.instantiate hp (hroot.mono hr.base)
  refine ⟨hvalue, hafter, fun v hv => ?_⟩
  rw [List.mem_singleton.mp hv]
  exact .plain rfl

theorem Simulates.answer {e : Environment} {options : Options} {root : Lambda Value} {p : Program}
    (hp : Program.ofLambda e.schema options root = .ok p) (hhost : e.host.Careful A)
    (hroot : TidyEvents A.base root.walk) (r : Request) :
    Simulates A e.schema r.values (e.answer p r)
      (Lexical.answer e ⟨root, [], options.maxCallDepth⟩ r) := by
  cases r with
  | instantiate => exact .instantiate hp hroot
  | invoke f args => exact .invoke hhost f args

/-- What one answer preserves, all answers preserve. -/
theorem Simulates.session {schema : Schema} {answer : Request → Eval Value}
    {answer' : Request → Interp Value}
    (h : ∀ r, Simulates A schema r.values (answer r) (answer' r)) (hA : ¬ A.unbound)
    (requests : List Request) {place : Placement} {w : World} {σ : Store}
    (hr : Related A schema place w σ) (hreq : Session.Admissible answer requests w) :
    (Session.run (requests.map answer') σ).1
        = (Session.run (requests.map answer) w).1.map (Except.mapError Fault.stop) ∧
      (∃ place', Related A schema place' (Session.run (requests.map answer) w).2
        (Session.run (requests.map answer') σ).2) ∧
      ∀ e, .error e ∈ (Session.run (requests.map answer) w).1 → A.allows e := by
  induction requests generalizing place w σ with
  | nil => exact ⟨rfl, ⟨place, hr⟩, nofun⟩
  | cons r rs ih =>
      obtain ⟨hvalues, hrest⟩ := hreq
      rw [hr.heap] at hvalues
      simp only [List.map_cons, Session.run]
      -- a host function without a meaning is excluded: every host function has one here
      rcases (h r place w σ hr hvalues).cases with
        ⟨b, w', σ', hx, hy, ⟨place', hr', -⟩, -⟩ | ⟨e, w', σ', hx, hy, ⟨place', hr', -⟩, he⟩ |
        ⟨-, -, hf⟩
      · rw [hx] at hrest ⊢
        rw [hy]
        obtain ⟨hresults, hrel, herr⟩ := ih hr' hrest
        refine ⟨congrArg _ hresults, hrel, fun e he => herr e ?_⟩
        simpa [Session.outcome] using he
      · rw [hx] at hrest ⊢
        rw [hy]
        obtain ⟨hresults, hrel, herr⟩ := ih hr' hrest
        refine ⟨congrArg _ hresults, hrel, fun e' he' => ?_⟩
        rcases List.mem_cons.mp he' with heq | he'
        · cases heq
          exact he
        · exact herr e' he'
      · exact absurd hf hA

/-- Before the first request there are no closures. -/
theorem Related.start {schema : Schema} {heap : Heap} (hheap : heap.Tidy heap.nextId)
    (hbase : A.base ≤ heap.nextId) :
    Related A schema ⟨fun _ => none, fun _ => none⟩ { heap := heap } { heap := heap } where
  heap := rfl
  calls := rfl
  closures := rfl
  matching := nofun
  cells := nofun
  injective := nofun
  widths := nofun
  tidy := ⟨hheap, by simp, nofun⟩
  base := hbase

/-- The parameters that a lambda uses and an enclosing one declares. -/
def Lambda.captured {α : Type} (l : Lambda α) : List Parameter :=
  l.body.freeParameters.filter fun p => !l.declares p.id

/-- In related states, what a scope finds is what the closure's environment holds. -/
theorem Related.captured {schema : Schema} {place : Placement} {w : World} {σ : Store}
    (hr : Related A schema place w σ) {i : Nat} {s : Scope} {c : Closure}
    (hs : w.closures[i]? = some s) (hc : σ.closures[i]? = some c) {p : Parameter}
    (hp : p ∈ c.lambda.captured) : w.captured? s p.id = σ.value? c.env p.id := by
  obtain ⟨C, outer, -, ht, hrep, -⟩ := hr.matching i s c hs hc
  obtain ⟨hfree, hdec⟩ : p ∈ c.lambda.body.freeParameters ∧ c.lambda.declares p.id = false := by
    simpa [Lambda.captured] using hp
  obtain ⟨_, hunit⟩ := hrep.unitAt
  -- no lambda around declares it, or the one that does has recorded it
  cases hd : outer.find? (·.declares p.id) with
  | none =>
      obtain ⟨hfind, hloc⟩ := hrep.find?_eq_none ht.identified hdec hd none
      simp [World.captured?, World.peek?, Scope.cellNamed, Lexical.Store.value?, hfind, hloc]
  | some d =>
      have hrec := hunit.inside.recorded_body ht.identified hfree hdec hd
      obtain ⟨cell, k, loc, hfind, hloc, hpl⟩ := hrep.findFrom ht.identified hdec hd hrec none
      simp [World.captured?, World.peek?, Scope.cellNamed, Lexical.Store.value?, hfind, hloc,
        hr.cell hpl]

end Simulation

/-- A tidy tree that is run on the spot is a tidy lambda. -/
theorem Node.asRoot_tidy {n : Nat} {t : Tree} (ht : TidyEvents n t.walk) :
    n ≤ (t.asRoot n).2 ∧
      ∃ l, (t.asRoot n).1.lambda? = some l ∧ TidyEvents (t.asRoot n).2 l.walk := by
  unfold Node.asRoot
  cases hl : t.lambda? with
  | some l =>
      obtain ⟨id, kind, ty, rfl⟩ := Node.lambda?_eq_some hl
      exact ⟨Nat.le_refl n, l, hl, ht.part fun e he => List.mem_cons_of_mem _ he⟩
  | none =>
      -- the node takes the first fresh number, the lambda the second one
      have hne : ∀ l : Lambda Value, .enter l ∈ t.walk → l.id ≠ n + 1 := by
        intro l hl
        have := ht.below l hl
        omega
      have htidy : TidyEvents (n + 2) t.walk := ht.mono (Nat.le_add_right n 2)
      exact ⟨Nat.le_add_right n 2, _, rfl, htidy.wrap (Nat.lt_succ_self _) hne⟩

/-! ## Ready-made hosts

The assumption on the host is met by every table of ready-made functions, if their constants make
sense and the errors they raise are allowed. -/

namespace Native

variable {A : Assumptions}

/-- The constant or the error of a function is in order. -/
def Fits (A : Assumptions) : Native → Prop
  | .const v => v.Tidy A.base
  | .raise e => A.allows (.raised e)
  | _ => True

theorem storeFields_tidy {id index n : Nat} {vs : List Value} {heap heap' : Heap}
    (hvs : ∀ v ∈ vs, v.Tidy n) (hheap : heap.Tidy n)
    (h : storeFields id index vs heap = .ok heap') :
    heap'.Tidy n ∧ heap'.nextId = heap.nextId := by
  induction vs generalizing index heap with
  | nil =>
      cases h
      exact ⟨hheap, rfl⟩
  | cons v vs ih =>
      rw [storeFields] at h
      split at h
      case h_1 heap₁ hs =>
        obtain ⟨ht, hn⟩ := hheap.setField (hvs v List.mem_cons_self) hs
        obtain ⟨ht', hn'⟩ := ih (fun u hu => hvs u (List.mem_cons_of_mem _ hu)) ht h
        exact ⟨ht', hn'.trans hn⟩
      case h_2 => cases h

theorem storeFields_error {id index : Nat} {vs : List Value} {heap : Heap} {e : RuntimeError}
    (h : storeFields id index vs heap = .error e) : e ≠ .missingScope := by
  induction vs generalizing index heap with
  | nil => cases h
  | cons v vs ih =>
      rw [storeFields] at h
      split at h
      · exact ih h
      · cases h
        nofun

/-- It returns a value. -/
theorem careful_returns {n : Nat} {heap : Heap} (hheap : heap.Grown n) {v : Value}
    (hv : v.Tidy heap.nextId) : Reply.Careful A n (.done (.ok v) heap) := by
  refine ⟨hheap, fun u hu => ?_, nofun⟩
  cases hu
  exact hv

/-- It returns no value. -/
theorem careful_stops {n : Nat} {heap : Heap} (hheap : heap.Grown n) {e : Stop RuntimeError}
    (he : A.allows e) : Reply.Careful A n (.done (.error e) heap) := by
  refine ⟨hheap, nofun, fun e' he' => ?_⟩
  cases he'
  exact he

/-- A result that leaves the heap alone. -/
theorem careful_done {heap : Heap} (hheap : heap.Tidy heap.nextId) {v : Value}
    (hv : v.Tidy heap.nextId) : Reply.Careful A heap.nextId (.done (.ok v) heap) :=
  careful_returns ⟨Nat.le_refl _, hheap⟩ hv

/-- An error that leaves the heap alone. -/
theorem careful_error {heap : Heap} (hheap : heap.Tidy heap.nextId) {e : Stop RuntimeError}
    (he : A.allows e) : Reply.Careful A heap.nextId (.done (.error e) heap) :=
  careful_stops ⟨Nat.le_refl _, hheap⟩ he

theorem careful_fail {heap : Heap} (hheap : heap.Tidy heap.nextId) (message : String) :
    (fail heap message).Careful A heap.nextId :=
  careful_error hheap (A.ordinary _ nofun)

theorem careful_unlessBusy {counter : Nat} {heap : Heap} (hheap : heap.Tidy heap.nextId)
    {step : Reply} (hstep : step.Careful A heap.nextId) :
    (unlessBusy counter heap step).Careful A heap.nextId := by
  unfold unlessBusy
  split
  · exact careful_fail hheap _
  · exact hstep

/-- The value or the error of compiled code is passed on. -/
theorem careful_passOn {n : Nat} {heap : Heap} (hheap : heap.Grown n)
    {result : Except RuntimeError Value} (hv : ∀ v, result = .ok v → v.Tidy heap.nextId)
    (he : ∀ e, result = .error e → A.allows (.raised e)) :
    Reply.Careful A n (.done (result.mapError .raised) heap) := by
  cases result with
  | ok v => exact careful_returns hheap (hv v rfl)
  | error e => exact careful_stops hheap (he e rfl)

theorem careful_handOver (counter : Nat) {heap : Heap} (hheap : heap.Tidy heap.nextId)
    (callee : Value) {args : List Value} (hargs : ∀ v ∈ args, v.Tidy heap.nextId) :
    (handOver counter heap callee args).Careful A heap.nextId := by
  unfold handOver
  split
  case h_2 => exact careful_fail hheap _
  case h_1 f =>
    refine careful_unlessBusy hheap ⟨⟨Nat.le_refl _, hheap.setStatic (.plain rfl)⟩, hargs, ?_⟩
    intro result after calls hafter hv he _
    have hcounter : (heap.static counter).Tidy after.nextId :=
      (hheap.static counter).mono hafter.nextId
    have hrestored : (after.setStatic counter (heap.static counter)).Grown after.nextId :=
      ⟨Nat.le_refl _, hafter.tidy.setStatic hcounter⟩
    exact careful_passOn hrestored hv he

theorem careful_reply (schema : Schema) (counter : Nat) (self : HostRef) {n : Native}
    (hn : n.Fits A) {args : List Value} {heap : Heap} (calls : List CallRecord)
    (hbase : A.base ≤ heap.nextId) (hheap : heap.Tidy heap.nextId)
    (hargs : ∀ v ∈ args, v.Tidy heap.nextId) :
    (n.reply schema counter self args heap calls).Careful A heap.nextId := by
  cases n with
  | const v => exact careful_done hheap (Value.Tidy.mono hbase hn)
  | arg index =>
      simp only [reply]
      split
      case h_1 v hv => exact careful_done hheap (hargs v (List.mem_of_getElem? hv))
      case h_2 => exact careful_fail hheap _
  | args =>
      -- a new array has the next identity
      refine careful_returns ⟨Nat.le_succ _, (hheap.mono (Nat.le_succ _)).nextId _⟩ ?_
      exact .array fun u hu => (hargs u hu).mono (Nat.le_succ _)
  | text =>
      simp only [reply]
      split
      · exact careful_done hheap (.plain rfl)
      · exact careful_error hheap (A.ordinary _ nofun)
  | count => exact careful_done hheap (.plain rfl)
  | push =>
      simp only [reply]
      split
      case h_1 id items =>
        have hpush : (heap.pushAll id items).Grown heap.nextId :=
          ⟨Nat.le_refl _, hheap.pushAll fun v hv => hargs v (List.mem_cons_of_mem _ hv)⟩
        exact careful_returns hpush (.plain rfl)
      case h_2 => exact careful_fail hheap _
  | field index =>
      simp only [reply]
      split
      · exact careful_done hheap (hheap.field _ _)
      · exact careful_fail hheap _
  | fieldIsFalse index =>
      simp only [reply]
      split
      · split <;> exact careful_done hheap (.plain rfl)
      · exact careful_fail hheap _
  | setField index =>
      simp only [reply]
      split
      · split
        case h_1 heap' hs =>
          obtain ⟨ht, hid⟩ := hheap.setField (hargs _ (by simp)) hs
          exact careful_returns ⟨Nat.le_of_eq hid.symm, hid ▸ ht⟩ (.plain rfl)
        case h_2 => exact careful_fail hheap _
      · exact careful_fail hheap _
  | new record =>
      have hnew : (heap.newInstance record (schema.defaults record)).2.Tidy heap.nextId :=
        hheap.newInstance (schema.defaults_tidy record _)
      simp only [reply]
      split
      case h_1 heap' hs =>
        obtain ⟨ht, hid⟩ := storeFields_tidy hargs hnew hs
        have hid' : heap'.nextId = heap.nextId := hid
        exact careful_returns ⟨Nat.le_of_eq hid'.symm, hid' ▸ ht⟩ (.plain rfl)
      case h_2 e hs =>
        -- an instance whose fields could not be stored stays on the heap
        have hgrown : (heap.newInstance record (schema.defaults record)).2.Grown heap.nextId :=
          ⟨Nat.le_refl _, hnew⟩
        have hne : Stop.raised e ≠ .raised .missingScope :=
          fun h => storeFields_error hs (Stop.raised.inj h)
        exact careful_stops hgrown (A.ordinary _ hne)
  | call =>
      exact careful_handOver counter hheap _ fun v hv => hargs v (List.mem_of_mem_tail hv)
  | eval =>
      simp only [reply]
      split
      case h_2 => exact careful_fail hheap _
      case h_1 tree args =>
        obtain ⟨hle, l, hl, htidy⟩ := Node.asRoot_tidy
          (Value.tidy_expression.mp (hargs _ List.mem_cons_self))
        have hroot : Heap.Tidy (tree.asRoot heap.nextId).2 (heap.withFresh tree.asRoot).2 :=
          (hheap.mono hle).nextId _
        have hargs' : ∀ v ∈ args, v.Tidy (tree.asRoot heap.nextId).2 := fun v hv =>
          (hargs v (List.mem_cons_of_mem _ hv)).mono hle
        refine .grow (careful_unlessBusy hroot ⟨⟨Nat.le_refl _, hroot⟩, ?_, ?_, ?_⟩) hle
        · intro l' hl'
          cases hl.symm.trans hl'
          exact htidy
        · exact fun e => careful_fail hroot _
        · exact fun f => careful_handOver counter hroot _ hargs'
  | raise e => exact careful_error hheap hn

theorem host_careful (schema : Schema) (counter : Nat) {table : Array Native}
    (h : ∀ n ∈ table, n.Fits A) : (host schema counter table).Careful A := by
  intro f args heap calls hbase hheap hargs _
  unfold host
  split
  case h_1 n hn =>
    exact careful_reply schema counter f (h n (Array.mem_of_getElem? hn)) calls hbase hheap hargs
  case h_2 => exact careful_fail hheap _

end Native

/-! ## Main results -/

/-- Nothing tells the two runs apart: they have the same results and the same errors, they leave the
same heap, they have made the same calls of host functions, and every closure has the same values
for the parameters it captured. -/
structure Indistinguishable (compiled : List (Except (Stop RuntimeError) Value) × World)
    (direct : List (Except Fault Value) × Store) : Prop where
  results : direct.1 = compiled.1.map (Except.mapError Fault.stop)
  heap : compiled.2.heap = direct.2.heap
  calls : compiled.2.calls = direct.2.calls
  closures : compiled.2.closures.size = direct.2.closures.size
  captured : ∀ (i : Nat) s c, compiled.2.closures[i]? = some s → direct.2.closures[i]? = some c →
    ∀ p ∈ c.lambda.captured, compiled.2.captured? s p.id = direct.2.value? c.env p.id

/-- Any error may come out. -/
def Assumptions.any (base : Nat) : Assumptions := ⟨base, False, fun _ => True, fun _ _ => trivial⟩

/-- No captured variable is out of reach. -/
def Assumptions.inScope (base : Nat) : Assumptions :=
  ⟨base, False, (· ≠ .raised .missingScope), fun _ h => h⟩

/-- The interpreter is not told what host functions do. -/
def Assumptions.closed (base : Nat) : Assumptions := ⟨base, True, fun _ => True, fun _ _ => trivial⟩

/-- No host function has a meaning. -/
def Lexical.noHost : HostRef → List Value → Interp Value := fun _ _ => throw .foreign

/-- Nothing is said about a run that calls a host function, so every host will do. -/
theorem Simulates.noHost {base : Nat} {schema : Schema} {args : List Value} (x : Eval Value)
    (f : HostRef) : Simulates (.closed base) schema args x (Lexical.noHost f args) :=
  fun _ _ σ _ _ => .foreign trivial _ σ

/-- **Compiled code refines lexical scoping.** In every session with a compiled root lambda, slots
and cells have the same effect as the locations of the interpreter. -/
theorem session_refines_interpreter {e : Environment} {options : Options} {tree : Tree}
    {root : Lambda Value} {p : Program} (heap : Heap) (hroot : tree.lambda? = some root)
    (hcompile : Program.compile e.schema options tree = .ok p)
    (htidy : TidyEvents heap.nextId root.walk) (hheap : heap.Tidy heap.nextId)
    (hhost : e.host.Careful (.any heap.nextId)) (requests : List Request)
    (hreq : Session.Admissible (e.answer p) requests { heap := heap }) :
    Indistinguishable (Session.run (requests.map (e.answer p)) { heap := heap })
      (Session.run (requests.map (Lexical.answer e ⟨root, [], options.maxCallDepth⟩))
        { heap := heap }) := by
  have hp : Program.ofLambda e.schema options root = .ok p := by
    rwa [Program.compile, hroot] at hcompile
  obtain ⟨hresults, ⟨place, hr⟩, -⟩ := Simulates.session (Simulates.answer hp hhost htidy) id
    requests (Related.start hheap (Nat.le_refl _)) hreq
  exact ⟨hresults, hr.heap, hr.calls, hr.closures, fun i s c hs hc q hq => hr.captured hs hc hq⟩

/-! Whether a run ends with a given number or error can be decided. -/

instance decidableEqOfInt (t : IntType) (n : Int) : (v : Value) → Decidable (v = .ofInt t n)
  | .int t' w =>
      if h : t' = t then
        decidable_of_iff (h ▸ w = Word.ofInt t n) (by subst h; simp [Value.ofInt])
      else .isFalse fun heq => h (by cases heq; rfl)
  | .null | .unit | .bool _ | .char _ | .f32 _ | .f64 _ | .string _ | .array .. | .list _
  | .object .. | .function _ | .expression _ => .isFalse nofun

instance decidableEqOk {ε β : Type} (b : β) [∀ a, Decidable (a = b)] :
    (x : Except ε β) → Decidable (x = .ok b)
  | .ok a => decidable_of_iff (a = b) (by simp)
  | .error _ => .isFalse nofun

instance decidableEqError {ε β : Type} [DecidableEq ε] (e : ε) :
    (x : Except ε β) → Decidable (x = .error e)
  | .ok _ => .isFalse nofun
  | .error e' => decidable_of_iff (e' = e) (by simp)

instance decidableEqSome {β : Type} (b : β) [∀ a, Decidable (a = b)] :
    (x : Option β) → Decidable (x = some b)
  | some a => decidable_of_iff (a = b) (by simp)
  | none => .isFalse nofun

instance decidableEqCons {β : Type} (b : β) (bs : List β) [∀ a, Decidable (a = b)]
    [∀ xs, Decidable (xs = bs)] : (xs : List β) → Decidable (xs = b :: bs)
  | [] => .isFalse nofun
  | a :: as => decidable_of_iff (a = b ∧ as = bs) (by simp)

/-- `x ↦ (() ↦ x := x + 1)`: a counter. -/
def Session.counter : Lambda Value :=
  let x : Parameter := ⟨0, "x", .int .i32⟩
  .mk 1 none [x] (.mk 2 .lambda (.function [] (.int .i32))
    (.lambda (.mk 3 none [] (.mk 4 .assign (.int .i32)
      (.assign x (.mk 5 .add (.int .i32)
        (.binary (.mk 6 .parameter (.int .i32) (.parameter x))
          (.mk 7 .constant (.int .i32) (.constant (.ofInt .i32 1))) none false false none)))))))

/-- The root is instantiated and invoked on 5, then the closure it returns is invoked twice. -/
def Session.twice : List Request :=
  [.instantiate, .invoke ⟨0, Session.counter.signature, none⟩ [.ofInt .i32 5],
    .invoke ⟨1, ⟨[], .int .i32⟩, none⟩ [], .invoke ⟨1, ⟨[], .int .i32⟩, none⟩ []]

theorem Session.twice_admissible (answer : Request → Eval Value) (w : World) :
    Session.Admissible answer Session.twice w := by
  refine ⟨nofun, fun v hv => ?_, nofun, nofun, trivial⟩
  rw [List.mem_singleton.mp hv]
  exact .plain rfl

theorem session_refines_interpreter_counter :
    let e : Environment := ⟨.empty, Native.host .empty 0 #[], 1000, 9⟩
    ∃ p, Program.compile .empty {} (.ofLambda 0 Session.counter) = .ok p ∧
      (Session.run (Session.twice.map (e.answer p)) { heap := { nextId := 8 } }).1.getLast?
        = some (.ok (.ofInt .i32 7)) ∧
      Indistinguishable (Session.run (Session.twice.map (e.answer p)) { heap := { nextId := 8 } })
        (Session.run (Session.twice.map (Lexical.answer e ⟨Session.counter, [], 512⟩))
          { heap := { nextId := 8 } }) := by
  intro e
  have htidy : TidyEvents 8 Session.counter.walk := .ofDistinct (by decide) (by decide) rfl
  obtain ⟨p, hp, hlast⟩ : ∃ p, Program.compile .empty {} (.ofLambda 0 Session.counter) = .ok p ∧
      (Session.run (Session.twice.map (e.answer p)) { heap := { nextId := 8 } }).1.getLast?
        = some (.ok (.ofInt .i32 7)) := ⟨_, rfl, by decide +kernel⟩
  have hhost : (Native.host .empty 0 #[]).Careful (.any 8) :=
    Native.host_careful .empty 0 fun _ hn => absurd hn (Array.not_mem_empty _)
  have hrefines := session_refines_interpreter (e := e) { nextId := 8 } rfl hp htidy (.empty 8 8)
    hhost _ (Session.twice_admissible _ _)
  exact ⟨p, hp, hlast, hrefines⟩

/-- **Captured variables are never lost.** If no host function raises that error itself, no request
of any session fails because a captured variable is out of reach. -/
theorem session_never_missingScope {e : Environment} {options : Options} {tree : Tree}
    {root : Lambda Value} {p : Program} (heap : Heap) (hroot : tree.lambda? = some root)
    (hcompile : Program.compile e.schema options tree = .ok p)
    (htidy : TidyEvents heap.nextId root.walk) (hheap : heap.Tidy heap.nextId)
    (hhost : e.host.Careful (.inScope heap.nextId)) (requests : List Request)
    (hreq : Session.Admissible (e.answer p) requests { heap := heap }) :
    .error (.raised .missingScope)
      ∉ (Session.run (requests.map (e.answer p)) { heap := heap }).1 := by
  have hp : Program.ofLambda e.schema options root = .ok p := by
    rwa [Program.compile, hroot] at hcompile
  obtain ⟨-, -, herrors⟩ := Simulates.session (Simulates.answer hp hhost htidy) id requests
    (Related.start hheap (Nat.le_refl _)) hreq
  exact fun hmem => herrors _ hmem rfl

/-- `x ↦ meddle(() ↦ quote (y ↦ x + y))`: a lambda inside a quote inside a closure. -/
def Session.quoter : Lambda Value :=
  let x : Parameter := ⟨0, "x", .int .i32⟩
  let y : Parameter := ⟨1, "y", .int .i32⟩
  let quoted : Tree := .quote 4 (.ofLambda 5 (.mk 6 none [y]
    (.binary 7 .add (.parameter 8 x) (.parameter 9 y))))
  let meddle : Method := ⟨⟨0, "meddle"⟩, none, [.function [] quoted.ty], .object⟩
  .mk 1 none [x] (.call 10 none meddle [.ofLambda 2 (.mk 3 none [] quoted)])

/-- Overwrites the parameter that a closure captured, invokes the closure, and compiles and runs the
tree that comes out. -/
def Session.meddler : Host := fun _ args heap _ =>
  match args with
  | [.function f] =>
      .poke heap f (.parameter 0) (.ofInt .i32 41) fun _ =>
        .invoke heap f [] fun
          | .ok (.expression t), heap, _ =>
              .instantiate heap {} t fun
                | .ok (.function g) =>
                    .invoke heap g [.ofInt .i32 1] fun result heap _ =>
                      .done (result.mapError .raised) heap
                | _ => .done (.ok .null) heap
          | _, heap, _ => .done (.ok .null) heap
  | _ => .done (.ok .null) heap

theorem Session.meddler_careful (A : Assumptions) : Session.meddler.Careful A := by
  intro _ args heap _ _ hheap _ _
  have hnull {heap : Heap} (ht : heap.Tidy heap.nextId) :
      Reply.Careful A heap.nextId (.done (.ok .null) heap) := Native.careful_done ht (.plain rfl)
  unfold Session.meddler
  split
  case h_2 => exact hnull hheap
  case h_1 f _ =>
    refine ⟨⟨Nat.le_refl _, hheap⟩, .plain rfl, fun _ => ⟨⟨Nat.le_refl _, hheap⟩, nofun, ?_⟩⟩
    intro result heap _ hgrown hv _ _
    dsimp only
    split
    case h_2 => exact hnull hgrown.tidy
    case h_1 t _ =>
      have hheap' : heap.Grown heap.nextId := ⟨Nat.le_refl _, hgrown.tidy⟩
      refine ⟨hheap', fun l hl => ?_, fun _ => hnull hgrown.tidy, fun g => ⟨hheap', ?_, ?_⟩⟩
      · obtain ⟨id, kind, ty, rfl⟩ := Node.lambda?_eq_some hl
        exact (Value.tidy_expression.mp (hv _ rfl)).part fun _ => List.mem_cons_of_mem _
      · intro v hv
        rw [List.mem_singleton.mp hv]
        exact .plain rfl
      · exact fun _ _ _ hgrown hv he _ =>
          Native.careful_passOn ⟨Nat.le_refl _, hgrown.tidy⟩ hv he

/-- The tree that runs in the end has the value that was written over the argument. -/
theorem session_never_missingScope_quoter :
    let e : Environment := ⟨.empty, Session.meddler, 1000, 1⟩
    let requests : List Request :=
      [.instantiate, .invoke ⟨0, Session.quoter.signature, none⟩ [.ofInt .i32 5]]
    ∃ p, Program.compile .empty {} (.ofLambda 0 Session.quoter) = .ok p ∧
      (Session.run (requests.map (e.answer p)) { heap := { nextId := 11 } }).1.getLast?
        = some (.ok (.ofInt .i32 42)) ∧
      .error (.raised .missingScope) ∉
        (Session.run (requests.map (e.answer p)) { heap := { nextId := 11 } }).1 := by
  intro e requests
  have htidy : TidyEvents 11 Session.quoter.walk := .ofDistinct (by decide) (by decide) rfl
  obtain ⟨p, hp, hlast⟩ : ∃ p, Program.compile .empty {} (.ofLambda 0 Session.quoter) = .ok p ∧
      (Session.run (requests.map (e.answer p)) { heap := { nextId := 11 } }).1.getLast?
        = some (.ok (.ofInt .i32 42)) := ⟨_, rfl, by decide +kernel⟩
  have hrequests : Session.Admissible (e.answer p) requests { heap := { nextId := 11 } } := by
    refine ⟨nofun, fun v hv => ?_, trivial⟩
    rw [List.mem_singleton.mp hv]
    exact .plain rfl
  exact ⟨p, hp, hlast, session_never_missingScope (e := e) { nextId := 11 } rfl hp htidy
    (.empty 11 11) (Session.meddler_careful _) requests hrequests⟩

end ExprTree
