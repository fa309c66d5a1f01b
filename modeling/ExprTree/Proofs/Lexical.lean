import ExprTree.Proofs.Captures.Exact
import ExprTree.Proofs.Replies

set_option autoImplicit false

/-! # Lexical scoping: a direct interpreter

The meaning of a tree, without compiling it. Every invocation of a lambda binds the parameters it
declares to fresh locations, a lambda node captures the whole environment it stands in, and a
parameter is looked up in the innermost bindings that declare it. There are no slots, no cells and
no units here: this is what compiled code is compared with. Only a host function sees less than the
whole environment of a closure: the parameters that are shared with nested lambdas and quotes.

A tree that the compiler refuses need not have a meaning. Where the interpreter meets something
that no compiled tree contains, it is `stuck`, which is not an error of the program.
-/

namespace ExprTree

namespace Lexical

/-! ## Environments -/

/-- What one invocation binds: the declared parameters, the `i`-th one at location `base + i`. -/
structure Bindings where
  params : List Nat
  /-- The parameters that host functions can reach. -/
  shared : List Nat
  base : Nat

/-- The bindings of an invocation of a lambda. -/
def bindingsOf (l : Lambda Value) (base : Nat) : Bindings := ⟨l.params.map (·.id), l.shared, base⟩

/-- The location of a parameter; one that is declared twice is its last argument. -/
def Bindings.location? (b : Bindings) (p : Nat) : Option Nat :=
  (lastIndex? p b.params).map (b.base + ·)

/-- The bindings around a place in a tree, innermost first. -/
abbrev Env := List Bindings

/-- The location of a parameter in the innermost bindings that declare it. -/
def location? (env : Env) (p : Nat) : Option Nat := env.findSome? (·.location? p)

/-! ## State -/

/-- A lambda together with the environment it was met in, and the limit on the depth of calls that
it was compiled with. -/
structure Closure where
  lambda : Lambda Value
  env : Env
  limit : UInt32

/-- The location that a host function means by a name. A parameter that the lambda itself shares
hides those further out, although it is bound only when the lambda is invoked. -/
def Closure.location? (c : Closure) : CellName → Option Nat
  | .parameter p =>
      if p ∈ c.lambda.shared then none
      else c.env.findSome? fun b => if p ∈ b.shared then b.location? p else none
  | .place level position => do
      let b ← c.env[level]?
      let p ← b.shared[position]?
      b.location? p

/-- Everything a run can change. -/
structure Store where
  heap : Heap := {}
  /-- The values of all bound parameters. -/
  locations : Array Value := #[]
  closures : Array Closure := #[]
  /-- The calls of host functions, latest first. -/
  calls : List CallRecord := []

/-- Why there is no value. -/
inductive Fault
  /-- The program fails or does not end. -/
  | stop (why : Stop RuntimeError)
  /-- The tree has no meaning. -/
  | stuck
  /-- A host function was called that is not given a meaning. -/
  | foreign
deriving DecidableEq

/-- A computation on the store. -/
abbrev Interp := EStateM Fault Store

namespace Store

/-- A function value for a new closure. -/
def newClosure (s : Store) (c : Closure) : Value × Store :=
  (.function ⟨s.closures.size, c.lambda.signature, c.lambda.name⟩,
    { s with closures := s.closures.push c })

/-- Binds the parameters of a lambda to fresh locations. -/
def bind (s : Store) (l : Lambda Value) (args : List Value) : Bindings × Store :=
  (bindingsOf l s.locations.size, { s with locations := s.locations ++ args.toArray })

/-- The value of a parameter. -/
def value? (s : Store) (env : Env) (p : Nat) : Option Value :=
  (location? env p).bind fun l => s.locations[l]?

/-- The values of several parameters; none if one of them is not bound. -/
def values? (s : Store) (env : Env) : List Parameter → Option (Substitution Value)
  | [] => some []
  | p :: ps => do
      let v ← s.value? env p.id
      let rest ← s.values? env ps
      return (p.id, v) :: rest

/-- The value of a captured parameter, as host functions see it. -/
def peek? (s : Store) (c : Closure) (name : CellName) : Option Value :=
  (c.location? name).bind fun l => s.locations[l]?

/-- Overwrites such a parameter. -/
def poke? (s : Store) (c : Closure) (name : CellName) (v : Value) : Option Store :=
  (c.location? name).map fun l => { s with locations := s.locations.setIfInBounds l v }

end Store

namespace Interp

/-- An error of the program. -/
def raise {β : Type} (e : RuntimeError) : Interp β := throw (.stop (.raised e))

/-- No meaning. -/
def stuck {β : Type} : Interp β := throw .stuck

/-- A result that does not depend on the store. -/
def ofExcept {β : Type} : Except RuntimeError β → Interp β
  | .ok a => pure a
  | .error e => raise e

/-- A result that there may never be. -/
def ofOption {β : Type} : Option (Except RuntimeError β) → Interp β
  | some r => ofExcept r
  | none => throw (.stop .unfinished)

/-- Hands an error of the program over as a value. -/
def attempt {β : Type} (x : Interp β) : Interp (Except RuntimeError β) := fun s =>
  match x s with
  | .ok a s => .ok (.ok a) s
  | .error (.stop (.raised e)) s => .ok (.error e) s
  | .error e s => .error e s

/-- Changes the heap. -/
def setHeap (heap : Heap) : Interp PUnit := modify fun s => { s with heap := heap }

/-- A new value made on the heap. -/
def alloc (make : Heap → Value × Heap) : Interp Value :=
  modifyGet fun s =>
    let (v, heap) := make s.heap
    (v, { s with heap := heap })

/-- The value of a parameter. -/
def load (env : Env) (p : Parameter) : Interp Value := do
  match (← get).value? env p.id with
  | some v => return v
  | none => stuck

/-- Stores into the location of a parameter. -/
def store (env : Env) (p : Parameter) (v : Value) : Interp PUnit :=
  match location? env p.id with
  | some l => modify fun s => { s with locations := s.locations.setIfInBounds l v }
  | none => stuck

/-- A closure of a lambda over an environment. -/
def close (c : Closure) : Interp Value := modifyGet (·.newClosure c)

/-- A tree with its free parameters replaced by the values they have now. -/
def quote (env : Env) (tree : Tree) : Interp Value := do
  let s ← get
  match s.values? env tree.freeParameters with
  | some values =>
      let (tree, heap) := s.heap.withFresh (tree.substitute values)
      set { s with heap := heap }
      return .expression tree
  | none => stuck

/-- The closure a function value refers to. -/
def closureOf (f : FunctionRef) : Interp Closure := do
  match (← get).closures[f.id]? with
  | some c => return c
  | none => raise (.notCallable "function")

/-- A closure of a lambda outside of all others, if it compiles. -/
def compile (schema : Schema) (options : Options) (tree : Tree) :
    Interp (Except CompileError Value) :=
  match tree.lambda?, Program.compile schema options tree with
  | some l, .ok _ => return .ok (← close ⟨l, [], options.maxCallDepth⟩)
  | _, .error e => return .error e
  | none, .ok _ => stuck

/-- Reads a location that a closure captured. -/
def peek (f : FunctionRef) (name : CellName) : Interp (Option Value) := do
  let c ← closureOf f
  return (← get).peek? c name

/-- Overwrites a location that a closure captured, if there is one. -/
def poke (f : FunctionRef) (name : CellName) (v : Value) : Interp Bool := do
  let c ← closureOf f
  match (← get).poke? c name v with
  | some s =>
      set s
      return true
  | none => return false

section Equations

variable {env : Env} {s : Store}

theorem load_eq {p : Parameter} {v : Value} (h : s.value? env p.id = some v) :
    load env p s = .ok v s := by
  rw [load, get_bind, h]
  rfl

theorem load_of_none {p : Parameter} (h : s.value? env p.id = none) :
    load env p s = .error .stuck s := by
  rw [load, get_bind, h]
  rfl

theorem quote_eq {tree : Tree} {values : Substitution Value}
    (h : s.values? env tree.freeParameters = some values) :
    quote env tree s = .ok (.expression (tree.substitute values s.heap.nextId).1)
      { s with heap := { s.heap with nextId := (tree.substitute values s.heap.nextId).2 } } := by
  rw [quote, get_bind, h]
  rfl

theorem quote_of_none {tree : Tree} (h : s.values? env tree.freeParameters = none) :
    quote env tree s = .error .stuck s := by
  rw [quote, get_bind, h]
  rfl

theorem setHeap_bind {β : Type} {heap : Heap} (f : PUnit → Interp β) :
    (setHeap heap >>= f) s = f ⟨⟩ { s with heap := heap } := rfl

theorem attempt_of_ok {β : Type} {x : Interp β} {s' : Store} {b : β} (h : x s = .ok b s') :
    x.attempt s = .ok (.ok b) s' := by
  rw [attempt, h]

theorem attempt_of_raised {β : Type} {x : Interp β} {s' : Store} {e : RuntimeError}
    (h : x s = .error (.stop (.raised e)) s') : x.attempt s = .ok (.error e) s' := by
  rw [attempt, h]

theorem attempt_of_error {β : Type} {x : Interp β} {s' : Store} {e : Fault}
    (h : x s = .error e s') (he : ∀ e', e ≠ .stop (.raised e')) :
    x.attempt s = .error e s' := by
  rw [attempt, h]
  split
  · contradiction
  · rename_i heq
    cases heq
    exact absurd rfl (he _)
  · rename_i heq
    cases heq
    rfl

theorem closureOf_eq {f : FunctionRef} {c : Closure} (h : s.closures[f.id]? = some c) :
    closureOf f s = .ok c s := by
  rw [closureOf, get_bind, h]
  rfl

theorem closureOf_of_none {f : FunctionRef} (h : s.closures[f.id]? = none) :
    closureOf f s = .error (.stop (.raised (.notCallable "function"))) s := by
  rw [closureOf, get_bind, h]
  rfl

section Compile

variable {schema : Schema} {options : Options} {tree : Tree}

theorem compile_of_ok {p : Program} {l : Lambda Value}
    (h : Program.compile schema options tree = .ok p) (hl : tree.lambda? = some l) :
    compile schema options tree s
      = .ok (.ok (s.newClosure ⟨l, [], options.maxCallDepth⟩).1)
          (s.newClosure ⟨l, [], options.maxCallDepth⟩).2 := by
  rw [compile, h, hl]
  rfl

theorem compile_of_error {e : CompileError} (h : Program.compile schema options tree = .error e) :
    compile schema options tree s = .ok (.error e) s := by
  rw [compile, h]
  cases tree.lambda? <;> rfl

end Compile

section Captured

variable {f : FunctionRef} {c : Closure} {name : CellName} {v : Value} {s' : Store}

theorem peek_of_some (h : s.closures[f.id]? = some c) :
    peek f name s = .ok (s.peek? c name) s := by
  rw [peek, bind_of_ok (closureOf_eq h)]
  rfl

theorem peek_of_none (h : s.closures[f.id]? = none) :
    peek f name s = .error (.stop (.raised (.notCallable "function"))) s :=
  bind_of_error (closureOf_of_none h)

theorem poke_of_some (h : s.closures[f.id]? = some c) (hs : s.poke? c name v = some s') :
    poke f name v s = .ok true s' := by
  rw [poke, bind_of_ok (closureOf_eq h), get_bind, hs]
  rfl

theorem poke_of_none (h : s.closures[f.id]? = some c) (hs : s.poke? c name v = none) :
    poke f name v s = .ok false s := by
  rw [poke, bind_of_ok (closureOf_eq h), get_bind, hs]
  rfl

theorem poke_of_stray (h : s.closures[f.id]? = none) :
    poke f name v s = .error (.stop (.raised (.notCallable "function"))) s :=
  bind_of_error (closureOf_of_none h)

end Captured

end Equations

end Interp

/-! ## What a tree can reach outside of itself -/

/-- Invocations, host functions and what is fixed during one invocation. -/
structure Context where
  schema : Schema
  /-- The least length of an array that there is no memory for. -/
  arrayLimit : Nat
  /-- The limit on the depth of calls that closures inherit. -/
  limit : UInt32
  /-- How deep the invocation stands. -/
  depth : UInt32
  /-- Invokes a closure at a call depth. -/
  invoke : (depth : UInt32) → FunctionRef → List Value → Interp Value
  /-- Calls a host function. -/
  host : HostRef → List Value → Interp Value

namespace Context

/-- Reads a member; a static one ignores the target. -/
def readMember (cx : Context) (m : Member) (target : Value) : Interp Value :=
  match m with
  | .field _ index _ => do
      let id ← Interp.ofExcept target.asInstance
      return (← get).heap.field id index
  | .static _ _ cell => return (← get).heap.static cell
  | .property _ getter _ =>
      if getter.isStatic then cx.host getter.impl []
      else do
        let target ← Interp.ofExcept target.present
        cx.host getter.impl [target]

/-- Stores into a member; a static one ignores the target. -/
def writeMember (cx : Context) (m : Member) (target v : Value) : Interp PUnit :=
  match m with
  | .field _ index _ => do
      let id ← Interp.ofExcept target.asInstance
      let s ← get
      match s.heap.setField? id index v with
      | some heap => set { s with heap := heap }
      | none => Interp.raise (ExprTree.Context.noField index (s.heap.fields id).size)
  | .static _ _ cell => modify fun s => { s with heap := s.heap.setStatic cell v }
  | .property _ _ (some setter) =>
      if setter.isStatic then discard (cx.host setter.impl [v])
      else do
        let target ← Interp.ofExcept target.present
        discard (cx.host setter.impl [target, v])
  | .property _ _ none => return ()

/-- Takes an action on one operand. -/
def unary (cx : Context) (action : UnaryAction) (v : Value) : Interp Value :=
  match action with
  | .primitive op => Interp.ofExcept (op.apply v)
  | .convert c => Interp.ofExcept (c.apply cx.schema v)
  | .user m => cx.host m.impl [v]
  | .typeAs ty => return if v.conformsTo cx.schema ty then v else .null
  | .typeIs ty => return .bool (!v.isNull && v.conformsTo cx.schema ty)

/-- Takes an action on two operands. -/
def binary (cx : Context) (action : BinaryAction) (l r : Value) : Interp Value :=
  match action with
  | .primitive op => do Interp.ofOption (op.apply (← get).heap l r)
  | .user m => cx.host m.impl [l, r]
  | .element => do Interp.ofExcept (l.element (← get).heap r)

/-- Takes an action on one operand, unless it is lifted and the operand is missing. -/
def liftedUnary (cx : Context) (action : UnaryAction) (lifted : Bool) (v : Value) : Interp Value :=
  if lifted && v.isNull then return .null else cx.unary action v

/-- Takes an action on two operands, unless it is lifted and one of them is missing. -/
def liftedBinary (cx : Context) (action : BinaryAction) (onNull : Option NullResult)
    (l r : Value) : Interp Value :=
  match onNull with
  | some n => if l.isNull || r.isNull then return n.resolve l r else cx.binary action l r
  | none => cx.binary action l r

/-- Invokes a value that should be a function, one level deeper. -/
def apply (cx : Context) (callee : Value) (args : List Value) : Interp Value :=
  match callee with
  | .function f => cx.invoke (cx.depth + 1) f args
  | .null => Interp.raise .nullReference
  | v => Interp.raise (.notCallable v.typeName)

end Context

end Lexical

/-! ## Operators

What a node with one or two operands does is decided by its kind, its flags, its method and the
static types; a node for which there is no decision has no meaning. -/

/-- The action of a node with one operand of type `operand`, and whether it is lifted. A quoting
node has none: its operand is not evaluated. -/
def unaryAction? (schema : Schema) (kind : Kind) (ty operand : Ty) (method : Option Method)
    (lifted : Bool) : Option (UnaryAction × Bool) :=
  if kind = .quote || !kind.isUnary then none
  else if kind = .typeAs then if ty.admitsNull then some (.typeAs ty, false) else none
  else
    match method with
    | some m => some (.user m, lifted)
    | none =>
        if kind = .convert || kind = .convertChecked then
          (Conversion.select? schema (kind = .convertChecked) operand ty).map
            fun c => (.convert c, false)
        else (UnaryOp.select? kind operand.nonNullable).map fun op => (.primitive op, lifted)

/-- What a node with two operands does, coalescing apart. -/
inductive BinaryForm
  /-- Both operands are evaluated, then an action is taken. -/
  | strict (action : BinaryAction) (onNull : Option NullResult)
  /-- Three-valued logic on both operands. -/
  | kleene (conjunction : Bool)
  /-- The right operand counts only if the left one is not `decisive`. -/
  | shortCircuit (decisive lifted : Bool)
  /-- The right operand counts only if `test` does not hold of the left one. -/
  | userShortCircuit (test method : Method) (lifted : Bool)

/-- The form of a node whose left operand has type `left`. -/
def binaryForm? (schema : Schema) (kind : Kind) (ty left : Ty) (method : Option Method)
    (lifted : Bool) : Option BinaryForm :=
  if kind = .coalesce || !kind.isBinary then none
  else if kind = .arrayIndex then some (.strict .element none)
  else if kind = .andAlso || kind = .orElse then
    match method with
    | none => some (.shortCircuit (kind = .orElse) lifted)
    | some m =>
        (left.record?.bind schema.truth?).map fun ops =>
          .userShortCircuit (if kind = .andAlso then ops.isFalse else ops.isTrue) m lifted
  else
    let onNull := if lifted then some (NullResult.ofKind kind ty) else none
    match method with
    | some m => some (.strict (.user m) onNull)
    | none =>
        if lifted && (kind = .and || kind = .or) && left.nonNullable.isBool then
          some (.kleene (kind = .and))
        else (BinaryOp.select? kind left.nonNullable).map fun op => .strict (.primitive op) onNull

/-! ### What is chosen for a node -/

/-- The cases of `unaryAction?`. -/
inductive UnaryAction.Chosen (kind : Kind) (ty : Ty) (lifted : Bool) :
    Option Method → UnaryAction → Bool → Prop
  | typeAs (method : Option Method) (hk : kind = .typeAs) :
      Chosen kind ty lifted method (.typeAs ty) false
  | user (m : Method) (hk : kind.isUnary = true) (ht : kind ≠ .typeAs) :
      Chosen kind ty lifted (some m) (.user m) lifted
  | convert (c : Conversion) : Chosen kind ty lifted none (.convert c) false
  | primitive (op : UnaryOp) : Chosen kind ty lifted none (.primitive op) lifted

/-- The cases of `binaryForm?`. -/
inductive BinaryForm.Chosen (schema : Schema) (kind : Kind) (ty left : Ty) (lifted : Bool) :
    Option Method → BinaryForm → Prop
  | element (method : Option Method) (hk : kind = .arrayIndex) :
      Chosen schema kind ty left lifted method (.strict .element none)
  | logical (hk : kind = .andAlso ∨ kind = .orElse) :
      Chosen schema kind ty left lifted none (.shortCircuit (kind = .orElse) lifted)
  | userLogical (m : Method) (ops : TruthOperators) (hk : kind = .andAlso ∨ kind = .orElse)
      (hops : left.record?.bind schema.truth? = some ops) :
      Chosen schema kind ty left lifted (some m)
        (.userShortCircuit (if kind = .andAlso then ops.isFalse else ops.isTrue) m lifted)
  | user (m : Method) (hk : kind.isBinary = true) (hc : kind ≠ .coalesce)
      (hi : kind ≠ .arrayIndex) (hl : ¬(kind = .andAlso ∨ kind = .orElse)) :
      Chosen schema kind ty left lifted (some m)
        (.strict (.user m) (if lifted then some (NullResult.ofKind kind ty) else none))
  | kleene (conjunction : Bool) (hl : ¬(kind = .andAlso ∨ kind = .orElse)) :
      Chosen schema kind ty left lifted none (.kleene conjunction)
  | primitive (op : BinaryOp) (onNull : Option NullResult)
      (hl : ¬(kind = .andAlso ∨ kind = .orElse)) :
      Chosen schema kind ty left lifted none (.strict (.primitive op) onNull)

section Chosen

variable {schema : Schema} {kind : Kind} {ty operand : Ty} {method : Option Method} {lifted : Bool}

theorem unaryAction?_chosen {action : UnaryAction} {lift : Bool}
    (h : unaryAction? schema kind ty operand method lifted = some (action, lift)) :
    UnaryAction.Chosen kind ty lifted method action lift := by
  unfold unaryAction? at h
  split at h
  · cases h
  rename_i hk
  simp only [Bool.or_eq_true, Bool.not_eq_true, not_or, Bool.not_eq_eq_eq_not, Bool.not_true,
    Bool.not_eq_false] at hk
  split at h
  · rename_i ht
    split at h
    · cases h
      exact .typeAs _ ht
    · cases h
  rename_i ht
  cases method with
  | some m =>
      cases h
      exact .user m hk.2 ht
  | none =>
      simp only at h
      split at h <;> obtain ⟨_, -, heq⟩ := Option.map_eq_some_iff.mp h <;> cases heq
      · exact .convert _
      · exact .primitive _

theorem binaryForm?_chosen {form : BinaryForm}
    (h : binaryForm? schema kind ty operand method lifted = some form) :
    BinaryForm.Chosen schema kind ty operand lifted method form := by
  unfold binaryForm? at h
  split at h
  · cases h
  rename_i hk
  simp only [Bool.or_eq_true, decide_eq_true_eq, not_or, Bool.not_eq_eq_eq_not, Bool.not_true,
    Bool.not_eq_false] at hk
  split at h
  · rename_i hi
    cases h
    exact .element _ hi
  rename_i hi
  split at h <;> rename_i hl <;> simp only [Bool.or_eq_true, decide_eq_true_eq] at hl
  · cases method with
    | none =>
        cases h
        exact .logical hl
    | some m =>
        obtain ⟨ops, hops, heq⟩ := Option.map_eq_some_iff.mp h
        cases heq
        exact .userLogical m ops hl hops
  · cases method with
    | some m =>
        cases h
        exact .user m hk.2 hk.1 hi hl
    | none =>
        simp only at h
        split at h
        · cases h
          exact .kleene _ hl
        · obtain ⟨op, -, heq⟩ := Option.map_eq_some_iff.mp h
          cases heq
          exact .primitive op _ hl

end Chosen

namespace Lexical

/-- Evaluates a node with two operands, given their evaluation. -/
def Context.form (cx : Context) (left right : Interp Value) : BinaryForm → Interp Value
  | .strict action onNull => do
      let l ← left
      let r ← right
      cx.liftedBinary action onNull l r
  | .kleene conjunction => do
      let l ← Interp.ofExcept (← left).asOptionalBool
      let r ← Interp.ofExcept (← right).asOptionalBool
      return kleeneValue conjunction l r
  | .shortCircuit decisive lifted => do
      let v ← left
      if lifted then
        match ← Interp.ofExcept v.asOptionalBool with
        | some l => if l = decisive then return .bool l else right
        | none =>
            match ← Interp.ofExcept (← right).asOptionalBool with
            | some r => if r = decisive then return .bool r else return .null
            | none => return .null
      else
        let l ← Interp.ofExcept v.asBool
        if l = decisive then return .bool l else right
  | .userShortCircuit test method lifted => do
      let l ← left
      if lifted && l.isNull then return .null
      else
        let decided ← Interp.ofExcept (← cx.host test.impl [l]).asBool
        if decided then return l
        else
          let r ← right
          if lifted && r.isNull then return .null else cx.host method.impl [l, r]

/-- A default value of type `ty`. -/
def Context.newDefault (cx : Context) (ty : Ty) : Interp Value :=
  match ty with
  | .record r => Interp.alloc (·.newInstance r (cx.schema.defaults r))
  | .list _ => Interp.alloc (·.newList [])
  | ty => return ty.default

end Lexical

/-! ## Trees -/

open Lexical (Env Interp)

mutual

/-- The value of a tree. -/
def Node.interpret (cx : Lexical.Context) (env : Env) : Tree → Interp Value
  | .mk _ kind ty payload => Payload.interpret cx env kind ty payload

/-- The value of a node with that kind, type and content. -/
def Payload.interpret (cx : Lexical.Context) (env : Env) (kind : Kind) (ty : Ty) :
    Payload Value → Interp Value
  | .constant v => return v
  | .parameter p => Interp.load env p
  | .unary x method lifted =>
      if kind = .quote then Interp.quote env x
      else
        match unaryAction? cx.schema kind ty x.ty method lifted with
        | some (action, lifted) => do cx.liftedUnary action lifted (← Node.interpret cx env x)
        | none => Interp.stuck
  | .binary l r method lifted _ conversion =>
      if kind = .coalesce then do
        let v ← Node.interpret cx env l
        if v.isNull then Node.interpret cx env r
        else
          match conversion with
          | none => return v
          | some c => do cx.apply (← Interp.close ⟨c, env, cx.limit⟩) [v]
      else
        match binaryForm? cx.schema kind ty l.ty method lifted with
        | some form => cx.form (Node.interpret cx env l) (Node.interpret cx env r) form
        | none => Interp.stuck
  | .conditional t a b => do
      let t ← Interp.ofExcept (← Node.interpret cx env t).asBool
      if t then Node.interpret cx env a else Node.interpret cx env b
  | .memberAccess target m =>
      if m.isStatic then cx.readMember m .null
      else
        match target with
        | some x => do cx.readMember m (← Node.interpret cx env x)
        | none => Interp.stuck
  | .call target m args =>
      if m.isStatic then do cx.host m.impl (← Node.interpretAll cx env args)
      else
        match target with
        | some x => do
            let this ← Node.interpret cx env x
            let this ← Interp.ofExcept this.present
            cx.host m.impl (this :: (← Node.interpretAll cx env args))
        | none => Interp.stuck
  | .new constructor args =>
      match constructor with
      | some c => do cx.host c.impl (← Node.interpretAll cx env args)
      | none => cx.newDefault ty
  | .newArray items =>
      if kind = .newArrayBounds then
        match items, ty.element? with
        | [length], some e => do
            let n ← Interp.ofExcept
              ((← Node.interpret cx env length).asLength cx.arrayLimit)
            Interp.alloc (·.newArray (List.replicate n e.default))
        | _, _ => Interp.stuck
      else do
        let items ← Node.interpretAll cx env items
        Interp.alloc (·.newArray items)
  | .listInit x inits => do
      let v ← Node.interpret cx env x
      ElementInit.interpretAll cx env v inits
      return v
  | .memberInit x bindings => do
      let v ← Node.interpret cx env x
      MemberBinding.interpretAll cx env v bindings
      return v
  | .lambda l => Interp.close ⟨l, env, cx.limit⟩
  | .invoke x args => do
      let callee ← Node.interpret cx env x
      cx.apply callee (← Node.interpretAll cx env args)
  | .typeIs x t => do cx.unary (.typeIs t) (← Node.interpret cx env x)
  | .assign p x => do
      let v ← Node.interpret cx env x
      Interp.store env p v
      return v
  | .block items => Node.interpretBlock cx env .unit items

/-- The values of several trees, from left to right. -/
def Node.interpretAll (cx : Lexical.Context) (env : Env) : List Tree → Interp (List Value)
  | [] => return []
  | n :: ns => do
      let v ← Node.interpret cx env n
      let vs ← Node.interpretAll cx env ns
      return v :: vs

/-- The value of the last tree, or `last` if there is none. -/
def Node.interpretBlock (cx : Lexical.Context) (env : Env) (last : Value) :
    List Tree → Interp Value
  | [] => return last
  | n :: ns => do
      let v ← Node.interpret cx env n
      Node.interpretBlock cx env v ns

/-- Adds elements to a value. -/
def ElementInit.interpretAll (cx : Lexical.Context) (env : Env) (target : Value) :
    List (ElementInit Value) → Interp PUnit
  | [] => return ()
  | .mk add args :: rest => do
      let this ← Interp.ofExcept target.present
      let _ ← cx.host add.impl (this :: (← Node.interpretAll cx env args))
      ElementInit.interpretAll cx env target rest

/-- Binds members of a value. -/
def MemberBinding.interpretAll (cx : Lexical.Context) (env : Env) (target : Value) :
    List (MemberBinding Value) → Interp PUnit
  | [] => return ()
  | .assign m x :: rest => do
      let v ← Node.interpret cx env x
      cx.writeMember m target v
      MemberBinding.interpretAll cx env target rest
  | .bind m nested :: rest => do
      let inner ← cx.readMember m target
      MemberBinding.interpretAll cx env inner nested
      MemberBinding.interpretAll cx env target rest
  | .list m inits :: rest => do
      let inner ← cx.readMember m target
      ElementInit.interpretAll cx env inner inits
      MemberBinding.interpretAll cx env target rest

end

/-! ## Invocations -/

namespace Lexical

/-- Invokes a closure at a call depth, where invocations stand at most `nesting` deep inside one
another. The limit of the closure is checked first, then the arguments; then the parameters are
bound and the body is evaluated. -/
def invokeAt (schema : Schema) (arrayLimit : Nat) (host : HostRef → List Value → Interp Value) :
    (nesting : Nat) → (depth : UInt32) → Closure → List Value → Interp Value
  | 0, _, _, _ => throw (.stop .unfinished)
  | nesting + 1, depth, c, args => do
      Interp.ofExcept (checkCallDepth depth c.limit)
      Interp.ofExcept (checkArguments schema c.lambda.signature args)
      let bindings ← modifyGet (·.bind c.lambda args)
      let cx : Context :=
        { schema, arrayLimit, depth, host
          limit := c.limit
          invoke := fun depth f args => do
            invokeAt schema arrayLimit host nesting depth (← Interp.closureOf f) args }
      c.lambda.body.interpret cx (bindings :: c.env)

end Lexical

/-- Follows a host function to its end, given what it means to invoke a closure. A tree that the
compiler refuses is answered with the compiler's error. -/
def Reply.interpret (schema : Schema) (invoke : FunctionRef → List Value → Interp Value) :
    Reply → Interp Value
  | .done result heap => do
      Interp.setHeap heap
      match result with
      | .ok v => return v
      | .error e => throw (.stop e)
  | .invoke heap f args next => do
      Interp.setHeap heap
      let result ← (invoke f args).attempt
      let s ← get
      (next result s.heap s.calls).interpret schema invoke
  | .instantiate heap options tree next => do
      Interp.setHeap heap
      (next (← Interp.compile schema options tree)).interpret schema invoke
  | .peek f name next => do (next (← Interp.peek f name)).interpret schema invoke
  | .poke heap f name v next => do
      Interp.setHeap heap
      (next (← Interp.poke f name v)).interpret schema invoke

namespace Reply

open Lexical (Closure Fault Store)

variable {schema : Schema} {invoke : FunctionRef → List Value → Interp Value} {heap : Heap}
  {f : FunctionRef} {s s' : Store}

section Invoke

variable {args : List Value} {next : Except RuntimeError Value → Heap → List CallRecord → Reply}

theorem interpret_invoke : (Reply.invoke heap f args next).interpret schema invoke = (do
    Interp.setHeap heap
    let result ← (invoke f args).attempt
    let s ← get
    (next result s.heap s.calls).interpret schema invoke) := rfl

theorem interpret_invoke_ok {v : Value} (h : invoke f args { s with heap := heap } = .ok v s') :
    (Reply.invoke heap f args next).interpret schema invoke s
      = (next (.ok v) s'.heap s'.calls).interpret schema invoke s' := by
  rw [interpret_invoke, Interp.setHeap_bind, bind_of_ok (Interp.attempt_of_ok h)]
  rfl

theorem interpret_invoke_raised {e : RuntimeError}
    (h : invoke f args { s with heap := heap } = .error (.stop (.raised e)) s') :
    (Reply.invoke heap f args next).interpret schema invoke s
      = (next (.error e) s'.heap s'.calls).interpret schema invoke s' := by
  rw [interpret_invoke, Interp.setHeap_bind, bind_of_ok (Interp.attempt_of_raised h)]
  rfl

theorem interpret_invoke_error {e : Fault}
    (h : invoke f args { s with heap := heap } = .error e s')
    (he : ∀ e', e ≠ .stop (.raised e')) :
    (Reply.invoke heap f args next).interpret schema invoke s = .error e s' := by
  rw [interpret_invoke, Interp.setHeap_bind, bind_of_error (Interp.attempt_of_error h he)]

end Invoke

section Instantiate

variable {options : Options} {tree : Tree} {next : Except CompileError Value → Reply}

theorem interpret_instantiate :
    (Reply.instantiate heap options tree next).interpret schema invoke = (do
      Interp.setHeap heap
      (next (← Interp.compile schema options tree)).interpret schema invoke) := rfl

theorem interpret_instantiate_ok {p : Program} {l : Lambda Value}
    (h : Program.compile schema options tree = .ok p) (hl : tree.lambda? = some l) :
    (Reply.instantiate heap options tree next).interpret schema invoke s
      = (next (.ok (Store.newClosure { s with heap := heap }
            ⟨l, [], options.maxCallDepth⟩).1)).interpret schema invoke
          (Store.newClosure { s with heap := heap } ⟨l, [], options.maxCallDepth⟩).2 := by
  rw [interpret_instantiate, Interp.setHeap_bind, bind_of_ok (Interp.compile_of_ok h hl)]

theorem interpret_instantiate_error {e : CompileError}
    (h : Program.compile schema options tree = .error e) :
    (Reply.instantiate heap options tree next).interpret schema invoke s
      = (next (.error e)).interpret schema invoke { s with heap := heap } := by
  rw [interpret_instantiate, Interp.setHeap_bind, bind_of_ok (Interp.compile_of_error h)]

end Instantiate

section Locations

variable {name : CellName} {c : Closure}

theorem interpret_peek {next : Option Value → Reply} (h : s.closures[f.id]? = some c) :
    (Reply.peek f name next).interpret schema invoke s
      = (next (s.peek? c name)).interpret schema invoke s :=
  bind_of_ok (Interp.peek_of_some h)

theorem interpret_peek_none {next : Option Value → Reply} (h : s.closures[f.id]? = none) :
    (Reply.peek f name next).interpret schema invoke s
      = .error (.stop (.raised (.notCallable "function"))) s :=
  bind_of_error (Interp.peek_of_none h)

variable {v : Value} {next : Bool → Reply}

theorem interpret_poke : (Reply.poke heap f name v next).interpret schema invoke = (do
    Interp.setHeap heap
    (next (← Interp.poke f name v)).interpret schema invoke) := rfl

theorem interpret_poke_some (h : s.closures[f.id]? = some c)
    (hs : Store.poke? { s with heap := heap } c name v = some s') :
    (Reply.poke heap f name v next).interpret schema invoke s
      = (next true).interpret schema invoke s' := by
  have hpoke : Interp.poke f name v { s with heap := heap } = .ok true s' :=
    Interp.poke_of_some h hs
  rw [interpret_poke, Interp.setHeap_bind, bind_of_ok hpoke]

theorem interpret_poke_none (h : s.closures[f.id]? = some c)
    (hs : Store.poke? { s with heap := heap } c name v = none) :
    (Reply.poke heap f name v next).interpret schema invoke s
      = (next false).interpret schema invoke { s with heap := heap } := by
  have hpoke : Interp.poke f name v { s with heap := heap } = .ok false { s with heap := heap } :=
    Interp.poke_of_none h hs
  rw [interpret_poke, Interp.setHeap_bind, bind_of_ok hpoke]

theorem interpret_poke_stray (h : s.closures[f.id]? = none) :
    (Reply.poke heap f name v next).interpret schema invoke s
      = .error (.stop (.raised (.notCallable "function"))) { s with heap := heap } := by
  have hpoke : Interp.poke f name v { s with heap := heap } = .error _ { s with heap := heap } :=
    Interp.poke_of_stray h
  rw [interpret_poke, Interp.setHeap_bind, bind_of_error hpoke]

end Locations

end Reply

namespace Lexical

/-- Calls a host function, given what it means to invoke a closure. -/
def callWith (schema : Schema) (host : Host) (invoke : FunctionRef → List Value → Interp Value)
    (f : HostRef) (args : List Value) : Interp Value := do
  modify fun s => { s with calls := ⟨f, args, s.heap⟩ :: s.calls }
  let s ← get
  (host f args s.heap s.calls).interpret schema invoke

/-- Calls a host function, where host functions invoke closures at most `reentries` times inside one
another. -/
def hostCall (schema : Schema) (arrayLimit : Nat) (host : Host) :
    (reentries : Nat) → HostRef → List Value → Interp Value
  | 0 => callWith schema host fun _ _ => throw (.stop .unfinished)
  | reentries + 1 =>
      callWith schema host fun f args => do
        invokeAt schema arrayLimit (hostCall schema arrayLimit host reentries) callCeiling 0
          (← Interp.closureOf f) args

/-- Invokes a closure from outside. -/
def enter (e : Environment) (c : Closure) (args : List Value) : Interp Value :=
  invokeAt e.schema e.arrayLimit (hostCall e.schema e.arrayLimit e.host e.reentries) callCeiling 0 c
    args

/-- Invokes a function value from outside. -/
def invoke (e : Environment) (f : FunctionRef) (args : List Value) : Interp Value := do
  enter e (← Interp.closureOf f) args

end Lexical

end ExprTree
