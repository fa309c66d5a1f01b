import ExprTree.Host

set_option autoImplicit false

/-! # Running code

`Code.run` is defined by recursion on the code. What leaves the frame, an invocation or a call of a
host function, goes through a `Context`, so that the nesting of invocations and the nesting of host
functions are the arguments of two further recursions, `invokeAt` and `hostCall`. Where one of them
ends without an answer, and where a value has no text, the run is `unfinished`.
-/

namespace ExprTree

/-- A computation on the world. What was changed before an error stays changed. -/
abbrev Eval := EStateM (Stop RuntimeError) World

/-- The slots of the running frame, and the world. -/
structure Machine where
  slots : Array Value
  world : World

/-- A computation inside a frame. -/
abbrev Exec := EStateM (Stop RuntimeError) Machine

/-- What a frame can reach outside of itself. -/
structure Context where
  schema : Schema
  /-- The least length of an array that there is no memory for. -/
  arrayLimit : Nat
  /-- Invokes a closure at a call depth. -/
  invoke : (depth : UInt32) → FunctionRef → List Value → Eval Value
  /-- Calls a host function. -/
  host : HostRef → List Value → Eval Value

/-- The unchanging part of a frame: its scope, its own cells and its call depth. -/
structure Frame where
  scope : Scope
  cells : Option Nat
  depth : UInt32

/-! ## Reading and writing -/

namespace Eval

/-- A result that does not depend on the world. -/
def ofExcept {β : Type} : Except RuntimeError β → Eval β
  | .ok a => pure a
  | .error e => throw (.raised e)

/-- Fails with an error. -/
def fail {β : Type} (e : RuntimeError) : Eval β := throw (.raised e)

/-- A result that there may never be. -/
def ofOption {β : Type} : Option (Except RuntimeError β) → Eval β
  | some r => ofExcept r
  | none => throw .unfinished

/-- Hands an error over as a value. Nobody can go on after a computation that never ends. -/
def attempt {β : Type} (x : Eval β) : Eval (Except RuntimeError β) := fun w =>
  match x w with
  | .ok a w => .ok (.ok a) w
  | .error (.raised e) w => .ok (.error e) w
  | .error .unfinished w => .error .unfinished w

/-- Changes the heap. -/
def setHeap (heap : Heap) : Eval PUnit := modify fun w => { w with heap := heap }

/-- A new value made on the heap. -/
def alloc (make : Heap → Value × Heap) : Eval Value :=
  modifyGet fun w =>
    let (v, heap) := make w.heap
    (v, { w with heap := heap })

/-- The scope of a closure. -/
def scopeOf (f : FunctionRef) : Eval Scope := do
  match (← get).scope? f with
  | some s => return s
  | none => fail (.notCallable "function")

end Eval

namespace Exec

/-- A computation that does not touch the frame. -/
def ofEval {β : Type} (x : Eval β) : Exec β := fun m =>
  match x m.world with
  | .ok a w => .ok a { m with world := w }
  | .error e w => .error e { m with world := w }

/-- A result that does not depend on the state. -/
def ofExcept {β : Type} : Except RuntimeError β → Exec β
  | .ok a => pure a
  | .error e => throw (.raised e)

/-- The value in a slot; a slot that does not exist holds `null`. -/
def loadSlot (i : Nat) : Exec Value := return ((← get).slots[i]?).getD .null

/-- Stores into a slot, if it exists. -/
def storeSlot (i : Nat) (v : Value) : Exec PUnit :=
  modify fun m => { m with slots := m.slots.setIfInBounds i v }

end Exec

namespace Frame

/-- The cells an address refers to, with the position in them. -/
def cellOf (f : Frame) : Address → Option (Nat × Nat)
  | .slot _ => none
  | .own position => f.cells.map (·, position)
  | .captured level position => (f.scope.localsAt level).map (·, position)

/-- The value at an address. -/
def load (f : Frame) (a : Address) : Exec Value :=
  match a with
  | .slot i => Exec.loadSlot i
  | a => do
      let m ← get
      match (f.cellOf a).bind fun (cells, position) => m.world.cell? cells position with
      | some v => return v
      | none => throw (.raised .missingScope)

/-- Stores at an address. -/
def store (f : Frame) (a : Address) (v : Value) : Exec PUnit :=
  match a with
  | .slot i => Exec.storeSlot i v
  | a => do
      let m ← get
      match (f.cellOf a).bind fun (cells, position) => m.world.setCell? cells position v with
      | some w => set { m with world := w }
      | none => throw (.raised .missingScope)

/-- A constant of the program. -/
def constant (f : Frame) (index : Nat) : Value := (f.scope.program.pool.get? index).getD .null

end Frame

/-- The instance a value refers to. -/
def Value.asInstance : Value → Except RuntimeError Nat
  | .object _ id => .ok id
  | .null => .error .nullReference
  | v => .error (.typeMismatch "object" v.typeName)

/-- A target that is not missing. -/
def Value.present (v : Value) : Except RuntimeError Value :=
  if v.isNull then .error .nullReference else .ok v

/-- The element of an array or list at an index. -/
def Value.element (heap : Heap) (array index : Value) : Except RuntimeError Value := do
  let i ← index.asIndex
  let pick (items : List Value) : Except RuntimeError Value :=
    match if i < 0 then none else items[i.toNat]? with
    | some v => .ok v
    | none => .error (.indexOutOfRange i items.length)
  match array with
  | .array _ items => pick items
  | .list id => pick (heap.listItems id)
  | .null => .error .nullReference
  | v => .error (.typeMismatch "array" v.typeName)

/-- The length of a new array, where `limit` elements have no place in memory. -/
def Value.asLength (limit : Nat) (v : Value) : Except RuntimeError Nat := do
  let n ← v.asIndex
  if n < 0 then .error (.negativeArraySize n)
  else if limit ≤ n.toNat then .error (.arrayTooLarge n.toNat)
  else .ok n.toNat

namespace Context

/-- Reads a member; a static one ignores the target. -/
def readMember (cx : Context) (m : Member) (target : Value) : Eval Value :=
  match m with
  | .field _ index _ => do
      let id ← Eval.ofExcept target.asInstance
      return (← get).heap.field id index
  | .static _ _ cell => return (← get).heap.static cell
  | .property _ getter _ =>
      if getter.isStatic then cx.host getter.impl []
      else do
        let target ← Eval.ofExcept target.present
        cx.host getter.impl [target]

/-- The error of storing into a field that an instance does not have. A position is reported as a
signed 64-bit number. -/
def noField (index count : Nat) : RuntimeError :=
  .indexOutOfRange (Word.ofInt .i64 index).toInt count

/-- Stores into a member; a static one ignores the target. -/
def writeMember (cx : Context) (m : Member) (target v : Value) : Eval PUnit :=
  match m with
  | .field _ index _ => do
      let id ← Eval.ofExcept target.asInstance
      let w ← get
      match w.heap.setField? id index v with
      | some heap => set { w with heap := heap }
      | none => Eval.fail (noField index (w.heap.fields id).size)
  | .static _ _ cell => modify fun w => { w with heap := w.heap.setStatic cell v }
  | .property _ _ (some setter) =>
      if setter.isStatic then discard (cx.host setter.impl [v])
      else do
        let target ← Eval.ofExcept target.present
        discard (cx.host setter.impl [target, v])
  | .property _ _ none => return ()

/-- Takes an action on one operand. -/
def unary (cx : Context) (action : UnaryAction) (v : Value) : Eval Value :=
  match action with
  | .primitive op => Eval.ofExcept (op.apply v)
  | .convert c => Eval.ofExcept (c.apply cx.schema v)
  | .user m => cx.host m.impl [v]
  | .typeAs ty => return if v.conformsTo cx.schema ty then v else .null
  | .typeIs ty => return .bool (!v.isNull && v.conformsTo cx.schema ty)

/-- Takes an action on two operands. -/
def binary (cx : Context) (action : BinaryAction) (l r : Value) : Eval Value :=
  match action with
  | .primitive op => do Eval.ofOption (op.apply (← get).heap l r)
  | .user m => cx.host m.impl [l, r]
  | .element => do Eval.ofExcept (l.element (← get).heap r)

/-- Invokes a value that should be a function. -/
def apply (cx : Context) (depth : UInt32) (callee : Value) (args : List Value) : Eval Value :=
  match callee with
  | .function f => cx.invoke depth f args
  | .null => Eval.fail .nullReference
  | v => Eval.fail (.notCallable v.typeName)

end Context

/-- A closure of a unit over the running frame. -/
def Frame.closure (f : Frame) (unit : Nat) : Eval Value :=
  modifyGet (·.newClosure (.nested f.scope unit f.cells))

/-- The tree of a quote, as it is in the running frame. -/
def Frame.quote (f : Frame) (tree : Value) : Eval Value := do
  match tree with
  | .expression tree =>
      match (← get).isolate f.scope f.cells tree with
      | .ok (tree, w) =>
          set w
          return .expression tree
      | .error e => Eval.fail e
  | _ => Eval.fail .missingScope

/-! ## Code -/

mutual

/-- The value of an expression. -/
def Code.run (cx : Context) (f : Frame) : Code → Exec Value
  | .immediate v => return v
  | .pooled i => return f.constant i
  | .load a => f.load a
  | .store a value => do
      let v ← Code.run cx f value
      f.store a v
      return v
  | .block items => Code.runBlock cx f .unit items
  | .closure unit => Exec.ofEval (f.closure unit)
  | .invoke callee args => do
      let callee ← Code.run cx f callee
      let args ← Code.runAll cx f args
      Exec.ofEval (cx.apply (f.depth + 1) callee args)
  | .unary action lifted operand => do
      let v ← Code.run cx f operand
      if lifted && v.isNull then return .null else Exec.ofEval (cx.unary action v)
  | .binary action onNull left right => do
      let l ← Code.run cx f left
      let r ← Code.run cx f right
      match onNull with
      | some n =>
          if l.isNull || r.isNull then return n.resolve l r
          else Exec.ofEval (cx.binary action l r)
      | none => Exec.ofEval (cx.binary action l r)
  | .kleene conjunction left right => do
      let l ← Exec.ofExcept (← Code.run cx f left).asOptionalBool
      let r ← Exec.ofExcept (← Code.run cx f right).asOptionalBool
      return kleeneValue conjunction l r
  | .shortCircuit decisive lifted left right => do
      let v ← Code.run cx f left
      if lifted then
        match ← Exec.ofExcept v.asOptionalBool with
        | some l => if l = decisive then return .bool l else Code.run cx f right
        | none =>
            match ← Exec.ofExcept (← Code.run cx f right).asOptionalBool with
            | some r => if r = decisive then return .bool r else return .null
            | none => return .null
      else
        let l ← Exec.ofExcept v.asBool
        if l = decisive then return .bool l else Code.run cx f right
  | .userShortCircuit test method lifted left right => do
      let l ← Code.run cx f left
      if lifted && l.isNull then return .null
      else
        let decided ← Exec.ofExcept (← Exec.ofEval (cx.host test.impl [l])).asBool
        if decided then return l
        else
          let r ← Code.run cx f right
          if lifted && r.isNull then return .null
          else Exec.ofEval (cx.host method.impl [l, r])
  | .coalesce left right => do
      let l ← Code.run cx f left
      if l.isNull then Code.run cx f right else return l
  | .coalesceWith conversion left right => do
      let l ← Code.run cx f left
      if l.isNull then Code.run cx f right
      else
        let callee ← Exec.ofEval (f.closure conversion)
        Exec.ofEval (cx.apply (f.depth + 1) callee [l])
  | .conditional test ifTrue ifFalse => do
      let t ← Exec.ofExcept (← Code.run cx f test).asBool
      if t then Code.run cx f ifTrue else Code.run cx f ifFalse
  | .staticMember m => Exec.ofEval (cx.readMember m .null)
  | .member m target => do
      let v ← Code.run cx f target
      Exec.ofEval (cx.readMember m v)
  | .callStatic m args => do
      let args ← Code.runAll cx f args
      Exec.ofEval (cx.host m.impl args)
  | .callInstance m target args => do
      let this ← Code.run cx f target
      let this ← Exec.ofExcept this.present
      let args ← Code.runAll cx f args
      Exec.ofEval (cx.host m.impl (this :: args))
  | .construct c args => do
      let args ← Code.runAll cx f args
      Exec.ofEval (cx.host c.impl args)
  | .newInstance r defaults => Exec.ofEval (Eval.alloc (·.newInstance r defaults))
  | .newList => Exec.ofEval (Eval.alloc (·.newList []))
  | .newArray items => do
      let items ← Code.runAll cx f items
      Exec.ofEval (Eval.alloc (·.newArray items))
  | .newArrayOf element length => do
      let n ← Exec.ofExcept ((← Code.run cx f length).asLength cx.arrayLimit)
      Exec.ofEval (Eval.alloc (·.newArray (List.replicate n element)))
  | .assemble slot new steps => do
      let v ← Code.run cx f new
      Exec.storeSlot slot v
      Code.runSteps cx f steps
      Exec.loadSlot slot
  | .setMember slot m value => do
      let v ← Code.run cx f value
      let target ← Exec.loadSlot slot
      Exec.ofEval (cx.writeMember m target v)
      return .unit
  | .descend slot m inner steps => do
      let target ← Exec.loadSlot slot
      let v ← Exec.ofEval (cx.readMember m target)
      Exec.storeSlot inner v
      Code.runSteps cx f steps
      return .unit
  | .append slot add args => do
      let target ← Exec.loadSlot slot
      let target ← Exec.ofExcept target.present
      let args ← Code.runAll cx f args
      let _ ← Exec.ofEval (cx.host add.impl (target :: args))
      return .unit
  | .quote i => Exec.ofEval (f.quote (f.constant i))

/-- The values of several expressions, from left to right. -/
def Code.runAll (cx : Context) (f : Frame) : List Code → Exec (List Value)
  | [] => return []
  | c :: cs => do
      let v ← Code.run cx f c
      let vs ← Code.runAll cx f cs
      return v :: vs

/-- Runs expressions for their effect. -/
def Code.runSteps (cx : Context) (f : Frame) : List Code → Exec PUnit
  | [] => return ()
  | c :: cs => do
      let _ ← Code.run cx f c
      Code.runSteps cx f cs

/-- The value of the last expression, or `last` if there is none. -/
def Code.runBlock (cx : Context) (f : Frame) (last : Value) : List Code → Exec Value
  | [] => return last
  | c :: cs => do
      let v ← Code.run cx f c
      Code.runBlock cx f v cs

end

/-! ## Invocations -/

/-- The first argument that does not conform to its parameter, with its position. -/
def firstMismatch (schema : Schema) : (i : Nat) → List Value → List Ty → Option RuntimeError
  | i, v :: vs, ty :: tys =>
      if v.conformsTo schema ty then firstMismatch schema (i + 1) vs tys
      else some (.argumentType i ty v.typeName)
  | _, _, _ => none

/-- Whether the arguments fit the signature, in number and in type. -/
def checkArguments (schema : Schema) (s : Signature) (args : List Value) :
    Except RuntimeError PUnit :=
  if args.length = s.params.length then
    match firstMismatch schema 0 args s.params with
    | some e => .error e
    | none => .ok ()
  else .error (.argumentCount s.params.length args.length)

namespace CodeUnit

/-- The slots of a new frame: the arguments, then temporaries without a value. -/
def slots (u : CodeUnit) (args : List Value) : Array Value :=
  (args ++ List.replicate (u.slotCount - args.length) Value.null).toArray

/-- Runs the unit on arguments that fit: the hoisted ones move into new cells. -/
def run (u : CodeUnit) (cx : Context) (scope : Scope) (depth : UInt32) (args : List Value) :
    Eval Value := fun w =>
  let slots := u.slots args
  let (cells, w) :=
    if u.hoisted.isEmpty then (none, w)
    else
      let (id, w) := w.newCells (u.hoisted.map fun h => slots[h.argument]?.getD .null).toArray
      (some id, w)
  match u.body.run cx ⟨scope, cells, depth⟩ ⟨slots, w⟩ with
  | .ok v m => .ok v m.world
  | .error e m => .error e m.world

end CodeUnit

/-- Fails once the depth reaches the limit. -/
def checkCallDepth (depth limit : UInt32) : Except RuntimeError PUnit :=
  if depth < limit then .ok () else .error (.recursionLimit limit.toNat)

/-- Invokes a closure at a call depth, where invocations stand at most `nesting` deep inside one
another. The limit of the program that the closure belongs to is checked first, then the
arguments. -/
def invokeAt (schema : Schema) (arrayLimit : Nat) (host : HostRef → List Value → Eval Value) :
    (nesting : Nat) → (depth : UInt32) → Scope → List Value → Eval Value
  | 0, _, _, _ => throw .unfinished
  | nesting + 1, depth, scope, args => do
      Eval.ofExcept (checkCallDepth depth scope.program.options.maxCallDepth)
      match scope.unit? with
      | none => Eval.fail .missingScope
      | some u =>
          Eval.ofExcept (checkArguments schema u.signature args)
          let cx : Context :=
            { schema, arrayLimit, host
              invoke := fun depth f args => do
                invokeAt schema arrayLimit host nesting depth (← Eval.scopeOf f) args }
          u.run cx scope depth args

/-- A nesting that no run exceeds: call depths have 32 bits. -/
def callCeiling : Nat := 4294967296

/-! ## Host functions -/

/-- A new closure of a program's root. -/
def Program.instantiate (p : Program) : Eval Value := modifyGet (·.newClosure (.root p 0))

/-- A new closure of a lambda, if it compiles. -/
def Eval.compile (schema : Schema) (options : Options) (tree : Tree) :
    Eval (Except CompileError Value) :=
  match Program.compile schema options tree with
  | .ok p => return .ok (← p.instantiate)
  | .error e => return .error e

/-- Reads a cell that a closure captured. -/
def Eval.peek (f : FunctionRef) (c : CellName) : Eval (Option Value) := do
  let s ← scopeOf f
  return (← get).peek? s c

/-- Overwrites a cell that a closure captured, if there is one. -/
def Eval.poke (f : FunctionRef) (c : CellName) (v : Value) : Eval Bool := do
  let s ← scopeOf f
  match (← get).poke? s c v with
  | some w =>
      set w
      return true
  | none => return false

/-- Follows a host function to its end, given what it means to invoke a closure. -/
def Reply.run (schema : Schema) (invoke : FunctionRef → List Value → Eval Value) :
    Reply → Eval Value
  | .done result heap => do
      Eval.setHeap heap
      match result with
      | .ok v => return v
      | .error e => throw e
  | .invoke heap f args next => do
      Eval.setHeap heap
      let result ← (invoke f args).attempt
      let w ← get
      (next result w.heap w.calls).run schema invoke
  | .instantiate heap options tree next => do
      Eval.setHeap heap
      (next (← Eval.compile schema options tree)).run schema invoke
  | .peek f c next => do (next (← Eval.peek f c)).run schema invoke
  | .poke heap f c v next => do
      Eval.setHeap heap
      (next (← Eval.poke f c v)).run schema invoke

/-- Calls a host function, given what it means to invoke a closure. -/
def callWith (schema : Schema) (host : Host) (invoke : FunctionRef → List Value → Eval Value)
    (f : HostRef) (args : List Value) : Eval Value := do
  modify fun w => { w with calls := ⟨f, args, w.heap⟩ :: w.calls }
  let w ← get
  (host f args w.heap w.calls).run schema invoke

/-- Calls a host function, where host functions hand over to compiled code at most `reentries` times
inside one another. Compiled code that they hand over to starts at depth zero. -/
def hostCall (schema : Schema) (arrayLimit : Nat) (host : Host) :
    (reentries : Nat) → HostRef → List Value → Eval Value
  | 0 => callWith schema host fun _ _ => throw .unfinished
  | reentries + 1 =>
      callWith schema host fun f args => do
        invokeAt schema arrayLimit (hostCall schema arrayLimit host reentries) callCeiling 0
          (← Eval.scopeOf f) args

/-! ## From outside -/

/-- What is fixed while trees are compiled and run. -/
structure Environment where
  schema : Schema := .empty
  host : Host
  /-- The least length of an array that there is no memory for. -/
  arrayLimit : Nat
  /-- How many host functions that hand over to compiled code are followed inside one another. A run
  that goes deeper is left unfinished. -/
  reentries : Nat

namespace Environment

/-- Calls a host function. -/
def call (e : Environment) : HostRef → List Value → Eval Value :=
  hostCall e.schema e.arrayLimit e.host e.reentries

/-- Runs the unit of a scope, starting at depth zero. -/
def enter (e : Environment) (s : Scope) (args : List Value) : Eval Value :=
  invokeAt e.schema e.arrayLimit e.call callCeiling 0 s args

/-- Invokes a closure, starting at depth zero. -/
def invoke (e : Environment) (f : FunctionRef) (args : List Value) : Eval Value := do
  e.enter (← Eval.scopeOf f) args

/-- Compiles a tree with the default options and runs it once. -/
def eval (e : Environment) (root : Tree) (args : List Value) (w : World) :
    Except (Stop Error) Value × World :=
  match Program.compile e.schema {} root with
  | .error err => (.error (.raised (.compile err)), w)
  | .ok p =>
    match e.enter (.root p 0) args w with
    | .ok v w => (.ok v, w)
    | .error err w => (.error (err.map .runtime), w)

end Environment

end ExprTree
