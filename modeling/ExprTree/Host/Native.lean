import ExprTree.Host

set_option autoImplicit false

/-! # Ready-made host functions

A host given as a table of functions from a fixed stock: constants and projections, text, counting,
access to lists and instances, errors, and the two that hand over to compiled code. These two count
how deep they stand inside one another, in a static field that no member of a tree refers to.
-/

namespace ExprTree

/-- A lambda without parameters around a tree that is not a lambda itself. -/
def Node.asRoot (n : Tree) : Fresh Tree :=
  match n.lambda? with
  | some _ => return n
  | none => return Node.ofLambda (← fresh) (.mk (← fresh) none [] n)

/-- A host function from the stock. -/
inductive Native
  /-- Always the same value. -/
  | const (v : Value)
  /-- One of the arguments. -/
  | arg (index : Nat)
  /-- An array of all arguments. -/
  | args
  /-- The texts of all arguments, divided by bars. -/
  | text
  /-- How often it was called. -/
  | count
  /-- Appends all other arguments to the list in the first one. -/
  | push
  /-- A field of the instance in the first argument. -/
  | field (index : Nat)
  /-- Whether that field is `false`. -/
  | fieldIsFalse (index : Nat)
  /-- Stores the second argument into a field of the instance in the first one. -/
  | setField (index : Nat)
  /-- A new instance with the arguments as fields. -/
  | new (record : RecordRef)
  /-- Invokes the function in the first argument on the others. -/
  | call
  /-- Compiles the tree in the first argument and runs it on the others. -/
  | eval
  /-- Always fails. -/
  | raise (e : RuntimeError)

namespace Native

/-- Stores values into the fields of an instance from `index` on; a surplus value has no field. -/
def storeFields (id : Nat) : (index : Nat) → List Value → Heap → Except RuntimeError Heap
  | _, [], heap => .ok heap
  | index, v :: vs, heap =>
      match heap.setField? id index v with
      | some heap => storeFields id (index + 1) vs heap
      | none => .error (.native ("no field " ++ toString index))

/-- Fails with a message. -/
def fail (heap : Heap) (message : String) : Reply := .done (.error (.raised (.native message))) heap

/-- The number in a static field. -/
def nesting (counter : Nat) (heap : Heap) : Int :=
  match heap.static counter with
  | .int _ w => w.toInt
  | _ => 0

/-- How many functions of the stock may hand over to compiled code inside one another. -/
def maxNesting : Int := 8

/-- Takes the step, unless too many functions of the stock are waiting for compiled code. -/
def unlessBusy (counter : Nat) (heap : Heap) (step : Reply) : Reply :=
  if maxNesting ≤ nesting counter heap then fail heap "too many nested host calls" else step

/-- Invokes a value that should be a function, and counts itself in meanwhile. -/
def handOver (counter : Nat) (heap : Heap) (callee : Value) (args : List Value) : Reply :=
  match callee with
  | .function f =>
      unlessBusy counter heap
        (.invoke (heap.setStatic counter (.ofInt .i32 (nesting counter heap + 1))) f args
          fun result after _ =>
            .done (result.mapError .raised) (after.setStatic counter (heap.static counter)))
  | _ => fail heap "expected a function"

/-- What a function of the stock does when called as `self`. -/
def reply (schema : Schema) (counter : Nat) (self : HostRef) (n : Native) (args : List Value)
    (heap : Heap) (calls : List CallRecord) : Reply :=
  let ok (v : Value) : Reply := .done (.ok v) heap
  match n with
  | .const v => ok v
  | .arg index =>
      match args[index]? with
      | some v => ok v
      | none => fail heap ("no argument " ++ toString index)
  | .args =>
      let (v, heap) := heap.newArray args
      .done (.ok v) heap
  | .text =>
      match args.mapM (Value.text heap) with
      | some texts => ok (.string ("|".intercalate texts))
      | none => .done (.error .unfinished) heap
  | .count => ok (.ofInt .i32 (calls.countP (·.callee.id == self.id)))
  | .push =>
      match args with
      | .list id :: items => .done (.ok .unit) (heap.pushAll id items)
      | _ => fail heap "expected a list"
  | .field index =>
      match args with
      | .object _ id :: _ => ok (heap.field id index)
      | _ => fail heap "expected an object"
  | .fieldIsFalse index =>
      match args with
      | .object _ id :: _ =>
          match heap.field id index with
          | .bool false => ok (.bool true)
          | _ => ok (.bool false)
      | _ => fail heap "expected an object"
  | .setField index =>
      match args with
      | [.object _ id, v] =>
          match heap.setField? id index v with
          | some heap => .done (.ok .unit) heap
          | none => fail heap ("no field " ++ toString index)
      | _ => fail heap "expected an object and a value"
  | .new record =>
      let id := heap.instances.size
      let (v, heap) := heap.newInstance record (schema.defaults record)
      match storeFields id 0 args heap with
      | .ok heap => .done (.ok v) heap
      | .error e => .done (.error (.raised e)) heap
  | .call => handOver counter heap (args.headD .null) args.tail
  | .eval =>
      match args with
      | .expression tree :: args =>
          let (root, heap) := heap.withFresh tree.asRoot
          unlessBusy counter heap
            (.instantiate heap {} root fun
              | .ok f => handOver counter heap f args
              | .error e => fail heap e.message)
      | _ => fail heap "expected an expression"
  | .raise e => .done (.error (.raised e)) heap

/-- The host whose functions are the entries of a table. -/
def host (schema : Schema) (counter : Nat) (table : Array Native) : Host := fun f args heap calls =>
  match table[f.id]? with
  | some n => n.reply schema counter f args heap calls
  | none => fail heap ("no host function " ++ toString f.id)

end Native

end ExprTree
