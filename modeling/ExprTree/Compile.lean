import ExprTree.Capture
import ExprTree.Code
import ExprTree.Node.Free

set_option autoImplicit false

/-! # From trees to code

Compiling a root lambda finds the captured parameters of all lambdas, then emits one unit per
lambda met. A unit takes its position before its body is emitted, so a unit comes after the unit
around it. A tree that cannot be compiled is refused as a whole, with the first reason met.
-/

namespace ExprTree

/-! ## Resolving parameters -/

/-- What the code of a unit can address, by the numbers of the parameters. -/
structure EmitScope where
  /-- Position of the unit. -/
  unit : Nat
  /-- The declared parameters; the last occurrence of one is its slot. -/
  arguments : List Nat
  /-- The parameters in the unit's own cells. -/
  hoisted : List Nat
  /-- The parameters in the cells of the enclosing units, innermost first. -/
  ancestors : List (List Nat)

/-- Position of the last occurrence. -/
def lastIndex? (x : Nat) : List Nat → Option Nat
  | [] => none
  | y :: ys =>
      match lastIndex? x ys with
      | some i => some (i + 1)
      | none => if y = x then some 0 else none

/-- The first list that holds `x`, with the position of `x` in it. -/
def findLevel? (x : Nat) : List (List Nat) → Option (Nat × Nat)
  | [] => none
  | cells :: rest =>
      match cells.idxOf? x with
      | some position => some (0, position)
      | none => (findLevel? x rest).map fun (level, position) => (level + 1, position)

namespace EmitScope

/-- The address of a parameter: its own cell, its argument, or the nearest enclosing cell. -/
def address? (s : EmitScope) (p : Nat) : Option Address :=
  match s.hoisted.idxOf? p with
  | some position => some (.own position)
  | none =>
    match lastIndex? p s.arguments with
    | some slot => some (.slot slot)
    | none => (findLevel? p s.ancestors).map fun (level, position) => .captured level position

/-- The address of a parameter that some enclosing lambda has to declare. -/
def resolve (s : EmitScope) (p : Parameter) : Except CompileError Address :=
  match s.address? p.id with
  | some a => .ok a
  | none => .error (.parameterOutOfScope p.name)

end EmitScope

/-! ## Emitting -/

/-- What is known about the whole compilation. -/
structure EmitContext where
  schema : Schema
  captures : Captures

/-- What a compilation produces: units, pooled constants, and the slots of the current unit. -/
structure EmitState where
  units : Arena CodeUnit := .empty
  pool : Arena Value := .empty
  slots : Nat := 0

/-- A step of a compilation. -/
abbrev Emit := StateT EmitState (Except CompileError)

namespace Emit

/-- Refuses a node of that kind. -/
def unsupported {β : Type} (kind : Kind) (reason : String) : Emit β :=
  throw (.unsupported kind reason)

/-- Refuses a node whose content does not belong to its kind. -/
def mismatched {β : Type} (kind : Kind) : Emit β :=
  unsupported kind "node payload does not match its kind"

/-- Adds a constant to the pool. -/
def pool (v : Value) : Emit Nat :=
  modifyGet fun s =>
    let (i, pool) := s.pool.alloc v
    (i, { s with pool := pool })

/-- Reserves a slot of the current unit. -/
def temporary : Emit Nat := modifyGet fun s => (s.slots, { s with slots := s.slots + 1 })

/-- Reserves the position of a unit. -/
def reserve (u : CodeUnit) : Emit Nat :=
  modifyGet fun s =>
    let (i, units) := s.units.alloc u
    (i, { s with units := units })

/-- Fills a reserved position. -/
def finish (i : Nat) (u : CodeUnit) : Emit PUnit :=
  modify fun s => { s with units := s.units.set i u }

end Emit

/-- Constants that code can carry itself; all others are pooled. -/
def Value.isImmediate : Value → Bool
  | .null | .unit | .bool _ | .char _ | .int .. | .f32 _ | .f64 _ => true
  | _ => false

/-- The code of a constant. -/
def emitConstant (v : Value) : Emit Code :=
  if v.isImmediate then return .immediate v else return .pooled (← Emit.pool v)

/-- The code of a quote: its free parameters must have an address, and the tree is pooled. -/
def emitQuote (scope : EmitScope) (operand : Tree) : Emit Code :=
  match operand.freeParameters.find? fun p => (scope.address? p.id).isNone with
  | some p => throw (.parameterOutOfScope p.name)
  | none => return .quote (← Emit.pool (.expression operand))

/-- The code of a node that makes a default value of type `ty`. -/
def emitDefault (schema : Schema) (ty : Ty) : Emit Code :=
  match ty with
  | .record r => return .newInstance r (schema.defaults r)
  | .list _ => return .newList
  | ty =>
      if ty.isNullable || !ty.admitsNull then return .immediate ty.default
      else Emit.unsupported .new (ty.text ++ " has no default constructor")

/-- The primitive operator of a node with one operand. -/
def unaryOperator (kind : Kind) (ty : Ty) : Emit UnaryOp :=
  match UnaryOp.select? kind ty with
  | some op => return op
  | none => Emit.unsupported kind ("no primitive operator for operand of type " ++ ty.text)

/-- The primitive operator of a node with two operands. -/
def binaryOperator (kind : Kind) (ty : Ty) : Emit BinaryOp :=
  match BinaryOp.select? kind ty with
  | some op => return op
  | none => Emit.unsupported kind ("no primitive operator for operands of type " ++ ty.text)

/-- The operator by which a user-defined `&&` or `||` decides its result early. -/
def truthTest (schema : Schema) (kind : Kind) (ty : Ty) : Emit Method :=
  match ty.record?.bind schema.truth? with
  | some ops => return if kind = .andAlso then ops.isFalse else ops.isTrue
  | none => throw (.missingTruthOperators ty)

/-- A member that can be stored into. -/
def checkWritable : Member → Emit PUnit
  | .property name _ none => Emit.unsupported .memberInit ("property " ++ name ++ " has no setter")
  | _ => return ()

/-- A method that a list initialiser can call. -/
def checkInstance (m : Method) : Emit PUnit :=
  if m.isStatic then
    Emit.unsupported .listInit ("add method " ++ m.name ++ " must be an instance method")
  else return ()

/-- The cells of a lambda with these captured parameters. -/
def hoistedOf (params : List Nat) (captured : List Parameter) : List Hoisted :=
  captured.zipIdx.filterMap fun (p, position) =>
    (lastIndex? p.id params).map fun argument => ⟨p, argument, position⟩

mutual

/-- The code of a node. -/
def Node.emit (cx : EmitContext) (scope : EmitScope) : Tree → Emit Code
  | .mk _ kind ty payload => Payload.emit cx scope kind ty payload

/-- The code of a node with that kind, type and content. -/
def Payload.emit (cx : EmitContext) (scope : EmitScope) (kind : Kind) (ty : Ty) :
    Payload Value → Emit Code
  | .constant v => if kind = .constant then emitConstant v else Emit.mismatched kind
  | .parameter p =>
      if kind = .parameter then return .load (← scope.resolve p) else Emit.mismatched kind
  | .unary x method lifted =>
      match kind with
      | .quote => emitQuote scope x
      | .convert | .convertChecked => do
          let operand ← Node.emit cx scope x
          match method with
          | some m => return .unary (.user m) lifted operand
          | none =>
            match Conversion.select? cx.schema (kind = .convertChecked) x.ty ty with
            | some c => return .unary (.convert c) false operand
            | none =>
                Emit.unsupported kind ("no conversion from " ++ x.ty.text ++ " to " ++ ty.text)
      | .typeAs =>
          if ty.admitsNull then return .unary (.typeAs ty) false (← Node.emit cx scope x)
          else Emit.unsupported .typeAs (ty.text ++ " cannot hold null")
      | kind =>
          if kind.isUnary then
            match method with
            | some m => return .unary (.user m) lifted (← Node.emit cx scope x)
            | none => do
                let op ← unaryOperator kind x.ty.nonNullable
                return .unary (.primitive op) lifted (← Node.emit cx scope x)
          else Emit.mismatched kind
  | .binary l r method lifted _ conversion =>
      match kind with
      | .coalesce => do
          let left ← Node.emit cx scope l
          let right ← Node.emit cx scope r
          match conversion with
          | none => return .coalesce left right
          | some c => return .coalesceWith (← Lambda.emit cx (some scope) c) left right
      | .andAlso | .orElse =>
          match method with
          | none => do
              let left ← Node.emit cx scope l
              let right ← Node.emit cx scope r
              return .shortCircuit (kind = .orElse) lifted left right
          | some m => do
              let test ← truthTest cx.schema kind l.ty
              let left ← Node.emit cx scope l
              let right ← Node.emit cx scope r
              return .userShortCircuit test m lifted left right
      | .arrayIndex => do
          let left ← Node.emit cx scope l
          let right ← Node.emit cx scope r
          return .binary .element none left right
      | kind =>
          if kind.isBinary then
            let onNull := if lifted then some (NullResult.ofKind kind ty) else none
            match method with
            | some m => do
                let left ← Node.emit cx scope l
                let right ← Node.emit cx scope r
                return .binary (.user m) onNull left right
            | none =>
                if lifted && (kind = .and || kind = .or) && l.ty.nonNullable.isBool then do
                  let left ← Node.emit cx scope l
                  let right ← Node.emit cx scope r
                  return .kleene (kind = .and) left right
                else do
                  let op ← binaryOperator kind l.ty.nonNullable
                  let left ← Node.emit cx scope l
                  let right ← Node.emit cx scope r
                  return .binary (.primitive op) onNull left right
          else Emit.mismatched kind
  | .conditional t a b =>
      if kind = .conditional then do
        let test ← Node.emit cx scope t
        let ifTrue ← Node.emit cx scope a
        let ifFalse ← Node.emit cx scope b
        return .conditional test ifTrue ifFalse
      else Emit.mismatched kind
  | .memberAccess target m =>
      if kind = .memberAccess then
        if m.isStatic then return .staticMember m
        else
          match target with
          | some x => return .member m (← Node.emit cx scope x)
          | none =>
              Emit.unsupported .memberAccess ("instance member " ++ m.name ++ " has no target")
      else Emit.mismatched kind
  | .call target m args =>
      if kind = .call then
        if m.isStatic then return .callStatic m (← Node.emitAll cx scope args)
        else
          match target with
          | some x => do
              let this ← Node.emit cx scope x
              return .callInstance m this (← Node.emitAll cx scope args)
          | none => Emit.unsupported .call ("instance method " ++ m.name ++ " has no target")
      else Emit.mismatched kind
  | .new constructor args =>
      if kind = .new then
        match constructor with
        | some c => return .construct c (← Node.emitAll cx scope args)
        | none => emitDefault cx.schema ty
      else Emit.mismatched kind
  | .newArray items =>
      match kind with
      | .newArrayInit => return .newArray (← Node.emitAll cx scope items)
      | .newArrayBounds =>
          match items with
          | [length] =>
              match ty.element? with
              | some e => return .newArrayOf e.default (← Node.emit cx scope length)
              | none => Emit.unsupported .newArrayBounds (ty.text ++ " is not an array type")
          | _ =>
              Emit.unsupported .newArrayBounds "only single-dimensional arrays are supported"
      | kind => Emit.mismatched kind
  | .listInit x inits =>
      if kind = .listInit then do
        let new ← Node.emit cx scope x
        let slot ← Emit.temporary
        return .assemble slot new (← ElementInit.emitAll cx scope slot inits)
      else Emit.mismatched kind
  | .memberInit x bindings =>
      if kind = .memberInit then do
        let new ← Node.emit cx scope x
        let slot ← Emit.temporary
        return .assemble slot new (← MemberBinding.emitAll cx scope slot bindings)
      else Emit.mismatched kind
  | .lambda l =>
      if kind = .lambda then return .closure (← Lambda.emit cx (some scope) l)
      else Emit.mismatched kind
  | .invoke x args =>
      if kind = .invoke then do
        let callee ← Node.emit cx scope x
        return .invoke callee (← Node.emitAll cx scope args)
      else Emit.mismatched kind
  | .typeIs x t =>
      if kind = .typeIs then return .unary (.typeIs t) false (← Node.emit cx scope x)
      else Emit.mismatched kind
  | .assign p x =>
      if kind = .assign then do
        let value ← Node.emit cx scope x
        return .store (← scope.resolve p) value
      else Emit.mismatched kind
  | .block items =>
      if kind = .block then return .block (← Node.emitAll cx scope items)
      else Emit.mismatched kind

/-- Emits the unit of a lambda inside the unit of `parent` and returns its position. -/
def Lambda.emit (cx : EmitContext) (parent : Option EmitScope) : Lambda Value → Emit Nat
  | .mk id name params body => do
      let captured := cx.captures.ofLambda id
      let unit : CodeUnit :=
        { name, signature := ⟨params.map (·.ty), body.ty⟩, hoisted := []
          parent := parent.map (·.unit), slotCount := params.length, body := .block [] }
      let index ← Emit.reserve unit
      let scope : EmitScope :=
        { unit := index
          arguments := params.map (·.id)
          hoisted := captured.map (·.id)
          ancestors := match parent with
            | some p => p.hoisted :: p.ancestors
            | none => [] }
      let outer ← modifyGet fun s => (s.slots, { s with slots := params.length })
      let code ← Node.emit cx scope body
      let slots ← modifyGet fun s => (s.slots, { s with slots := outer })
      Emit.finish index
        { unit with
          hoisted := hoistedOf (params.map (·.id)) captured
          slotCount := slots
          body := code }
      return index

/-- The codes of several nodes, in order. -/
def Node.emitAll (cx : EmitContext) (scope : EmitScope) : List Tree → Emit (List Code)
  | [] => return []
  | n :: ns => do
      let code ← Node.emit cx scope n
      return code :: (← Node.emitAll cx scope ns)

/-- The steps that add elements to the value in a slot. -/
def ElementInit.emitAll (cx : EmitContext) (scope : EmitScope) (slot : Nat) :
    List (ElementInit Value) → Emit (List Code)
  | [] => return []
  | .mk add args :: rest => do
      checkInstance add
      let args ← Node.emitAll cx scope args
      return .append slot add args :: (← ElementInit.emitAll cx scope slot rest)

/-- The steps that bind members of the value in a slot. -/
def MemberBinding.emitAll (cx : EmitContext) (scope : EmitScope) (slot : Nat) :
    List (MemberBinding Value) → Emit (List Code)
  | [] => return []
  | .assign m x :: rest => do
      checkWritable m
      let value ← Node.emit cx scope x
      return .setMember slot m value :: (← MemberBinding.emitAll cx scope slot rest)
  | .bind m nested :: rest => do
      let inner ← Emit.temporary
      let steps ← MemberBinding.emitAll cx scope inner nested
      return .descend slot m inner steps :: (← MemberBinding.emitAll cx scope slot rest)
  | .list m inits :: rest => do
      let inner ← Emit.temporary
      let steps ← ElementInit.emitAll cx scope inner inits
      return .descend slot m inner steps :: (← MemberBinding.emitAll cx scope slot rest)

end

/-! ## Programs -/

namespace Program

/-- Compiles a root lambda. -/
def ofLambda (schema : Schema) (options : Options) (root : Lambda Value) :
    Except CompileError Program := do
  let (_, s) ← (root.emit ⟨schema, root.captures⟩ none).run {}
  return ⟨s.units, s.pool, options⟩

/-- Compiles a tree whose root is a lambda. -/
def compile (schema : Schema) (options : Options) (root : Tree) : Except CompileError Program :=
  match root.lambda? with
  | some l => ofLambda schema options l
  | none => .error (.unsupported root.kind "the root of a compilation must be a lambda")

/-- The parameters that live in cells, unit by unit. -/
def hoisted (p : Program) : List (List Hoisted) := p.units.entries.map (·.2.hoisted)

/-- The unit of the root lambda. -/
def root? (p : Program) : Option CodeUnit := p.units.get? 0

end Program

end ExprTree
