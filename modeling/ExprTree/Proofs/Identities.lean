import ExprTree.Proofs.Captures
import ExprTree.Run

set_option autoImplicit false

/-! # Trees inside values

A lambda is known by its number, so a tree only makes sense if lambdas with the same number are the
same lambda. Values carry trees: quoted ones, and the constants of those, and so on. `Value.Tidy n`
says that all of them make sense and use numbers below `n` only, so that a number from `n` on is
fresh. Everything that a program computes with keeps this: operators make no trees, and quoting
makes trees with fresh numbers.
-/

namespace ExprTree

/-- The constant at a node. -/
def Event.constant? {α : Type} : Event α → Option α
  | .node (.mk _ _ _ (.constant v)) => some v
  | _ => none

/-- The lambda that is entered. -/
def Event.entered? {α : Type} : Event α → Option (Lambda α)
  | .enter l => some l
  | _ => none

/-- Values that hold no other values and no trees. -/
def Value.isPlain : Value → Bool
  | .array .. | .expression _ => false
  | _ => true

/-- A value that refers to nothing. -/
def Value.isScalar : Value → Bool
  | .array .. | .list _ | .object .. | .function _ | .expression _ => false
  | _ => true

theorem Value.isPlain_of_isScalar {v : Value} (h : v.isScalar = true) : v.isPlain = true := by
  cases v with
  | array | expression => cases h
  | _ => rfl

/-- All trees inside the value make sense, and all their lambdas have numbers below `n`. -/
inductive Value.Tidy (n : Nat) : Value → Prop
  | plain {v : Value} (h : v.isPlain = true) : Value.Tidy n v
  | array {id : Nat} {items : List Value} (h : ∀ v ∈ items, Value.Tidy n v) :
      Value.Tidy n (.array id items)
  | expression {t : Tree} (identified : Identified t.walk)
      (below : ∀ l : Lambda Value, .enter l ∈ t.walk → l.id < n)
      (constants : ∀ e ∈ t.walk, ∀ v, e.constant? = some v → Value.Tidy n v) :
      Value.Tidy n (.expression t)

/-- The part of a tree with these events makes sense, and so do its constants. -/
structure TidyEvents (n : Nat) (es : List (Event Value)) : Prop where
  identified : Identified es
  below : ∀ l : Lambda Value, .enter l ∈ es → l.id < n
  constants : ∀ e ∈ es, ∀ v, e.constant? = some v → v.Tidy n

theorem Value.tidy_expression {n : Nat} {t : Tree} :
    (Value.expression t).Tidy n ↔ TidyEvents n t.walk := by
  constructor
  · intro h
    cases h with
    | plain h => simp [Value.isPlain] at h
    | expression hi hb hc => exact ⟨hi, hb, hc⟩
  · exact fun h => .expression h.identified h.below h.constants

theorem Value.tidy_array {n id : Nat} {items : List Value} :
    (Value.array id items).Tidy n ↔ ∀ v ∈ items, v.Tidy n := by
  constructor
  · intro h
    cases h with
    | plain h => simp [Value.isPlain] at h
    | array h => exact h
  · exact .array

/-- Numbers that are used stay used. -/
theorem Value.Tidy.mono {n m : Nat} (hnm : n ≤ m) {v : Value} (h : v.Tidy n) : v.Tidy m := by
  induction h with
  | plain h => exact .plain h
  | array _ ih => exact .array ih
  | expression hi hb _ ih =>
      exact .expression hi (fun l hl => Nat.lt_of_lt_of_le (hb l hl) hnm) ih

theorem Event.mem_entered {α : Type} {es : List (Event α)} {l : Lambda α} :
    l ∈ es.filterMap Event.entered? ↔ .enter l ∈ es := by
  rw [List.mem_filterMap]
  constructor
  · rintro ⟨e, he, hl⟩
    cases e with
    | enter l' => rwa [← Option.some.inj hl]
    | _ => cases hl
  · intro h
    exact ⟨_, h, rfl⟩

/-- Lambdas with different numbers are told apart by them. -/
theorem Identified.ofNodup {α : Type} {es : List (Event α)}
    (h : ((es.filterMap Event.entered?).map (·.id)).Nodup) : Identified es := by
  intro l l' hl hl' heq
  obtain ⟨i, hi, hil⟩ := List.mem_iff_getElem.mp (Event.mem_entered.mpr hl)
  obtain ⟨j, hj, hjl⟩ := List.mem_iff_getElem.mp (Event.mem_entered.mpr hl')
  have hi' : i < ((es.filterMap Event.entered?).map (·.id)).length := by simpa using hi
  have hj' : j < ((es.filterMap Event.entered?).map (·.id)).length := by simpa using hj
  have hij : ((es.filterMap Event.entered?).map (·.id))[i]
      = ((es.filterMap Event.entered?).map (·.id))[j] := by simp [hil, hjl, heq]
  obtain rfl := (List.getElem_inj h).mp hij
  rw [← hil, ← hjl]

namespace TidyEvents

variable {n m : Nat} {es es' : List (Event Value)}

theorem mono (hnm : n ≤ m) (h : TidyEvents n es) : TidyEvents m es :=
  ⟨h.identified, fun l hl => Nat.lt_of_lt_of_le (h.below l hl) hnm,
    fun e he v hv => (h.constants e he v hv).mono hnm⟩

/-- A part of a tree makes sense if the tree does. -/
theorem part (h : TidyEvents n es) (hsub : ∀ e ∈ es', e ∈ es) : TidyEvents n es' :=
  ⟨fun l l' hl hl' => h.identified l l' (hsub _ hl) (hsub _ hl'), fun l hl => h.below l (hsub _ hl),
    fun e he => h.constants e (hsub e he)⟩

/-- Lambdas with different numbers and constants without trees make sense. -/
theorem ofDistinct (hid : ((es.filterMap Event.entered?).map (·.id)).Nodup)
    (hb : ∀ l ∈ (es.filterMap Event.entered?).map (·.id), l < n)
    (hc : (es.filterMap Event.constant?).all (·.isPlain) = true) : TidyEvents n es := by
  refine ⟨.ofNodup hid, fun l hl => ?_, fun e he v hv => ?_⟩
  · have hmem : l ∈ es.filterMap Event.entered? := List.mem_filterMap.mpr ⟨_, hl, rfl⟩
    exact hb _ (List.mem_map_of_mem hmem)
  · exact .plain (List.all_eq_true.mp hc v (List.mem_filterMap.mpr ⟨e, he, hv⟩))

/-- A lambda with another number may be put around a tree. -/
theorem wrap {t : Tree} (h : TidyEvents n t.walk) {name : Option String} {params : List Parameter}
    (hm : m < n) (hne : ∀ l : Lambda Value, .enter l ∈ t.walk → l.id ≠ m) :
    TidyEvents n (Lambda.mk m name params t).walk := by
  refine ⟨?_, ?_, ?_⟩
  · intro l l' hl hl' hid
    rcases Lambda.enter_mem_walk.mp hl with rfl | hl <;>
      rcases Lambda.enter_mem_walk.mp hl' with rfl | hl'
    · rfl
    · exact absurd hid.symm (hne l' hl')
    · exact absurd hid (hne l hl)
    · exact h.identified l l' hl hl' hid
  · intro l hl
    rcases Lambda.enter_mem_walk.mp hl with rfl | hl
    · exact hm
    · exact h.below l hl
  · intro e he v hv
    rcases Lambda.mem_walk.mp he with rfl | he | rfl
    · cases hv
    · exact h.constants e he v hv
    · cases hv

end TidyEvents

/-! ## Heaps -/

/-- Everything on the heap makes sense. -/
structure Heap.Tidy (n : Nat) (h : Heap) : Prop where
  lists : ∀ items ∈ h.lists, ∀ v ∈ items, v.Tidy n
  instances : ∀ fields ∈ h.instances, ∀ v ∈ fields, v.Tidy n
  statics : ∀ v ∈ h.statics, v.Tidy n

namespace Heap.Tidy

variable {n m : Nat} {h : Heap}

theorem mono (hnm : n ≤ m) (ht : h.Tidy n) : h.Tidy m :=
  ⟨fun items hi v hv => (ht.lists items hi v hv).mono hnm,
    fun fields hf v hv => (ht.instances fields hf v hv).mono hnm,
    fun v hv => (ht.statics v hv).mono hnm⟩

theorem empty (n k : Nat) : Heap.Tidy n { nextId := k } := ⟨by simp, by simp, by simp⟩

/-- Identities handed out do not matter. -/
theorem nextId (ht : h.Tidy n) (k : Nat) : Heap.Tidy n { h with nextId := k } :=
  ⟨ht.lists, ht.instances, ht.statics⟩

theorem listItems (ht : h.Tidy n) (id : Nat) : ∀ v ∈ h.listItems id, v.Tidy n := by
  unfold Heap.listItems
  split
  case h_1 items hi =>
    intro v hv
    exact ht.lists items (Array.mem_of_getElem? hi) v (Array.mem_toList_iff.mp hv)
  case h_2 => simp

theorem field (ht : h.Tidy n) (id index : Nat) : (h.field id index).Tidy n := by
  unfold Heap.field Heap.fields
  cases hi : h.instances[id]? with
  | none => exact .plain rfl
  | some fields =>
      cases hv : fields[index]? with
      | none => simpa [hv] using Value.Tidy.plain rfl
      | some v =>
          simp only [Option.getD_some, hv]
          exact ht.instances fields (Array.mem_of_getElem? hi) v (Array.mem_of_getElem? hv)

theorem static (ht : h.Tidy n) (cell : Nat) : (h.static cell).Tidy n := by
  unfold Heap.static
  cases hv : h.statics[cell]? with
  | none => exact .plain rfl
  | some v => exact ht.statics v (Array.mem_of_getElem? hv)

theorem setField {h' : Heap} (ht : h.Tidy n) {id index : Nat} {v : Value} (hv : v.Tidy n)
    (hs : h.setField? id index v = some h') : h'.Tidy n ∧ h'.nextId = h.nextId := by
  unfold Heap.setField? at hs
  split at hs
  case isFalse => cases hs
  case isTrue =>
    cases hs
    refine ⟨⟨ht.lists, ?_, ht.statics⟩, rfl⟩
    intro fields hf w hw
    obtain ⟨i, hi, rfl⟩ := Array.mem_iff_getElem.mp hf
    simp only [Array.size_modify] at hi
    rw [Array.getElem_modify] at hw
    have hold := ht.instances h.instances[i] (Array.getElem_mem hi)
    split at hw
    · rcases Array.mem_or_eq_of_mem_setIfInBounds hw with hw | rfl
      · exact hold w hw
      · exact hv
    · exact hold w hw

theorem setStatic (ht : h.Tidy n) {cell : Nat} {v : Value} (hv : v.Tidy n) :
    (h.setStatic cell v).Tidy n := by
  refine ⟨ht.lists, ht.instances, ?_⟩
  intro w hw
  rcases Array.mem_or_eq_of_mem_setIfInBounds hw with hw | rfl
  · exact ht.statics w hw
  · exact hv

theorem newList (ht : h.Tidy n) {items : List Value} (hi : ∀ v ∈ items, v.Tidy n) :
    (h.newList items).2.Tidy n := by
  refine ⟨?_, ht.instances, ht.statics⟩
  intro xs hx v hv
  rcases Array.mem_push.mp hx with hx | rfl
  · exact ht.lists xs hx v hv
  · exact hi v (by simpa using hv)

theorem pushAll (ht : h.Tidy n) {id : Nat} {items : List Value} (hi : ∀ v ∈ items, v.Tidy n) :
    (h.pushAll id items).Tidy n := by
  refine ⟨?_, ht.instances, ht.statics⟩
  intro xs hx v hv
  obtain ⟨i, hi', rfl⟩ := Array.mem_iff_getElem.mp hx
  simp only [Heap.pushAll, Array.size_modify] at hi'
  simp only [Heap.pushAll, Array.getElem_modify] at hv
  have hold := ht.lists h.lists[i] (Array.getElem_mem hi')
  split at hv
  · rcases Array.mem_append.mp hv with hv | hv
    · exact hold v hv
    · exact hi v (by simpa using hv)
  · exact hold v hv

theorem newInstance (ht : h.Tidy n) {r : RecordRef} {fields : List Value}
    (hf : ∀ v ∈ fields, v.Tidy n) : (h.newInstance r fields).2.Tidy n := by
  refine ⟨ht.lists, ?_, ht.statics⟩
  intro xs hx v hv
  rcases Array.mem_push.mp hx with hx | rfl
  · exact ht.instances xs hx v hv
  · exact hf v (by simpa using hv)

end Heap.Tidy

/-! ## Operators

No operator makes a tree, and none fails for want of a captured variable. -/

/-- Not the failure of a captured variable that cannot be reached. -/
def InScope {β : Type} (x : Except RuntimeError β) : Prop := x ≠ .error .missingScope

namespace InScope

variable {β γ : Type}

theorem ok (b : β) : InScope (.ok b) := nofun

theorem error {e : RuntimeError} (h : e ≠ .missingScope) : InScope (.error e : Except _ β) :=
  fun heq => h (Except.error.inj heq)

theorem bind {x : Except RuntimeError β} {f : β → Except RuntimeError γ} (hx : InScope x)
    (hf : ∀ b, InScope (f b)) : InScope (x >>= f) := by
  cases x with
  | error e => exact error fun h => hx (h ▸ rfl)
  | ok b => exact hf b

theorem mismatch (expected : String) (v : Value) :
    InScope (.error (v.mismatch expected) : Except _ β) := by
  refine error ?_
  unfold Value.mismatch
  split <;> simp

theorem asWord (t : IntType) (v : Value) : InScope (v.asWord t) := by
  unfold Value.asWord
  split
  · split
    · exact ok _
    · exact mismatch _ _
  · exact mismatch _ _

theorem asF32 (v : Value) : InScope v.asF32 := by
  unfold Value.asF32
  split
  · exact ok _
  · exact mismatch _ _

theorem asF64 (v : Value) : InScope v.asF64 := by
  unfold Value.asF64
  split
  · exact ok _
  · exact mismatch _ _

theorem asChar (v : Value) : InScope v.asChar := by
  unfold Value.asChar
  split
  · exact ok _
  · exact mismatch _ _

theorem asBool (v : Value) : InScope v.asBool := by
  unfold Value.asBool
  split
  · exact ok _
  · exact mismatch _ _

theorem asOptionalBool (v : Value) : InScope v.asOptionalBool := by
  unfold Value.asOptionalBool
  split
  · exact ok _
  · exact (asBool _).bind fun _ => ok _

theorem asIndex (v : Value) : InScope v.asIndex := by
  unfold Value.asIndex
  split
  · split
    · exact ok _
    · exact error (by simp)
  · exact error (by simp)

theorem asLength (limit : Nat) (v : Value) : InScope (v.asLength limit) := by
  refine (asIndex v).bind fun n => ?_
  split
  · exact error (by simp)
  split
  · exact error (by simp)
  · exact ok _

theorem asInstance (v : Value) : InScope v.asInstance := by
  unfold Value.asInstance
  split
  · exact ok _
  · exact error (by simp)
  · exact error (by simp)

theorem present (v : Value) : InScope v.present := by
  unfold Value.present
  split
  · exact error (by simp)
  · exact ok _

theorem element (heap : Heap) (array index : Value) : InScope (array.element heap index) := by
  refine (asIndex index).bind fun i => ?_
  cases array with
  | array | list =>
      dsimp only
      split
      · exact ok _
      · exact error (by simp)
  | _ => exact error (by simp)

theorem checked {t : IntType} (op : ArithOp) (a b : Word t) : InScope (op.checked a b) := by
  unfold ArithOp.checked
  split
  · exact ok _
  · exact error (by simp)

theorem divide {t : IntType} (a b : Word t) : InScope (a.divide b) := by
  unfold Word.divide
  split
  · exact error (by simp)
  split
  · exact ok _
  · exact error (by simp)

theorem modulo {t : IntType} (a b : Word t) : InScope (a.modulo b) := by
  unfold Word.modulo
  split
  · exact error (by simp)
  split
  · exact error (by simp)
  · exact ok _

theorem checkedNeg {t : IntType} (a : Word t) : InScope a.checkedNeg := by
  unfold Word.checkedNeg
  split
  · exact ok _
  · exact error (by simp)

theorem order (op : OrderOp) (t : Ordered) (l r : Value) : InScope (op.apply t l r) := by
  cases t with
  | char => exact (asChar l).bind fun _ => (asChar r).bind fun _ => ok _
  | int t => exact (asWord t l).bind fun _ => (asWord t r).bind fun _ => ok _
  | f32 => exact (asF32 l).bind fun _ => (asF32 r).bind fun _ => ok _
  | f64 => exact (asF64 l).bind fun _ => (asF64 r).bind fun _ => ok _

theorem unary (op : UnaryOp) (v : Value) : InScope (op.apply v) := by
  cases op with
  | negate t => exact (asWord t v).bind fun _ => ok _
  | negateChecked t => exact (asWord t v).bind fun a => (checkedNeg a).bind fun _ => ok _
  | negate32 => exact (asF32 v).bind fun _ => ok _
  | negate64 => exact (asF64 v).bind fun _ => ok _
  | plus => exact ok _
  | notBool => exact (asBool v).bind fun _ => ok _
  | notBits t => exact (asWord t v).bind fun _ => ok _
  | arrayLength =>
      cases v with
      | array _ items =>
          simp only [UnaryOp.apply]
          split
          · exact ok _
          · exact error (by simp)
      | null => exact error (by simp)
      | _ => exact mismatch _ _

/-- The result of an operator on two values, if there is one. -/
theorem binary {heap : Heap} {op : BinaryOp} {l r : Value} {x : Except RuntimeError Value}
    (h : op.apply heap l r = some x) : InScope x := by
  cases op with
  | concat =>
      simp only [BinaryOp.apply, Option.bind_eq_bind, Option.bind_eq_some_iff, Option.pure_def,
        Option.some.injEq] at h
      obtain ⟨a, -, b, -, rfl⟩ := h
      exact ok _
  | equal | notEqual => cases h; exact ok _
  | wrapping op t => cases h; exact (asWord t l).bind fun _ => (asWord t r).bind fun _ => ok _
  | checked op t =>
      cases h
      exact (asWord t l).bind fun a => (asWord t r).bind fun b =>
        (checked op a b).bind fun _ => ok _
  | divide t =>
      cases h
      exact (asWord t l).bind fun a => (asWord t r).bind fun b => (divide a b).bind fun _ => ok _
  | modulo t =>
      cases h
      exact (asWord t l).bind fun a => (asWord t r).bind fun b => (modulo a b).bind fun _ => ok _
  | float32 op => cases h; exact (asF32 l).bind fun _ => (asF32 r).bind fun _ => ok _
  | float64 op => cases h; exact (asF64 l).bind fun _ => (asF64 r).bind fun _ => ok _
  | shiftLeft t => cases h; exact (asWord .i32 r).bind fun _ => (asWord t l).bind fun _ => ok _
  | shiftRight t => cases h; exact (asWord .i32 r).bind fun _ => (asWord t l).bind fun _ => ok _
  | bits op t => cases h; exact (asWord t l).bind fun _ => (asWord t r).bind fun _ => ok _
  | bools op => cases h; exact (asBool l).bind fun _ => (asBool r).bind fun _ => ok _
  | order op t => cases h; exact (order op t l r).bind fun _ => ok _

theorem ofValue (v : Value) : InScope (Number.ofValue v) := by
  cases v with
  | int | f32 | f64 | char => exact ok _
  | _ => exact mismatch _ _

theorem convert (target : Numeric) (checked : Bool) (n : Number) :
    InScope (target.convert checked n) := by
  unfold Numeric.convert
  split
  · split
    · split
      · exact ok _
      · exact error (by simp)
    · exact ok _
  · split
    · split
      · exact ok _
      · exact error (by simp)
    · exact ok _
  · exact ok _
  · exact ok _

theorem conversion (schema : Schema) (c : Conversion) (v : Value) : InScope (c.apply schema v) := by
  induction c with
  | identity => exact ok _
  | lifted inner ih =>
      simp only [Conversion.apply]
      split
      · exact ok _
      · exact ih
  | unwrap inner ih =>
      simp only [Conversion.apply]
      split
      · exact error (by simp)
      · exact ih
  | cast target =>
      simp only [Conversion.apply, Conversion.castTo]
      split
      · split
        · exact ok _
        · exact error (by simp)
      split
      · exact ok _
      · exact error (by simp)
  | numeric target checked => exact (ofValue v).bind fun n => convert target checked n

theorem firstMismatch_ne_missingScope (schema : Schema) (vs : List Value) (tys : List Ty)
    (i : Nat) : firstMismatch schema i vs tys ≠ some .missingScope := by
  induction vs generalizing tys i with
  | nil => simp [firstMismatch]
  | cons v vs ih =>
      cases tys with
      | nil => simp [firstMismatch]
      | cons ty tys =>
          simp only [firstMismatch]
          split
          · exact ih tys (i + 1)
          · simp

theorem callDepth (depth limit : UInt32) : InScope (checkCallDepth depth limit) := by
  unfold checkCallDepth
  split
  · exact ok _
  · exact error (by simp)

theorem arguments (schema : Schema) (s : Signature) (args : List Value) :
    InScope (checkArguments schema s args) := by
  unfold checkArguments
  split
  · split
    case h_1 e he =>
      exact error fun h => firstMismatch_ne_missingScope schema args s.params 0 (h ▸ he)
    case h_2 => exact ok _
  · exact error (by simp)

end InScope

theorem ok_of_bind {ε β γ : Type} {x : Except ε β} {f : β → Except ε γ} {c : γ}
    (h : x >>= f = .ok c) : ∃ b, x = .ok b ∧ f b = .ok c := by
  cases x with
  | error e => cases h
  | ok b => exact ⟨b, rfl, h⟩

theorem Ty.default_isScalar (t : Ty) : t.default.isScalar = true := by
  cases t <;> rfl

theorem kleeneValue_isScalar (conjunction : Bool) (l r : Option Bool) :
    (kleeneValue conjunction l r).isScalar = true := by
  unfold kleeneValue
  dsimp only
  split
  · rfl
  split <;> rfl

theorem NullResult.resolve_isScalar (n : NullResult) (l r : Value) :
    (n.resolve l r).isScalar = true := by
  cases n <;> rfl

theorem Schema.defaults_tidy (schema : Schema) (r : RecordRef) (n : Nat) :
    ∀ v ∈ schema.defaults r, v.Tidy n := by
  intro v hv
  obtain ⟨f, -, rfl⟩ := List.mem_map.mp hv
  exact .plain (Value.isPlain_of_isScalar (Ty.default_isScalar f.ty))

theorem UnaryOp.apply_tidy {op : UnaryOp} {v r : Value} {n : Nat} (hv : v.Tidy n)
    (h : op.apply v = .ok r) : r.Tidy n := by
  cases op with
  | negate t | negate32 | negate64 | notBool | notBits t =>
      obtain ⟨_, -, h⟩ := ok_of_bind h
      cases h
      exact .plain rfl
  | negateChecked t =>
      obtain ⟨_, -, h⟩ := ok_of_bind h
      obtain ⟨_, -, h⟩ := ok_of_bind h
      cases h
      exact .plain rfl
  | plus =>
      cases h
      exact hv
  | arrayLength =>
      cases v with
      | array _ items =>
          simp only [UnaryOp.apply] at h
          split at h <;> cases h
          exact .plain rfl
      | _ => cases h

theorem BinaryOp.apply_isScalar {heap : Heap} {op : BinaryOp} {l r v : Value}
    (h : op.apply heap l r = some (.ok v)) : v.isScalar = true := by
  cases op with
  | concat =>
      simp only [BinaryOp.apply, Option.bind_eq_bind, Option.bind_eq_some_iff, Option.pure_def,
        Option.some.injEq, Except.ok.injEq] at h
      obtain ⟨a, -, b, -, rfl⟩ := h
      rfl
  | equal | notEqual =>
      cases h
      rfl
  | wrapping | float32 | float64 | shiftLeft | shiftRight | bits | bools =>
      obtain ⟨_, -, h⟩ := ok_of_bind (Option.some.inj h)
      obtain ⟨_, -, h⟩ := ok_of_bind h
      cases h
      rfl
  | checked | divide | modulo =>
      obtain ⟨_, -, h⟩ := ok_of_bind (Option.some.inj h)
      obtain ⟨_, -, h⟩ := ok_of_bind h
      obtain ⟨_, -, h⟩ := ok_of_bind h
      cases h
      rfl
  | order =>
      obtain ⟨_, -, h⟩ := ok_of_bind (Option.some.inj h)
      cases h
      rfl

theorem Numeric.convert_isScalar {target : Numeric} {checked : Bool} {x : Number} {v : Value}
    (h : target.convert checked x = .ok v) : v.isScalar = true := by
  unfold Numeric.convert at h
  split at h <;> try split at h
  all_goals try split at h
  all_goals cases h
  all_goals rfl

theorem Conversion.apply_tidy {schema : Schema} {c : Conversion} {v r : Value} {n : Nat}
    (hv : v.Tidy n) (h : c.apply schema v = .ok r) : r.Tidy n := by
  induction c with
  | identity =>
      cases h
      exact hv
  | lifted inner ih =>
      simp only [Conversion.apply] at h
      split at h
      · cases h
        exact .plain rfl
      · exact ih h
  | unwrap inner ih =>
      simp only [Conversion.apply] at h
      split at h
      · cases h
      · exact ih h
  | cast target =>
      simp only [Conversion.apply, Conversion.castTo] at h
      split at h
      · split at h <;> cases h
        exact .plain rfl
      · split at h <;> cases h
        exact hv
  | numeric target checked =>
      obtain ⟨_, -, h⟩ := ok_of_bind h
      exact .plain (Value.isPlain_of_isScalar (Numeric.convert_isScalar h))

/-- What an index gives is one of the items. -/
theorem Value.mem_of_element {heap : Heap} {array index r : Value}
    (h : array.element heap index = .ok r) :
    (∃ id items, array = .array id items ∧ r ∈ items) ∨
      ∃ id, array = .list id ∧ r ∈ heap.listItems id := by
  obtain ⟨i, -, h⟩ := ok_of_bind h
  cases array with
  | array | list =>
      dsimp only at h
      split at h
      case h_1 v hv =>
        cases h
        split at hv
        · cases hv
        · simpa [and_assoc] using List.mem_of_getElem? hv
      case h_2 => cases h
  | _ => cases h

theorem Value.element_tidy {heap : Heap} {array index r : Value} {n : Nat} (hh : heap.Tidy n)
    (ha : array.Tidy n) (h : array.element heap index = .ok r) : r.Tidy n := by
  rcases Value.mem_of_element h with ⟨id, items, rfl, hmem⟩ | ⟨id, rfl, hmem⟩
  · exact Value.tidy_array.mp ha r hmem
  · exact hh.listItems id r hmem

/-! ## Rebuilt trees -/

section Rebuild

variable {α : Type}

/-- A tree with the events `new` was rebuilt from one with the events `old`, with identities from
`k` to `k'`: it has as many lambdas, each with a number of its own, and its constants come from the
old tree or from the substitution. -/
structure Rebuilt (s : Substitution α) (old new : List (Event α)) (k k' : Nat) : Prop where
  grows : k ≤ k'
  fresh : ∀ l : Lambda α, .enter l ∈ new → k ≤ l.id ∧ l.id < k'
  distinct : ((new.filterMap Event.entered?).map (·.id)).Nodup
  count : (new.filterMap Event.entered?).length = (old.filterMap Event.entered?).length
  constants : ∀ e ∈ new, ∀ v, e.constant? = some v →
    (∃ e' ∈ old, e'.constant? = some v) ∨ ∃ p, (p, v) ∈ s

namespace Rebuilt

variable {s : Substitution α} {old old' new new' : List (Event α)} {k k₁ k' : Nat}

theorem identified (h : Rebuilt s old new k k') : Identified new := .ofNodup h.distinct

theorem not_enter {es : List (Event α)} (h : es.filterMap Event.entered? = []) (l : Lambda α) :
    .enter l ∉ es := by
  rw [← Event.mem_entered, h]
  exact List.not_mem_nil

/-- What has no lambdas may stay as it is. -/
theorem keep (h : old.filterMap Event.entered? = []) : Rebuilt s old old k k :=
  ⟨Nat.le_refl k, fun l hl => absurd hl (not_enter h l), h ▸ List.nodup_nil, rfl,
    fun e he _ hv => .inl ⟨e, he, hv⟩⟩

theorem append (h : Rebuilt s old new k k₁) (h' : Rebuilt s old' new' k₁ k') :
    Rebuilt s (old ++ old') (new ++ new') k k' := by
  have hk := h.grows
  have hk' := h'.grows
  refine ⟨by omega, ?_, ?_, ?_, ?_⟩
  · intro l hl
    rcases List.mem_append.mp hl with hl | hl
    · have := h.fresh l hl
      omega
    · have := h'.fresh l hl
      omega
  · -- numbers of the first part are below `k₁`, those of the second part are not
    rw [List.filterMap_append, List.map_append, List.nodup_append]
    refine ⟨h.distinct, h'.distinct, fun i hi i' hi' => ?_⟩
    obtain ⟨l, hl, rfl⟩ := List.mem_map.mp hi
    obtain ⟨l', hl', rfl⟩ := List.mem_map.mp hi'
    have h₁ := h.fresh l (Event.mem_entered.mp hl)
    have h₂ := h'.fresh l' (Event.mem_entered.mp hl')
    omega
  · rw [List.filterMap_append, List.filterMap_append, List.length_append, List.length_append,
      h.count, h'.count]
  · intro e he v hv
    rcases List.mem_append.mp he with he | he
    · rcases h.constants e he v hv with ⟨e', he', hv'⟩ | hs
      · exact .inl ⟨e', List.mem_append_left _ he', hv'⟩
      · exact .inr hs
    · rcases h'.constants e he v hv with ⟨e', he', hv'⟩ | hs
      · exact .inl ⟨e', List.mem_append_right _ he', hv'⟩
      · exact .inr hs

/-- A constant may come from the substitution. -/
theorem constant (h : old.filterMap Event.entered? = []) {p : Nat} {v : α} {ty : Ty}
    (hv : (p, v) ∈ s) : Rebuilt s old (Node.constant k v ty).walk k (k + 1) := by
  have hwalk : (Node.constant k v ty).walk = [.node (Node.constant k v ty)] := rfl
  rw [hwalk]
  refine ⟨Nat.le_succ k, by simp, List.nodup_nil, congrArg List.length h.symm, ?_⟩
  intro e he w hw
  rw [List.mem_singleton.mp he] at hw
  cases hw
  exact .inr ⟨p, hv⟩

/-- Events that are no lambda and no constant do not matter. -/
theorem cons (h : Rebuilt s old new k k') {e e' : Event α} (he : e.entered? = none)
    (he' : e'.entered? = none) (hc : e'.constant? = none) :
    Rebuilt s (e :: old) (e' :: new) k k' := by
  have hmem : ∀ l : Lambda α, .enter l ∈ e' :: new → .enter l ∈ new := by
    intro l hl
    rcases List.mem_cons.mp hl with rfl | hl
    · cases he'
    · exact hl
  refine ⟨h.grows, fun l hl => h.fresh l (hmem l hl), ?_, ?_, ?_⟩
  · rw [List.filterMap_cons_none he']
    exact h.distinct
  · rw [List.filterMap_cons_none he, List.filterMap_cons_none he', h.count]
  · intro f hf v hv
    rcases List.mem_cons.mp hf with rfl | hf
    · rw [hc] at hv
      cases hv
    · rcases h.constants f hf v hv with ⟨g, hg, hv'⟩ | hs
      · exact .inl ⟨g, List.mem_cons_of_mem e hg, hv'⟩
      · exact .inr hs

theorem mono (h : Rebuilt s old new k k₁) (hk : k₁ ≤ k') : Rebuilt s old new k k' :=
  ⟨Nat.le_trans h.grows hk, fun l hl => ⟨(h.fresh l hl).1, Nat.lt_of_lt_of_le (h.fresh l hl).2 hk⟩,
    h.distinct, h.count, h.constants⟩

/-- A lambda takes its number after its body. -/
theorem lambda {id : Nat} {name : Option String} {params : List Parameter} {body body' : Node α}
    (h : Rebuilt s body.walk body'.walk k k') :
    Rebuilt s (Lambda.mk id name params body).walk (Lambda.mk k' none params body').walk k
      (k' + 1) := by
  have hk := h.grows
  have hentered : ∀ l : Lambda α, l.walk.filterMap Event.entered?
      = l :: l.body.walk.filterMap Event.entered? := by
    rintro ⟨id, name, params, body⟩
    simp [Lambda.walk, Event.entered?, Lambda.body]
  refine ⟨by omega, ?_, ?_, ?_, ?_⟩
  · intro l hl
    rcases Lambda.enter_mem_walk.mp hl with rfl | hl
    · exact ⟨hk, Nat.lt_succ_self k'⟩
    · have := h.fresh l hl
      omega
  · -- the body has numbers below `k'`
    rw [hentered, List.map_cons, List.nodup_cons]
    refine ⟨fun hmem => ?_, h.distinct⟩
    obtain ⟨l, hl, hid⟩ := List.mem_map.mp hmem
    have hlt := (h.fresh l (Event.mem_entered.mp hl)).2
    have hm : l.id = k' := hid
    omega
  · rw [hentered, hentered]
    exact congrArg (· + 1) h.count
  · intro e he v hv
    rcases Lambda.mem_walk.mp he with rfl | he | rfl
    · cases hv
    · rcases h.constants e he v hv with ⟨e', he', hv'⟩ | hs
      · exact .inl ⟨e', Lambda.mem_walk.mpr (.inr (.inl he')), hv'⟩
      · exact .inr hs
    · cases hv

end Rebuilt

theorem mem_of_lookup {s : Substitution α} {p : Nat} {v : α} (h : s.lookup p = some v) :
    (p, v) ∈ s := by
  induction s with
  | nil => cases h
  | cons u s ih =>
      obtain ⟨q, w⟩ := u
      rw [List.lookup_cons] at h
      split at h
      case h_1 heq =>
        cases h
        rw [beq_iff_eq.mp heq]
        exact List.mem_cons_self
      case h_2 => exact List.mem_cons_of_mem _ (ih h)

mutual

theorem Node.rebuild_rebuilt (s : Substitution α) : (n : Node α) → (k : Nat) →
    Rebuilt s n.walk (n.rebuild s k).1.walk k (n.rebuild s k).2
  | .mk id kind ty payload, k => by
      have ih := Payload.rebuild_rebuilt s kind payload k
      cases payload with
      | constant v => exact .keep rfl
      | parameter p =>
          simp only [Node.rebuild]
          cases hv : s.lookup p.id with
          | none => exact .keep rfl
          | some v => exact .constant rfl (mem_of_lookup hv)
      | binary l r m lifted toNull conversion =>
          cases conversion <;> exact (ih.mono (Nat.le_succ _)).cons rfl rfl rfl
      | memberAccess target m =>
          cases target <;> exact (ih.mono (Nat.le_succ _)).cons rfl rfl rfl
      | call target m args =>
          cases target <;> exact (ih.mono (Nat.le_succ _)).cons rfl rfl rfl
      | _ => exact (ih.mono (Nat.le_succ _)).cons rfl rfl rfl

theorem Payload.rebuild_rebuilt (s : Substitution α) (kind : Kind) : (p : Payload α) → (k : Nat) →
    Rebuilt s (p.walk kind) ((p.rebuild s k).1.walk kind) k (p.rebuild s k).2
  | .constant _, _ | .parameter _, _ | .memberAccess none _, _ => .keep rfl
  | .unary x m lifted, k => by
      have ih := Node.rebuild_rebuilt s x k
      simp only [Payload.walk]
      by_cases hq : kind = .quote
      · rw [if_pos hq]
        have hend : Rebuilt s [.leaveQuote] [.leaveQuote] (x.rebuild s k).2 (x.rebuild s k).2 :=
          .keep rfl
        have hopen : Rebuilt s (.enterQuote :: x.walk ++ [.leaveQuote])
            (.enterQuote :: (x.rebuild s k).1.walk ++ [.leaveQuote]) k (x.rebuild s k).2 :=
          (ih.append hend).cons rfl rfl rfl
        subst hq
        exact hopen
      · rw [if_neg hq]
        have : Payload.walk kind ((Payload.unary x m lifted).rebuild s k).1
            = (x.rebuild s k).1.walk := if_neg hq
        rw [this]
        exact ih
  | .binary l r _ _ _ none, k =>
      (Node.rebuild_rebuilt s l k).append (Node.rebuild_rebuilt s r _)
  | .binary l r _ _ _ (some c), k =>
      (Node.rebuild_rebuilt s l k).append
        ((Node.rebuild_rebuilt s r _).append (Lambda.rebuild_rebuilt s c _))
  | .conditional t a b, k =>
      (Node.rebuild_rebuilt s t k).append
        ((Node.rebuild_rebuilt s a _).append (Node.rebuild_rebuilt s b _))
  | .memberAccess (some x) _, k => Node.rebuild_rebuilt s x k
  | .call none _ args, k => Node.rebuildAll_rebuilt s args k
  | .call (some x) _ args, k =>
      (Node.rebuild_rebuilt s x k).append (Node.rebuildAll_rebuilt s args _)
  | .new _ args, k => Node.rebuildAll_rebuilt s args k
  | .newArray items, k => Node.rebuildAll_rebuilt s items k
  | .listInit x inits, k =>
      (Node.rebuild_rebuilt s x k).append (ElementInit.rebuildAll_rebuilt s inits _)
  | .memberInit x bindings, k =>
      (Node.rebuild_rebuilt s x k).append (MemberBinding.rebuildAll_rebuilt s bindings _)
  | .lambda l, k => Lambda.rebuild_rebuilt s l k
  | .invoke x args, k => (Node.rebuild_rebuilt s x k).append (Node.rebuildAll_rebuilt s args _)
  | .typeIs x _, k => Node.rebuild_rebuilt s x k
  | .assign _ x, k => (Node.rebuild_rebuilt s x k).cons rfl rfl rfl
  | .block items, k => Node.rebuildAll_rebuilt s items k

theorem Lambda.rebuild_rebuilt (s : Substitution α) : (l : Lambda α) → (k : Nat) →
    Rebuilt s l.walk (l.rebuild s k).1.walk k (l.rebuild s k).2
  | .mk _ _ _ body, k => (Node.rebuild_rebuilt s body k).lambda

theorem Node.rebuildAll_rebuilt (s : Substitution α) : (ns : List (Node α)) → (k : Nat) →
    Rebuilt s (Node.walkAll ns) (Node.walkAll (Node.rebuildAll s ns k).1) k
      (Node.rebuildAll s ns k).2
  | [], _ => .keep rfl
  | n :: ns, k => (Node.rebuild_rebuilt s n k).append (Node.rebuildAll_rebuilt s ns _)

theorem ElementInit.rebuildAll_rebuilt (s : Substitution α) : (inits : List (ElementInit α)) →
    (k : Nat) →
    Rebuilt s (ElementInit.walkAll inits) (ElementInit.walkAll (ElementInit.rebuildAll s inits k).1)
      k (ElementInit.rebuildAll s inits k).2
  | [], _ => .keep rfl
  | .mk _ args :: rest, k =>
      (Node.rebuildAll_rebuilt s args k).append (ElementInit.rebuildAll_rebuilt s rest _)

theorem MemberBinding.rebuildAll_rebuilt (s : Substitution α) :
    (bindings : List (MemberBinding α)) → (k : Nat) →
    Rebuilt s (MemberBinding.walkAll bindings)
      (MemberBinding.walkAll (MemberBinding.rebuildAll s bindings k).1) k
      (MemberBinding.rebuildAll s bindings k).2
  | [], _ => .keep rfl
  | .assign _ x :: rest, k =>
      (Node.rebuild_rebuilt s x k).append (MemberBinding.rebuildAll_rebuilt s rest _)
  | .bind _ nested :: rest, k =>
      (MemberBinding.rebuildAll_rebuilt s nested k).append
        (MemberBinding.rebuildAll_rebuilt s rest _)
  | .list _ inits :: rest, k =>
      (ElementInit.rebuildAll_rebuilt s inits k).append (MemberBinding.rebuildAll_rebuilt s rest _)

end

end Rebuild

/-- Substituting tidy values into a tidy tree gives a tidy tree. -/
theorem Node.substitute_tidy {n : Nat} {t : Tree} {s : Substitution Value}
    (ht : TidyEvents n t.walk) (hs : ∀ p v, (p, v) ∈ s → v.Tidy n) :
    n ≤ (t.substitute s n).2 ∧ TidyEvents (t.substitute s n).2 (t.substitute s n).1.walk := by
  unfold Node.substitute
  by_cases hempty : s.isEmpty = true
  · rw [if_pos hempty]
    exact ⟨Nat.le_refl n, ht⟩
  · rw [if_neg hempty]
    have h := t.rebuild_rebuilt s n
    refine ⟨h.grows, h.identified, fun l hl => (h.fresh l hl).2, ?_⟩
    intro e he v hv
    rcases h.constants e he v hv with ⟨e', he', hv'⟩ | ⟨p, hp⟩
    · exact (ht.constants e' he' v hv').mono h.grows
    · exact (hs p v hp).mono h.grows

end ExprTree
