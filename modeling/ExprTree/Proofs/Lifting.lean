import ExprTree.Proofs.Conversions
import ExprTree.Proofs.HostCalls

set_option autoImplicit false

/-! # User-defined operators and missing values

A user-defined operator on plain values may be applied to optional operands: the node is then
lifted, and its method is called only if all operands have a value. Whether a node is lifted is
decided when it is built, from the types of the operands and of the method.

The decision is right for all operators whose method does not mix optional and plain parameters, and
for all conversions that do not lead from an optional type to a plain one (`GuardedOperator`). For
these no missing value reaches a parameter that does not admit one
(`guardedOperator_spares_parameters`). Without the guards, both hand a missing value on
(`unguarded_operators_pass_null`).
-/

namespace ExprTree

/-! ## Guarded operators -/

/-- A call, if it is one of the method, passes no missing value for a parameter that does not admit
one. -/
def Method.Spares (m : Method) (g : HostRef) (args : List Value) : Prop :=
  g = m.impl → ∀ (i : Nat) (p : Ty), m.params[i]? = some p → p.admitsNull = false →
    args[i]? ≠ some .null

/-- The types of the operands are those of the parameters, up to being optional. -/
def Method.Fits (m : Method) (operands : List Tree) : Prop :=
  List.Forall₂ (fun x p => x.ty.nonNullable = p.nonNullable) operands m.params

theorem Method.Fits.get {m : Method} {operands : List Tree} (h : m.Fits operands) {i : Nat}
    {x : Tree} {p : Ty} (hx : operands[i]? = some x) (hp : m.params[i]? = some p) :
    x.ty.nonNullable = p.nonNullable := by
  obtain ⟨hi, rfl⟩ := List.getElem?_eq_some_iff.mp hx
  obtain ⟨hi', rfl⟩ := List.getElem?_eq_some_iff.mp hp
  exact List.Forall₂.get h hi hi'

/-- A node that a builder makes for a method, with its operands. If the method of an operator with
two operands takes an optional value, then every optional operand has to meet a parameter that
admits a missing value. A conversion of an optional operand has to have an optional type, or its
parameter admits a missing value. -/
inductive GuardedOperator (m : Method) : List Tree → Tree → Prop
  | binary (id : Nat) (kind : Kind) (l r : Tree)
      (guard : m.takesOptional = true → ∀ (i : Nat) (x : Tree) (p : Ty), [l, r][i]? = some x →
        m.params[i]? = some p → x.ty.isNullable = true → p.admitsNull = true) :
      GuardedOperator m [l, r] (.binaryWithMethod id kind l r m)
  | unary (id : Nat) (kind : Kind) (x : Tree) :
      GuardedOperator m [x] (.unaryWithMethod id kind x m)
  | convert (id : Nat) (x : Tree) (ty : Ty)
      (guard : x.ty.isNullable = true →
        ty.isNullable = true ∨ ∀ p ∈ m.params, p.admitsNull = true) :
      GuardedOperator m [x] (.convertWithMethod id x ty m)

/-- Optional operands that meet plain parameters make the node lifted. -/
def Method.LiftedOver (m : Method) (operands : List Tree) (lifted : Bool) : Prop :=
  ∀ (i : Nat) (x : Tree) (p : Ty), operands[i]? = some x → m.params[i]? = some p →
    x.ty.isNullable = true → p.admitsNull = false → lifted = true

section Flags

variable {m : Method}

theorem Method.liftedOver_binary {l r : Tree}
    (guard : m.takesOptional = true → ∀ (i : Nat) (x : Tree) (p : Ty), [l, r][i]? = some x →
      m.params[i]? = some p → x.ty.isNullable = true → p.admitsNull = true) :
    m.LiftedOver [l, r] (!m.takesOptional && Node.operandsOptional l r) := by
  intro i x p hx hp hnull hadmits
  have htakes : m.takesOptional = false := Bool.eq_false_iff.mpr fun h => by
    rw [guard h i x p hx hp hnull] at hadmits
    cases hadmits
  have hoptional : Node.operandsOptional l r = true := by
    have hmem : x = l ∨ x = r := by simpa using List.mem_of_getElem? hx
    rcases hmem with rfl | rfl <;> simp [Node.operandsOptional, hnull]
  rw [htakes, hoptional]
  rfl

theorem Method.liftedOver_unary {x : Tree} (hfits : m.Fits [x]) :
    m.LiftedOver [x] (!m.takesOptional && x.ty.isNullable) := by
  intro i x' p hx hp hnull hadmits
  obtain rfl : x' = x := by simpa using List.mem_of_getElem? hx
  have htakes : m.takesOptional = false := by
    -- the only parameter is the one that does not admit a missing value
    obtain ⟨q, rest, -, hrest, hq⟩ := List.forall₂_cons_left_iff.mp hfits
    obtain rfl := List.forall₂_nil_left_iff.mp hrest
    rw [hq] at hp
    obtain rfl : p = q := by simpa using List.mem_of_getElem? hp
    have hplain := (Bool.or_eq_false_iff.mp hadmits).1
    simp [Method.takesOptional, hq, hplain]
  rw [htakes, hnull]
  rfl

theorem Method.liftedOver_convert {x : Tree} {ty : Ty}
    (guard : x.ty.isNullable = true → ty.isNullable = true ∨ ∀ p ∈ m.params, p.admitsNull = true) :
    m.LiftedOver [x] (x.ty.isNullable && ty.isNullable) := by
  intro i x' p hx hp hnull hadmits
  obtain rfl : x' = x := by simpa using List.mem_of_getElem? hx
  rcases guard hnull with hty | hall
  · rw [hnull, hty]
    rfl
  · rw [hall p (List.mem_of_getElem? hp)] at hadmits
    cases hadmits

end Flags

/-! ## Arguments -/

section Arguments

variable {m : Method} {schema : Schema} {operands : List Tree} {args : List Value}

/-- A missing value only conforms to the optional form of a plain type. -/
theorem Ty.isNullable_of_conformsTo {t p : Ty} (heq : t.nonNullable = p.nonNullable)
    (hp : p.admitsNull = false) (hnull : Value.null.conformsTo schema t = true) :
    t.isNullable = true := by
  rw [Value.conformsTo_null] at hnull
  by_contra ht
  have hplain := (Bool.or_eq_false_iff.mp hp).1
  rw [Ty.nonNullable_eq_self (Bool.not_eq_true _ ▸ ht), Ty.nonNullable_eq_self hplain] at heq
  rw [heq, hp] at hnull
  cases hnull

/-- The method may be called with values of the first operands, if the node is lifted where it has
to be and no value is missing where it is lifted. -/
theorem Method.spares_of_lifted {lifted : Bool} (hfits : m.Fits operands)
    (hlift : m.LiftedOver operands lifted)
    (hconf : List.Forall₂ (fun v x => v.conformsTo schema x.ty = true) args
      (operands.take args.length))
    (hpresent : lifted = true → ∀ v ∈ args, v.isNull = false) (g : HostRef) : m.Spares g args := by
  intro _ i p hp hadmits hnull
  obtain ⟨hi, hnull'⟩ := List.getElem?_eq_some_iff.mp hnull
  have hi' : i < (operands.take args.length).length := hconf.length_eq ▸ hi
  have hvalue := hconf.get hi hi'
  have hx : operands[i]? = some (operands.take args.length)[i] := by
    rw [← List.getElem?_eq_getElem hi', List.getElem?_take_of_lt hi]
  rw [List.get_eq_getElem, hnull'] at hvalue
  have hoptional := Ty.isNullable_of_conformsTo (hfits.get hx hp) hadmits hvalue
  have habsent := hpresent (hlift i _ p hx hp hoptional hadmits) _ (List.mem_of_getElem? hnull)
  cases habsent

theorem Method.spares_single {x : Tree} {rest : List Tree} {lifted : Bool}
    (hfits : m.Fits (x :: rest)) (hlift : m.LiftedOver (x :: rest) lifted) {a : Value}
    (ha : a.conformsTo schema x.ty = true) (hpresent : lifted = true → a.isNull = false)
    (g : HostRef) : m.Spares g [a] := by
  refine m.spares_of_lifted hfits hlift (.cons ha .nil) (fun h v hv => ?_) g
  rw [List.mem_singleton.mp hv]
  exact hpresent h

theorem Method.spares_pair {x y : Tree} {lifted : Bool} (hfits : m.Fits [x, y])
    (hlift : m.LiftedOver [x, y] lifted) {a b : Value} (ha : a.conformsTo schema x.ty = true)
    (hb : b.conformsTo schema y.ty = true)
    (hpresent : lifted = true → a.isNull = false ∧ b.isNull = false) (g : HostRef) :
    m.Spares g [a, b] := by
  refine m.spares_of_lifted hfits hlift (.cons ha (.cons hb .nil)) (fun h v hv => ?_) g
  obtain ⟨ha', hb'⟩ := hpresent h
  rcases List.mem_pair.mp hv with rfl | rfl
  · exact ha'
  · exact hb'

end Arguments

/-! ## Running -/

/-- From this state, the computation makes only calls that `P` allows. -/
def AllowedFrom {β : Type} (P : HostRef → List Value → Prop) (m : Machine) (x : Exec β) : Prop :=
  EndsAfter Machine.calls (fun _ made => ∀ c ∈ made, P c.callee c.args) m.calls (x m)

section Allowed

variable {β γ : Type} {P : HostRef → List Value → Prop} {m : Machine}

namespace AllowedFrom

theorem quiet {x : Exec β} (h : Quiet Machine.calls x) : AllowedFrom P m x := by
  refine (h m).mono fun ok made hmade => ?_
  subst hmade
  exact fun c hc => absurd hc List.not_mem_nil

theorem bind {x : Exec β} {k : β → Exec γ} (hx : AllowedFrom P m x)
    (hk : ∀ a m', x m = .ok a m' → AllowedFrom P m' (k a)) : AllowedFrom P m (x >>= k) := by
  refine EndsAfter.bind hx hk (fun _ made made' h h' c hc => ?_) fun _ h => h
  rcases List.mem_append.mp hc with hc | hc
  · exact h c hc
  · exact h' c hc

/-- A result that does not depend on the state is taken first. -/
theorem after {x : Except RuntimeError β} {k : β → Exec γ} (hk : ∀ a, AllowedFrom P m (k a)) :
    AllowedFrom P m (Exec.ofExcept x >>= k) := by
  cases x with
  | ok a => exact hk a
  | error e => exact quiet (.throw (.raised e))

theorem host {cx : Context} (hcx : cx.CallsOnce) {g : HostRef} {args : List Value}
    (h : P g args) : AllowedFrom P m (Exec.ofEval (cx.host g args)) := by
  refine (Records.ofEval (hcx g args) m).mono ?_
  rintro ok made ⟨heap, rfl⟩ c hc
  rw [List.mem_singleton.mp hc]
  exact h

end AllowedFrom

end Allowed

/-- Wherever `I` holds, the code of the tree makes only calls that `P` allows; a value that it gives
conforms to the type of the tree, and `I` still holds. -/
def Node.Delivers (cx : EmitContext) (scope : EmitScope) (run : Context) (f : Frame)
    (I : Machine → Prop) (P : HostRef → List Value → Prop) (x : Tree) : Prop :=
  ∀ s c s', x.emit cx scope s = .ok (c, s') → ∀ m, I m → AllowedFrom P m (c.run run f) ∧
    ∀ v m', c.run run f m = .ok v m' → v.conformsTo run.schema x.ty = true ∧ I m'

/-- What holds of the state is not changed by host functions. -/
def Context.Keeps (cx : Context) (I : Machine → Prop) : Prop :=
  ∀ g args m v m', I m → Exec.ofEval (cx.host g args) m = .ok v m' → I m'

section Nodes

variable {cx : EmitContext} {scope : EmitScope} {run : Context} {f : Frame} {I : Machine → Prop}
  {m : Method} {lifted : Bool} {kind : Kind} {ty : Ty} {s s' : EmitState} {c : Code} {μ : Machine}

/-- An operand is run first. -/
theorem Node.Delivers.bind {β : Type} {P : HostRef → List Value → Prop} {x : Tree}
    (hx : x.Delivers cx scope run f I P) (hemit : x.emit cx scope s = .ok (c, s')) (hI : I μ)
    {k : Value → Exec β} (hk : ∀ v μ', v.conformsTo run.schema x.ty = true → I μ' →
      AllowedFrom P μ' (k v)) : AllowedFrom P μ (c.run run f >>= k) := by
  obtain ⟨hcalls, hvalue⟩ := hx s c s' hemit μ hI
  refine hcalls.bind fun v μ' hv => ?_
  obtain ⟨hconf, hI'⟩ := hvalue v μ' hv
  exact hk v μ' hconf hI'

theorem Payload.unary_spares (hrun : run.CallsOnce) {x : Tree} (hfits : m.Fits [x])
    (hlift : m.LiftedOver [x] lifted) (hx : x.Delivers cx scope run f I m.Spares)
    (hemit : Payload.emit cx scope kind ty (.unary x (some m) lifted) s = .ok (c, s')) (hI : I μ) :
    AllowedFrom m.Spares μ (c.run run f) := by
  by_cases hq : kind = .quote
  · subst hq
    obtain ⟨-, -, rfl⟩ := Payload.emit_quote.mp hemit
    exact .quiet (.ofEval (Quiet.quote f _))
  obtain ⟨action, lift, operand, haction, hoperand, rfl⟩ := (Payload.emit_unary hq).mp hemit
  rw [Code.run]
  refine hx.bind hoperand hI fun v μ' hconf _ => ?_
  cases unaryAction?_chosen haction with
  | typeAs _ hk => exact .quiet (.ofEval (Quiet.pure _))
  | user _ hk ht =>
      split
      · exact .quiet (.pure _)
      · rename_i hpresent
        refine .host hrun (m.spares_single hfits hlift hconf (fun h => ?_) _)
        simpa [h] using hpresent

theorem BinaryForm.spares (hrun : run.CallsOnce) (hkeeps : run.Keeps I) {l r : Tree}
    (hfits : m.Fits [l, r]) (hlift : m.LiftedOver [l, r] lifted)
    (hl : l.Delivers cx scope run f I m.Spares) (hr : r.Delivers cx scope run f I m.Spares)
    {form : BinaryForm} (hform : Chosen cx.schema kind ty l.ty lifted (some m) form)
    {left right : Code} {s₁ : EmitState} (hleft : l.emit cx scope s = .ok (left, s₁))
    (hright : r.emit cx scope s₁ = .ok (right, s')) (hI : I μ) :
    AllowedFrom m.Spares μ ((form.code left right).run run f) := by
  cases hform with
  | element _ hk =>
      simp only [code, Code.run]
      refine hl.bind hleft hI fun a μ₁ _ hI₁ => hr.bind hright hI₁ fun b μ₂ _ _ => ?_
      exact .quiet (.ofEval (Quiet.binary run (fun _ => BinaryAction.noConfusion) a b))
  | user _ hk _ hi hlog =>
      simp only [code, Code.run]
      refine hl.bind hleft hI fun a μ₁ ha hI₁ => hr.bind hright hI₁ fun b μ₂ hb _ => ?_
      cases lifted with
      | false =>
          exact .host hrun (m.spares_pair hfits hlift ha hb
            (fun h => absurd h Bool.false_ne_true) _)
      | true =>
          simp only [↓reduceIte]
          split
          · exact .quiet (.pure _)
          · rename_i hpresent
            refine .host hrun (m.spares_pair hfits hlift ha hb (fun _ => ?_) _)
            simpa using hpresent
  | userLogical _ ops hk hops =>
      simp only [code, Code.run]
      refine hl.bind hleft hI fun a μ₁ ha hI₁ => ?_
      split
      · exact .quiet (.pure _)
      rename_i hleftPresent
      have ha' : lifted = true → a.isNull = false := fun h => by simpa [h] using hleftPresent
      -- the test is a call as well, and it may be the method itself
      refine AllowedFrom.bind (.host hrun (m.spares_single hfits hlift ha ha' _)) fun t μ₂ ht => ?_
      refine .after fun decided => ?_
      split
      · exact .quiet (.pure _)
      refine hr.bind hright (hkeeps _ _ _ _ _ hI₁ ht) fun b μ₃ hb _ => ?_
      split
      · exact .quiet (.pure _)
      · rename_i hrightPresent
        have hb' : lifted = true → b.isNull = false := fun h => by simpa [h] using hrightPresent
        exact .host hrun (m.spares_pair hfits hlift ha hb (fun h => ⟨ha' h, hb' h⟩) _)

theorem Payload.binary_spares (hrun : run.CallsOnce) (hkeeps : run.Keeps I) {l r : Tree}
    {toNull : Bool} (hfits : m.Fits [l, r]) (hlift : m.LiftedOver [l, r] lifted)
    (hl : l.Delivers cx scope run f I m.Spares) (hr : r.Delivers cx scope run f I m.Spares)
    (hemit : Payload.emit cx scope kind ty (.binary l r (some m) lifted toNull none) s
      = .ok (c, s')) (hI : I μ) : AllowedFrom m.Spares μ (c.run run f) := by
  by_cases hc : kind = .coalesce
  · subst hc
    obtain ⟨left, s₁, right, hleft, hright, rfl⟩ := Payload.emit_coalesce.mp hemit
    rw [Code.run]
    refine hl.bind hleft hI fun a μ₁ _ hI₁ => ?_
    split
    · exact (hr _ _ _ hright μ₁ hI₁).1
    · exact .quiet (.pure _)
  · obtain ⟨form, left, s₁, right, hform, hleft, hright, rfl⟩ := (Payload.emit_binary hc).mp hemit
    exact BinaryForm.spares hrun hkeeps hfits hlift hl hr (binaryForm?_chosen hform) hleft hright hI

/-! ### Parameters as operands -/

/-- Host functions do not touch the slots of a frame. -/
theorem Context.keeps_slots (run : Context) (J : Array Value → Prop) :
    run.Keeps fun μ => J μ.slots := by
  intro g args μ v μ' hJ hcall
  unfold Exec.ofEval at hcall
  split at hcall
  · cases hcall
    exact hJ
  · cases hcall

/-- A parameter delivers the argument in its slot. -/
theorem Node.delivers_parameter (id : Nat) {p : Parameter} {i : Nat}
    {P : HostRef → List Value → Prop} (hslot : scope.address? p.id = some (.slot i))
    (hvalue : ∀ μ, I μ → ((μ.slots[i]?).getD .null).conformsTo run.schema p.ty = true) :
    (Node.parameter id p).Delivers cx scope run f I P := by
  intro s c s' hemit μ hI
  rw [Node.parameter, Node.emit] at hemit
  obtain ⟨-, -, a, ha, rfl⟩ := Payload.emit_parameter.mp hemit
  cases hslot.symm.trans ha
  refine ⟨.quiet (.loadSlot i), fun v μ' hv => ?_⟩
  cases hv
  exact ⟨hvalue μ hI, hI⟩

/-! ## Guarded operators spare their parameters -/

/-- **A guarded operator spares its parameters.** Take a node that a builder made for a method whose
parameters have the types of the operands, up to being optional, and let the operands give values of
their types. Whatever these are, the code of the node never calls the method with a missing value
for a parameter that does not admit one. -/
theorem guardedOperator_spares_parameters {operands : List Tree} {n : Tree}
    (h : GuardedOperator m operands n) (hfits : m.Fits operands) (hrun : run.CallsOnce)
    (hkeeps : run.Keeps I) (hoperands : ∀ x ∈ operands, x.Delivers cx scope run f I m.Spares)
    (hemit : n.emit cx scope s = .ok (c, s')) (hI : I μ) :
    EndsAfter Machine.calls (fun _ made => ∀ call ∈ made, m.Spares call.callee call.args) μ.calls
      (c.run run f μ) := by
  cases h with
  | binary id kind l r guard =>
      rw [Node.binaryWithMethod, Node.emit] at hemit
      exact Payload.binary_spares hrun hkeeps hfits (m.liftedOver_binary guard)
        (hoperands l List.mem_cons_self) (hoperands r (by simp)) hemit hI
  | unary id kind x =>
      rw [Node.unaryWithMethod, Node.emit] at hemit
      exact Payload.unary_spares hrun hfits (m.liftedOver_unary hfits)
        (hoperands x List.mem_cons_self) hemit hI
  | convert id x ty guard =>
      rw [Node.convertWithMethod, Node.conversion, Node.emit] at hemit
      exact Payload.unary_spares hrun hfits (m.liftedOver_convert guard)
        (hoperands x List.mem_cons_self) hemit hI

end Nodes

/-- `plus x y` on an optional and a plain operand, where the first value is missing. -/
theorem guardedOperator_spares_parameters_add :
    let plus : Method := ⟨⟨0, "plus"⟩, none, [.int .i8, .int .i8], .int .i8⟩
    let x : Parameter := ⟨0, "x", .nullable (.int .i8)⟩
    let y : Parameter := ⟨1, "y", .int .i8⟩
    let l : Lambda Value :=
      .mk 2 none [x, y] (.binaryWithMethod 3 .add (.parameter 4 x) (.parameter 5 y) plus)
    let host : Host := fun _ _ heap _ => .done (.ok .unit) heap
    let run : Context :=
      ⟨.empty, 1000, fun _ _ _ => throw .unfinished, hostCall .empty 1000 host 0⟩
    ∃ c s', l.body.emit ⟨.empty, l.captures⟩ (l.emitScope l.captures none 0) {} = .ok (c, s') ∧
      ∀ f μ, μ.slots = #[.null, .ofInt .i8 1] → EndsAfter Machine.calls
        (fun _ made => ∀ call ∈ made, plus.Spares call.callee call.args) μ.calls
        (c.run run f μ) := by
  intro plus x y l host run
  obtain ⟨c, s', hemit⟩ : ∃ c s',
      l.body.emit ⟨.empty, l.captures⟩ (l.emitScope l.captures none 0) {} = .ok (c, s') :=
    ⟨_, _, rfl⟩
  have hrun : run.CallsOnce :=
    Records.hostCall (fun _ _ heap _ => ⟨.ok .unit, heap, rfl⟩) .empty 1000 0
  have hguarded : GuardedOperator plus [.parameter 4 x, .parameter 5 y] l.body :=
    .binary 3 .add _ _ fun h => absurd h Bool.false_ne_true
  have hfits : plus.Fits [.parameter 4 x, .parameter 5 y] := .cons rfl (.cons rfl .nil)
  refine ⟨c, s', hemit, fun f μ hμ => guardedOperator_spares_parameters hguarded hfits hrun
    (run.keeps_slots (· = #[.null, .ofInt .i8 1])) ?_ hemit hμ⟩
  intro z hz
  rcases List.mem_pair.mp hz with rfl | rfl
  · exact Node.delivers_parameter 4 rfl fun μ hμ => by rw [hμ]; rfl
  · exact Node.delivers_parameter 5 rfl fun μ hμ => by rw [hμ]; rfl

/-- The guards are needed. A conversion from an optional to a plain type is not lifted, and neither
is an operator whose method has an optional and a plain parameter: both hand a missing value on. -/
theorem unguarded_operators_pass_null :
    let host : Host := fun _ _ heap _ => .done (.ok .unit) heap
    let x : Parameter := ⟨0, "x", .nullable (.int .i8)⟩
    let convert : Method := ⟨⟨0, "convert"⟩, none, [.int .i8], .int .i8⟩
    let plus : Method := ⟨⟨1, "plus"⟩, none, [.nullable (.int .i8), .int .i8], .int .i8⟩
    let e : Environment := ⟨.empty, host, 1000, 0⟩
    let calls (body : Tree) : List (HostRef × List Value) :=
      (e.eval (.ofLambda 1 (.mk 2 none [x] body)) [.null] {}).2.calls.map
        fun call => (call.callee, call.args)
    convert.Fits [.parameter 3 x] ∧ ¬ convert.Spares convert.impl [.null] ∧
      calls (.convertWithMethod 4 (.parameter 3 x) (.int .i8) convert)
        = [(convert.impl, [.null])] ∧
    plus.Fits [.parameter 3 x, .parameter 5 x] ∧ ¬ plus.Spares plus.impl [.null, .null] ∧
      calls (.binaryWithMethod 4 .add (.parameter 3 x) (.parameter 5 x) plus)
        = [(plus.impl, [.null, .null])] := by
  intro host x convert plus e calls
  have hconvert : ¬ convert.Spares convert.impl [.null] := fun h => h rfl 0 _ rfl rfl rfl
  have hplus : ¬ plus.Spares plus.impl [.null, .null] := fun h => h rfl 1 _ rfl rfl rfl
  exact ⟨.cons rfl .nil, hconvert, rfl, .cons rfl (.cons rfl .nil), hplus, rfl⟩

end ExprTree
