import ExprTree.Proofs.Identities
import ExprTree.Proofs.Representation

set_option autoImplicit false

/-! # A simulation between compiled code and the interpreter

`Related` joins a world of compiled code to a store of the interpreter: they have the same heap,
the same calls and the same closures, and every location that is placed in a cell has the value of
that cell. `Simulates` says that two computations outside of a frame take related states to related
states with the same outcome; `Follows` says the same of two computations inside a frame, where the
parameters that have no cell are in slots.

An outcome is a value, an error, or that there is neither. The interpreter being stuck is never an
outcome; that it calls a host function without a meaning may be allowed, and then nothing is said.
Values that come out are tidy, and errors that come out are allowed: any error is, except perhaps
that of a captured variable which cannot be reached.
-/

namespace ExprTree

open Lexical (Bindings Env Store Interp Fault Closure location?)

/-! ## Related states -/

/-- A recorded call with tidy arguments and a tidy heap. -/
structure CallRecord.Tidy (n : Nat) (r : CallRecord) : Prop where
  args : ∀ v ∈ r.args, v.Tidy n
  heap : r.heap.Tidy n

theorem CallRecord.Tidy.mono {n m : Nat} (hnm : n ≤ m) {r : CallRecord} (h : r.Tidy n) : r.Tidy m :=
  ⟨fun v hv => (h.args v hv).mono hnm, h.heap.mono hnm⟩

/-- Everything that the interpreter can reach makes sense. -/
structure Lexical.Store.Tidy (σ : Store) : Prop where
  heap : σ.heap.Tidy σ.heap.nextId
  locations : ∀ v ∈ σ.locations, v.Tidy σ.heap.nextId
  calls : ∀ r ∈ σ.calls, r.Tidy σ.heap.nextId

/-- A scope stands for a closure: the scope runs the unit of the closure's lambda in the closure's
environment, with the closure's limit. -/
def ClosuresMatch (schema : Schema) (n : Nat) (place : Placement) (s : Scope) (c : Closure) :
    Prop :=
  ∃ (C : Compilation) (outer : List (Lambda Value)), C.schema = schema ∧
    TidyEvents n C.root.walk ∧ Represents C place s c.lambda outer c.env ∧
    c.limit = C.program.options.maxCallDepth

theorem ClosuresMatch.mono {schema : Schema} {n m k : Nat} {place place' : Placement} {s : Scope}
    {c : Closure} (h : ClosuresMatch schema n place s c) (hnm : n ≤ m)
    (hp : place.Extends place' k) : ClosuresMatch schema m place' s c := by
  obtain ⟨C, outer, hs, ht, hr, hl⟩ := h
  exact ⟨C, outer, hs, ht.mono hnm, hr.mono hp, hl⟩

/-- What is taken for granted in a simulation. -/
structure Assumptions where
  /-- Identities below this one are taken from the start. -/
  base : Nat
  /-- Whether the interpreter may leave a call of a host function without a meaning. -/
  unbound : Prop
  /-- The ends without a value that may come out. -/
  allows : Stop RuntimeError → Prop
  ordinary : ∀ e, e ≠ .raised .missingScope → allows e

/-- A world of compiled code and a store of the interpreter in the same state. -/
structure Related (A : Assumptions) (schema : Schema) (place : Placement) (w : World)
    (σ : Store) : Prop where
  heap : w.heap = σ.heap
  calls : w.calls = σ.calls
  closures : w.closures.size = σ.closures.size
  matching : ∀ (i : Nat) s c, w.closures[i]? = some s → σ.closures[i]? = some c →
    ClosuresMatch schema σ.heap.nextId place s c
  cells : ∀ l c k, place l = some (c, k) → ∃ v, w.cell? c k = some v ∧ σ.locations[l]? = some v
  injective : ∀ l l' c, place l = some c → place l' = some c → l = l'
  widths : ∀ c n, place.width c = some n → c < w.cells.size ∧ ∀ k, n ≤ k → w.cell? c k = none
  tidy : σ.Tidy
  base : A.base ≤ σ.heap.nextId

/-- A later state. Locations below `bound` without a cell are as they were. -/
structure Later (bound : Nat) (place place' : Placement) (σ σ' : Store) : Prop where
  placement : place.Extends place' σ.locations.size
  size : σ.locations.size ≤ σ'.locations.size
  nextId : σ.heap.nextId ≤ σ'.heap.nextId
  kept : ∀ l < bound, place l = none → σ'.locations[l]? = σ.locations[l]?

namespace Later

variable {bound : Nat} {place place₁ place' : Placement} {σ σ₁ σ' : Store}

theorem refl (bound : Nat) (place : Placement) (σ : Store) : Later bound place place σ σ :=
  ⟨.refl _ _, Nat.le_refl _, Nat.le_refl _, fun _ _ _ => rfl⟩

theorem trans (h : Later bound place place₁ σ σ₁) (h' : Later bound place₁ place' σ₁ σ')
    (hb : bound ≤ σ.locations.size) : Later bound place place' σ σ' :=
  ⟨h.placement.trans h'.placement h.size, Nat.le_trans h.size h'.size,
    Nat.le_trans h.nextId h'.nextId, fun l hl hp =>
      (h'.kept l hl (h.placement.unplaced l (Nat.lt_of_lt_of_le hl hb) hp)).trans (h.kept l hl hp)⟩

theorem lower {bound' : Nat} (h : Later bound place place' σ σ') (hb : bound' ≤ bound) :
    Later bound' place place' σ σ' :=
  ⟨h.placement, h.size, h.nextId, fun l hl => h.kept l (Nat.lt_of_lt_of_le hl hb)⟩

end Later

namespace Related

variable {A : Assumptions} {schema : Schema} {place : Placement} {w : World} {σ : Store}

theorem cell (h : Related A schema place w σ) {l c k : Nat} (hp : place l = some (c, k)) :
    w.cell? c k = σ.locations[l]? := by
  obtain ⟨v, hc, hl⟩ := h.cells l c k hp
  rw [hc, hl]

/-- The heap may change, as long as it stays tidy. -/
theorem withHeap (h : Related A schema place w σ) {heap : Heap}
    (hn : σ.heap.nextId ≤ heap.nextId) (ht : heap.Tidy heap.nextId) :
    Related A schema place { w with heap := heap } { σ with heap := heap } where
  heap := rfl
  calls := h.calls
  closures := h.closures
  matching i s c hs hc := (h.matching i s c hs hc).mono hn (.refl place 0)
  cells := h.cells
  injective := h.injective
  widths := h.widths
  tidy := ⟨ht, fun v hv => (h.tidy.locations v hv).mono hn,
    fun r hr => (h.tidy.calls r hr).mono hn⟩
  base := Nat.le_trans h.base hn

theorem withHeap_later (_ : Related A schema place w σ) {heap : Heap}
    (hn : σ.heap.nextId ≤ heap.nextId) (bound : Nat) :
    Later bound place place σ { σ with heap := heap } :=
  ⟨.refl _ _, Nat.le_refl _, hn, fun _ _ _ => rfl⟩

/-- Closures may be added, if they match. -/
theorem newClosure (h : Related A schema place w σ) {s : Scope} {c : Closure}
    (hm : ClosuresMatch schema σ.heap.nextId place s c) :
    Related A schema place (w.newClosure s).2 (σ.newClosure c).2 where
  heap := h.heap
  calls := h.calls
  closures := by simp [World.newClosure, Lexical.Store.newClosure, h.closures]
  matching i t d ht hd := by
    simp only [World.newClosure, Lexical.Store.newClosure, Array.getElem?_push] at ht hd
    rw [h.closures] at ht
    by_cases hi : i = σ.closures.size
    · rw [if_pos hi] at ht hd
      cases ht
      cases hd
      exact hm
    · rw [if_neg hi] at ht hd
      exact h.matching i t d ht hd
  cells := h.cells
  injective := h.injective
  widths := h.widths
  tidy := ⟨h.tidy.heap, h.tidy.locations, h.tidy.calls⟩
  base := h.base

end Related

/-! ## Outcomes -/

/-- The values that a result holds. -/
class HasValues (β : Type) where
  values : β → List Value

export HasValues (values)

instance : HasValues Value := ⟨fun v => [v]⟩
instance : HasValues (List Value) := ⟨fun vs => vs⟩
instance : HasValues PUnit := ⟨fun _ => []⟩
instance : HasValues Bool := ⟨fun _ => []⟩
instance : HasValues (Option Bool) := ⟨fun _ => []⟩
instance : HasValues Nat := ⟨fun _ => []⟩

/-- The same outcome in states that are joined by `R`. Where the interpreter gives up at a host
function without a meaning, nothing is said. -/
def Agree {μ β : Type} [HasValues β] (A : Assumptions) (R : μ → Store → Prop) :
    EStateM.Result (Stop RuntimeError) μ β → EStateM.Result Fault Store β → Prop
  | .ok a m, .ok b σ => a = b ∧ R m σ ∧ ∀ v ∈ values b, v.Tidy σ.heap.nextId
  | .error e m, .error (.stop e') σ => e = e' ∧ R m σ ∧ A.allows e
  | _, .error .foreign _ => A.unbound
  | _, _ => False

section

variable {μ β γ : Type} [HasValues β] [HasValues γ] {A : Assumptions} {R R' : μ → Store → Prop}

/-- Both have a value, or both fail, or the interpreter gives up. -/
theorem Agree.cases {x : EStateM.Result (Stop RuntimeError) μ β} {y : EStateM.Result Fault Store β}
    (h : Agree A R x y) :
    (∃ b m σ, x = .ok b m ∧ y = .ok b σ ∧ R m σ ∧ ∀ v ∈ values b, v.Tidy σ.heap.nextId) ∨
    (∃ e m σ, x = .error e m ∧ y = .error (.stop e) σ ∧ R m σ ∧ A.allows e) ∨
    (∃ σ, y = .error .foreign σ ∧ A.unbound) := by
  match x, y, h with
  | .ok b m, .ok _ σ, ⟨rfl, hr, hv⟩ => exact .inl ⟨b, m, σ, rfl, rfl, hr, hv⟩
  | .error e m, .error (.stop _) σ, ⟨rfl, hr, he⟩ =>
      exact .inr (.inl ⟨e, m, σ, rfl, rfl, hr, he⟩)
  | .ok _ _, .error .foreign σ, hf => exact .inr (.inr ⟨σ, rfl, hf⟩)
  | .error _ _, .error .foreign σ, hf => exact .inr (.inr ⟨σ, rfl, hf⟩)

/-- Nothing is said of a run that calls a host function without a meaning. -/
theorem Agree.foreign (hA : A.unbound) (x : EStateM.Result (Stop RuntimeError) μ β) (σ : Store) :
    Agree A R x (.error .foreign σ) := by
  cases x <;> exact hA

theorem Agree.mono {x : EStateM.Result (Stop RuntimeError) μ β} {y : EStateM.Result Fault Store β}
    (h : Agree A R x y) (hR : ∀ m σ, R m σ → R' m σ) : Agree A R' x y := by
  rcases h.cases with ⟨b, m, σ, rfl, rfl, hr, hv⟩ | ⟨e, m, σ, rfl, rfl, hr, he⟩ | ⟨σ, rfl, hf⟩
  · exact ⟨rfl, hR m σ hr, hv⟩
  · exact ⟨rfl, hR m σ hr, he⟩
  · exact .foreign hf x σ

/-- One computation after the other. -/
theorem Agree.bind {x : EStateM (Stop RuntimeError) μ β} {y : Interp β}
    {f : β → EStateM (Stop RuntimeError) μ γ} {g : β → Interp γ} {m : μ} {σ : Store}
    (h : Agree A R (x m) (y σ)) (hR : ∀ m' σ', R m' σ' → R' m' σ')
    (hf : ∀ b m' σ', R m' σ' → (∀ v ∈ values b, v.Tidy σ'.heap.nextId) →
      Agree A R' (f b m') (g b σ')) :
    Agree A R' ((x >>= f) m) ((y >>= g) σ) := by
  show Agree A R' (EStateM.bind x f m) (EStateM.bind y g σ)
  unfold EStateM.bind
  rcases h.cases with ⟨b, m', σ', hx, hy, hr, hv⟩ | ⟨e, m', σ', hx, hy, hr, he⟩ | ⟨σ', hy, hA⟩
  · rw [hx, hy]
    exact hf b m' σ' hr hv
  · rw [hx, hy]
    exact ⟨rfl, hR m' σ' hr, he⟩
  · rw [hy]
    exact .foreign hA _ σ'

end

/-! ## Outside of a frame -/

/-- Related states that come after the store `σ`. -/
def RelatedAfter (A : Assumptions) (schema : Schema) (place : Placement) (σ : Store) (w' : World)
    (σ' : Store) : Prop :=
  ∃ place', Related A schema place' w' σ' ∧ Later σ.locations.size place place' σ σ'

theorem RelatedAfter.after {A : Assumptions} {schema : Schema} {place place₁ : Placement}
    {σ σ₁ σ' : Store} {w' : World} (h : RelatedAfter A schema place₁ σ₁ w' σ')
    (hl : Later σ.locations.size place place₁ σ σ₁) : RelatedAfter A schema place σ w' σ' := by
  obtain ⟨place', hr, hl'⟩ := h
  exact ⟨place', hr, hl.trans (hl'.lower hl.size) (Nat.le_refl _)⟩

/-- The two computations have the same outcome, if the values at hand are tidy. -/
def Simulates {β : Type} [HasValues β] (A : Assumptions) (schema : Schema) (held : List Value)
    (x : Eval β) (y : Interp β) : Prop :=
  ∀ place w σ, Related A schema place w σ → (∀ v ∈ held, v.Tidy σ.heap.nextId) →
    Agree A (RelatedAfter A schema place σ) (x w) (y σ)

/-- The values `vs` are tidy if those at hand are. -/
def Yields (held vs : List Value) : Prop :=
  ∀ n, (∀ v ∈ held, v.Tidy n) → ∀ v ∈ vs, v.Tidy n

theorem Yields.nil (held : List Value) : Yields held [] := fun _ _ => nofun

theorem Yields.subset {held vs : List Value} (h : ∀ v ∈ vs, v ∈ held) : Yields held vs :=
  fun _ hn v hv => hn v (h v hv)

theorem Yields.mem {held : List Value} {v : Value} (h : v ∈ held) : Yields held [v] := by
  intro n hn u hu
  rw [List.mem_singleton.mp hu]
  exact hn v h

theorem Yields.plain {held : List Value} {v : Value} (h : v.isPlain = true) : Yields held [v] := by
  intro n _ u hu
  rw [List.mem_singleton.mp hu]
  exact .plain h

namespace Simulates

variable {β γ : Type} [HasValues β] [HasValues γ] {A : Assumptions} {schema : Schema}
  {held held' : List Value}

theorem bind {x : Eval β} {y : Interp β} {f : β → Eval γ} {g : β → Interp γ}
    (hx : Simulates A schema held x y)
    (hf : ∀ b, Simulates A schema (values b ++ held) (f b) (g b)) :
    Simulates A schema held (x >>= f) (y >>= g) := by
  intro place w σ hr hk
  refine (hx place w σ hr hk).bind (fun _ _ h => h) ?_
  rintro b w' σ' ⟨place', hr', hl⟩ hv
  have hk' : ∀ v ∈ values b ++ held, v.Tidy σ'.heap.nextId := by
    intro v hmem
    rcases List.mem_append.mp hmem with hmem | hmem
    · exact hv v hmem
    · exact (hk v hmem).mono hl.nextId
  exact (hf b place' w' σ' hr' hk').mono fun _ _ h => h.after hl

theorem weaken {x : Eval β} {y : Interp β} (h : Simulates A schema held x y)
    (hy : Yields held' held) : Simulates A schema held' x y :=
  fun place w σ hr hk => h place w σ hr (hy _ hk)

theorem pure {b : β} (h : Yields held (values b)) :
    Simulates A schema held (Pure.pure b) (Pure.pure b) :=
  fun place _ _ hr hk => ⟨rfl, ⟨place, hr, .refl _ _ _⟩, h _ hk⟩

theorem stop {e : Stop RuntimeError} (he : e ≠ .raised .missingScope) :
    Simulates A schema held (throw e : Eval β) (throw (.stop e)) :=
  fun place _ _ hr _ => ⟨rfl, ⟨place, hr, .refl _ _ _⟩, A.ordinary e he⟩

theorem raise {e : RuntimeError} (he : e ≠ .missingScope) :
    Simulates A schema held (Eval.fail e : Eval β) (Interp.raise e) :=
  stop fun h => he (Stop.raised.inj h)

theorem ofExcept {r : Except RuntimeError β} (hs : InScope r)
    (hv : ∀ b, r = .ok b → Yields held (values b)) :
    Simulates A schema held (Eval.ofExcept r) (Interp.ofExcept r) := by
  cases r with
  | ok b => exact pure (hv b rfl)
  | error e => exact raise fun he => hs (by rw [he])

/-- A result that depends on the heap, if there is one. -/
theorem ofHeap? {f : Heap → Option (Except RuntimeError β)}
    (hs : ∀ heap r, f heap = some r → InScope r)
    (hv : ∀ heap n b, heap.Tidy n → (∀ v ∈ held, v.Tidy n) → f heap = some (.ok b) →
      ∀ v ∈ values b, v.Tidy n) :
    Simulates A schema held (do Eval.ofOption (f (← get).heap))
      (do Interp.ofOption (f (← get).heap)) := by
  intro place w σ hr hk
  show Agree A _ (Eval.ofOption (f w.heap) w) (Interp.ofOption (f σ.heap) σ)
  rw [hr.heap]
  cases hf : f σ.heap with
  | none => exact stop (by simp) place w σ hr hk
  | some r =>
      cases r with
      | ok b => exact ⟨rfl, ⟨place, hr, .refl _ _ _⟩, hv σ.heap _ b hr.tidy.heap hk hf⟩
      | error e => exact raise (fun he => hs σ.heap _ hf (by rw [he])) place w σ hr hk

/-- A result that depends on the heap. -/
theorem ofHeap {f : Heap → Except RuntimeError β} (hs : ∀ heap, InScope (f heap))
    (hv : ∀ heap n b, heap.Tidy n → (∀ v ∈ held, v.Tidy n) → f heap = .ok b →
      ∀ v ∈ values b, v.Tidy n) :
    Simulates A schema held (do Eval.ofExcept (f (← get).heap))
      (do Interp.ofExcept (f (← get).heap)) :=
  ofHeap? (f := fun heap => some (f heap)) (fun heap _ hr => Option.some.inj hr ▸ hs heap)
    fun heap n b ht hk hb => hv heap n b ht hk (Option.some.inj hb)

/-- A change of the heap. -/
theorem onHeap {f : Heap → β × Heap}
    (h : ∀ heap, heap.Tidy heap.nextId → (∀ v ∈ held, v.Tidy heap.nextId) →
      heap.nextId ≤ (f heap).2.nextId ∧ (f heap).2.Tidy (f heap).2.nextId ∧
      ∀ v ∈ values (f heap).1, v.Tidy (f heap).2.nextId) :
    Simulates A schema held
      (modifyGet fun w => ((f w.heap).1, { w with heap := (f w.heap).2 }))
      (modifyGet fun σ => ((f σ.heap).1, { σ with heap := (f σ.heap).2 })) := by
  intro place w σ hr hk
  obtain ⟨hn, ht, hv⟩ := h σ.heap hr.tidy.heap hk
  show Agree A _ (.ok (f w.heap).1 _) (.ok (f σ.heap).1 _)
  rw [hr.heap]
  exact ⟨rfl, ⟨place, hr.withHeap hn ht, hr.withHeap_later hn _⟩, hv⟩

end Simulates

/-! ## Inside a frame -/

/-- A frame of compiled code and the invocation of a lambda that it stands for. -/
structure Activation where
  C : Compilation
  lambda : Lambda Value
  outer : List (Lambda Value)
  bindings : Bindings
  env : Env
  frame : Frame
  /-- Number of slots. -/
  count : Nat
  params : bindings.params = lambda.params.map (·.id)
  shared : bindings.shared = lambda.shared
  arity : lambda.params.length ≤ count
  program : frame.scope.program = C.program

/-- The frame and the invocation are in the same state. A parameter without a cell is in its
slot. -/
structure Running (A : Assumptions) (Φ : Activation) (place : Placement) (m : Machine)
    (σ : Store) : Prop where
  related : Related A Φ.C.schema place m.world σ
  tidy : TidyEvents σ.heap.nextId Φ.C.root.walk
  represents : Represents Φ.C place Φ.frame.scope Φ.lambda Φ.outer Φ.env
  held : Holds place (Φ.C.hoisted Φ.lambda) Φ.bindings Φ.frame.cells
  bound : Φ.bindings.base + Φ.lambda.params.length ≤ σ.locations.size
  count : m.slots.size = Φ.count
  slots : ∀ p i, lastIndex? p Φ.bindings.params = some i → p ∉ Φ.C.hoisted Φ.lambda →
    place (Φ.bindings.base + i) = none ∧ m.slots[i]? = σ.locations[Φ.bindings.base + i]?

/-- What is known while a frame runs: what some slots hold, and values that are tidy. -/
structure Held where
  slots : List (Nat × Value) := []
  values : List Value := []

namespace Held

/-- More values. -/
def add (H : Held) (vs : List Value) : Held := { H with values := vs ++ H.values }

/-- One more slot. -/
def keep (H : Held) (slot : Nat) (v : Value) : Held := { H with slots := (slot, v) :: H.slots }

/-- What is known is true. -/
structure Fits (H : Held) (m : Machine) (σ : Store) : Prop where
  slots : ∀ t v, (t, v) ∈ H.slots → m.slots[t]? = some v
  values : ∀ v ∈ H.values, v.Tidy σ.heap.nextId

/-- The slots are temporaries below `n`, after `arity` arguments. -/
def Within (H : Held) (arity n : Nat) : Prop := ∀ t v, (t, v) ∈ H.slots → arity ≤ t ∧ t < n

theorem Within.mono {H : Held} {arity n m : Nat} (h : H.Within arity n) (hnm : n ≤ m) :
    H.Within arity m :=
  fun t v ht => ⟨(h t v ht).1, Nat.lt_of_lt_of_le (h t v ht).2 hnm⟩

theorem Within.keep {H : Held} {arity n : Nat} (h : H.Within arity n) (ha : arity ≤ n) (v : Value) :
    (H.keep n v).Within arity (n + 1) := by
  intro t u ht
  rcases List.mem_cons.mp ht with heq | ht
  · cases heq
    exact ⟨ha, Nat.lt_succ_self n⟩
  · have := h t u ht
    omega

end Held

/-- Inside the frame, the two computations have the same outcome; what is known stays true. -/
def Follows {β : Type} [HasValues β] (A : Assumptions) (Φ : Activation) (H : Held) (x : Exec β)
    (y : Interp β) : Prop :=
  ∀ place m σ, Running A Φ place m σ → H.Fits m σ →
    Agree A (fun m' σ' => ∃ place', Running A Φ place' m' σ' ∧
      Later Φ.bindings.base place place' σ σ' ∧ H.Fits m' σ') (x m) (y σ)

namespace Follows

variable {β γ : Type} [HasValues β] [HasValues γ] {A : Assumptions} {Φ : Activation} {H : Held}

theorem bind {x : Exec β} {y : Interp β} {f : β → Exec γ} {g : β → Interp γ}
    (hx : Follows A Φ H x y) (hf : ∀ b, Follows A Φ (H.add (values b)) (f b) (g b)) :
    Follows A Φ H (x >>= f) (y >>= g) := by
  intro place m σ hr hk
  refine (hx place m σ hr hk).bind (fun _ _ h => h) ?_
  rintro b m' σ' ⟨place', hr', hl, hk'⟩ hv
  have hk'' : (H.add (values b)).Fits m' σ' := by
    refine ⟨hk'.slots, fun v hmem => ?_⟩
    rcases List.mem_append.mp hmem with hmem | hmem
    · exact hv v hmem
    · exact hk'.values v hmem
  refine (hf b place' m' σ' hr' hk'').mono ?_
  rintro m'' σ'' ⟨place'', hr'', hl', hk₂⟩
  have hb : Φ.bindings.base ≤ σ.locations.size := by
    have := hr.bound
    omega
  exact ⟨place'', hr'', hl.trans hl' hb, hk₂.slots, fun v hv =>
    hk₂.values v (List.mem_append_right _ hv)⟩

theorem pure {b : β} (h : Yields H.values (values b)) :
    Follows A Φ H (Pure.pure b) (Pure.pure b) :=
  fun place _ _ hr hk => ⟨rfl, ⟨place, hr, .refl _ _ _, hk⟩, h _ hk.values⟩

theorem ofExcept {r : Except RuntimeError β} (hs : InScope r)
    (hv : ∀ b, r = .ok b → Yields H.values (values b)) :
    Follows A Φ H (Exec.ofExcept r) (Interp.ofExcept r) := by
  cases r with
  | ok b => exact pure (hv b rfl)
  | error e =>
      intro place m σ hr hk
      have hne : e ≠ .missingScope := fun he => hs (by rw [he])
      exact ⟨rfl, ⟨place, hr, .refl _ _ _, hk⟩, A.ordinary _ fun he => hne (Stop.raised.inj he)⟩

end Follows

/-- What happens outside of the frame leaves the frame as it is. -/
theorem Running.later {A : Assumptions} {Φ : Activation} {place place' : Placement} {m : Machine}
    {σ σ' : Store} {w' : World} (h : Running A Φ place m σ) (hr : Related A Φ.C.schema place' w' σ')
    (hl : Later σ.locations.size place place' σ σ') :
    Running A Φ place' { m with world := w' } σ' where
  related := hr
  tidy := h.tidy.mono hl.nextId
  represents := h.represents.mono hl.placement
  held := h.held.mono hl.placement
  bound := Nat.le_trans h.bound hl.size
  count := h.count
  slots p i hi hp := by
    obtain ⟨hnone, heq⟩ := h.slots p i hi hp
    have hlt : Φ.bindings.base + i < σ.locations.size := by
      have hget := getElem?_of_lastIndex? hi
      rw [Φ.params] at hget
      have := (List.getElem?_eq_some_iff.mp hget).1
      have := h.bound
      simp only [List.length_map] at *
      omega
    exact ⟨hl.placement.unplaced _ hlt hnone, heq.trans (hl.kept _ hlt hnone).symm⟩

theorem Follows.ofEval {β : Type} [HasValues β] {A : Assumptions} {Φ : Activation} {H : Held}
    {held : List Value} {x : Eval β} {y : Interp β} (h : Simulates A Φ.C.schema held x y)
    (hy : Yields H.values held) : Follows A Φ H (Exec.ofEval x) y := by
  intro place m σ hr hk
  have hx := h place m.world σ hr.related (hy _ hk.values)
  have hb : Φ.bindings.base ≤ σ.locations.size := by
    have := hr.bound
    omega
  unfold Exec.ofEval
  -- both end, both fail, or the interpreter has called a host function without a meaning
  rcases hx.cases with ⟨b, w', σ', hxw, hyσ, ⟨place', hr', hl⟩, hv⟩ |
    ⟨e, w', σ', hxw, hyσ, ⟨place', hr', hl⟩, he⟩ | ⟨σ', hyσ, hA⟩
  · have hk' : H.Fits { m with world := w' } σ' :=
      ⟨hk.slots, fun v hmem => (hk.values v hmem).mono hl.nextId⟩
    rw [hxw, hyσ]
    exact ⟨rfl, ⟨place', hr.later hr' hl, hl.lower hb, hk'⟩, hv⟩
  · have hk' : H.Fits { m with world := w' } σ' :=
      ⟨hk.slots, fun v hmem => (hk.values v hmem).mono hl.nextId⟩
    rw [hxw, hyσ]
    exact ⟨rfl, ⟨place', hr.later hr' hl, hl.lower hb, hk'⟩, he⟩
  · rw [hyσ]
    exact .foreign hA _ σ'

end ExprTree
