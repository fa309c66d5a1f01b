import ExprTree.Proofs.Simulation.Nodes

set_option autoImplicit false

/-! # Invocations follow the interpreter

Entering a lambda makes a frame on one side and binds parameters on the other; afterwards the frame
and the invocation are in the same state (`Entry.running`). With the result on trees this gives the
simulation of invocations, by induction on how deep they stand inside one another. A host function
is followed step by step, and host calls are simulated by induction on how often they may hand over
to compiled code.
-/

namespace ExprTree

open Lexical (Bindings Env Store Interp Fault Closure location?)

/-! ## Entering a lambda -/

theorem idxOf?_of_getElem? {xs : List Nat} (hn : xs.Nodup) {k x : Nat} (h : xs[k]? = some x) :
    xs.idxOf? x = some k := by
  obtain ⟨hlt, hx⟩ := List.getElem?_eq_some_iff.mp h
  rw [List.idxOf?_eq_some_iff]
  refine ⟨hlt, hx, fun j hj hxj => ?_⟩
  exact List.pairwise_iff_getElem.mp hn j k _ hlt hj (hxj.trans hx.symm)

theorem getElem?_of_idxOf? {xs : List Nat} {k x : Nat} (h : xs.idxOf? x = some k) :
    xs[k]? = some x := by
  obtain ⟨hlt, hx, -⟩ := List.idxOf?_eq_some_iff.mp h
  exact List.getElem?_eq_some_iff.mpr ⟨hlt, hx⟩

/-- The placement after binding `params` from the location `base` on, if the parameters `ids` among
them move into the cells `c`. -/
def Placement.bind (place : Placement) (params ids : List Nat) (base c : Nat) : Placement where
  cell l :=
    if l < base then place l
    else
      params[l - base]?.bind fun p =>
        if lastIndex? p params = some (l - base) then (ids.idxOf? p).map (c, ·) else none
  width x := if x = c ∧ ids ≠ [] then some ids.length else place.width x

namespace Placement

variable {place : Placement} {params ids : List Nat} {base c : Nat}

theorem bind_lt {l : Nat} (h : l < base) : place.bind params ids base c l = place l := by
  simp [bind, h]

/-- The cell of a bound parameter, if it has one. -/
theorem bind_add {p i : Nat} (h : lastIndex? p params = some i) :
    place.bind params ids base c (base + i) = (ids.idxOf? p).map (c, ·) := by
  have hnot : ¬ base + i < base := by omega
  simp [bind, hnot, getElem?_of_lastIndex? h, h]

/-- A new location with a cell is that of a hoisted parameter. -/
theorem bind_eq_some {l : Nat} (hl : ¬ l < base) {cell : Nat × Nat}
    (h : place.bind params ids base c l = some cell) :
    ∃ p k, lastIndex? p params = some (l - base) ∧ ids[k]? = some p ∧ cell = (c, k) := by
  simp only [bind, hl, ↓reduceIte] at h
  obtain ⟨p, -, h⟩ := Option.bind_eq_some_iff.mp h
  split at h
  case isFalse => cases h
  case isTrue hp =>
    obtain ⟨k, hk, rfl⟩ := Option.map_eq_some_iff.mp h
    exact ⟨p, k, hp, getElem?_of_idxOf? hk, rfl⟩

end Placement

/-- The values that move into cells: the arguments of the hoisted parameters. -/
theorem hoisted_values {C : Compilation} (hid : Identified C.root.walk) {l : Lambda Value}
    (hl : .enter l ∈ C.root.walk) (parent : Option Nat) (count : Nat) (code : Code) {k p i : Nat}
    (hk : (C.hoisted l)[k]? = some p) (hi : lastIndex? p (l.params.map (·.id)) = some i)
    (f : Nat → Value) :
    ((l.codeUnit C.root.captures parent count code).hoisted.map fun h => f h.argument)[k]?
      = some (f i) := by
  have hdec : ∀ q ∈ C.root.captures.ofLambda l.id, q.id ∈ l.params.map (·.id) := fun q hq =>
    Lambda.declares_iff.mp (Compilation.declares_of_hoisted hid hl (List.mem_map_of_mem hq))
  obtain ⟨q, hq, rfl⟩ : ∃ q, (C.root.captures.ofLambda l.id)[k]? = some q ∧ q.id = p := by
    simpa [Compilation.hoisted, Captures.idsOf] using hk
  show ((hoistedOf (l.params.map (·.id)) (C.root.captures.ofLambda l.id)).map fun h =>
    f h.argument)[k]? = some (f i)
  rw [hoistedOf_eq hdec]
  simp [hq, hi]

/-- The cells of a new frame, and the world with them. -/
def CodeUnit.newCells (u : CodeUnit) (args : List Value) (w : World) : Option Nat × World :=
  if u.hoisted.isEmpty then (none, w)
  else
    let (id, w) := w.newCells
      (u.hoisted.map fun h => (u.slots args)[h.argument]?.getD .null).toArray
    (some id, w)

theorem CodeUnit.run_eq (u : CodeUnit) (cx : Context) (scope : Scope) (depth : UInt32)
    (args : List Value) (w : World) :
    u.run cx scope depth args w = match u.body.run cx ⟨scope, (u.newCells args w).1, depth⟩
        ⟨u.slots args, (u.newCells args w).2⟩ with
      | .ok v m => .ok v m.world
      | .error e m => .error e m.world := rfl

/-- Everything that is known when a lambda is entered. -/
structure Entry (A : Assumptions) (C : Compilation) (place : Placement) (w : World) (σ : Store)
    (s : Scope) (l : Lambda Value) (outer : List (Lambda Value)) (env : Env) (u : CodeUnit)
    (args : List Value) : Prop where
  related : Related A C.schema place w σ
  tidy : TidyEvents σ.heap.nextId C.root.walk
  represents : Represents C place s l outer env
  inside : Inside C.root (l :: outer) l.body.walk
  unit : ∃ parent s₀ code s₁, s₀.slots = l.params.length ∧
    l.body.emit C.context (C.scope l outer s.unit) s₀ = .ok (code, s₁) ∧
    s₀.Installed C.program s₁.slots s₁ ∧ u = l.codeUnit C.root.captures parent s₁.slots code
  length : args.length = l.params.length
  args : ∀ v ∈ args, v.Tidy σ.heap.nextId

namespace Entry

variable {A : Assumptions} {C : Compilation} {place : Placement} {w : World} {σ : Store} {s : Scope}
  {l : Lambda Value} {outer : List (Lambda Value)} {env : Env} {u : CodeUnit} {args : List Value}

theorem mem (h : Entry A C place w σ s l outer env u args) : .enter l ∈ C.root.walk :=
  h.represents.around_mem l List.mem_cons_self

theorem unit_eq (h : Entry A C place w σ s l outer env u args) :
    ∃ parent count code, l.params.length ≤ count ∧
      u = l.codeUnit C.root.captures parent count code := by
  obtain ⟨parent, s₀, code, s₁, hslots, he, -, hu⟩ := h.unit
  exact ⟨parent, s₁.slots, code, hslots ▸ (Node.emit_grows l.body he).slots, hu⟩

/-- The activation that starts. -/
def activation (h : Entry A C place w σ s l outer env u args) (depth : UInt32) : Activation where
  C := C
  lambda := l
  outer := outer
  bindings := Lexical.bindingsOf l σ.locations.size
  env := env
  frame := ⟨s, (u.newCells args w).1, depth⟩
  count := u.slotCount
  params := rfl
  shared := rfl
  arity := by
    obtain ⟨_, _, _, hle, rfl⟩ := h.unit_eq
    exact hle
  program := h.represents.program_eq

/-- The placement of the new locations. -/
def placement (_ : Entry A C place w σ s l outer env u args) : Placement :=
  place.bind (l.params.map (·.id)) (C.hoisted l) σ.locations.size w.cells.size

/-- Only locations that exist are placed. -/
theorem placed_lt (h : Entry A C place w σ s l outer env u args) {loc : Nat} {c : Nat × Nat}
    (hp : place loc = some c) : loc < σ.locations.size ∧ c.1 < w.cells.size := by
  obtain ⟨v, hc, hv⟩ := h.related.cells loc c.1 c.2 hp
  obtain ⟨cells, hcells, -⟩ := Option.bind_eq_some_iff.mp hc
  exact ⟨(Array.getElem?_eq_some_iff.mp hv).1, (Array.getElem?_eq_some_iff.mp hcells).1⟩

theorem extends_placement (h : Entry A C place w σ s l outer env u args) :
    place.Extends h.placement σ.locations.size := by
  refine ⟨fun loc c hp => ?_, fun loc hloc hp => ?_, fun c n hn => ?_⟩
  · rw [placement, Placement.bind_lt (h.placed_lt hp).1]
    exact hp
  · rw [placement, Placement.bind_lt hloc]
    exact hp
  · -- the new cells are none of those that have a width already
    have hne : c ≠ w.cells.size := Nat.ne_of_lt (h.related.widths c n hn).1
    exact (if_neg fun hc => hne hc.1).trans hn

theorem placement_argument (h : Entry A C place w σ s l outer env u args) {p i : Nat}
    (hi : lastIndex? p (l.params.map (·.id)) = some i) :
    h.placement (σ.locations.size + i) = ((C.hoisted l).idxOf? p).map (w.cells.size, ·) :=
  Placement.bind_add hi

/-- An argument is in its slot and at its location. -/
theorem argument (h : Entry A C place w σ s l outer env u args) {p i : Nat}
    (hi : lastIndex? p (l.params.map (·.id)) = some i) :
    ∃ v, args[i]? = some v ∧ (u.slots args)[i]? = some v ∧
      (σ.locations ++ args.toArray)[σ.locations.size + i]? = some v := by
  have hlt : i < args.length := by
    have hget := (List.getElem?_eq_some_iff.mp (getElem?_of_lastIndex? hi)).1
    rw [List.length_map] at hget
    rw [h.length]
    exact hget
  refine ⟨args[i], List.getElem?_eq_getElem hlt, ?_, ?_⟩
  · rw [CodeUnit.slots, List.getElem?_toArray, List.getElem?_append_left hlt]
    exact List.getElem?_eq_getElem hlt
  · simp [hlt]

/-- The unit has as many cells as its lambda has hoisted parameters. -/
theorem hoisted_length (h : Entry A C place w σ s l outer env u args) :
    u.hoisted.length = (C.hoisted l).length := by
  obtain ⟨parent, count, code, -, rfl⟩ := h.unit_eq
  have hdec : ∀ q ∈ C.root.captures.ofLambda l.id, q.id ∈ l.params.map (·.id) := fun q hq =>
    Lambda.declares_iff.mp
      (Compilation.declares_of_hoisted h.tidy.identified h.mem (List.mem_map_of_mem hq))
  show (hoistedOf (l.params.map (·.id)) (C.root.captures.ofLambda l.id)).length = _
  rw [hoistedOf_eq hdec]
  simp [Compilation.hoisted, Captures.idsOf]

/-- Without hoisted parameters there are no cells. -/
theorem hoisted_isEmpty (h : Entry A C place w σ s l outer env u args) {k p : Nat}
    (hk : (C.hoisted l)[k]? = some p) : u.hoisted.isEmpty = false := by
  have hlt := (List.getElem?_eq_some_iff.mp hk).1
  rw [List.isEmpty_eq_false_iff]
  intro hnil
  rw [← h.hoisted_length, hnil] at hlt
  cases hlt

theorem newCells_some (h : Entry A C place w σ s l outer env u args) {k p : Nat}
    (hk : (C.hoisted l)[k]? = some p) : (u.newCells args w).1 = some w.cells.size := by
  unfold CodeUnit.newCells
  rw [h.hoisted_isEmpty hk]
  rfl

/-- A hoisted argument is in its cell. -/
theorem newCells_cell (h : Entry A C place w σ s l outer env u args) {k p i : Nat} {v : Value}
    (hk : (C.hoisted l)[k]? = some p) (hi : lastIndex? p (l.params.map (·.id)) = some i)
    (hv : args[i]? = some v) : (u.newCells args w).2.cell? w.cells.size k = some v := by
  obtain ⟨v', hv', hslot, -⟩ := h.argument hi
  rw [hv] at hv'
  cases hv'
  have hempty := h.hoisted_isEmpty hk
  obtain ⟨parent, count, code, -, rfl⟩ := h.unit_eq
  have hget := hoisted_values h.tidy.identified h.mem parent count code hk hi fun j =>
    (((l.codeUnit C.root.captures parent count code).slots args)[j]?).getD .null
  rw [hslot] at hget
  unfold CodeUnit.newCells
  rw [hempty]
  simp only [Bool.false_eq_true, ↓reduceIte, World.newCells, World.cell?, Array.getElem?_push_size,
    Option.bind_some]
  simpa using hget

/-- The new cells hold the hoisted parameters and nothing else. -/
theorem newCells_beyond (h : Entry A C place w σ s l outer env u args) (hne : C.hoisted l ≠ []) :
    w.cells.size < (u.newCells args w).2.cells.size ∧
      ∀ k, (C.hoisted l).length ≤ k → (u.newCells args w).2.cell? w.cells.size k = none := by
  obtain ⟨p, hp⟩ := List.exists_mem_of_ne_nil _ hne
  obtain ⟨k, hk⟩ := List.mem_iff_getElem?.mp hp
  unfold CodeUnit.newCells
  rw [h.hoisted_isEmpty hk]
  refine ⟨by simp [World.newCells], fun j hj => ?_⟩
  simp only [Bool.false_eq_true, ↓reduceIte, World.newCells, World.cell?, Array.getElem?_push_size,
    Option.bind_some]
  simpa [h.hoisted_length] using hj

/-- A frame with cells has hoisted parameters. -/
theorem newCells_width (h : Entry A C place w σ s l outer env u args) {c : Nat}
    (hc : (u.newCells args w).1 = some c) : h.placement.width c = some (C.hoisted l).length := by
  unfold CodeUnit.newCells at hc
  split at hc
  · cases hc
  · rename_i hne
    cases hc
    have hids : C.hoisted l ≠ [] := by
      intro hnil
      rw [List.isEmpty_iff_length_eq_zero, h.hoisted_length, hnil] at hne
      exact hne rfl
    exact if_pos ⟨rfl, hids⟩

end Entry

/-- Making cells leaves the rest of the world as it is. -/
theorem CodeUnit.newCells_rest (u : CodeUnit) (args : List Value) (w : World) :
    (u.newCells args w).2.heap = w.heap ∧ (u.newCells args w).2.calls = w.calls ∧
      (u.newCells args w).2.closures = w.closures ∧
      w.cells.size ≤ (u.newCells args w).2.cells.size ∧
      ∀ c k, c < w.cells.size → (u.newCells args w).2.cell? c k = w.cell? c k := by
  unfold CodeUnit.newCells
  split
  · exact ⟨rfl, rfl, rfl, Nat.le_refl _, fun _ _ _ => rfl⟩
  · refine ⟨rfl, rfl, rfl, by simp [World.newCells], fun c k hc => ?_⟩
    simp [World.newCells, World.cell?, Array.getElem?_push, Nat.ne_of_lt hc]

namespace Entry

variable {A : Assumptions} {C : Compilation} {place : Placement} {w : World} {σ : Store} {s : Scope}
  {l : Lambda Value} {outer : List (Lambda Value)} {env : Env} {u : CodeUnit} {args : List Value}

/-- The store after binding the arguments. -/
def store (_ : Entry A C place w σ s l outer env u args) : Store :=
  { σ with locations := σ.locations ++ args.toArray }

theorem later (h : Entry A C place w σ s l outer env u args) :
    Later σ.locations.size place h.placement σ h.store := by
  refine ⟨h.extends_placement, by simp [store], Nat.le_refl _, fun loc hloc _ => ?_⟩
  simp [store, Array.getElem?_append_left hloc]

theorem placement_old (h : Entry A C place w σ s l outer env u args) {loc : Nat} {c : Nat × Nat}
    (hloc : loc < σ.locations.size) (hp : h.placement loc = some c) : place loc = some c := by
  rwa [placement, Placement.bind_lt hloc] at hp

/-- A location that is new and placed belongs to a hoisted parameter. -/
theorem placement_new (h : Entry A C place w σ s l outer env u args) {loc : Nat} {c : Nat × Nat}
    (hloc : ¬ loc < σ.locations.size) (hp : h.placement loc = some c) :
    ∃ p k i, lastIndex? p (l.params.map (·.id)) = some i ∧ loc = σ.locations.size + i ∧
      (C.hoisted l)[k]? = some p ∧ c = (w.cells.size, k) := by
  obtain ⟨p, k, hi, hk, rfl⟩ := Placement.bind_eq_some hloc hp
  exact ⟨p, k, loc - σ.locations.size, hi, by omega, hk, rfl⟩

/-- Old locations keep cells of their own: the new ones are placed behind all cells there are. -/
theorem placement_injective (h : Entry A C place w σ s l outer env u args) (loc loc' : Nat)
    (c : Nat × Nat) (hp : h.placement loc = some c) (hp' : h.placement loc' = some c) :
    loc = loc' := by
  by_cases hloc : loc < σ.locations.size <;> by_cases hloc' : loc' < σ.locations.size
  · exact h.related.injective loc loc' c (h.placement_old hloc hp) (h.placement_old hloc' hp')
  · have hlt := (h.placed_lt (h.placement_old hloc hp)).2
    obtain ⟨_, _, _, -, -, -, rfl⟩ := h.placement_new hloc' hp'
    exact absurd hlt (Nat.lt_irrefl _)
  · have hlt := (h.placed_lt (h.placement_old hloc' hp')).2
    obtain ⟨_, _, _, -, -, -, rfl⟩ := h.placement_new hloc hp
    exact absurd hlt (Nat.lt_irrefl _)
  · obtain ⟨p, k, i, hi, rfl, hk, rfl⟩ := h.placement_new hloc hp
    obtain ⟨p', k', i', hi', rfl, hk', heq⟩ := h.placement_new hloc' hp'
    cases heq
    -- the same position in the cells is the same parameter, so the same argument
    rw [hk] at hk'
    cases hk'
    rw [hi] at hi'
    cases hi'
    rfl

theorem related_store (h : Entry A C place w σ s l outer env u args) :
    Related A C.schema h.placement (u.newCells args w).2 h.store := by
  have hr := h.related
  obtain ⟨hheap, hcalls, hclosures, hsize, hcells⟩ := u.newCells_rest args w
  refine ⟨hheap.trans hr.heap, hcalls.trans hr.calls, hclosures ▸ hr.closures, ?_, ?_,
    h.placement_injective, ?_, ?_, hr.base⟩
  · intro i t c ht hc
    -- closures that exist are still represented: nothing they are placed at has moved
    exact (hr.matching i t c (hclosures ▸ ht) hc).mono (Nat.le_refl _) h.extends_placement
  · intro loc c k hp
    by_cases hloc : loc < σ.locations.size
    · have hp' := h.placement_old hloc hp
      obtain ⟨v, hc, hv⟩ := hr.cells loc c k hp'
      refine ⟨v, ?_, ?_⟩
      · rw [hcells c k (h.placed_lt hp').2, hc]
      · simp [store, Array.getElem?_append_left hloc, hv]
    · obtain ⟨p, k', i, hi, rfl, hk, heq⟩ := h.placement_new hloc hp
      cases heq
      obtain ⟨v, hv, -, hlocs⟩ := h.argument hi
      exact ⟨v, h.newCells_cell hk hi hv, hlocs⟩
  · intro c n hn
    simp only [placement, Placement.bind] at hn
    split at hn
    · rename_i hc
      obtain ⟨rfl, hne⟩ := hc
      cases hn
      exact h.newCells_beyond hne
    · obtain ⟨hlt, hbeyond⟩ := hr.widths c n hn
      exact ⟨Nat.lt_of_lt_of_le hlt hsize, fun k hk => (hcells c k hlt).trans (hbeyond k hk)⟩
  · refine ⟨hr.tidy.heap, ?_, hr.tidy.calls⟩
    intro v hv
    rcases Array.mem_append.mp hv with hv | hv
    · exact hr.tidy.locations v hv
    · exact h.args v (by simpa using hv)

/-- **After entering a lambda, frame and invocation are in the same state.** -/
theorem running (h : Entry A C place w σ s l outer env u args) (depth : UInt32) :
    Running A (h.activation depth) h.placement ⟨u.slots args, (u.newCells args w).2⟩ h.store where
  related := h.related_store
  tidy := h.tidy
  represents := h.represents.mono h.extends_placement
  held := by
    refine ⟨fun k p hk => ?_, fun c hc => h.newCells_width hc⟩
    -- a hoisted parameter is declared, so it is an argument with a new location
    obtain ⟨i, hi⟩ := Lambda.lastIndex?_of_declares
      (Compilation.declares_of_hoisted h.tidy.identified h.mem (List.mem_of_getElem? hk))
    have hidx := idxOf?_of_getElem? (idsOf_nodup C.root l.id) hk
    exact ⟨w.cells.size, i, h.newCells_some hk, hi,
      (h.placement_argument hi).trans (congrArg (Option.map (w.cells.size, ·)) hidx)⟩
  bound := by simp [activation, store, Lexical.bindingsOf, h.length]
  count := by
    obtain ⟨parent, count, code, hle, rfl⟩ := h.unit_eq
    have hlen := h.length
    simp only [CodeUnit.slots, List.size_toArray, List.length_append, List.length_replicate]
    show args.length + (count - args.length) = count
    omega
  slots p i hi hp := by
    obtain ⟨v, -, hslot, hloc⟩ := h.argument hi
    have hidx := List.idxOf?_eq_none_iff.mpr hp
    exact ⟨(h.placement_argument hi).trans (congrArg (Option.map (w.cells.size, ·)) hidx),
      hslot.trans hloc.symm⟩

/-- The body of the lambda has the same outcome on both sides. -/
theorem agrees (h : Entry A C place w σ s l outer env u args) {cx : Context}
    {cx' : Lexical.Context} (hcx : ContextsMatch A C.schema cx cx')
    (hlimit : cx'.limit = C.program.options.maxCallDepth) {depth : UInt32}
    (hdepth : cx'.depth = depth) :
    Agree A (RelatedAfter A C.schema place σ) (u.run cx s depth args w)
      (l.body.interpret cx' (Lexical.bindingsOf l σ.locations.size :: env) h.store) := by
  obtain ⟨parent, s₀, code, s₁, hslots, he, hinst, hu⟩ := h.unit
  have hcode : u.body = code := by rw [hu]; rfl
  have hcount : u.slotCount = s₁.slots := by rw [hu]; rfl
  have hpart : Part (h.activation depth) {} s₀ s₁ l.body.walk := by
    refine ⟨?_, h.inside, nofun, Nat.le_of_eq hslots.symm⟩
    show s₀.Installed C.program u.slotCount s₁
    rw [hcount]
    exact hinst
  have hfollows : Follows A (h.activation depth) {}
      (code.run cx (h.activation depth).frame)
      (l.body.interpret cx' (h.activation depth).environment) :=
    Node.follows hcx ⟨hlimit, hdepth⟩ l.body he hpart
  have hbody : Agree A _
      (code.run cx ⟨s, (u.newCells args w).1, depth⟩ ⟨u.slots args, (u.newCells args w).2⟩)
      (l.body.interpret cx' (Lexical.bindingsOf l σ.locations.size :: env) h.store) :=
    hfollows h.placement _ h.store (h.running _) ⟨nofun, nofun⟩
  rw [CodeUnit.run_eq, hcode]
  -- what the body leaves in the slots is forgotten
  rcases hbody.cases with ⟨v, m, σ', hx, hy, ⟨place', hr, hl, -⟩, hv⟩ |
    ⟨e, m, σ', hx, hy, ⟨place', hr, hl, -⟩, ha⟩ | ⟨σ', hy, hA⟩
  · rw [hx, hy]
    exact ⟨rfl, ⟨place', hr.related, h.later.trans hl (Nat.le_refl _)⟩, hv⟩
  · rw [hx, hy]
    exact ⟨rfl, ⟨place', hr.related, h.later.trans hl (Nat.le_refl _)⟩, ha⟩
  · rw [hy]
    exact .foreign hA _ σ'

end Entry

/-! ## Invoking closures -/

section Invoking

variable {A : Assumptions} {schema : Schema} {host : HostRef → List Value → Eval Value}
  {host' : HostRef → List Value → Interp Value}

theorem length_of_checkArguments {l : Lambda Value} {args : List Value}
    (h : checkArguments schema l.signature args = .ok ()) : args.length = l.params.length := by
  unfold checkArguments at h
  split at h
  case isTrue hlen => simpa [Lambda.signature] using hlen
  case isFalse => cases h

/-- There are as many closures on both sides. -/
theorem Related.closures_none {place : Placement} {w : World} {σ : Store}
    (hr : Related A schema place w σ) {f : FunctionRef} (hs : w.scope? f = none) :
    σ.closures[f.id]? = none := by
  have hsize := Array.getElem?_eq_none_iff.mp hs
  exact Array.getElem?_eq_none_iff.mpr (hr.closures ▸ hsize)

theorem Related.closures_some {place : Placement} {w : World} {σ : Store}
    (hr : Related A schema place w σ) {f : FunctionRef} {s : Scope} (hs : w.scope? f = some s) :
    ∃ c, σ.closures[f.id]? = some c ∧ ClosuresMatch schema σ.heap.nextId place s c := by
  have hlt : f.id < σ.closures.size := hr.closures ▸ (Array.getElem?_eq_some_iff.mp hs).1
  have hc := Array.getElem?_eq_getElem hlt
  exact ⟨_, hc, hr.matching f.id s _ hs hc⟩

/-- A function value leads to matching closures, or to none. -/
theorem Simulates.ofClosure {f : FunctionRef} {args : List Value} {x : Scope → Eval Value}
    {y : Closure → Interp Value}
    (h : ∀ place w σ s c, Related A schema place w σ →
      ClosuresMatch schema σ.heap.nextId place s c → (∀ v ∈ args, v.Tidy σ.heap.nextId) →
      Agree A (RelatedAfter A schema place σ) (x s w) (y c σ)) :
    Simulates A schema args (do x (← Eval.scopeOf f)) (do y (← Interp.closureOf f)) := by
  intro place w σ hr hk
  show Agree A _ (EStateM.bind (Eval.scopeOf f) x w) (EStateM.bind (Interp.closureOf f) y σ)
  rw [EStateM.bind, EStateM.bind, Eval.scopeOf, get_bind]
  cases hs : w.scope? f with
  | none =>
      rw [Interp.closureOf_of_none (hr.closures_none hs)]
      exact Simulates.raise (by simp) place w σ hr hk
  | some s =>
      obtain ⟨c, hc, hm⟩ := hr.closures_some hs
      rw [Interp.closureOf_eq hc]
      exact h place w σ s c hr hm hk

/-- **Invoking matching closures on the same arguments has the same outcome.** The induction is on
how deep invocations may stand inside one another. -/
theorem invokeAt_agrees (hhost : ∀ f args, Simulates A schema args (host f args) (host' f args))
    (arrayLimit nesting : Nat) (depth : UInt32) {place : Placement} {w : World} {σ : Store}
    {s : Scope} {c : Closure} {args : List Value} (hr : Related A schema place w σ)
    (hc : ClosuresMatch schema σ.heap.nextId place s c)
    (hargs : ∀ v ∈ args, v.Tidy σ.heap.nextId) :
    Agree A (RelatedAfter A schema place σ)
      (invokeAt schema arrayLimit host nesting depth s args w)
      (Lexical.invokeAt schema arrayLimit host' nesting depth c args σ) := by
  induction nesting generalizing depth place w σ s c args with
  | zero => exact Simulates.stop (by simp) place w σ hr hargs
  | succ nesting ih =>
      obtain ⟨C, outer, rfl, ht, hrep, hlimit⟩ := hc
      obtain ⟨parent, hu⟩ := hrep.unitAt
      obtain ⟨s₀, code, s₁, hslots, he, hinst, hunit⟩ := hu.emitted
      have hunit? : s.unit? = some (c.lambda.codeUnit C.root.captures parent s₁.slots code) := by
        rw [Scope.unit?, hrep.program_eq]
        exact hunit
      have hsig : (c.lambda.codeUnit C.root.captures parent s₁.slots code).signature
          = c.lambda.signature := rfl
      unfold invokeAt Lexical.invokeAt
      -- both sides compare the depth with the same limit before they look at the arguments
      rw [hrep.program_eq, ← hlimit]
      cases hdepth : checkCallDepth depth c.limit with
      | error e =>
          refine Simulates.raise (fun he => ?_) place w σ hr hargs
          exact InScope.callDepth depth c.limit (by rw [hdepth, he])
      | ok _ =>
          simp only [hunit?, hsig]
          cases hcheck : checkArguments C.schema c.lambda.signature args with
          | error e =>
              refine Simulates.raise (fun he => ?_) place w σ hr hargs
              exact InScope.arguments C.schema c.lambda.signature args (by rw [hcheck, he])
          | ok _ =>
              have hentry : Entry A C place w σ s c.lambda outer c.env _ args :=
                ⟨hr, ht, hrep, hu.inside, ⟨parent, s₀, code, s₁, hslots, he, hinst, rfl⟩,
                  length_of_checkArguments hcheck, hargs⟩
              refine hentry.agrees ⟨rfl, rfl, rfl, fun depth f args => ?_, hhost⟩ hlimit rfl
              exact .ofClosure fun _ _ _ _ _ hr' hc' hargs' => ih depth hr' hc' hargs'

end Invoking

/-! ## Compiled roots -/

/-- All results of an emission are installed in the program made from it. -/
theorem EmitState.Installed.whole (s s' : EmitState) (options : Options) :
    s.Installed ⟨s'.units, s'.pool, options⟩ s'.slots s' :=
  ⟨fun _ _ _ => rfl, .refl _, Nat.le_refl _⟩

/-- A compiled root lambda has its unit at the first position. -/
theorem Program.unitAt_root {schema : Schema} {options : Options} {root : Lambda Value}
    {p : Program} (h : ofLambda schema options root = .ok p) :
    (Compilation.mk schema root p).UnitAt root [] none 0 := by
  obtain ⟨⟨u, s'⟩, he, hp⟩ := ok_of_bind h
  obtain ⟨rfl, code, s₁, hb, rfl⟩ := Lambda.emit_eq_ok.mp he
  cases hp
  have hinst := EmitState.Installed.whole {}
    (s₁.finish {} (root.codeUnit root.captures none s₁.slots code)) options
  exact ⟨(Inside.whole root).body, _, code, s₁, rfl, hb, hinst.body,
    hinst.unit (Node.emit_grows root.body hb)⟩

theorem Program.options_eq {schema : Schema} {options : Options} {root : Lambda Value}
    {p : Program} (h : ofLambda schema options root = .ok p) : p.options = options := by
  obtain ⟨_, _, hp⟩ := ok_of_bind h
  cases hp
  rfl

theorem ClosuresMatch.root {schema : Schema} {options : Options} {root : Lambda Value}
    {p : Program} (h : Program.ofLambda schema options root = .ok p) {n : Nat}
    (ht : TidyEvents n root.walk) (place : Placement) :
    ClosuresMatch schema n place (.root p 0) ⟨root, [], p.options.maxCallDepth⟩ :=
  ⟨⟨schema, root, p⟩, [], rfl, ht, .root (Program.unitAt_root h), rfl⟩

/-! ## Host functions -/

/-- The heap is tidy, and no identities are taken back. -/
structure Heap.Grown (n : Nat) (heap : Heap) : Prop where
  nextId : n ≤ heap.nextId
  tidy : heap.Tidy heap.nextId

theorem Heap.Grown.grow {n m : Nat} {heap : Heap} (h : heap.Grown m) (hnm : n ≤ m) :
    heap.Grown n :=
  ⟨Nat.le_trans hnm h.nextId, h.tidy⟩

/-- What a host function does makes sense, if `n` identities are taken: none of them is taken back,
trees and values are tidy, and its own errors are allowed ones. It may rely on the same of what it
gets back. -/
def Reply.Careful (A : Assumptions) (n : Nat) (r : Reply) : Prop :=
  match r with
  | .done result heap => heap.Grown n ∧ (∀ v, result = .ok v → v.Tidy heap.nextId) ∧
      ∀ e, result = .error e → A.allows e
  | .invoke heap _ args next => heap.Grown n ∧ (∀ v ∈ args, v.Tidy heap.nextId) ∧
      ∀ result heap' calls, heap'.Grown heap.nextId →
        (∀ v, result = .ok v → v.Tidy heap'.nextId) →
        (∀ e, result = .error e → A.allows (.raised e)) →
        (∀ r ∈ calls, CallRecord.Tidy heap'.nextId r) →
        (next result heap' calls).Careful A heap'.nextId
  | .instantiate heap _ tree next => heap.Grown n ∧
      (∀ l, tree.lambda? = some l → TidyEvents heap.nextId l.walk) ∧
      (∀ e, (next (.error e)).Careful A heap.nextId) ∧
      ∀ f, (next (.ok (.function f))).Careful A heap.nextId
  | .peek _ _ next => ∀ v, (∀ u, v = some u → u.Tidy n) → (next v).Careful A n
  | .poke heap _ _ v next => heap.Grown n ∧ v.Tidy heap.nextId ∧
      ∀ found, (next found).Careful A heap.nextId

/-- What makes sense with more identities taken makes sense with fewer. -/
theorem Reply.Careful.grow {A : Assumptions} {n m : Nat} {r : Reply} (h : r.Careful A m)
    (hnm : n ≤ m) : r.Careful A n := by
  cases r with
  | done => exact ⟨h.1.grow hnm, h.2⟩
  | invoke => exact ⟨h.1.grow hnm, h.2⟩
  | instantiate => exact ⟨h.1.grow hnm, h.2⟩
  | poke => exact ⟨h.1.grow hnm, h.2⟩
  | peek f c next => exact fun v hv => (h v fun u hu => (hv u hu).mono hnm).grow hnm
termination_by structural r

/-- A host that makes sense of what makes sense. -/
def Host.Careful (A : Assumptions) (host : Host) : Prop :=
  ∀ f args heap calls, A.base ≤ heap.nextId → heap.Tidy heap.nextId →
    (∀ v ∈ args, v.Tidy heap.nextId) → (∀ r ∈ calls, CallRecord.Tidy heap.nextId r) →
    (host f args heap calls).Careful A heap.nextId

section Hosts

variable {A : Assumptions} {schema : Schema} {place : Placement} {w : World} {σ : Store}

/-- A host function reads the same cell on both sides. -/
theorem Related.peek (hr : Related A schema place w σ) {n : Nat} {s : Scope} {c : Closure}
    (hc : ClosuresMatch schema n place s c) (name : CellName) :
    w.peek? s name = σ.peek? c name := by
  obtain ⟨C, outer, -, ht, hrep, -⟩ := hc
  have hnames := hrep.cellNamed ht.identified c.limit name
  unfold World.peek? Lexical.Store.peek?
  cases hloc : c.location? name with
  | some loc =>
      rw [hloc] at hnames
      obtain ⟨cell, hcell, hp⟩ := hnames
      rw [hcell]
      exact hr.cell hp
  | none =>
      rw [hloc] at hnames
      -- a name that means nothing to the interpreter leads to no cell, or behind the last one
      cases hcell : s.cellNamed name with
      | none => rfl
      | some cell =>
          obtain ⟨m, hm, hle⟩ := hnames cell.1 cell.2 hcell
          exact (hr.widths cell.1 m hm).2 cell.2 hle

/-- A host function overwrites the same cell on both sides, or none. -/
theorem Related.poke (hr : Related A schema place w σ) {n : Nat} {s : Scope} {c : Closure}
    (hc : ClosuresMatch schema n place s c) (name : CellName) {v : Value}
    (hv : v.Tidy σ.heap.nextId) :
    (w.poke? s name v = none ∧ σ.poke? c name v = none) ∨
    ∃ w' σ', w.poke? s name v = some w' ∧ σ.poke? c name v = some σ' ∧
      Related A schema place w' σ' ∧ Later σ.locations.size place place σ σ' ∧
      σ'.heap.nextId = σ.heap.nextId := by
  obtain ⟨C, outer, -, ht, hrep, -⟩ := hc
  have hnames := hrep.cellNamed ht.identified c.limit name
  unfold World.poke? Lexical.Store.poke?
  cases hloc : c.location? name with
  | some loc =>
      rw [hloc] at hnames
      obtain ⟨cell, hcell, hp⟩ := hnames
      obtain ⟨old, hold, hlocs⟩ := hr.cells loc cell.1 cell.2 hp
      have hlt := (Array.getElem?_eq_some_iff.mp hlocs).1
      obtain ⟨w', hset, hw⟩ := World.setCell?_eq_some hold v
      refine .inr ⟨w', σ.put loc v, ?_, rfl, hr.put hp hw hlt hv, .put hlt fun _ => ?_, rfl⟩
      · rw [hcell]
        exact hset
      · rw [hp]
        exact Option.some_ne_none _
  | none =>
      rw [hloc] at hnames
      refine .inl ⟨?_, rfl⟩
      cases hcell : s.cellNamed name with
      | none => rfl
      | some cell =>
          obtain ⟨m, hm, hle⟩ := hnames cell.1 cell.2 hcell
          show w.setCell? cell.1 cell.2 v = none
          simp [World.setCell?, (hr.widths cell.1 m hm).2 cell.2 hle]

/-- A compiled root becomes a closure on both sides. -/
theorem Related.instantiate (hr : Related A schema place w σ) {options : Options}
    {root : Lambda Value} {p : Program} (hp : Program.ofLambda schema options root = .ok p)
    (hroot : TidyEvents σ.heap.nextId root.walk) :
    (w.newClosure (.root p 0)).1 = (σ.newClosure ⟨root, [], options.maxCallDepth⟩).1 ∧
      RelatedAfter A schema place σ (w.newClosure (.root p 0)).2
        (σ.newClosure ⟨root, [], options.maxCallDepth⟩).2 := by
  have hmatch := ClosuresMatch.root hp hroot place
  rw [Program.options_eq hp] at hmatch
  obtain ⟨s, code, s', -, -, -, hunit⟩ := (Program.unitAt_root hp).emitted
  have hunit? : (Scope.root p 0).unit? = some (root.codeUnit root.captures none s'.slots code) :=
    hunit
  refine ⟨?_, place, hr.newClosure hmatch, ?_⟩
  · simp only [World.newClosure, hunit?, Lexical.Store.newClosure, hr.closures]
    rfl
  · exact ⟨.refl _ _, Nat.le_refl _, Nat.le_refl _, fun _ _ _ => rfl⟩

variable {invoke : FunctionRef → List Value → Eval Value}
  {invoke' : FunctionRef → List Value → Interp Value}

/-- **A host function has the same outcome on both sides.** The induction is on what it does. -/
theorem Reply.agrees (hinvoke : ∀ f args, Simulates A schema args (invoke f args) (invoke' f args))
    (r : Reply) (hr : Related A schema place w σ) (hc : r.Careful A σ.heap.nextId) :
    Agree A (RelatedAfter A schema place σ) (r.run schema invoke w)
      (r.interpret schema invoke' σ) := by
  induction r generalizing place w σ with
  | done result heap =>
      obtain ⟨hgrown, hv, he⟩ := hc
      have hafter : RelatedAfter A schema place σ { w with heap := heap } { σ with heap := heap } :=
        ⟨place, hr.withHeap hgrown.nextId hgrown.tidy, hr.withHeap_later hgrown.nextId _⟩
      cases result with
      | ok v =>
          refine ⟨rfl, hafter, fun u hu => ?_⟩
          rw [List.mem_singleton.mp hu]
          exact hv v rfl
      | error e => exact ⟨rfl, hafter, he e rfl⟩
  | invoke heap f args next ih =>
      obtain ⟨hgrown, hargs, hnext⟩ := hc
      have hr₁ := hr.withHeap hgrown.nextId hgrown.tidy
      have hl₁ := hr.withHeap_later hgrown.nextId σ.locations.size
      -- it goes on with the value or the error that the closure ends with
      have hgo : ∀ result w' σ', RelatedAfter A schema place { σ with heap := heap } w' σ' →
          (∀ v, result = .ok v → v.Tidy σ'.heap.nextId) →
          (∀ e, result = .error e → A.allows (.raised e)) →
          Agree A (RelatedAfter A schema place σ)
            ((next result w'.heap w'.calls).run schema invoke w')
            ((next result σ'.heap σ'.calls).interpret schema invoke' σ') := by
        rintro result w' σ' ⟨place', hr', hl'⟩ hv he
        rw [hr'.heap, hr'.calls]
        have hcareful := hnext result σ'.heap σ'.calls ⟨hl'.nextId, hr'.tidy.heap⟩ hv he
          hr'.tidy.calls
        exact (ih result _ _ hr' hcareful).mono fun _ _ h =>
          h.after (hl₁.trans hl' (Nat.le_refl _))
      rcases (hinvoke f args place _ _ hr₁ hargs).cases with
        ⟨v, w', σ', hx, hy, hafter, hv⟩ | ⟨e, w', σ', hx, hy, hafter, he⟩ | ⟨σ', hy, hA⟩
      · rw [Reply.run_invoke_ok hx, Reply.interpret_invoke_ok hy]
        exact hgo _ w' σ' hafter (fun u hu => by cases hu; exact hv v (List.mem_singleton_self v))
          nofun
      · cases e with
        | raised e =>
            rw [Reply.run_invoke_raised hx, Reply.interpret_invoke_raised hy]
            exact hgo _ w' σ' hafter nofun fun e' he' => by cases he'; exact he
        | unfinished =>
            rw [Reply.run_invoke_unfinished hx, Reply.interpret_invoke_error hy nofun]
            exact ⟨rfl, hafter.after hl₁, he⟩
      · rw [Reply.interpret_invoke_error hy nofun]
        exact .foreign hA _ σ'
  | instantiate heap options tree next ih =>
      obtain ⟨hgrown, htree, herror, hok⟩ := hc
      have hr₁ := hr.withHeap hgrown.nextId hgrown.tidy
      have hl₁ := hr.withHeap_later hgrown.nextId σ.locations.size
      cases hcompile : Program.compile schema options tree with
      | error e =>
          rw [Reply.run_instantiate_error hcompile, Reply.interpret_instantiate_error hcompile]
          exact (ih _ hr₁ (herror e)).mono fun _ _ h => h.after hl₁
      | ok p =>
          obtain ⟨root, hroot, hp⟩ := Program.ofLambda_of_compile hcompile
          obtain ⟨hvalue, place', hr₂, hl₂⟩ := hr₁.instantiate hp (htree root hroot)
          rw [Reply.run_instantiate_ok hcompile, Reply.interpret_instantiate_ok hcompile hroot,
            hvalue]
          exact (ih _ hr₂ (hok _)).mono fun _ _ h => h.after (hl₁.trans hl₂ (Nat.le_refl _))
  | peek f name next ih =>
      cases hs : w.scope? f with
      | none =>
          rw [Reply.run_peek_none hs, Reply.interpret_peek_none (hr.closures_none hs)]
          exact ⟨rfl, ⟨place, hr, .refl _ _ _⟩, A.ordinary _ (by simp)⟩
      | some s =>
          obtain ⟨c, hcl, hm⟩ := hr.closures_some hs
          rw [Reply.run_peek hs, Reply.interpret_peek hcl, hr.peek hm]
          refine ih _ hr (hc _ fun u hu => ?_)
          obtain ⟨l, -, hl⟩ := Option.bind_eq_some_iff.mp hu
          exact hr.tidy.locations u (Array.mem_of_getElem? hl)
  | poke heap f name v next ih =>
      obtain ⟨hgrown, hv, hnext⟩ := hc
      have hr₁ := hr.withHeap hgrown.nextId hgrown.tidy
      have hl₁ := hr.withHeap_later hgrown.nextId σ.locations.size
      cases hs : w.scope? f with
      | none =>
          rw [Reply.run_poke_stray hs, Reply.interpret_poke_stray (hr.closures_none hs)]
          exact ⟨rfl, ⟨place, hr₁, hl₁⟩, A.ordinary _ (by simp)⟩
      | some s =>
          obtain ⟨c, hcl, hm⟩ := hr.closures_some hs
          rcases hr₁.poke hm name hv with ⟨hw, hσ⟩ | ⟨w', σ', hw, hσ, hr', hl', hid⟩
          · rw [Reply.run_poke_none hs hw, Reply.interpret_poke_none hcl hσ]
            exact (ih false hr₁ (hnext false)).mono fun _ _ h => h.after hl₁
          · rw [Reply.run_poke_some hs hw, Reply.interpret_poke_some hcl hσ]
            exact (ih true hr' (hid ▸ hnext true)).mono fun _ _ h =>
              h.after (hl₁.trans hl' (Nat.le_refl _))

variable {host : Host}

theorem Simulates.callWith (hhost : host.Careful A)
    (hinvoke : ∀ g args, Simulates A schema args (invoke g args) (invoke' g args))
    (f : HostRef) (args : List Value) :
    Simulates A schema args (callWith schema host invoke f args)
      (Lexical.callWith schema host invoke' f args) := by
  intro place w σ hr hk
  have hcalls : ∀ r ∈ (⟨f, args, σ.heap⟩ :: σ.calls : List CallRecord),
      CallRecord.Tidy σ.heap.nextId r := by
    intro r hmem
    rcases List.mem_cons.mp hmem with rfl | hmem
    · exact ⟨hk, hr.tidy.heap⟩
    · exact hr.tidy.calls r hmem
  have hr' : Related A schema place
      { w with heap := σ.heap, calls := ⟨f, args, σ.heap⟩ :: σ.calls }
      { σ with calls := ⟨f, args, σ.heap⟩ :: σ.calls } :=
    ⟨rfl, rfl, hr.closures, hr.matching, hr.cells, hr.injective, hr.widths,
      ⟨hr.tidy.heap, hr.tidy.locations, hcalls⟩, hr.base⟩
  have hl : Later σ.locations.size place place σ
      { σ with calls := ⟨f, args, σ.heap⟩ :: σ.calls } :=
    ⟨.refl _ _, Nat.le_refl _, Nat.le_refl _, fun _ _ _ => rfl⟩
  -- the host sees the call recorded already
  have hreply := hhost f args σ.heap (⟨f, args, σ.heap⟩ :: σ.calls) hr.base hr.tidy.heap hk hcalls
  show Agree A _
    ((host f args w.heap (⟨f, args, w.heap⟩ :: w.calls)).run schema invoke
      { w with calls := ⟨f, args, w.heap⟩ :: w.calls })
    ((host f args σ.heap (⟨f, args, σ.heap⟩ :: σ.calls)).interpret schema invoke'
      { σ with calls := ⟨f, args, σ.heap⟩ :: σ.calls })
  rw [hr.heap, hr.calls]
  exact (Reply.agrees hinvoke _ hr' hreply).mono fun _ _ h => h.after hl

/-- **Host calls have the same outcome.** The induction is on how often host functions may hand
over to compiled code inside one another. -/
theorem Simulates.hostCall (hhost : host.Careful A) (arrayLimit reentries : Nat) (f : HostRef)
    (args : List Value) :
    Simulates A schema args (hostCall schema arrayLimit host reentries f args)
      (Lexical.hostCall schema arrayLimit host reentries f args) := by
  induction reentries generalizing f args with
  | zero => exact .callWith hhost (fun _ _ => .stop (by simp)) f args
  | succ reentries ih =>
      refine .callWith hhost (fun g args' => ?_) f args
      exact .ofClosure fun _ _ _ _ _ hr hc hargs =>
        invokeAt_agrees ih arrayLimit callCeiling 0 hr hc hargs

end Hosts

end ExprTree
