import ExprTree.Proofs.Simulation

set_option autoImplicit false

/-! # Variables, closures and quotes in a frame

What a frame does with its own parts: it reads and writes parameters through their addresses, keeps
values in temporaries, makes closures over itself, and takes the values of the free parameters of a
quoted tree. Each of these follows what the interpreter does with the environment.
-/

namespace ExprTree

open Lexical (Bindings Env Store Interp Fault Closure location?)

/-! ## Cells -/

/-- The world `w'` is `w` with another value in one cell. -/
structure World.Stored (w : World) (c k : Nat) (v : Value) (w' : World) : Prop where
  heap : w'.heap = w.heap
  calls : w'.calls = w.calls
  closures : w'.closures = w.closures
  size : w'.cells.size = w.cells.size
  cells : ∀ c' k', w'.cell? c' k' = if c' = c ∧ k' = k then some v else w.cell? c' k'

/-- Storing into a cell that exists changes that cell and nothing else. -/
theorem World.setCell?_eq_some {w : World} {c k : Nat} {old : Value} (h : w.cell? c k = some old)
    (v : Value) : ∃ w', w.setCell? c k v = some w' ∧ w.Stored c k v w' := by
  refine ⟨{ w with cells := w.cells.modify c (·.setIfInBounds k v) }, ?_, rfl, rfl, rfl,
    Array.size_modify, ?_⟩
  · simp [setCell?, h]
  · intro c' k'
    obtain ⟨cells, hc, hk⟩ : ∃ cells, w.cells[c]? = some cells ∧ cells[k]? = some old :=
      Option.bind_eq_some_iff.mp h
    have hlt := (Array.getElem?_eq_some_iff.mp hk).1
    simp only [cell?, Array.getElem?_modify]
    by_cases hcc : c = c'
    · subst hcc
      by_cases hkk : k = k'
      · subst hkk
        simp [hc, hlt]
      · simp [hc, hkk, Ne.symm hkk]
    · simp [hcc, Ne.symm hcc]

namespace Activation

/-- The environment of the invocation. -/
def environment (Φ : Activation) : Env := Φ.bindings :: Φ.env

/-- The lambdas around the running code. -/
def chain (Φ : Activation) : List (Lambda Value) := Φ.lambda :: Φ.outer

/-- What the running code can address. -/
def scope (Φ : Activation) : EmitScope := Φ.C.scope Φ.lambda Φ.outer Φ.frame.scope.unit

/-- The location of a parameter that the lambda itself declares. -/
theorem location_own {Φ : Activation} {p i : Nat}
    (hi : lastIndex? p (Φ.lambda.params.map (·.id)) = some i) :
    location? Φ.environment p = some (Φ.bindings.base + i) := by
  simp [environment, location?, Bindings.location?, Φ.params, hi]

/-- The location of a parameter that the lambda does not declare. -/
theorem location_outer {Φ : Activation} {p : Nat} (hp : Φ.lambda.declares p = false) :
    location? Φ.environment p = location? Φ.env p :=
  Represents.location?_cons Φ.params hp Φ.env

end Activation

/-- A parameter that is found some levels up is hoisted by an enclosing lambda. -/
theorem mem_of_findLevel? {C : Compilation} {outer : List (Lambda Value)} {p : Nat}
    (h : (findLevel? p (outer.map C.hoisted)).isSome = true) : ∃ d ∈ outer, p ∈ C.hoisted d := by
  induction outer with
  | nil => cases h
  | cons d outer ih =>
      by_cases hp : p ∈ C.hoisted d
      · exact ⟨d, List.mem_cons_self, hp⟩
      · have hnone : (C.hoisted d).idxOf? p = none := by simpa [List.idxOf?_eq_none_iff] using hp
        simp only [List.map_cons, findLevel?, hnone, Option.isSome_map] at h
        obtain ⟨d', hd', hp'⟩ := ih h
        exact ⟨d', List.mem_cons_of_mem d hd', hp'⟩

/-- The address leads to the location: through a slot that stands for it, or through its cell. -/
inductive Located (Φ : Activation) (place : Placement) : Address → Nat → Prop
  | slot {p i : Nat} (hi : lastIndex? p Φ.bindings.params = some i)
      (hp : p ∉ Φ.C.hoisted Φ.lambda) : Located Φ place (.slot i) (Φ.bindings.base + i)
  | own {c k loc : Nat} (hc : Φ.frame.cells = some c) (hp : place loc = some (c, k)) :
      Located Φ place (.own k) loc
  | captured {level c k loc : Nat} (hc : Φ.frame.scope.localsAt level = some c)
      (hp : place loc = some (c, k)) : Located Φ place (.captured level k) loc

section

variable {A : Assumptions} {Φ : Activation} {place : Placement} {m : Machine} {σ : Store}

/-- The address that the compiler gives to a parameter leads to the location that lexical scoping
gives to it. -/
theorem Running.located (h : Running A Φ place m σ) {p : Parameter} {a : Address}
    {es : List (Event Value)} (ha : Φ.scope.address? p.id = some a)
    (hin : Inside Φ.C.root Φ.chain (.mention p :: es)) :
    ∃ loc, location? Φ.environment p.id = some loc ∧ Located Φ place a loc := by
  have hid := h.tidy.identified
  unfold EmitScope.address? at ha
  split at ha
  case h_1 k hk =>
    cases ha
    obtain ⟨c, loc, hc, hloc, hp⟩ := h.held.location hk
    exact ⟨loc, by simp [Activation.environment, location?, hloc], .own hc hp⟩
  case h_2 hk =>
    split at ha
    case h_1 i hi =>
      cases ha
      have hi' : lastIndex? p.id Φ.bindings.params = some i := by
        rw [Φ.params]
        exact hi
      exact ⟨_, Activation.location_own hi, .slot hi' (List.idxOf?_eq_none_iff.mp hk)⟩
    case h_2 hi =>
      -- neither hoisted here nor an argument: the compiler counts the links to the lambda that
      -- hoists it, and the uses it has recorded say that this is the lambda that declares it
      obtain ⟨⟨level, k⟩, hf, rfl⟩ := Option.map_eq_some_iff.mp ha
      have hdec : Φ.lambda.declares p.id = false := Lambda.declares_eq_false.mpr hi
      obtain ⟨c, loc, hc, hloc, hp⟩ := h.represents.captured hf fun d hd =>
        hin.recorded_mention hid hdec hd
      exact ⟨loc, (Activation.location_outer hdec).trans hloc, .captured hc hp⟩

/-- A parameter that has an address is declared by a lambda around. -/
theorem Running.declared (h : Running A Φ place m σ) {p : Nat}
    (ha : (Φ.scope.address? p).isSome = true) : ∃ d, Φ.chain.find? (·.declares p) = some d := by
  have hid := h.tidy.identified
  have hmem := h.represents.around_mem
  have hdecl : ∃ d ∈ Φ.chain, d.declares p = true := by
    unfold EmitScope.address? at ha
    split at ha
    case h_1 k hk =>
      have hp : p ∈ Φ.C.hoisted Φ.lambda := by
        have : (List.idxOf? p (Φ.C.hoisted Φ.lambda)).isSome = true := by
          rw [show List.idxOf? p (Φ.C.hoisted Φ.lambda) = some k from hk]
          rfl
        simpa [List.isSome_idxOf?] using this
      exact ⟨Φ.lambda, List.mem_cons_self, Compilation.declares_of_hoisted hid
        (hmem _ List.mem_cons_self) hp⟩
    case h_2 =>
      split at ha
      case h_1 i hi => exact ⟨Φ.lambda, List.mem_cons_self, Lambda.declares_of_lastIndex? hi⟩
      case h_2 =>
        obtain ⟨d, hd, hp⟩ := mem_of_findLevel? (Option.isSome_map.symm.trans ha)
        exact ⟨d, List.mem_cons_of_mem _ hd, Compilation.declares_of_hoisted hid
          (hmem d (List.mem_cons_of_mem _ hd)) hp⟩
  obtain ⟨d, hd, hp⟩ := hdecl
  have hsome : (Φ.chain.find? (·.declares p)).isSome = true :=
    List.find?_isSome.mpr ⟨d, hd, hp⟩
  exact Option.isSome_iff_exists.mp hsome

/-- An argument has a slot and a location. -/
theorem Running.argument (h : Running A Φ place m σ) {p i : Nat}
    (hi : lastIndex? p Φ.bindings.params = some i) :
    i < Φ.lambda.params.length ∧ i < m.slots.size ∧ Φ.bindings.base + i < σ.locations.size := by
  have hget := getElem?_of_lastIndex? hi
  rw [Φ.params] at hget
  have hlt := (List.getElem?_eq_some_iff.mp hget).1
  rw [List.length_map] at hlt
  have := h.bound
  have := h.count
  have := Φ.arity
  omega

/-! ## Reading -/

theorem Frame.load_cell {f : Frame} {a : Address} {c k : Nat} (hc : f.cellOf a = some (c, k))
    {m : Machine} {v : Value} (hv : m.world.cell? c k = some v) : f.load a m = .ok v m := by
  cases a with
  | slot i => cases hc
  | own | captured =>
      simp only [Frame.load]
      rw [get_bind, hc, Option.bind_some, hv]
      rfl

/-- Reading through an address gives the value at the location. -/
theorem Running.load (h : Running A Φ place m σ) {a : Address} {loc : Nat}
    (hl : Located Φ place a loc) :
    ∃ v, σ.locations[loc]? = some v ∧ Φ.frame.load a m = .ok v m := by
  cases hl with
  | slot hi hp =>
      obtain ⟨-, hlt, hlt'⟩ := h.argument hi
      obtain ⟨-, heq⟩ := h.slots _ _ hi hp
      refine ⟨_, Array.getElem?_eq_getElem hlt', ?_⟩
      rw [Array.getElem?_eq_getElem hlt'] at heq
      show EStateM.Result.ok (m.slots[_]?.getD Value.null) m = _
      rw [heq]
      rfl
  | own hc hp =>
      obtain ⟨v, hv, hloc⟩ := h.related.cells _ _ _ hp
      exact ⟨v, hloc, Frame.load_cell (by simp [Frame.cellOf, hc]) hv⟩
  | captured hc hp =>
      obtain ⟨v, hv, hloc⟩ := h.related.cells _ _ _ hp
      exact ⟨v, hloc, Frame.load_cell (by simp [Frame.cellOf, hc]) hv⟩

theorem Follows.load {H : Held} {p : Parameter} {a : Address}
    {es : List (Event Value)} (ha : Φ.scope.address? p.id = some a)
    (hin : Inside Φ.C.root Φ.chain (.mention p :: es)) :
    Follows A Φ H (Φ.frame.load a) (Interp.load Φ.environment p) := by
  intro place m σ hr hk
  obtain ⟨loc, hloc, hl⟩ := hr.located ha hin
  obtain ⟨v, hv, hload⟩ := hr.load hl
  have hval : σ.value? Φ.environment p.id = some v := by
    rw [Store.value?, hloc, Option.bind_some, hv]
  rw [hload, Interp.load_eq hval]
  refine ⟨rfl, ⟨place, hr, .refl _ _ _, hk⟩, ?_⟩
  intro u hu
  rw [List.mem_singleton.mp hu]
  exact hr.related.tidy.locations v (Array.mem_of_getElem? hv)

/-! ## Writing -/

theorem Frame.store_cell {f : Frame} {a : Address} {c k : Nat} (hc : f.cellOf a = some (c, k))
    {m : Machine} {v : Value} {w : World} (hw : m.world.setCell? c k v = some w) :
    f.store a v m = .ok () { m with world := w } := by
  cases a with
  | slot i => cases hc
  | own | captured =>
      simp only [Frame.store]
      rw [get_bind, hc, Option.bind_some, hw]
      rfl

/-- A store with a new value at a location. -/
def Lexical.Store.put (σ : Store) (loc : Nat) (v : Value) : Store :=
  { σ with locations := σ.locations.setIfInBounds loc v }

theorem Lexical.Store.get_put {σ : Store} {loc : Nat} (h : loc < σ.locations.size) (v : Value)
    (l : Nat) : (σ.put loc v).locations[l]? = if l = loc then some v else σ.locations[l]? := by
  simp only [put, Array.getElem?_setIfInBounds]
  by_cases hl : l = loc
  · subst hl
    simp [h]
  · simp [hl, Ne.symm hl]

theorem Lexical.Store.Tidy.put {σ : Store} (h : σ.Tidy) (loc : Nat) {v : Value}
    (hv : v.Tidy σ.heap.nextId) : (σ.put loc v).Tidy := by
  refine ⟨h.heap, ?_, h.calls⟩
  intro u hu
  rcases Array.mem_or_eq_of_mem_setIfInBounds hu with hu | rfl
  · exact h.locations u hu
  · exact hv

/-- Only the location that is written may change. -/
theorem Later.put {bound loc : Nat} {v : Value} (hlt : loc < σ.locations.size)
    (h : loc < bound → place loc ≠ none) : Later bound place place σ (σ.put loc v) := by
  refine ⟨.refl _ _, by simp [Store.put], Nat.le_refl _, ?_⟩
  intro l hl hp
  rw [Store.get_put hlt]
  by_cases heq : l = loc
  · subst heq
    exact absurd hp (h hl)
  · rw [if_neg heq]

/-- Writing to a slot and to the location it stands for. -/
theorem Running.storeSlot (h : Running A Φ place m σ) {p i : Nat} {v : Value}
    (hi : lastIndex? p Φ.bindings.params = some i) (hp : p ∉ Φ.C.hoisted Φ.lambda)
    (hv : v.Tidy σ.heap.nextId) :
    Running A Φ place { m with slots := m.slots.setIfInBounds i v }
      (σ.put (Φ.bindings.base + i) v) := by
  obtain ⟨-, hlt, hlt'⟩ := h.argument hi
  obtain ⟨hnone, -⟩ := h.slots p i hi hp
  have hr := h.related
  refine
    { related := ⟨hr.heap, hr.calls, hr.closures, hr.matching, ?_, hr.injective, hr.widths,
        hr.tidy.put _ hv, hr.base⟩
      tidy := h.tidy
      represents := h.represents
      held := h.held
      bound := by simpa [Store.put] using h.bound
      count := by simpa using h.count
      slots := ?_ }
  -- placed locations have other cells: this one is not placed
  · intro l c k hl
    obtain ⟨u, hc, hu⟩ := hr.cells l c k hl
    refine ⟨u, hc, ?_⟩
    rw [Store.get_put hlt', if_neg, hu]
    rintro rfl
    rw [hnone] at hl
    cases hl
  -- other slots stand for other locations
  · intro q j hj hq
    obtain ⟨hnone', heq⟩ := h.slots q j hj hq
    refine ⟨hnone', ?_⟩
    rw [Store.get_put hlt', Array.getElem?_setIfInBounds]
    by_cases hij : i = j
    · subst hij
      simp [hlt]
    · have hne : ¬ Φ.bindings.base + j = Φ.bindings.base + i := by omega
      rw [if_neg hij, if_neg hne, heq]

/-- Writing to a cell and to the location that is placed there. -/
theorem Related.put {schema : Schema} {w w' : World} (hr : Related A schema place w σ)
    {c k loc : Nat} {v : Value} (hp : place loc = some (c, k)) (hw : w.Stored c k v w')
    (hlt : loc < σ.locations.size) (hv : v.Tidy σ.heap.nextId) :
    Related A schema place w' (σ.put loc v) := by
  refine ⟨hw.heap.trans hr.heap, hw.calls.trans hr.calls, hw.closures ▸ hr.closures,
    fun i s cl hs hc => hr.matching i s cl (hw.closures ▸ hs) hc, ?_, hr.injective, ?_,
    hr.tidy.put loc hv, hr.base⟩
  · intro l c' k' hl
    rw [Store.get_put hlt, hw.cells]
    by_cases heq : l = loc
    · subst heq
      rw [hp] at hl
      cases hl
      exact ⟨v, by simp, by simp⟩
    · -- another location has another cell
      have hne : ¬(c' = c ∧ k' = k) := by
        rintro ⟨rfl, rfl⟩
        exact heq (hr.injective l loc _ hl hp)
      rw [if_neg hne, if_neg heq]
      exact hr.cells l c' k' hl
  · intro c' n hn
    obtain ⟨hsize, hbeyond⟩ := hr.widths c' n hn
    refine ⟨hw.size ▸ hsize, fun k' hk' => ?_⟩
    -- the cell that is written exists, so it is not beyond the last one
    have hne : ¬(c' = c ∧ k' = k) := by
      rintro ⟨rfl, rfl⟩
      obtain ⟨old, hold, -⟩ := hr.cells loc _ _ hp
      rw [hbeyond _ hk'] at hold
      cases hold
    rw [hw.cells, if_neg hne, hbeyond k' hk']

theorem Running.storeCell (h : Running A Φ place m σ) {c k loc : Nat} {v : Value} {w : World}
    (hp : place loc = some (c, k)) (hw : m.world.Stored c k v w) (hlt : loc < σ.locations.size)
    (hv : v.Tidy σ.heap.nextId) : Running A Φ place { m with world := w } (σ.put loc v) := by
  refine
    { related := h.related.put hp hw hlt hv
      tidy := h.tidy
      represents := h.represents
      held := h.held
      bound := by simpa [Store.put] using h.bound
      count := h.count
      slots := ?_ }
  intro q j hj hq
  obtain ⟨hnone, heq⟩ := h.slots q j hj hq
  refine ⟨hnone, ?_⟩
  rw [Store.get_put hlt, if_neg, heq]
  -- a slot stands only for a location that is not placed
  rintro rfl
  rw [hp] at hnone
  cases hnone

theorem Follows.store {H : Held} {n : Nat} {p : Parameter} {a : Address} {v : Value}
    {es : List (Event Value)} (hw : H.Within Φ.lambda.params.length n) (hv : v ∈ H.values)
    (ha : Φ.scope.address? p.id = some a)
    (hin : Inside Φ.C.root Φ.chain (.mention p :: es)) :
    Follows A Φ H (Φ.frame.store a v) (Interp.store Φ.environment p v) := by
  intro place m σ hr hk
  obtain ⟨loc, hloc, hl⟩ := hr.located ha hin
  have hvt := hk.values v hv
  have hy : Interp.store Φ.environment p v σ = .ok () (σ.put loc v) := by
    unfold Interp.store
    rw [hloc]
    rfl
  rw [hy]
  -- a cell is written the same way, whichever frame it belongs to
  have hcell : ∀ c k, Φ.frame.cellOf a = some (c, k) → place loc = some (c, k) →
      Agree A (fun m' σ' => ∃ place', Running A Φ place' m' σ' ∧
        Later Φ.bindings.base place place' σ σ' ∧ H.Fits m' σ')
        (Φ.frame.store a v m) (.ok () (σ.put loc v)) := by
    intro c k hc hp
    obtain ⟨old, hold, hlocs⟩ := hr.related.cells loc c k hp
    have hlt := (Array.getElem?_eq_some_iff.mp hlocs).1
    obtain ⟨w, hset, hw⟩ := World.setCell?_eq_some hold v
    rw [Frame.store_cell hc hset]
    refine ⟨rfl, ⟨place, hr.storeCell hp hw hlt hvt, ?_, ?_⟩, nofun⟩
    · exact .put hlt fun _ => by rw [hp]; simp
    · exact ⟨hk.slots, hk.values⟩
  cases hl with
  | own hc hp => exact hcell _ _ (by simp [Frame.cellOf, hc]) hp
  | captured hc hp => exact hcell _ _ (by simp [Frame.cellOf, hc]) hp
  | @slot q i hi hq =>
      obtain ⟨hlt, -, hlt'⟩ := hr.argument hi
      refine ⟨rfl, ⟨place, hr.storeSlot hi hq hvt, .put hlt' fun h => ?_, ?_, hk.values⟩, nofun⟩
      · omega
      · intro t u ht
        -- temporaries come after the arguments
        have := (hw t u ht).1
        show (m.slots.setIfInBounds i v)[t]? = some u
        rw [Array.getElem?_setIfInBounds_ne (by omega)]
        exact hk.slots t u ht

/-! ## Temporaries -/

/-- A value kept in a temporary that nothing else uses. -/
theorem Follows.keep {β : Type} [HasValues β] {H : Held} {slot : Nat} {v : Value}
    {x : PUnit → Exec β} {y : Interp β} (hw : H.Within Φ.lambda.params.length slot)
    (ha : Φ.lambda.params.length ≤ slot) (hc : slot < Φ.count)
    (h : Follows A Φ (H.keep slot v) (x ()) y) :
    Follows A Φ H (Exec.storeSlot slot v >>= x) y := by
  intro place m σ hr hk
  have hr' : Running A Φ place { m with slots := m.slots.setIfInBounds slot v } σ := by
    refine ⟨hr.related, hr.tidy, hr.represents, hr.held, hr.bound, by simpa using hr.count, ?_⟩
    intro p i hi hp
    obtain ⟨hnone, heq⟩ := hr.slots p i hi hp
    -- the temporary is not an argument, so no location looks at it
    obtain ⟨hlt, -, -⟩ := hr.argument hi
    refine ⟨hnone, ?_⟩
    show (m.slots.setIfInBounds slot v)[i]? = _
    rw [Array.getElem?_setIfInBounds_ne (by omega), heq]
  have hk' : (H.keep slot v).Fits { m with slots := m.slots.setIfInBounds slot v } σ := by
    refine ⟨?_, hk.values⟩
    intro t u ht
    show (m.slots.setIfInBounds slot v)[t]? = some u
    rcases List.mem_cons.mp ht with heq | ht
    · cases heq
      have hlt : slot < m.slots.size := by
        rw [hr.count]
        exact hc
      simp [hlt]
    · have := (hw t u ht).2
      rw [Array.getElem?_setIfInBounds_ne (by omega)]
      exact hk.slots t u ht
  refine (h place _ σ hr' hk').mono ?_
  rintro m' σ' ⟨place', hr'', hl, hk''⟩
  exact ⟨place', hr'', hl, fun t u ht => hk''.slots t u (List.mem_cons_of_mem _ ht), hk''.values⟩

/-- What a temporary holds can be read. -/
theorem Follows.loadSlot {β : Type} [HasValues β] {H : Held} {slot : Nat} {v : Value}
    {x : Value → Exec β} {y : Interp β} (hs : (slot, v) ∈ H.slots) (h : Follows A Φ H (x v) y) :
    Follows A Φ H (Exec.loadSlot slot >>= x) y := by
  intro place m σ hr hk
  have hx : (Exec.loadSlot slot >>= x) m = x v m := by
    show x (m.slots[slot]?.getD Value.null) m = x v m
    rw [hk.slots slot v hs]
    rfl
  rw [hx]
  exact h place m σ hr hk

/-! ## Closures -/

/-- A closure over the frame is a closure over the environment. -/
theorem Follows.closure {H : Held} {l : Lambda Value} {u : Nat} {limit : UInt32}
    (hu : Φ.C.UnitAt l Φ.chain (some Φ.frame.scope.unit) u)
    (hlimit : limit = Φ.C.program.options.maxCallDepth) :
    Follows A Φ H (Exec.ofEval (Φ.frame.closure u))
      (Interp.close ⟨l, Φ.environment, limit⟩) := by
  intro place m σ hr hk
  have hrel := hr.related
  obtain ⟨s, code, s', -, -, -, hunit⟩ := hu.emitted
  have hrep : Represents Φ.C place (.nested Φ.frame.scope u Φ.frame.cells) l Φ.chain
      Φ.environment := .nested hr.represents hu Φ.params Φ.shared hr.held
  have hunit? : (Scope.nested Φ.frame.scope u Φ.frame.cells).unit?
      = some (l.codeUnit Φ.C.root.captures (some Φ.frame.scope.unit) s'.slots code) := by
    rw [Scope.unit?, hrep.program_eq]
    exact hunit
  -- both sides number their closures in the order of creation
  have hvalue : (m.world.newClosure (.nested Φ.frame.scope u Φ.frame.cells)).1
      = (σ.newClosure ⟨l, Φ.environment, limit⟩).1 := by
    simp only [World.newClosure, hunit?, Lexical.Store.newClosure, hrel.closures]
    rfl
  show Agree A _ (.ok (m.world.newClosure (.nested Φ.frame.scope u Φ.frame.cells)).1
      { m with world := (m.world.newClosure (.nested Φ.frame.scope u Φ.frame.cells)).2 })
    (.ok (σ.newClosure ⟨l, Φ.environment, limit⟩).1 (σ.newClosure ⟨l, Φ.environment, limit⟩).2)
  have hmatch : ClosuresMatch Φ.C.schema σ.heap.nextId place
      (.nested Φ.frame.scope u Φ.frame.cells) ⟨l, Φ.environment, limit⟩ :=
    ⟨Φ.C, Φ.chain, rfl, hr.tidy, hrep, hlimit⟩
  have hrel' := hrel.newClosure hmatch
  refine ⟨hvalue, ⟨place, ⟨hrel', hr.tidy, hr.represents, hr.held, hr.bound, hr.count, hr.slots⟩,
    ⟨.refl _ _, Nat.le_refl _, Nat.le_refl _, fun _ _ _ => rfl⟩, hk.slots, hk.values⟩, ?_⟩
  intro v hv
  rw [List.mem_singleton.mp hv]
  exact .plain rfl

/-! ## Quotes -/

/-- A search from the frame leads to the cell of the parameter's location. -/
theorem Running.find (h : Running A Φ place m σ) {p : Nat} {d : Lambda Value}
    (hd : Φ.chain.find? (·.declares p) = some d) (hp : p ∈ Φ.C.hoisted d) :
    ∃ c k loc, Φ.frame.scope.find? Φ.frame.cells p = some (c, k) ∧
      location? Φ.environment p = some loc ∧ place loc = some (c, k) := by
  have hid := h.tidy.identified
  cases hl : Φ.lambda.declares p with
  | true =>
      -- the frame itself holds the parameter in its own cells
      have heq : Φ.lambda = d := by simpa [Activation.chain, hl] using hd
      rw [← heq] at hp
      obtain ⟨k, hk⟩ := Compilation.idxOf?_of_hoisted hp
      obtain ⟨c, loc, hc, hloc, hpl⟩ := h.held.location hk
      refine ⟨c, k, loc, ?_, by simp [Activation.environment, location?, hloc], hpl⟩
      rw [h.represents.find?_own hid hk, hc]
      rfl
  | false =>
      have hd' : Φ.outer.find? (·.declares p) = some d := by simpa [Activation.chain, hl] using hd
      obtain ⟨c, k, loc, hf, hloc, hpl⟩ := h.represents.findFrom hid hl hd' hp Φ.frame.cells
      exact ⟨c, k, loc, hf, (Activation.location_outer hl).trans hloc, hpl⟩

/-- The values of captured parameters are those that lexical scoping gives. -/
theorem Related.captureAll {schema : Schema} {w : World} (hr : Related A schema place w σ)
    {scope : Scope} {own : Option Nat} {env : Env} {ps : List Parameter}
    (h : ∀ p ∈ ps, ∃ c k loc, scope.find? own p.id = some (c, k) ∧ location? env p.id = some loc ∧
      place loc = some (c, k)) :
    ∃ values, w.captureAll? scope own ps = some values ∧ σ.values? env ps = some values ∧
      ∀ p v, (p, v) ∈ values → v.Tidy σ.heap.nextId := by
  induction ps with
  | nil => exact ⟨[], rfl, rfl, nofun⟩
  | cons p ps ih =>
      obtain ⟨values, hw, hσ, ht⟩ := ih fun q hq => h q (List.mem_cons_of_mem p hq)
      obtain ⟨c, k, loc, hf, hloc, hp⟩ := h p List.mem_cons_self
      obtain ⟨v, hcell, hv⟩ := hr.cells loc c k hp
      refine ⟨(p.id, v) :: values, ?_, ?_, ?_⟩
      · simp [World.captureAll?, hf, hcell, hw]
      · simp [Lexical.Store.values?, Lexical.Store.value?, hloc, hv, hσ]
      · intro q u hu
        rcases List.mem_cons.mp hu with heq | hu
        · cases heq
          exact hr.tidy.locations v (Array.mem_of_getElem? hv)
        · exact ht q u hu

theorem Frame.quote_eq {f : Frame} {w : World} {tree : Tree} {values : Substitution Value}
    (h : w.captureAll? f.scope f.cells tree.freeParameters = some values) :
    f.quote (.expression tree) w = .ok (.expression (tree.substitute values w.heap.nextId).1)
      { w with heap := { w.heap with nextId := (tree.substitute values w.heap.nextId).2 } } := by
  simp only [Frame.quote]
  rw [get_bind, World.isolate, h]
  rfl

/-- **A quote captures what lexical scoping says it captures.** Every parameter that is free in the
quoted tree was recorded for the lambda that declares it, so it has a cell. -/
theorem Follows.quote {H : Held} {tree : Tree}
    (ha : ∀ p ∈ tree.freeParameters, (Φ.scope.address? p.id).isSome = true)
    (hin : Inside Φ.C.root Φ.chain (.enterQuote :: tree.walk ++ [.leaveQuote])) :
    Follows A Φ H (Exec.ofEval (Φ.frame.quote (.expression tree)))
      (Interp.quote Φ.environment tree) := by
  intro place m σ hr hk
  have hrel := hr.related
  have hcells : ∀ p ∈ tree.freeParameters, ∃ c k loc,
      Φ.frame.scope.find? Φ.frame.cells p.id = some (c, k) ∧
      location? Φ.environment p.id = some loc ∧ place loc = some (c, k) := by
    intro p hp
    obtain ⟨d, hd⟩ := hr.declared (ha p hp)
    exact hr.find hd (hin.recorded_quote hr.tidy.identified hp hd)
  obtain ⟨vs, hw, hσ, hvs⟩ := hrel.captureAll hcells
  have htree : TidyEvents σ.heap.nextId tree.walk :=
    hr.tidy.part fun e he => hin.events e (by simp [he])
  obtain ⟨hn, ht⟩ := Node.substitute_tidy htree hvs
  rw [Exec.ofEval, Frame.quote_eq hw, Interp.quote_eq hσ, hrel.heap]
  have hl : Later σ.locations.size place place σ { σ with heap :=
      { σ.heap with nextId := (tree.substitute vs σ.heap.nextId).2 } } :=
    hrel.withHeap_later hn _
  refine ⟨rfl, ⟨place, hr.later (hrel.withHeap hn ?_) hl, hl.lower ?_, hk.slots, ?_⟩, ?_⟩
  · exact (hrel.tidy.heap.mono hn).nextId _
  · have := hr.bound
    omega
  · exact fun v hv => (hk.values v hv).mono hn
  · intro v hv
    rw [List.mem_singleton.mp hv]
    exact Value.tidy_expression.mpr ht

end

end ExprTree
