import ExprTree.Proofs.Emission

set_option autoImplicit false

/-! # How scopes represent environments

A scope of the compiled program stands for an environment of the interpreter. Bindings of the
environment become cells, but only for those parameters that are captured; the placement says which
cell holds which location. The main results say that an address in the code
(`Represents.captured`), a search by parameter (`Represents.findFrom`) and a name that a host
function uses (`Represents.cellNamed`) lead to the cell of the location that lexical scoping gives.
-/

namespace ExprTree

open Lexical (Bindings Env location?)

/-! ## Positions of parameters -/

theorem lastIndex?_eq_none {x : Nat} {xs : List Nat} : lastIndex? x xs = none ↔ x ∉ xs := by
  induction xs with
  | nil => simp [lastIndex?]
  | cons y ys ih =>
      simp only [lastIndex?, List.mem_cons, not_or]
      cases h : lastIndex? x ys with
      | some i => simp [← ih, h]
      | none =>
          have hx : x ∉ ys := ih.mp h
          by_cases hy : y = x
          · simp [hy]
          · simp [hx, hy, Ne.symm hy]

/-- The last occurrence is an occurrence. -/
theorem getElem?_of_lastIndex? {x i : Nat} {xs : List Nat} (h : lastIndex? x xs = some i) :
    xs[i]? = some x := by
  induction xs generalizing i with
  | nil => cases h
  | cons y ys ih =>
      simp only [lastIndex?] at h
      split at h
      case h_1 j hj =>
        cases h
        exact ih hj
      case h_2 =>
        split at h
        case isTrue hy =>
          cases h
          simp [hy]
        case isFalse => cases h

namespace Lambda

variable {l : Lambda Value} {p : Nat}

theorem declares_iff : l.declares p = true ↔ p ∈ l.params.map (·.id) := by
  simp [declares, List.any_eq_true]

theorem declares_eq_false : l.declares p = false ↔ lastIndex? p (l.params.map (·.id)) = none := by
  rw [lastIndex?_eq_none, ← declares_iff, Bool.not_eq_true]

theorem declares_of_lastIndex? {i : Nat} (h : lastIndex? p (l.params.map (·.id)) = some i) :
    l.declares p = true := by
  cases hd : l.declares p with
  | true => rfl
  | false => rw [declares_eq_false.mp hd] at h; cases h

theorem lastIndex?_of_declares (h : l.declares p = true) :
    ∃ i, lastIndex? p (l.params.map (·.id)) = some i := by
  cases hi : lastIndex? p (l.params.map (·.id)) with
  | some i => exact ⟨i, rfl⟩
  | none => rw [declares_eq_false.mpr hi] at h; cases h

end Lambda

/-! ## Hoisted parameters -/

/-- If all captured parameters are declared, each of them has a cell, in the same order. -/
theorem hoistedOf_eq {params : List Nat} {captured : List Parameter}
    (h : ∀ p ∈ captured, p.id ∈ params) :
    hoistedOf params captured
      = captured.zipIdx.map fun (p, k) => ⟨p, (lastIndex? p.id params).getD 0, k⟩ := by
  have hfrom : ∀ k, ((captured.zipIdx k).filterMap fun (p, position) =>
      (lastIndex? p.id params).map fun argument => (⟨p, argument, position⟩ : Hoisted))
      = (captured.zipIdx k).map fun (p, k) => ⟨p, (lastIndex? p.id params).getD 0, k⟩ := by
    induction captured with
    | nil => exact fun _ => rfl
    | cons p ps ih =>
        intro k
        have hps := ih (fun q hq => h q (List.mem_cons_of_mem p hq)) (k + 1)
        cases hi : lastIndex? p.id params with
        | none => exact absurd (h p List.mem_cons_self) (lastIndex?_eq_none.mp hi)
        | some i =>
            simp only [List.zipIdx_cons, List.filterMap_cons, hi, Option.map_some, List.map_cons,
              Option.getD_some, hps]
  exact hfrom 0

theorem find?_zipIdx (captured : List Parameter) (p : Nat) (f : Parameter → Nat) (k : Nat) :
    (((captured.zipIdx k).map fun (q, k) => (⟨q, f q, k⟩ : Hoisted)).find?
      (·.parameter.id == p)).map (·.position) = ((captured.map (·.id)).idxOf? p).map (· + k) := by
  induction captured generalizing k with
  | nil => rfl
  | cons q qs ih =>
      simp only [List.zipIdx_cons, List.map_cons, List.find?_cons, List.idxOf?_cons]
      cases hq : q.id == p with
      | true => simp
      | false =>
          simp only [Bool.false_eq_true, ↓reduceIte, ih, Option.map_map]
          congr 1
          funext j
          simp only [Function.comp_apply]
          omega

/-! ## Placements -/

/-- Where locations are kept, and how many cells the frames have. -/
structure Placement where
  /-- Which cell, if any, holds the value of a location: the cells of a frame and the position. -/
  cell : Nat → Option (Nat × Nat)
  /-- How many cells a frame with cells has. -/
  width : Nat → Option Nat

instance : CoeFun Placement fun _ => Nat → Option (Nat × Nat) := ⟨Placement.cell⟩

/-- A later placement: what has a cell keeps it, and of the first `n` locations no other one
gets one. -/
structure Placement.Extends (f g : Placement) (n : Nat) : Prop where
  placed : ∀ l c, f l = some c → g l = some c
  unplaced : ∀ l < n, f l = none → g l = none
  width : ∀ c k, f.width c = some k → g.width c = some k

namespace Placement.Extends

variable {f g h : Placement} {n m : Nat}

theorem refl (f : Placement) (n : Nat) : f.Extends f n :=
  ⟨fun _ _ hl => hl, fun _ _ hl => hl, fun _ _ hc => hc⟩

theorem trans (hfg : f.Extends g n) (hgh : g.Extends h m) (hnm : n ≤ m) : f.Extends h n :=
  ⟨fun l c hl => hgh.placed l c (hfg.placed l c hl), fun l hln hl =>
    hgh.unplaced l (Nat.lt_of_lt_of_le hln hnm) (hfg.unplaced l hln hl),
    fun c k hc => hgh.width c k (hfg.width c k hc)⟩

end Placement.Extends

/-- The parameters `ids` of a frame with the bindings `b` live in `cells`, in that order, and
nothing else does. -/
structure Holds (place : Placement) (ids : List Nat) (b : Bindings) (cells : Option Nat) :
    Prop where
  cell : ∀ k p, ids[k]? = some p → ∃ c i, cells = some c ∧ lastIndex? p b.params = some i ∧
    place (b.base + i) = some (c, k)
  width : ∀ c, cells = some c → place.width c = some ids.length

theorem Holds.mono {f g : Placement} {n : Nat} (hfg : f.Extends g n) {ids : List Nat} {b : Bindings}
    {cells : Option Nat} (h : Holds f ids b cells) : Holds g ids b cells := by
  refine ⟨fun k p hk => ?_, fun c hc => hfg.width c _ (h.width c hc)⟩
  obtain ⟨c, i, hc, hi, hp⟩ := h.cell k p hk
  exact ⟨c, i, hc, hi, hfg.placed _ _ hp⟩

/-- The cell of a parameter that is held, and its location. -/
theorem Holds.location {place : Placement} {ids : List Nat} {b : Bindings} {cells : Option Nat}
    (h : Holds place ids b cells) {p k : Nat} (hk : ids.idxOf? p = some k) :
    ∃ c l, cells = some c ∧ b.location? p = some l ∧ place l = some (c, k) := by
  have hget : ids[k]? = some p := by
    rw [List.idxOf?_eq_some_iff] at hk
    obtain ⟨hlt, heq, -⟩ := hk
    rw [List.getElem?_eq_getElem hlt, heq]
  obtain ⟨c, i, hc, hi, hp⟩ := h.cell k p hget
  exact ⟨c, b.base + i, hc, by simp [Bindings.location?, hi], hp⟩

/-! ## Compiled units -/

/-- A root lambda and the program made from it. -/
structure Compilation where
  schema : Schema
  root : Lambda Value
  program : Program

namespace Compilation

/-- The parameters of a lambda that live in cells. -/
def hoisted (C : Compilation) (l : Lambda Value) : List Nat := C.root.captures.idsOf l.id

/-- What is known while units are emitted. -/
def context (C : Compilation) : EmitContext := ⟨C.schema, C.root.captures⟩

/-- What the code of a lambda inside the lambdas `outer` can address. -/
def scope (C : Compilation) (l : Lambda Value) (outer : List (Lambda Value)) (unit : Nat) :
    EmitScope where
  unit := unit
  arguments := l.params.map (·.id)
  hoisted := C.hoisted l
  ancestors := outer.map C.hoisted

/-- The unit at position `u` was made from `l`, which stands inside the lambdas `outer`. -/
structure UnitAt (C : Compilation) (l : Lambda Value) (outer : List (Lambda Value))
    (parent : Option Nat) (u : Nat) : Prop where
  inside : Inside C.root (l :: outer) l.body.walk
  emitted : ∃ s code s', s.slots = l.params.length ∧
    l.body.emit C.context (C.scope l outer u) s = .ok (code, s') ∧
    s.Installed C.program s'.slots s' ∧
    C.program.units.get? u = some (l.codeUnit C.root.captures parent s'.slots code)

/-- Hoisted parameters are declared. -/
theorem declares_of_hoisted {C : Compilation} (hid : Identified C.root.walk) {l : Lambda Value}
    (hl : .enter l ∈ C.root.walk) {p : Nat} (hp : p ∈ C.hoisted l) : l.declares p = true :=
  idsOf_declares hid hl hp

/-- A hoisted parameter has a position. -/
theorem idxOf?_of_hoisted {C : Compilation} {l : Lambda Value} {p : Nat} (hp : p ∈ C.hoisted l) :
    ∃ k, (C.hoisted l).idxOf? p = some k := by
  rw [← Option.isSome_iff_exists, List.isSome_idxOf?]
  simpa using hp

/-- The position that a unit gives to a parameter. -/
theorem cellOf?_codeUnit {C : Compilation} (hid : Identified C.root.walk) {l : Lambda Value}
    (hl : .enter l ∈ C.root.walk) (parent : Option Nat) (count : Nat) (code : Code) (p : Nat) :
    (l.codeUnit C.root.captures parent count code).cellOf? p = (C.hoisted l).idxOf? p := by
  have hdec : ∀ q ∈ C.root.captures.ofLambda l.id, q.id ∈ l.params.map (·.id) := fun q hq =>
    Lambda.declares_iff.mp (declares_of_hoisted hid hl (List.mem_map_of_mem hq))
  have hfind := find?_zipIdx (C.root.captures.ofLambda l.id) p
    (fun q => (lastIndex? q.id (l.params.map (·.id))).getD 0) 0
  rw [← hoistedOf_eq hdec] at hfind
  exact hfind.trans (by simp [hoisted, Captures.idsOf])

end Compilation

/-! ## Scopes -/

/-- A scope that runs the unit of `l` stands for the environment around `l`: one link for each
enclosing lambda, with the cells of that lambda's bindings. -/
inductive Represents (C : Compilation) (place : Placement) :
    Scope → Lambda Value → List (Lambda Value) → Env → Prop
  | root {u : Nat} {l : Lambda Value} (h : C.UnitAt l [] none u) :
      Represents C place (.root C.program u) l [] []
  | nested {scope : Scope} {d l : Lambda Value} {outer : List (Lambda Value)} {env : Env}
      {b : Bindings} {cells : Option Nat} {u : Nat} (around : Represents C place scope d outer env)
      (h : C.UnitAt l (d :: outer) (some scope.unit) u) (params : b.params = d.params.map (·.id))
      (shared : b.shared = d.shared) (held : Holds place (C.hoisted d) b cells) :
      Represents C place (.nested scope u cells) l (d :: outer) (b :: env)

namespace Represents

variable {C : Compilation} {place : Placement} {scope : Scope} {l : Lambda Value}
  {outer : List (Lambda Value)} {env : Env}

theorem mono {place' : Placement} {n : Nat} (hp : place.Extends place' n)
    (h : Represents C place scope l outer env) : Represents C place' scope l outer env := by
  induction h with
  | root h => exact .root h
  | nested _ h params shared held ih => exact .nested ih h params shared (held.mono hp)

theorem program_eq (h : Represents C place scope l outer env) : scope.program = C.program := by
  induction h with
  | root _ => rfl
  | nested _ _ _ _ _ ih => exact ih

theorem unitAt (h : Represents C place scope l outer env) :
    ∃ parent, C.UnitAt l outer parent scope.unit := by
  cases h with
  | root h => exact ⟨none, h⟩
  | nested around h => exact ⟨_, h⟩

/-- The lambdas around a unit are lambdas of the root. -/
theorem around_mem (h : Represents C place scope l outer env) :
    ∀ d ∈ l :: outer, .enter d ∈ C.root.walk := by
  obtain ⟨_, hu⟩ := h.unitAt
  exact hu.inside.around

/-- The bindings of a lambda that does not declare a parameter do not bind it. -/
theorem location?_cons {d : Lambda Value} {b : Bindings} (params : b.params = d.params.map (·.id))
    {p : Nat} (hd : d.declares p = false) (env : Env) :
    location? (b :: env) p = location? env p := by
  have hb : b.location? p = none := by
    rw [Bindings.location?, params, Lambda.declares_eq_false.mp hd]
    rfl
  simp [location?, hb]

/-- An address `level` links up leads to the cell of the parameter's location. -/
theorem captured (h : Represents C place scope l outer env) {p level k : Nat}
    (hf : findLevel? p (outer.map C.hoisted) = some (level, k))
    (hrec : ∀ d, outer.find? (·.declares p) = some d → p ∈ C.hoisted d) :
    ∃ c loc, scope.localsAt level = some c ∧ location? env p = some loc ∧
      place loc = some (c, k) := by
  induction h generalizing level with
  | root _ => cases hf
  | @nested scope d l outer env b cells u around h params shared held ih =>
      simp only [List.map_cons, findLevel?] at hf
      split at hf
      case h_1 position hk =>
        cases hf
        obtain ⟨c, loc, hc, hloc, hpl⟩ := held.location hk
        exact ⟨c, loc, hc, by simp [location?, hloc], hpl⟩
      case h_2 hk =>
        -- the link does not hold the parameter, so its lambda does not declare it
        have hnot : p ∉ C.hoisted d := by simpa [List.idxOf?_eq_none_iff] using hk
        have hdec : d.declares p = false := by
          cases hd : d.declares p with
          | false => rfl
          | true => exact absurd (hrec d (by simp [hd])) hnot
        obtain ⟨⟨level', k'⟩, hf', heq⟩ := Option.map_eq_some_iff.mp hf
        cases heq
        obtain ⟨c, loc, hc, hloc, hpl⟩ := ih hf' fun d' hd' => hrec d' (by simp [hdec, hd'])
        exact ⟨c, loc, hc, by rw [location?_cons params hdec, hloc], hpl⟩

/-- A search by parameter that starts at a unit whose lambda declares it. -/
theorem findFrom_own (hid : Identified C.root.walk) (hl : .enter l ∈ C.root.walk) {p k : Nat}
    (hk : (C.hoisted l).idxOf? p = some k) (units : Arena CodeUnit) (parent : Option Nat)
    (count : Nat) (code : Code) (own : Option Nat) (scope : Scope) :
    scope.findFrom units p (l.codeUnit C.root.captures parent count code) own
      = own.map (·, k) := by
  have hcell := Compilation.cellOf?_codeUnit hid hl parent count code p
  rw [hk] at hcell
  cases scope with
  | root => simp only [Scope.findFrom, hcell]
  | nested => simp only [Scope.findFrom, hcell]

/-- A parameter that a lambda does not declare is not hoisted. -/
theorem not_hoisted (hid : Identified C.root.walk) (hl : .enter l ∈ C.root.walk) {p : Nat}
    (hp : l.declares p = false) : p ∉ C.hoisted l := by
  intro hmem
  rw [Compilation.declares_of_hoisted hid hl hmem] at hp
  cases hp

/-- A parameter that is not hoisted has no cell in the unit. -/
theorem cellOf?_eq_none (hid : Identified C.root.walk) (hl : .enter l ∈ C.root.walk) {p : Nat}
    (hp : p ∉ C.hoisted l) (parent : Option Nat) (count : Nat) (code : Code) :
    (l.codeUnit C.root.captures parent count code).cellOf? p = none := by
  rw [Compilation.cellOf?_codeUnit hid hl, List.idxOf?_eq_none_iff]
  exact hp

/-- A search by parameter ends at the cells of the running frame, if its lambda hoists it. -/
theorem find?_own (hid : Identified C.root.walk) (h : Represents C place scope l outer env)
    {p k : Nat} (hk : (C.hoisted l).idxOf? p = some k) (own : Option Nat) :
    scope.find? own p = own.map (·, k) := by
  obtain ⟨_, hu⟩ := h.unitAt
  obtain ⟨s, code, s', -, -, -, hunit⟩ := hu.emitted
  simp only [Scope.find?, Scope.unit?, h.program_eq, hunit, Option.bind_some]
  exact findFrom_own hid (h.around_mem l List.mem_cons_self) hk ..

/-- A search by parameter finds nothing in a root scope whose lambda does not hoist it. -/
theorem find?_root (hid : Identified C.root.walk) {u : Nat} (h : C.UnitAt l [] none u) {p : Nat}
    (hp : p ∉ C.hoisted l) (own : Option Nat) : (Scope.root C.program u).find? own p = none := by
  obtain ⟨s, code, s', -, -, -, hunit⟩ := h.emitted
  have hs : (Scope.root C.program u).unit? = _ := hunit
  simp only [Scope.find?, hs, Option.bind_some, Scope.findFrom]
  rw [cellOf?_eq_none hid (h.inside.around l List.mem_cons_self) hp]

/-- A search by parameter goes one link outwards, if the innermost lambda does not hoist the
parameter. -/
theorem find?_nested (hid : Identified C.root.walk) {d : Lambda Value} {u : Nat}
    {cells : Option Nat} (around : Represents C place scope d outer env)
    (h : C.UnitAt l (d :: outer) (some scope.unit) u) {p : Nat} (hl : p ∉ C.hoisted l)
    (own : Option Nat) : (Scope.nested scope u cells).find? own p = scope.find? cells p := by
  obtain ⟨s, code, s', -, -, -, hunit⟩ := h.emitted
  obtain ⟨_, ha⟩ := around.unitAt
  obtain ⟨t, code₁, t', -, -, -, hunit₁⟩ := ha.emitted
  -- the unit of `l` has no cell for it, and the unit around is the one that `scope` runs
  have hcell := cellOf?_eq_none hid (h.inside.around l List.mem_cons_self) hl
    (some scope.unit) s'.slots code
  rw [← around.program_eq] at hunit hunit₁
  have hs : (Scope.nested scope u cells).unit? = _ := hunit
  have hs₁ : scope.unit? = _ := hunit₁
  have hparent : (l.codeUnit C.root.captures (some scope.unit) s'.slots code).parent.bind
      (Scope.nested scope u cells).program.units.get? = _ := hunit₁
  simp only [Scope.find?, hs, hs₁, Option.bind_some]
  rw [Scope.findFrom, hcell, hparent]
  rfl

/-- A search by parameter leads to the cell of the parameter's location, if the parameter is
declared further out. -/
theorem findFrom (hid : Identified C.root.walk) (h : Represents C place scope l outer env)
    {p : Nat} {d : Lambda Value} (hl : l.declares p = false)
    (hd : outer.find? (·.declares p) = some d) (hp : p ∈ C.hoisted d) (own : Option Nat) :
    ∃ c k loc, scope.find? own p = some (c, k) ∧ location? env p = some loc ∧
      place loc = some (c, k) := by
  induction h generalizing d own with
  | root _ => cases hd
  | @nested scope d₁ l outer env b cells u around h params shared held ih =>
      have hnot := not_hoisted hid (h.inside.around l List.mem_cons_self) hl
      rw [find?_nested hid around h hnot]
      cases hd₁ : d₁.declares p with
      | true =>
          -- the next lambda declares it, so the search stops at the cells of that link
          have heq : d₁ = d := by simpa [hd₁] using hd
          subst heq
          obtain ⟨k, hk⟩ := Compilation.idxOf?_of_hoisted hp
          obtain ⟨c, loc, rfl, hloc, hpl⟩ := held.location hk
          exact ⟨c, k, loc, around.find?_own hid hk _, by simp [location?, hloc], hpl⟩
      | false =>
          have hd' : outer.find? (·.declares p) = some d := by simpa [hd₁] using hd
          obtain ⟨c, k, loc, hf, hloc, hpl⟩ := ih hd₁ hd' hp cells
          exact ⟨c, k, loc, hf, by rw [location?_cons params hd₁, hloc], hpl⟩

/-- A parameter that no lambda around declares has neither a cell nor a location. -/
theorem find?_eq_none (hid : Identified C.root.walk) (h : Represents C place scope l outer env)
    {p : Nat} (hl : l.declares p = false) (hd : outer.find? (·.declares p) = none)
    (own : Option Nat) : scope.find? own p = none ∧ location? env p = none := by
  induction h generalizing own with
  | @root u l h =>
      have hnot := not_hoisted hid (h.inside.around l List.mem_cons_self) hl
      exact ⟨find?_root hid h hnot own, rfl⟩
  | @nested scope d l outer env b cells u around h params shared held ih =>
      have hd₁ : d.declares p = false := by
        simpa using List.find?_eq_none.mp hd d List.mem_cons_self
      have hd' : outer.find? (·.declares p) = none := by simpa [hd₁] using hd
      have hnot := not_hoisted hid (h.inside.around l List.mem_cons_self) hl
      rw [find?_nested hid around h hnot, location?_cons params hd₁]
      exact ih hd₁ hd' cells

/-! ## Names that host functions use -/

/-- What the interpreter says about a name: it stands for the cell of a location, or for nothing
that is there. -/
def NamesCell (place : Placement) : Option Nat → Option (Nat × Nat) → Prop
  | some loc, cell => ∃ c, cell = some c ∧ place loc = some c
  | none, cell => ∀ c k, cell = some (c, k) → ∃ n, place.width c = some n ∧ n ≤ k

/-- The innermost bindings that share a parameter. -/
def sharedLocation? (env : Env) (p : Nat) : Option Nat :=
  env.findSome? fun b => if p ∈ b.shared then b.location? p else none

/-- The captures of a lambda that runs are what the interpreter shares. -/
theorem hoisted_eq_shared (hid : Identified C.root.walk)
    (h : Represents C place scope l outer env) : C.hoisted l = l.shared :=
  Lambda.idsOf_captures hid (h.around_mem l List.mem_cons_self)

/-- A search by parameter, if the parameter is not hoisted where it starts. -/
theorem find?_shared (hid : Identified C.root.walk) (h : Represents C place scope l outer env)
    {p : Nat} (hl : p ∉ C.hoisted l) (own : Option Nat) :
    NamesCell place (sharedLocation? env p) (scope.find? own p) := by
  induction h generalizing own with
  | root h =>
      rw [find?_root hid h hl]
      exact nofun
  | @nested scope d l outer env b cells u around h params shared held ih =>
      rw [find?_nested hid around h hl]
      have hshared : b.shared = C.hoisted d := shared.trans (around.hoisted_eq_shared hid).symm
      simp only [sharedLocation?, List.findSome?_cons, hshared]
      by_cases hd : p ∈ C.hoisted d
      · -- the link holds it
        obtain ⟨k, hk⟩ := Compilation.idxOf?_of_hoisted hd
        obtain ⟨c, loc, rfl, hloc, hpl⟩ := held.location hk
        rw [if_pos hd, hloc, around.find?_own hid hk]
        exact ⟨(c, k), rfl, hpl⟩
      · rw [if_neg hd]
        exact ih hd cells

/-- A position in the cells of a link. -/
theorem localsAt_shared (hid : Identified C.root.walk) (h : Represents C place scope l outer env)
    (level position : Nat) :
    NamesCell place (do
        let b ← env[level]?
        let p ← b.shared[position]?
        b.location? p)
      ((scope.localsAt level).map (·, position)) := by
  induction h generalizing level with
  | root h => cases level <;> exact nofun
  | @nested scope d l outer env b cells u around h params shared held ih =>
      cases level with
      | succ level => exact ih level
      | zero =>
          have hshared : b.shared = C.hoisted d := shared.trans (around.hoisted_eq_shared hid).symm
          simp only [List.getElem?_cons_zero, Option.bind_eq_bind, Option.bind_some, hshared]
          cases hp : (C.hoisted d)[position]? with
          | some p =>
              obtain ⟨c, i, hc, hi, hpl⟩ := held.cell position p hp
              simp only [Option.bind_some, Bindings.location?, hi, Option.map_some]
              exact ⟨(c, position), by simp [Scope.localsAt, Scope.locals, hc], hpl⟩
          | none =>
              -- the position is beyond the last cell
              rintro c k hck
              obtain ⟨c', hc', heq⟩ := Option.map_eq_some_iff.mp hck
              cases heq
              exact ⟨_, held.width c hc', List.getElem?_eq_none_iff.mp hp⟩

/-- A name leads to the cell of the location that the interpreter means by it. -/
theorem cellNamed (hid : Identified C.root.walk) (h : Represents C place scope l outer env)
    (limit : UInt32) (name : CellName) :
    NamesCell place ((Lexical.Closure.mk l env limit).location? name) (scope.cellNamed name) := by
  cases name with
  | place level position => exact h.localsAt_shared hid level position
  | parameter p =>
      have hshared := h.hoisted_eq_shared hid
      simp only [Lexical.Closure.location?, Scope.cellNamed]
      by_cases hp : p ∈ l.shared
      · obtain ⟨k, hk⟩ := Compilation.idxOf?_of_hoisted (hshared ▸ hp)
        rw [if_pos hp, h.find?_own hid hk]
        intro c k hck
        cases hck
      · rw [if_neg hp]
        exact h.find?_shared hid (hshared ▸ hp) none

end Represents

end ExprTree
