import ExprTree.Proofs.Sessions
import ExprTree.Proofs.Watching
import ExprTree.Proofs.WellFormed

set_option autoImplicit false

/-! # Static and dynamic addresses agree

A parameter that lives in a cell is found in two ways. The code holds an address, which the emitter
has counted out over the lambdas around; and a search by parameter, for quotes and for the host,
walks along the links of units and scopes. The main result is `addressing_agrees`: in every frame
that any run enters both lead to the same cell, so that the host reads and writes through a closure
exactly what the body of the closure reads.

Scopes of running programs are `Linked`: a closure belongs to a unit that the code of its creator
refers to, and its creator's cells are there. Invocations keep that (`Environment.invoke_linked`),
and so does everything else that a host can do (`Environment.Reached.linked`).
-/

namespace ExprTree

/-! ## Linked scopes -/

/-- The cells of a frame of the unit: none if it hoists nothing, else one for each parameter. -/
def CodeUnit.Fits (u : CodeUnit) (cells : Array (Array Value)) : Option Nat → Prop
  | none => u.hoisted = []
  | some c => ∃ row, cells[c]? = some row ∧ row.size = u.hoisted.length

/-- A program that some root lambda was compiled to. -/
def Program.Compiled (p : Program) : Prop :=
  ∃ schema options root, Program.ofLambda schema options root = .ok p

theorem Program.compiled_of_compile {schema : Schema} {options : Options} {tree : Tree}
    {p : Program} (h : Program.compile schema options tree = .ok p) : p.Compiled := by
  obtain ⟨root, -, hp⟩ := Program.ofLambda_of_compile h
  exact ⟨schema, options, root, hp⟩

/-- A scope that comes from running a compiled program: its links are closures of units that the
code around refers to, with the cells of the frame that made them. -/
inductive Scope.Linked (cells : Array (Array Value)) : Scope → Prop
  | root {p : Program} (compiled : p.Compiled) : Linked cells (.root p 0)
  | nested {s : Scope} {d : CodeUnit} {u : Nat} {own : Option Nat} (around : Linked cells s)
      (unit : s.unit? = some d) (refers : .unit u ∈ d.body.references) (fits : d.Fits cells own) :
      Linked cells (.nested s u own)

/-- The scopes of all closures are linked. -/
def World.Linked (w : World) : Prop :=
  ∀ (i : Nat) (s : Scope), w.closures[i]? = some s → s.Linked w.cells

/-- The cells of every frame are still there, as many as before. -/
def Widens (before after : Array (Array Value)) : Prop :=
  ∀ (c : Nat) (row : Array Value), before[c]? = some row →
    ∃ row', after[c]? = some row' ∧ row'.size = row.size

namespace Widens

variable {a b c : Array (Array Value)}

theorem refl (a : Array (Array Value)) : Widens a a := fun _ row h => ⟨row, h, rfl⟩

theorem trans (hab : Widens a b) (hbc : Widens b c) : Widens a c := by
  intro i row hrow
  obtain ⟨row', hrow', hsize⟩ := hab i row hrow
  obtain ⟨row'', hrow'', hsize'⟩ := hbc i row' hrow'
  exact ⟨row'', hrow'', hsize'.trans hsize⟩

theorem push (a : Array (Array Value)) (row : Array Value) : Widens a (a.push row) := by
  intro i row' hrow'
  have hlt := (Array.getElem?_eq_some_iff.mp hrow').1
  exact ⟨row', by rw [Array.getElem?_push, if_neg (by omega), hrow'], rfl⟩

theorem setCell (a : Array (Array Value)) (i k : Nat) (x : Value) :
    Widens a (a.modify i (·.setIfInBounds k x)) := by
  intro j row hrow
  rw [Array.getElem?_modify, hrow]
  by_cases hij : i = j
  · exact ⟨row.setIfInBounds k x, by simp [hij], by simp⟩
  · exact ⟨row, by simp [hij], rfl⟩

end Widens

section Mono

variable {cells cells' : Array (Array Value)} (hwide : Widens cells cells')

include hwide

theorem CodeUnit.Fits.mono {u : CodeUnit} {own : Option Nat} (h : u.Fits cells own) :
    u.Fits cells' own := by
  cases own with
  | none => exact h
  | some c =>
      obtain ⟨row, hrow, hsize⟩ := h
      obtain ⟨row', hrow', hsize'⟩ := hwide c row hrow
      exact ⟨row', hrow', hsize'.trans hsize⟩

theorem Scope.Linked.mono {s : Scope} (h : s.Linked cells) : s.Linked cells' := by
  induction h with
  | root compiled => exact .root compiled
  | nested around unit refers fits ih => exact .nested ih unit refers (fits.mono hwide)

end Mono

theorem Scope.Linked.compiled {cells : Array (Array Value)} {s : Scope} (h : s.Linked cells) :
    s.program.Compiled := by
  induction h with
  | root compiled => exact compiled
  | nested _ _ _ _ ih => exact ih

/-- The cells that a new frame gets fit, and all other cells stay. -/
theorem CodeUnit.newCells_fits (u : CodeUnit) (args : List Value) (w : World) :
    u.Fits (u.newCells args w).2.cells (u.newCells args w).1 ∧
      Widens w.cells (u.newCells args w).2.cells := by
  unfold CodeUnit.newCells
  split
  case isTrue hempty => exact ⟨List.isEmpty_iff.mp hempty, .refl _⟩
  case isFalse =>
    refine ⟨⟨_, Array.getElem?_push_size, ?_⟩, .push _ _⟩
    simp

/-! ## The lambda of a scope -/

/-- The unit of the scope was emitted from the lambda `site` of `root`, whose lambdas have numbers
of their own. -/
structure Scope.Runs (s : Scope) (root : Lambda Value) (site : LambdaSite) : Prop where
  compiled : ∃ schema options, Program.ofLambda schema options root = .ok s.program
  identified : Identified root.walk
  listed : root.sites[s.unit]? = some site

namespace Scope.Runs

variable {s : Scope} {root : Lambda Value} {site : LambdaSite}

theorem layout (h : s.Runs root site) :
    ∃ schema, Program.Layout ⟨schema, root.captures⟩ root s.program := by
  obtain ⟨schema, options, hp⟩ := h.compiled
  exact ⟨schema, Program.layout hp⟩

theorem enter_mem (h : s.Runs root site) : .enter site.lambda ∈ root.walk :=
  Lambda.enter_of_mem_sites (List.mem_of_getElem? h.listed)

/-- The unit that runs was emitted with the addresses of the listed lambda. -/
theorem unitOf (h : s.Runs root site) : ∃ schema parent count body,
    UnitOf ⟨schema, root.captures⟩ root.sites s.program.units s.program.pool s.unit site parent
      count body := by
  obtain ⟨schema, hl⟩ := h.layout
  have hlt : s.unit < s.program.units.size := by
    rw [hl.count]
    exact (List.getElem?_eq_some_iff.mp h.listed).1
  obtain ⟨site', parent, count, body, hof⟩ := hl.laid s.unit hlt
  obtain rfl : site' = site := Option.some.inj (hof.listed.symm.trans h.listed)
  exact ⟨schema, parent, count, body, hof⟩

/-- The lambda around a closure's lambda is the one that the creator runs. -/
theorem around {u : Nat} {own : Option Nat} {d : CodeUnit}
    (h : (Scope.nested s u own).Runs root site) (hunit : s.unit? = some d)
    (hrefers : .unit u ∈ d.body.references) :
    ∃ site', s.Runs root site' ∧ site.outer = site'.around ∧
      ∃ v, (Scope.nested s u own).unit? = some v ∧ v.parent = some s.unit := by
  obtain ⟨schema, hl⟩ := h.layout
  obtain ⟨site', parent', count', body', hof'⟩ := hl.laid s.unit (Program.lt_size hunit)
  obtain rfl : d = _ := Option.some.inj (hunit.symm.trans hof'.unit)
  -- the reference was valid when it was emitted, so the parent of the unit is the creator's
  obtain ⟨v, hv, hparent⟩ := hof'.references _ hrefers
  have hruns : s.Runs root site' := ⟨h.compiled, h.identified, hof'.listed⟩
  obtain ⟨schema', parent, count, body, hof⟩ := h.unitOf
  obtain rfl : v = _ := Option.some.inj (hv.symm.trans hof.unit)
  have hparent' : parent = some s.unit := hparent
  have hsite := hof.parent
  rw [hparent'] at hsite
  cases hsite with
  | inside _ hlisted houter =>
      obtain rfl := Option.some.inj (hlisted.symm.trans hof'.listed)
      exact ⟨_, hruns, houter, _, hv, hparent⟩

end Scope.Runs

/-- The program of the scope is compiled, and from whichever root lambda: the unit was emitted from
one of its lambdas, with addresses of which `P` holds. -/
def Scope.EmittedWith (s : Scope) (P : Lambda Value → EmitScope → Prop) : Prop :=
  s.program.Compiled ∧
    ∀ schema options root, Program.ofLambda schema options root = .ok s.program →
      Identified root.walk → ∃ site u t t', s.Runs root site ∧ s.unit? = some u ∧
        site.lambda.body.emit ⟨schema, root.captures⟩ (site.emitScope root.captures s.unit) t
          = .ok (u.body, t') ∧
        P site.lambda (site.emitScope root.captures s.unit)

/-- A linked scope has a unit. -/
theorem Scope.Linked.lt_size {cells : Array (Array Value)} {s : Scope} (h : s.Linked cells) :
    s.unit < s.program.units.size := by
  cases h with
  | root compiled =>
      obtain ⟨schema, options, root, hp⟩ := compiled
      exact (Program.layout hp).count ▸ Nat.succ_pos _
  | @nested s d u own around unit refers fits =>
      obtain ⟨schema, options, root, hp⟩ := around.compiled
      have hl := Program.layout hp
      obtain ⟨site, parent, count, body, hof⟩ := hl.laid s.unit (Program.lt_size unit)
      obtain rfl : d = _ := Option.some.inj (unit.symm.trans hof.unit)
      obtain ⟨v, hv, -⟩ := hof.references _ refers
      exact Program.lt_size hv

theorem Scope.Linked.emittedWith {cells : Array (Array Value)} {s : Scope} (h : s.Linked cells)
    {P : Lambda Value → EmitScope → Prop}
    (hP : ∀ root site, s.Runs root site →
      P site.lambda (site.emitScope root.captures s.unit)) : s.EmittedWith P := by
  refine ⟨h.compiled, fun schema options root hp hid => ?_⟩
  obtain ⟨site, parent, count, body, hof⟩ := (Program.layout hp).laid s.unit h.lt_size
  obtain ⟨t, t', hemit⟩ := hof.emitted
  have hr : s.Runs root site := ⟨⟨schema, options, hp⟩, hid, hof.listed⟩
  exact ⟨site, _, t, t', hr, hof.unit, hemit, hP root site hr⟩

/-! ## Searching along the links -/

/-- The address of a parameter among the cells alone, as if no argument had a slot. -/
def EmitScope.cellAddress? (s : EmitScope) (q : Nat) : Option Address :=
  match s.hoisted.idxOf? q with
  | some k => some (.own k)
  | none => (findLevel? q s.ancestors).map fun (level, k) => .captured level k

/-- An address as it is seen from a closure that the frame makes. -/
def Address.fromInside : Address → Address
  | .slot i => .slot i
  | .own k => .captured 0 k
  | .captured level k => .captured (level + 1) k

theorem Frame.cellOf_fromInside (s : Scope) (u : Nat) (cells own : Option Nat) (depth : UInt32)
    (a : Address) :
    Frame.cellOf ⟨.nested s u cells, own, depth⟩ a.fromInside
      = Frame.cellOf ⟨s, cells, depth⟩ a := by
  cases a <;> rfl

namespace EmitScope

variable {es : EmitScope} {q : Nat}

theorem cellAddress?_of_own {k : Nat} (h : es.hoisted.idxOf? q = some k) :
    es.cellAddress? q = some (.own k) := by
  rw [cellAddress?, h]

theorem cellAddress?_of_none (h : es.hoisted.idxOf? q = none) :
    es.cellAddress? q = (findLevel? q es.ancestors).map fun (level, k) => .captured level k := by
  rw [cellAddress?, h]

theorem idxOf?_of_cellAddress? {k : Nat} (h : es.cellAddress? q = some (.own k)) :
    es.hoisted.idxOf? q = some k := by
  cases hk : es.hoisted.idxOf? q with
  | some j =>
      rw [cellAddress?_of_own hk] at h
      cases h
      rfl
  | none =>
      rw [cellAddress?_of_none hk] at h
      obtain ⟨_, _, heq⟩ := Option.map_eq_some_iff.mp h
      cases heq

theorem findLevel?_of_cellAddress? {level k : Nat}
    (h : es.cellAddress? q = some (.captured level k)) :
    findLevel? q es.ancestors = some (level, k) := by
  cases hk : es.hoisted.idxOf? q with
  | some j =>
      rw [cellAddress?_of_own hk] at h
      cases h
  | none =>
      rw [cellAddress?_of_none hk] at h
      obtain ⟨⟨_, _⟩, hf, heq⟩ := Option.map_eq_some_iff.mp h
      cases heq
      exact hf

/-- A parameter that the lambda does not hoist is looked for one lambda further out. -/
theorem cellAddress?_inside {inner : EmitScope} (hq : inner.hoisted.idxOf? q = none)
    (ha : inner.ancestors = es.hoisted :: es.ancestors) :
    inner.cellAddress? q = (es.cellAddress? q).map Address.fromInside := by
  rw [cellAddress?_of_none hq, ha, findLevel?]
  cases hk : es.hoisted.idxOf? q with
  | some k =>
      rw [cellAddress?_of_own hk]
      rfl
  | none =>
      rw [cellAddress?_of_none hk, Option.map_map, Option.map_map]
      rfl

/-- An address that the code uses for a cell is the address among the cells. -/
theorem cellAddress?_eq {a : Option Address} (h : es.address? q = a)
    (ha : ∀ i, a ≠ some (.slot i)) : es.cellAddress? q = a := by
  subst h
  unfold address? at ha ⊢
  cases hk : es.hoisted.idxOf? q with
  | some k => exact cellAddress?_of_own hk
  | none =>
      rw [cellAddress?_of_none hk]
      cases hi : lastIndex? q es.arguments with
      | none => rfl
      | some i => exact absurd (by rw [hk, hi]) (ha i)

end EmitScope

namespace Scope.Runs

variable {s : Scope} {root : Lambda Value} {site : LambdaSite}

/-- The cell that the unit gives to a parameter is the one that the emitter has counted. -/
theorem cellOf? (h : s.Runs root site) {u : CodeUnit} (hu : s.unit? = some u) (q : Nat) :
    u.cellOf? q = (root.captures.idsOf site.lambda.id).idxOf? q := by
  obtain ⟨schema, parent, count, body, hof⟩ := h.unitOf
  obtain rfl : u = _ := Option.some.inj (hu.symm.trans hof.unit)
  exact Compilation.cellOf?_codeUnit (C := ⟨schema, root, s.program⟩) h.identified h.enter_mem
    parent count body q

theorem length_hoisted (h : s.Runs root site) {u : CodeUnit} (hu : s.unit? = some u) :
    u.hoisted.length = (root.captures.idsOf site.lambda.id).length := by
  obtain ⟨schema, parent, count, body, hof⟩ := h.unitOf
  obtain rfl : u = _ := Option.some.inj (hu.symm.trans hof.unit)
  rw [Captures.idsOf, List.length_map]
  exact length_hoistedOf (Lambda.captured_mem h.identified (List.mem_of_getElem? h.listed))

end Scope.Runs

variable {cells : Array (Array Value)} {s : Scope} {root : Lambda Value} {site : LambdaSite}

/-- **The search follows the addresses.** By induction on the links: the unit's parent and the
scope's parent lead to the same lambda, one level further out for both. -/
theorem Scope.Linked.find?_eq (h : s.Linked cells) (hr : s.Runs root site) (own : Option Nat)
    (depth : UInt32) (q : Nat) :
    s.find? own q = ((site.emitScope root.captures s.unit).cellAddress? q).bind
      (Frame.cellOf ⟨s, own, depth⟩) := by
  induction h generalizing site own with
  | @root p compiled =>
      obtain ⟨schema, parent, count, body, hof⟩ := hr.unitOf
      have hu : (Scope.root p 0).unit? = _ := hof.unit
      have hcell := hr.cellOf? hu q
      have houter : site.outer = [] := by
        have hsite : ⟨root, []⟩ = site := Option.some.inj hr.listed
        rw [← hsite]
      simp only [Scope.find?, hu, Option.bind_some, Scope.findFrom, hcell]
      cases hk : (root.captures.idsOf site.lambda.id).idxOf? q with
      | some k => rw [EmitScope.cellAddress?_of_own hk]; rfl
      | none => rw [EmitScope.cellAddress?_of_none hk, LambdaSite.emitScope, houter]; rfl
  | @nested s d u cs around hunit refers fits ih =>
      obtain ⟨site', hr', houter, v, hv, hparent⟩ := hr.around hunit refers
      have hcell := hr.cellOf? hv q
      have hd : v.parent.bind s.program.units.get? = some d := by rw [hparent]; exact hunit
      cases hk : (root.captures.idsOf site.lambda.id).idxOf? q with
      | some k =>
          rw [EmitScope.cellAddress?_of_own hk]
          rw [hk] at hcell
          simp only [Scope.find?, hv, Option.bind_some, Scope.findFrom, hcell]
          rfl
      | none =>
          have hinside : (site.emitScope root.captures u).cellAddress? q
              = ((site'.emitScope root.captures s.unit).cellAddress? q).map Address.fromInside :=
            EmitScope.cellAddress?_inside hk (by rw [LambdaSite.emitScope, houter]; rfl)
          have hstep : (Scope.nested s u cs).find? own q = s.find? cs q := by
            rw [hk] at hcell
            simp only [Scope.find?, hv, hunit, Option.bind_some, Scope.findFrom, hcell,
              Scope.program, hd]
          rw [hstep, ih hr' cs]
          show _ = ((site.emitScope root.captures u).cellAddress? q).bind _
          rw [hinside, Option.bind_map]
          exact congrArg _ (funext fun a => (Frame.cellOf_fromInside s u cs own depth a).symm)

/-! ## Cells that are there -/

/-- The cells of the lambda `level` links out are there, if it hoists anything. -/
theorem Scope.Linked.localsAt (h : s.Linked cells) (hr : s.Runs root site) {level : Nat}
    {l : Lambda Value} (hl : site.outer[level]? = some l)
    (hne : 0 < (root.captures.idsOf l.id).length) :
    ∃ c row, s.localsAt level = some c ∧ cells[c]? = some row ∧
      row.size = (root.captures.idsOf l.id).length := by
  induction h generalizing site level with
  | @root p compiled =>
      have hsite : ⟨root, []⟩ = site := Option.some.inj hr.listed
      rw [← hsite] at hl
      cases hl
  | @nested s d u cs around hunit refers fits ih =>
      obtain ⟨site', hr', houter, -⟩ := hr.around hunit refers
      rw [houter] at hl
      cases level with
      | succ level => exact ih hr' hl
      | zero =>
          cases hl
          have hlength := hr'.length_hoisted hunit
          cases cs with
          | none =>
              have hempty : d.hoisted = [] := fits
              rw [hempty] at hlength
              exact absurd hne (by rw [← hlength]; exact Nat.lt_irrefl 0)
          | some c =>
              obtain ⟨row, hrow, hsize⟩ := fits
              exact ⟨c, row, rfl, hrow, hsize.trans hlength⟩

/-- A captured address leads to a cell that is there. -/
theorem Scope.Linked.captured (h : s.Linked cells) (hr : s.Runs root site) {q level k : Nat}
    (ha : (site.emitScope root.captures s.unit).cellAddress? q = some (.captured level k)) :
    ∃ c row, s.localsAt level = some c ∧ cells[c]? = some row ∧ k < row.size := by
  obtain ⟨ids, hids, hk⟩ := findLevel?_lt (EmitScope.findLevel?_of_cellAddress? ha)
  simp only [LambdaSite.emitScope, List.getElem?_map, Option.map_eq_some_iff] at hids
  obtain ⟨l, hl, rfl⟩ := hids
  obtain ⟨c, row, hc, hrow, hsize⟩ := h.localsAt hr hl (Nat.zero_lt_of_lt hk)
  exact ⟨c, row, hc, hrow, by rw [hsize]; exact hk⟩

/-- A frame in whose cells a search by parameter finds what the addresses of the emitter say. -/
structure Frame.Addressed (f : Frame) (es : EmitScope) : Prop where
  own : ∀ q k, es.address? q = some (.own k) →
    ∃ c, f.cells = some c ∧ f.scope.find? f.cells q = some (c, k)
  captured : ∀ q level k, es.address? q = some (.captured level k) →
    ∃ c, f.scope.localsAt level = some c ∧ f.scope.find? f.cells q = some (c, k)
  outside : ∀ q, es.address? q = none → f.scope.find? f.cells q = none

theorem Scope.Linked.addressed (h : s.Linked cells) (hr : s.Runs root site) {u : CodeUnit}
    (hu : s.unit? = some u) {own : Option Nat} (fits : u.Fits cells own) (depth : UInt32) :
    Frame.Addressed ⟨s, own, depth⟩ (site.emitScope root.captures s.unit) := by
  refine ⟨fun q k ha => ?_, fun q level k ha => ?_, fun q ha => ?_⟩
  · have hcell := EmitScope.cellAddress?_eq ha fun _ h => by cases h
    have hfind := h.find?_eq hr own depth q
    rw [hcell] at hfind
    have hk : k < u.hoisted.length := by
      rw [hr.length_hoisted hu]
      exact (List.idxOf?_eq_some_iff.mp (EmitScope.idxOf?_of_cellAddress? hcell)).1
    cases own with
    | none =>
        have hempty : u.hoisted = [] := fits
        rw [hempty] at hk
        exact absurd hk (Nat.not_lt_zero k)
    | some c => exact ⟨c, rfl, hfind⟩
  · have hcell := EmitScope.cellAddress?_eq ha fun _ h => by cases h
    have hfind := h.find?_eq hr own depth q
    rw [hcell] at hfind
    obtain ⟨c, row, hc, -⟩ := h.captured hr hcell
    exact ⟨c, hc, hfind.trans (by simp only [Option.bind_some, Frame.cellOf, hc, Option.map_some])⟩
  · have hfind := h.find?_eq hr own depth q
    rwa [EmitScope.cellAddress?_eq ha (fun _ h => by cases h)] at hfind

/-! ## Access from outside -/

/-- A read at the address, as the first thing that the body of a closure does, gives the value. -/
def World.Reads (w : World) (s : Scope) (a : Address) (v : Value) : Prop :=
  ∀ u, s.unit? = some u → ∀ (cx : Context) (depth : UInt32) (args : List Value),
    Code.run cx ⟨s, (u.newCells args w).1, depth⟩ (.load a) ⟨u.slots args, (u.newCells args w).2⟩
      = .ok v ⟨u.slots args, (u.newCells args w).2⟩

/-- A captured address is read from the captured cells, also in a new frame. -/
theorem World.reads_captured {w : World} {level k c : Nat} {v : Value}
    (hc : s.localsAt level = some c) (hv : w.cell? c k = some v) :
    w.Reads s (.captured level k) v := by
  intro u _ cx depth args
  obtain ⟨row, hrow, -⟩ := Option.bind_eq_some_iff.mp hv
  have hlt := (Array.getElem?_eq_some_iff.mp hrow).1
  refine Frame.load_cell (c := c) (k := k) ?_ ?_
  · show (s.localsAt level).map _ = _
    rw [hc]
    rfl
  · rw [(u.newCells_rest args w).2.2.2.2 c k hlt, hv]

/-- Access from outside to a parameter that a closure has captured: it is found exactly if the code
of the closure has an address for it, it has the value that the body reads there, and what is
stored is what the body reads next. -/
structure World.Shares (w : World) (s : Scope) (es : EmitScope) (q : Nat) : Prop where
  read : ∀ a, es.address? q = some a → ∃ v, w.captured? s q = some v ∧ w.Reads s a v
  write : ∀ a, es.address? q = some a →
    ∀ v, ∃ w', w.setCaptured? s q v = some w' ∧ w'.Reads s a v
  outside : es.address? q = none → w.captured? s q = none ∧ ∀ v, w.setCaptured? s q v = none

/-- A parameter that the lambda does not declare is in no cell and in no slot of its own. -/
theorem Scope.Runs.undeclared (hr : s.Runs root site) {q : Nat}
    (hq : site.lambda.declares q = false) :
    (site.emitScope root.captures s.unit).hoisted.idxOf? q = none ∧
      ∀ i, (site.emitScope root.captures s.unit).address? q ≠ some (.slot i) := by
  have hhoisted : (root.captures.idsOf site.lambda.id).idxOf? q = none := by
    rw [List.idxOf?_eq_none_iff]
    intro hmem
    rw [idsOf_declares hr.identified hr.enter_mem hmem] at hq
    cases hq
  refine ⟨hhoisted, fun i hi => ?_⟩
  have hargument := Lambda.declares_eq_false.mp hq
  simp only [EmitScope.address?, LambdaSite.emitScope, hhoisted, hargument,
    Option.map_eq_some_iff] at hi
  obtain ⟨_, _, heq⟩ := hi
  cases heq

theorem Scope.Linked.shares {w : World} (h : s.Linked w.cells) (hr : s.Runs root site) {q : Nat}
    (hq : site.lambda.declares q = false) :
    w.Shares s (site.emitScope root.captures s.unit) q := by
  obtain ⟨hown, hslot⟩ := hr.undeclared hq
  have haddress := EmitScope.cellAddress?_eq rfl hslot
  have hfind := h.find?_eq hr none 0 q
  rw [haddress] at hfind
  -- the address is a captured one, and its cell is there
  have hplace : ∀ a, (site.emitScope root.captures s.unit).address? q = some a →
      ∃ level k c v, a = .captured level k ∧ s.localsAt level = some c ∧
        s.find? none q = some (c, k) ∧ w.cell? c k = some v := by
    intro a ha
    rw [ha] at haddress hfind
    cases a with
    | slot i => exact absurd ha (hslot i)
    | own k =>
        rw [EmitScope.idxOf?_of_cellAddress? haddress] at hown
        cases hown
    | captured level k =>
        obtain ⟨c, row, hc, hrow, hk⟩ := h.captured hr haddress
        refine ⟨level, k, c, row[k], rfl, hc, ?_, ?_⟩
        · rw [hfind, Option.bind_some, Frame.cellOf, hc, Option.map_some]
        · rw [World.cell?, hrow, Option.bind_some, Array.getElem?_eq_getElem hk]
  refine ⟨fun a ha => ?_, fun a ha v => ?_, fun ha => ?_⟩
  · obtain ⟨level, k, c, v, rfl, hc, hf, hv⟩ := hplace a ha
    refine ⟨v, ?_, World.reads_captured hc hv⟩
    rw [World.captured?, World.peek?, Scope.cellNamed, hf]
    exact hv
  · obtain ⟨level, k, c, old, rfl, hc, hf, hold⟩ := hplace a ha
    obtain ⟨w', hset, hw'⟩ := World.setCell?_eq_some hold v
    refine ⟨w', ?_, World.reads_captured hc (by rw [hw'.cells, if_pos ⟨rfl, rfl⟩])⟩
    rw [World.setCaptured?, World.poke?, Scope.cellNamed, hf]
    exact hset
  · rw [ha] at hfind
    have hnone : s.find? none q = none := hfind
    refine ⟨?_, fun v => ?_⟩
    · rw [World.captured?, World.peek?, Scope.cellNamed, hnone]
      rfl
    · rw [World.setCaptured?, World.poke?, Scope.cellNamed, hnone]
      rfl

/-! ## Runs keep scopes linked -/

/-- A frame of a compiled program: its unit was emitted with addresses that hold in the frame. -/
def Frame.WellAddressed (f : Frame) : Prop :=
  f.scope.EmittedWith fun _ es => f.Addressed es

/-- Equal worlds whose scopes are linked and in which the given cells are still there. -/
def Agreement.linking (cells : Array (Array Value)) : Agreement where
  Rel w v := v = w ∧ w.Linked ∧ Widens cells w.cells
  allows _ _ := True
  excused _ := False
  raised _ _ := trivial
  unfinished _ := trivial
  heap h := by rw [h.1]
  cells h := by rw [h.1]
  calls h := by rw [h.1]
  withHeap heap h := ⟨by rw [h.1], h.2.1, h.2.2⟩
  withCalls calls h := ⟨by rw [h.1], h.2.1, h.2.2⟩
  setCell c k x h := ⟨by rw [h.1], fun i s hs => (h.2.1 i s hs).mono (.setCell _ c k x),
    h.2.2.trans (.setCell _ c k x)⟩

/-- Both runs end in the same way, with linked scopes and with the given cells still there. -/
abbrev LinkedRuns {β : Type} (cells : Array (Array Value)) (x y : Eval β) : Prop :=
  (Agreement.linking cells).Runs x y

/-- From one linked world, both runs end in the same way and keep its cells. -/
def LinkedEnds {β : Type} (w : World) (x y : Eval β) : Prop :=
  EndsEqual (Agreement.linking w.cells).Rel (Agreement.linking w.cells).allows
    (Agreement.linking w.cells).excused (x w) (y w)

/-- Nothing is excused: the runs end in one result, in a world whose scopes are linked. -/
theorem LinkedEnds.same {β : Type} {w : World} {x y : Eval β} (h : LinkedEnds w x y) :
    x w = y w ∧ (Session.outcome (y w)).2.Linked := by
  unfold LinkedEnds at h
  revert h
  generalize x w = r
  generalize y w = r'
  intro h
  cases h with
  | ok a state =>
      obtain ⟨rfl, hlinked, -⟩ := state
      exact ⟨rfl, hlinked⟩
  | error err state =>
      obtain ⟨rfl, hlinked, -⟩ := state
      exact ⟨rfl, hlinked⟩
  | excused h => exact h.elim

theorem LinkedRuns.ofEnds {β : Type} {x y : Eval β} (h : ∀ w, w.Linked → LinkedEnds w x y)
    (cells : Array (Array Value)) : LinkedRuns cells x y := by
  rintro _ w ⟨rfl, hw, hwide⟩
  exact (h w hw).mono fun _ _ hwv => ⟨hwv.1, hwv.2.1, hwide.trans hwv.2.2⟩

/-- A new closure of a linked scope. -/
theorem World.Linked.newClosure {w : World} (hw : w.Linked) {s : Scope} (hs : s.Linked w.cells) :
    (w.newClosure s).2.Linked := by
  intro i t ht
  have ht' : (w.closures.push s)[i]? = some t := ht
  rw [Array.getElem?_push] at ht'
  split at ht'
  · cases ht'
    exact hs
  · exact hw i t ht'

theorem LinkedEnds.ofClosure {w : World} (hw : w.Linked) {f : FunctionRef}
    {x y : Scope → Eval Value} (h : ∀ s, s.Linked w.cells → LinkedEnds w (x s) (y s)) :
    LinkedEnds w (do x (← Eval.scopeOf f)) (do y (← Eval.scopeOf f)) := by
  unfold LinkedEnds
  cases hs : w.scope? f with
  | none =>
      rw [bind_of_error (Eval.scopeOf_of_none hs), bind_of_error (Eval.scopeOf_of_none hs)]
      exact .error _ ⟨rfl, hw, .refl _⟩ trivial
  | some s =>
      rw [bind_of_ok (Eval.scopeOf_of_some hs), bind_of_ok (Eval.scopeOf_of_some hs)]
      exact h s (hw f.id s hs)

theorem LinkedEnds.throw {w : World} (hw : w.Linked) (err : Stop RuntimeError) :
    LinkedEnds w (MonadExcept.throw err : Eval Value) (MonadExcept.throw err) :=
  .error err ⟨rfl, hw, .refl _⟩ trivial

/-- A test comes first. -/
theorem LinkedEnds.check {w : World} (hw : w.Linked) (test : Except RuntimeError PUnit)
    {x y : Eval Value} (h : LinkedEnds w x y) :
    LinkedEnds w (do Eval.ofExcept test; x) (do Eval.ofExcept test; y) := by
  cases test with
  | error err => exact .throw hw (.raised err)
  | ok => exact h

/-- A frame makes closures that are linked. -/
theorem LinkedRuns.closure {s : Scope} {u : CodeUnit} {own : Option Nat} {depth : UInt32}
    {cells : Array (Array Value)} (hs : s.Linked cells) (hu : s.unit? = some u)
    (fits : u.Fits cells own) {i : Nat} (hi : .unit i ∈ u.body.references) :
    LinkedRuns cells (Frame.closure ⟨s, own, depth⟩ i) (Frame.closure ⟨s, own, depth⟩ i) := by
  rintro _ w ⟨rfl, hw, hwide⟩
  refine .ok _ ⟨rfl, hw.newClosure ?_, hwide⟩
  exact .nested (hs.mono hwide) hu hi (fits.mono hwide)

section Runs

variable {schema : Schema} {arrayLimit : Nat} {host host' : HostRef → List Value → Eval Value}
  {watch : Watcher} (hwatch : ∀ frame, Frame.WellAddressed frame → watch frame = pure ())

include hwatch

/-- One invocation: the new frame is well addressed, and the body keeps scopes linked if deeper
invocations and host functions do. -/
theorem LinkedEnds.unit {cx cx' : Context} {depth : UInt32} (hschema : cx'.schema = cx.schema)
    (hlimit : cx'.arrayLimit = cx.arrayLimit)
    (hinvoke : ∀ cells f args,
      LinkedRuns cells (cx.invoke (depth + 1) f args) (cx'.invoke (depth + 1) f args))
    (hhost : ∀ cells f args, LinkedRuns cells (cx.host f args) (cx'.host f args)) {w : World}
    (hw : w.Linked) {s : Scope} (hs : s.Linked w.cells) {u : CodeUnit} (hu : s.unit? = some u)
    (args : List Value) :
    LinkedEnds w (u.runWatched watch cx s depth args) (u.run cx' s depth args) := by
  obtain ⟨fits, hwide⟩ := u.newCells_fits args w
  obtain ⟨-, -, hclosures, -⟩ := u.newCells_rest args w
  have hs' := hs.mono hwide
  have haddressed : Frame.WellAddressed ⟨s, (u.newCells args w).1, depth⟩ :=
    hs.emittedWith fun root site hr => hs'.addressed hr hu fits depth
  have hw' : (u.newCells args w).2.Linked := fun i t ht =>
    (hw i t (hclosures ▸ ht)).mono hwide
  let A := Agreement.linking (u.newCells args w).2.cells
  have hcx : cx.Parallel A depth cx' := ⟨hschema, hlimit, hinvoke _, hhost _⟩
  have hbody : A.Execs (u.slots args).size
      (u.body.run cx ⟨s, (u.newCells args w).1, depth⟩)
      (u.body.run cx' ⟨s, (u.newCells args w).1, depth⟩) :=
    u.body.run_agree hcx (.refl _) fun i hi => LinkedRuns.closure hs' hu fits hi
  have hends := u.run_agree (A := A) rfl ⟨rfl, hw', .refl _⟩ hbody
  unfold LinkedEnds
  rw [u.runWatched_eq (hwatch _ haddressed)]
  exact hends.mono fun _ _ h => ⟨h.1, h.2.1, hwide.trans h.2.2⟩

/-- By induction on the nesting. -/
theorem LinkedEnds.invokeAt (hhost : ∀ cells f args, LinkedRuns cells (host f args) (host' f args))
    (nesting : Nat) (depth : UInt32) {w : World} (hw : w.Linked) {s : Scope} (hs : s.Linked w.cells)
    (args : List Value) :
    LinkedEnds w (watchedInvokeAt schema arrayLimit host watch nesting depth s args)
      (invokeAt schema arrayLimit host' nesting depth s args) := by
  induction nesting generalizing depth w s args with
  | zero => exact .throw hw .unfinished
  | succ nesting ih =>
      refine .check hw _ ?_
      cases hu : s.unit? with
      | none => exact .throw hw _
      | some u =>
          refine .check hw _ (.unit hwatch ?_ ?_ (fun cells f xs => ?_) hhost hw hs hu args)
          · rfl
          · rfl
          · exact LinkedRuns.ofEnds
              (fun w' hw' => .ofClosure hw' fun s' hs' => ih (depth + 1) hw' hs' xs) cells

theorem LinkedRuns.ofClosure (hhost : ∀ cells f args, LinkedRuns cells (host f args) (host' f args))
    (cells : Array (Array Value)) (f : FunctionRef) (args : List Value) :
    LinkedRuns cells
      (do watchedInvokeAt schema arrayLimit host watch callCeiling 0 (← Eval.scopeOf f) args)
      (do invokeAt schema arrayLimit host' callCeiling 0 (← Eval.scopeOf f) args) :=
  .ofEnds (fun _ hw => .ofClosure hw fun _ hs => .invokeAt hwatch hhost callCeiling 0 hw hs args)
    cells

omit hwatch in
/-- Whatever a host function does, scopes stay linked if invocations keep them linked. -/
theorem LinkedRuns.callWith {invoke invoke' : FunctionRef → List Value → Eval Value}
    {cells : Array (Array Value)}
    (hinvoke : ∀ f args, LinkedRuns cells (invoke f args) (invoke' f args)) (host : Host)
    (f : HostRef) (args : List Value) :
    LinkedRuns cells (callWith schema host invoke f args)
      (callWith schema host invoke' f args) := by
  refine Agreement.callWith fun heap calls => Agreement.reply ⟨hinvoke, ?_, ?_, ?_, ?_⟩ _
  · rintro options tree p hp _ w ⟨rfl, hw, hwide⟩
    exact ⟨rfl, rfl, hw.newClosure (.root (Program.compiled_of_compile hp)), hwide⟩
  · rintro _ w ⟨rfl, -, -⟩ g
    rfl
  · exact fun _ _ => trivial
  · exact fun _ h => h.elim

/-- By induction on how often host functions may hand over inside one another. -/
theorem LinkedRuns.hostCall (host : Host) (reentries : Nat) (cells : Array (Array Value))
    (f : HostRef) (args : List Value) :
    LinkedRuns cells (watchedHostCall schema arrayLimit host watch reentries f args)
      (hostCall schema arrayLimit host reentries f args) := by
  induction reentries generalizing cells f args with
  | zero => exact .callWith (fun _ _ => .throw fun _ => trivial) host f args
  | succ reentries ih =>
      exact .callWith (fun g xs => .ofClosure hwatch ih cells g xs) host f args

/-- **Invocations keep scopes linked, and enter only frames that are well addressed.** -/
theorem Environment.invoke_linked (e : Environment) {w : World} (hw : w.Linked) (f : FunctionRef)
    (args : List Value) : LinkedEnds w (e.watchedInvoke watch f args) (e.invoke f args) :=
  LinkedRuns.ofClosure hwatch (LinkedRuns.hostCall hwatch e.host e.reentries) w.cells f args
    w w ⟨rfl, hw, .refl _⟩

end Runs

/-! ## Main result -/

/-- The worlds that a host comes to, starting without programs: it instantiates programs, invokes
closures, whether or not this fails, stores into captured cells, and works on the heap. -/
inductive Environment.Reached (e : Environment) : World → Prop
  | start (heap : Heap) : Reached e { heap }
  | instantiate {w : World} {schema : Schema} {options : Options} {tree : Tree} {p : Program}
      (before : Reached e w) (h : Program.compile schema options tree = .ok p) :
      Reached e (w.newClosure (.root p 0)).2
  | invoke {w : World} (before : Reached e w) (f : FunctionRef) (args : List Value) :
      Reached e (Session.outcome (e.invoke f args w)).2
  | store {w w' : World} {s : Scope} {c : CellName} {v : Value} (before : Reached e w)
      (h : w.poke? s c v = some w') : Reached e w'
  | work {w : World} (before : Reached e w) (heap : Heap) : Reached e { w with heap }

theorem World.Linked.poke {w w' : World} (hw : w.Linked) {s : Scope} {c : CellName} {v : Value}
    (h : w.poke? s c v = some w') : w'.Linked := by
  obtain ⟨⟨c, k⟩, -, hset⟩ := Option.bind_eq_some_iff.mp h
  simp only [World.setCell?] at hset
  split at hset
  case isFalse => cases hset
  case isTrue =>
    cases hset
    exact fun i t ht => (hw i t ht).mono (.setCell _ c k v)

theorem Environment.Reached.linked {e : Environment} {w : World} (h : e.Reached w) : w.Linked := by
  induction h with
  | start heap => exact nofun
  | instantiate _ hp ih => exact ih.newClosure (.root (Program.compiled_of_compile hp))
  | invoke _ f args ih =>
      -- with a watcher that lets every frame pass
      let watch : Watcher := fun _ => pure ()
      have hwatch : ∀ frame, Frame.WellAddressed frame → watch frame = pure () := fun _ _ => rfl
      exact (e.invoke_linked hwatch ih f args).same.2
  | store _ hset ih => exact ih.poke hset
  | work _ _ ih => exact ih

/-- **Static and dynamic addresses agree.** Whatever a host has done before, an invocation enters
only frames in which the search by parameter leads to the cell that the code addresses. And what
the host reads and writes through a closure, at a parameter that the closure's lambda does not
declare, is what the body of the closure reads. -/
theorem addressing_agrees {e : Environment} {w : World} (hw : e.Reached w) :
    (∀ f args, e.EntersOnly Frame.WellAddressed f args w) ∧
    ∀ (i : Nat) (s : Scope), w.closures[i]? = some s →
      s.EmittedWith fun l es => ∀ q, l.declares q = false → w.Shares s es q := by
  have hlinked := hw.linked
  refine ⟨fun f args watch hwatch => ?_, fun i s hs => ?_⟩
  · exact (e.invoke_linked hwatch hlinked f args).same.1
  · have hs' : s.Linked w.cells := hlinked i s hs
    exact hs'.emittedWith fun root site hr q hq => hs'.shares hr hq

/-- After the root of `x ↦ (() ↦ x := x + 1)` was invoked on 5, the host finds 5 in the closure that
it got, at the address where the closure reads `x`. -/
theorem addressing_agrees_counter :
    let e : Environment := ⟨.empty, Native.host .empty 0 #[], 1000, 9⟩
    ∃ w, e.Reached w ∧
      (∀ f args, e.EntersOnly Frame.WellAddressed f args w) ∧
      ∃ s es, w.closures[1]? = some s ∧ w.captured? s 0 = some (.ofInt .i32 5) ∧
        es.address? 0 = some (.captured 0 0) ∧ w.Shares s es 0 := by
  intro e
  let root : FunctionRef := ⟨0, Session.counter.signature, none⟩
  obtain ⟨p, hp, hs, hx⟩ : ∃ p, Program.ofLambda .empty {} Session.counter = .ok p ∧
      (Session.outcome (e.invoke root [.ofInt .i32 5]
        (World.newClosure { heap := { nextId := 8 } } (.root p 0)).2)).2.closures[1]?
          = some (.nested (.root p 0) 1 (some 0)) ∧
      (Session.outcome (e.invoke root [.ofInt .i32 5]
        (World.newClosure { heap := { nextId := 8 } } (.root p 0)).2)).2.captured?
          (.nested (.root p 0) 1 (some 0)) 0 = some (.ofInt .i32 5) :=
    ⟨_, rfl, rfl, by decide +kernel⟩
  have hp' : Program.compile .empty {} (.ofLambda 0 Session.counter) = .ok p := hp
  have hw := Environment.Reached.invoke (e := e) (.instantiate (.start { nextId := 8 }) hp') root
    [.ofInt .i32 5]
  obtain ⟨henters, hclosures⟩ := addressing_agrees hw
  obtain ⟨site, _, _, _, hr, -, -, hshares⟩ :=
    (hclosures 1 _ hs).2 .empty {} Session.counter hp (.ofNodup (by decide))
  obtain rfl := Option.some.inj hr.listed
  exact ⟨_, hw, henters, _, _, hs, hx, rfl, hshares 0 (by decide)⟩

end ExprTree
