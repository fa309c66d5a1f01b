import ExprTree.Proofs.Agreement
import ExprTree.Proofs.Scoping

set_option autoImplicit false

/-! # Compiled programs are well formed

Positions of units, constants, cells and slots are handed out while the units around them are still
unfinished, and at run time a slot that does not exist reads as `null`. The main result is
`compile_wellFormed`: the tables of a compiled program have exactly the entries that its tree asks
for, every unit but the first has an earlier parent, hoisted parameters are in order and belong to
the last argument that declares them, and whatever code names by a number is there, in every state
of a frame.
-/

namespace ExprTree

/-! ## What is well formed -/

namespace EmittedPart

/-- Whether the part is a lambda node. -/
def isClosure : EmittedPart → Bool
  | .closure _ => true
  | _ => false

/-- Whether the part is the conversion of a coalescing node. -/
def isConversion : EmittedPart → Bool
  | .conversion _ => true
  | _ => false

/-- Whether the part is a constant that code cannot carry itself. -/
def isPooledConstant : EmittedPart → Bool
  | .constant v => !v.isImmediate
  | _ => false

/-- Whether the part is a quoted tree. -/
def isQuote : EmittedPart → Bool
  | .quote _ => true
  | _ => false

end EmittedPart

/-- The unit `level` links further out than the parent of a unit. -/
def Program.around? (p : Program) : (level : Nat) → CodeUnit → Option CodeUnit
  | 0, u => u.parent.bind p.units.get?
  | level + 1, u => (u.parent.bind p.units.get?).bind (p.around? level)

/-- What the code of the unit `u`, at position `i`, names by a number is there. -/
def Reference.InRange (p : Program) (i : Nat) (u : CodeUnit) : Reference → Prop
  | .slot k => k < u.slotCount
  | .own k => k < u.hoisted.length
  | .captured level k => ∃ d, p.around? level u = some d ∧ k < d.hoisted.length
  | .constant k => k < p.pool.size
  | .tree k => ∃ x, p.pool.get? k = some (.expression x)
  | .unit k => ∃ v, p.units.get? k = some v ∧ v.parent = some i

/-- The states of a frame of the unit: the one it is entered in, on arguments that fit, and every
one after that, whatever code has run, was stored in a slot or happened outside of the frame. -/
inductive CodeUnit.InFrame (schema : Schema) (u : CodeUnit) : Machine → Prop
  | enter {args : List Value} (fits : checkArguments schema u.signature args = .ok ()) (w : World) :
      InFrame schema u ⟨u.slots args, w⟩
  | run {m m' : Machine} {cx : Context} {f : Frame} {c : Code} {x : Value}
      (before : InFrame schema u m) (h : c.run cx f m = .ok x m') : InFrame schema u m'
  | store {m : Machine} (before : InFrame schema u m) (k : Nat) (x : Value) :
      InFrame schema u { m with slots := m.slots.setIfInBounds k x }
  | outside {m : Machine} (before : InFrame schema u m) (w : World) :
      InFrame schema u { m with world := w }

/-- The unit at position `i` of a program is as the lambda asks for. -/
structure CodeUnit.WellFormed (schema : Schema) (p : Program) (i : Nat) (l : Lambda Value)
    (u : CodeUnit) : Prop where
  name : u.name = l.name
  signature : u.signature = l.signature
  position : ∀ (k : Nat) (h : Hoisted), u.hoisted[k]? = some h → h.position = k
  distinct : (u.hoisted.map (·.parameter.id)).Nodup
  /-- A hoisted parameter comes from the last argument that declares it. -/
  argument : ∀ h ∈ u.hoisted, l.params[h.argument]?.map (·.id) = some h.parameter.id ∧
    ∀ j, h.argument < j → l.params[j]?.map (·.id) ≠ some h.parameter.id
  arguments : l.params.length ≤ u.slotCount
  inRange : ∀ r ∈ u.body.references, r.InRange p i u
  /-- In no state of a frame does a load from a slot fall back, or a store into it get lost. -/
  slots : ∀ m, u.InFrame schema m → ∀ k, .slot k ∈ u.body.references →
    (∃ v, m.slots[k]? = some v ∧ Exec.loadSlot k m = .ok v m) ∧
      ∀ x, ∃ m', Exec.storeSlot k x m = .ok () m' ∧ Exec.loadSlot k m' = .ok x m'

/-- The tables of a program compiled from `root` are as they should be. -/
structure Program.WellFormed (schema : Schema) (root : Lambda Value) (p : Program) : Prop where
  first : ∃ u, p.root? = some u ∧ u.parent = none
  parent : ∀ i u, p.units.get? i = some u → i ≠ 0 → ∃ j, u.parent = some j ∧ j < i
  unitCount : p.units.size = 1 + (root.emittedParts []).countP EmittedPart.isClosure
    + (root.emittedParts []).countP EmittedPart.isConversion
  poolCount : p.pool.size = (root.emittedParts []).countP EmittedPart.isPooledConstant
    + (root.emittedParts []).countP EmittedPart.isQuote
  unit : ∀ i u, p.units.get? i = some u → ∃ site, root.sites[i]? = some site ∧
    u.WellFormed schema p i site.lambda

/-! ## Counting -/

theorem length_sitesOf (parts : List EmittedPart) :
    (sitesOf parts).length
      = parts.countP EmittedPart.isClosure + parts.countP EmittedPart.isConversion := by
  induction parts with
  | nil => rfl
  | cons part parts ih =>
      have hpart : (sitesOf [part]).length
          = (if part.isClosure then 1 else 0) + (if part.isConversion then 1 else 0) := by
        cases part <;> rfl
      rw [← List.singleton_append, sitesOf_append, List.length_append, hpart, ih,
        List.countP_append, List.countP_append, List.countP_singleton, List.countP_singleton]
      omega

theorem length_pooledOf (parts : List EmittedPart) :
    (pooledOf parts).length
      = parts.countP EmittedPart.isPooledConstant + parts.countP EmittedPart.isQuote := by
  induction parts with
  | nil => rfl
  | cons part parts ih =>
      have hpart : (pooledOf [part]).length
          = (if part.isPooledConstant then 1 else 0) + (if part.isQuote then 1 else 0) := by
        cases part with
        | constant v =>
            cases hv : v.isImmediate <;>
              simp [pooledOf, EmittedPart.pooled?, EmittedPart.isPooledConstant,
                EmittedPart.isQuote, hv]
        | _ => rfl
      rw [← List.singleton_append, pooledOf_append, List.length_append, hpart, ih,
        List.countP_append, List.countP_append, List.countP_singleton, List.countP_singleton]
      omega

/-! ## Hoisted parameters -/

/-- After the last occurrence there is no other. -/
theorem getElem?_ne_of_lastIndex? {x i j : Nat} {xs : List Nat} (h : lastIndex? x xs = some i)
    (hj : i < j) : xs[j]? ≠ some x := by
  induction xs generalizing i j with
  | nil => cases h
  | cons y ys ih =>
      obtain ⟨j, rfl⟩ : ∃ k, j = k + 1 := ⟨j - 1, by omega⟩
      rw [List.getElem?_cons_succ]
      simp only [lastIndex?] at h
      split at h
      case h_1 k hk =>
        cases h
        exact ih hk (by omega)
      case h_2 hnone =>
        intro hget
        exact lastIndex?_eq_none.mp hnone (List.mem_of_getElem? hget)

section Hoisted

variable {params : List Nat} {captured : List Parameter} (h : ∀ p ∈ captured, p.id ∈ params)

include h

theorem getElem?_hoistedOf (k : Nat) :
    (hoistedOf params captured)[k]?
      = captured[k]?.map fun p => ⟨p, (lastIndex? p.id params).getD 0, k⟩ := by
  rw [hoistedOf_eq h]
  simp [Function.comp_def]

theorem map_id_hoistedOf :
    (hoistedOf params captured).map (·.parameter.id) = captured.map (·.id) := by
  refine List.ext_getElem? fun k => ?_
  rw [List.getElem?_map, List.getElem?_map, getElem?_hoistedOf h]
  simp [Function.comp_def]

theorem length_hoistedOf : (hoistedOf params captured).length = captured.length := by
  simpa using congrArg List.length (map_id_hoistedOf h)

theorem lastIndex?_hoistedOf {x : Hoisted} (hx : x ∈ hoistedOf params captured) :
    lastIndex? x.parameter.id params = some x.argument := by
  obtain ⟨k, hk⟩ := List.getElem?_of_mem hx
  rw [getElem?_hoistedOf h] at hk
  obtain ⟨p, hp, rfl⟩ := Option.map_eq_some_iff.mp hk
  cases hi : lastIndex? p.id params with
  | none => exact absurd (h p (List.mem_of_getElem? hp)) (lastIndex?_eq_none.mp hi)
  | some i => rfl

end Hoisted

/-! ## Slots -/

theorem CodeUnit.size_slots {u : CodeUnit} {args : List Value} (h : args.length ≤ u.slotCount) :
    (u.slots args).size = u.slotCount := by
  simp only [CodeUnit.slots, List.size_toArray, List.length_append, List.length_replicate]
  omega

/-- A frame has as many slots as its unit says, from beginning to end. -/
theorem CodeUnit.InFrame.size_slots {schema : Schema} {u : CodeUnit} {m : Machine}
    (h : u.InFrame schema m) (hu : u.signature.params.length ≤ u.slotCount) :
    m.slots.size = u.slotCount := by
  induction h with
  | enter fits w =>
      refine CodeUnit.size_slots ?_
      unfold checkArguments at fits
      split at fits
      case isTrue hlength => rwa [hlength]
      case isFalse => cases fits
  | run before hrun ih => rw [Code.size_slots_run hrun, ih]
  | store before k x ih => rw [Array.size_setIfInBounds, ih]
  | outside before w ih => exact ih

theorem Exec.loadSlot_of_getElem? {m : Machine} {k : Nat} {v : Value} (h : m.slots[k]? = some v) :
    Exec.loadSlot k m = .ok v m := by
  show EStateM.Result.ok (m.slots[k]?.getD .null) m = .ok v m
  rw [h]
  rfl

/-! ## Units of a program -/

section Units

variable {schema : Schema} {root : Lambda Value} {p : Program} {i : Nat} {site : LambdaSite}
  {parent : Option Nat} {slotCount : Nat} {body : Code}

/-- The captured parameters of a listed lambda are parameters of it. -/
theorem Lambda.captured_mem (hid : Identified root.walk) (hs : site ∈ root.sites) :
    ∀ q ∈ root.captures.ofLambda site.lambda.id, q.id ∈ site.lambda.params.map (·.id) :=
  fun _ hq => Lambda.declares_iff.mp
    (idsOf_declares hid (Lambda.enter_of_mem_sites hs) (List.mem_map_of_mem hq))

theorem Program.lt_size {u : CodeUnit} (h : p.units.get? i = some u) : i < p.units.size :=
  (Array.getElem?_eq_some_iff.mp h).1

/-- The parent of a unit is the unit of the lambda directly around. -/
theorem Program.Layout.unitAround {cx : EmitContext} (hl : Program.Layout cx root p)
    (h : UnitOf cx root.sites p.units p.pool i site parent slotCount body) {l : Lambda Value}
    {outer : List (Lambda Value)} (houter : site.outer = l :: outer) :
    ∃ v parent' count code, parent = some v ∧ v < i ∧
      UnitOf cx root.sites p.units p.pool v ⟨l, outer⟩ parent' count code := by
  cases h.parent with
  | root _ hnone => rw [hnone] at houter; cases houter
  | @inside v d hlt hlisted hd =>
      obtain ⟨d', parent', count, code, hof⟩ :=
        hl.laid v (Nat.lt_trans hlt (Program.lt_size h.unit))
      obtain rfl : d = d' := Option.some.inj (hlisted.symm.trans hof.listed)
      rw [hd] at houter
      cases houter
      exact ⟨v, parent', count, code, rfl, hlt, hof⟩

/-- The links between the units lead to the units of the lambdas around. -/
theorem Program.Layout.around? {cx : EmitContext} (hl : Program.Layout cx root p) {level : Nat}
    {l : Lambda Value} (h : UnitOf cx root.sites p.units p.pool i site parent slotCount body)
    (hlevel : site.outer[level]? = some l) :
    ∃ outer parent' count code, ⟨l, outer⟩ ∈ root.sites ∧
      p.around? level (site.lambda.codeUnit cx.captures parent slotCount body)
        = some (l.codeUnit cx.captures parent' count code) := by
  induction level generalizing i site parent slotCount body with
  | zero =>
      cases houter : site.outer with
      | nil => rw [houter] at hlevel; cases hlevel
      | cons d outer =>
          obtain ⟨v, parent', count, code, rfl, -, hof⟩ := hl.unitAround h houter
          rw [houter] at hlevel
          cases hlevel
          exact ⟨outer, parent', count, code, List.mem_of_getElem? hof.listed, hof.unit⟩
  | succ level ih =>
      cases houter : site.outer with
      | nil => rw [houter] at hlevel; cases hlevel
      | cons d outer =>
          obtain ⟨v, parent', count, code, rfl, -, hof⟩ := hl.unitAround h houter
          rw [houter] at hlevel
          obtain ⟨outer', parent'', count', code', hmem, haround⟩ := ih hof hlevel
          refine ⟨outer', parent'', count', code', hmem, ?_⟩
          rw [Program.around?, ← haround]
          show (p.units.get? v).bind _ = _
          rw [hof.unit]
          rfl

/-- What was valid while the unit was emitted is in range in the program. -/
theorem UnitOf.inRange (hl : Program.Layout ⟨schema, root.captures⟩ root p)
    (hid : Identified root.walk)
    (h : UnitOf ⟨schema, root.captures⟩ root.sites p.units p.pool i site parent slotCount body)
    {r : Reference} (hr : r ∈ body.references) :
    r.InRange p i (site.lambda.codeUnit root.captures parent slotCount body) := by
  have hlength : ∀ d ∈ root.sites, (root.captures.idsOf d.lambda.id).length
      = (hoistedOf (d.lambda.params.map (·.id)) (root.captures.ofLambda d.lambda.id)).length := by
    intro d hd
    rw [length_hoistedOf (Lambda.captured_mem hid hd), Captures.idsOf, List.length_map]
  have hvalid := h.references r hr
  cases r with
  | slot k => exact hvalid
  | own k => exact Nat.lt_of_lt_of_eq hvalid (hlength site (List.mem_of_getElem? h.listed))
  | captured level k =>
      obtain ⟨cells, hcells, hk⟩ := hvalid
      simp only [LambdaSite.emitScope, List.getElem?_map, Option.map_eq_some_iff] at hcells
      obtain ⟨l, hlevel, rfl⟩ := hcells
      obtain ⟨outer, parent', count, code, hmem, haround⟩ := hl.around? h hlevel
      exact ⟨_, haround, Nat.lt_of_lt_of_eq hk (hlength ⟨l, outer⟩ hmem)⟩
  | constant k => exact hvalid
  | tree k => exact hvalid
  | unit k => exact hvalid

theorem UnitOf.wellFormed (hl : Program.Layout ⟨schema, root.captures⟩ root p)
    (hid : Identified root.walk)
    (h : UnitOf ⟨schema, root.captures⟩ root.sites p.units p.pool i site parent slotCount body) :
    (site.lambda.codeUnit root.captures parent slotCount body).WellFormed schema p i
      site.lambda := by
  have hmem := Lambda.captured_mem hid (List.mem_of_getElem? h.listed)
  refine ⟨rfl, rfl, fun k x hx => ?_, ?_, fun x hx => ?_, h.params, fun r hr => h.inRange hl hid hr,
    fun m hm k hk => ?_⟩
  · simp only [Lambda.codeUnit, getElem?_hoistedOf hmem] at hx
    obtain ⟨q, -, rfl⟩ := Option.map_eq_some_iff.mp hx
    rfl
  · rw [Lambda.codeUnit, map_id_hoistedOf hmem]
    exact idsOf_nodup root site.lambda.id
  · have hlast := lastIndex?_hoistedOf hmem hx
    rw [← List.getElem?_map]
    refine ⟨getElem?_of_lastIndex? hlast, fun j hj => ?_⟩
    rw [← List.getElem?_map]
    exact getElem?_ne_of_lastIndex? hlast hj
  · have hsize := hm.size_slots (by simpa [Lambda.codeUnit, Lambda.signature] using h.params)
    have hlt : k < m.slots.size := hsize ▸ h.references _ hk
    refine ⟨⟨m.slots[k], Array.getElem?_eq_getElem hlt,
      Exec.loadSlot_of_getElem? (Array.getElem?_eq_getElem hlt)⟩, fun x => ⟨_, rfl, ?_⟩⟩
    exact Exec.loadSlot_of_getElem? (Array.getElem?_setIfInBounds_self_of_lt hlt)

/-- A program laid out as listed is well formed. -/
theorem Program.Layout.wellFormed (hl : Program.Layout ⟨schema, root.captures⟩ root p)
    (hid : Identified root.walk) : p.WellFormed schema root := by
  have hunit : ∀ i u, p.units.get? i = some u → ∃ site parent slotCount body,
      UnitOf ⟨schema, root.captures⟩ root.sites p.units p.pool i site parent slotCount body ∧
        u = site.lambda.codeUnit root.captures parent slotCount body := by
    intro i u hu
    obtain ⟨site, parent, slotCount, body, h⟩ := hl.laid i (Program.lt_size hu)
    exact ⟨site, parent, slotCount, body, h, Option.some.inj (hu.symm.trans h.unit)⟩
  refine ⟨?_, fun i u hu hi => ?_, ?_, ?_, fun i u hu => ?_⟩
  · have hpos : 0 < p.units.size := by rw [hl.count]; exact Nat.succ_pos _
    obtain ⟨site, parent, slotCount, body, h⟩ := hl.laid 0 hpos
    cases h.parent with
    | root _ _ => exact ⟨_, h.unit, rfl⟩
    | inside hlt => cases hlt
  · obtain ⟨site, parent, slotCount, body, h, rfl⟩ := hunit i u hu
    cases h.parent with
    | root hfirst _ => exact absurd hfirst hi
    | @inside v _ hlt => exact ⟨v, rfl, hlt⟩
  · rw [hl.count, Lambda.sites, List.length_cons, length_sitesOf]
    omega
  · rw [← length_pooledOf, ← hl.pool, Array.length_toList]
    rfl
  · obtain ⟨site, parent, slotCount, body, h, rfl⟩ := hunit i u hu
    exact ⟨site, h.listed, h.wellFormed hl hid⟩

end Units

/-- **Every compiled program is well formed.** The lambdas and constants that are counted are those
that are emitted; what stands in a quoted tree or in a part that is skipped takes no position. -/
theorem compile_wellFormed {tree : Tree} (hid : Identified tree.walk) {schema : Schema}
    {options : Options} {p : Program} (h : Program.compile schema options tree = .ok p) :
    ∃ root, tree.lambda? = some root ∧ p.WellFormed schema root := by
  obtain ⟨root, hroot, hp⟩ := Program.ofLambda_of_compile h
  obtain ⟨id, kind, ty, rfl⟩ := Node.lambda?_eq_some hroot
  have hid' : Identified root.walk := fun l l' hl hl' =>
    hid l l' (List.mem_cons_of_mem _ hl) (List.mem_cons_of_mem _ hl')
  exact ⟨root, hroot, (Program.layout hp).wellFormed hid'⟩

/-- `(x, x) ↦ { "s"; quote x; null ?? 0 by z ↦ z; new list {}; y ↦ x + y }`. -/
def Node.manyParts : Tree :=
  let x : Parameter := ⟨0, "x", .int .i8⟩
  let y : Parameter := ⟨1, "y", .int .i8⟩
  let z : Parameter := ⟨2, "z", .int .i8⟩
  .ofLambda 0 (.mk 1 none [x, x] (.block 2 [
    .constant 3 (.string "s") .string,
    .quote 4 (.parameter 5 x),
    .coalesceWith 6 (.constant 7 .null (.nullable (.int .i8)))
      (.constant 8 (.ofInt .i8 0) (.int .i8))
      (.mk 9 none [z] (.parameter 10 z)),
    .listInit 11 (.newDefault 12 (.list .string) []) [],
    .ofLambda 13 (.mk 14 none [y] (.binary 15 .add (.parameter 16 x) (.parameter 17 y)))]))

/-- Three units, two constants, and a parameter that comes from the second of its arguments. -/
theorem compile_wellFormed_manyParts :
    ∃ p, Program.compile .empty {} Node.manyParts = .ok p ∧
      (p.units.size, p.pool.size) = (3, 2) ∧
      p.root?.map (fun u => (u.slotCount, u.hoisted.map (·.argument))) = some (3, [1]) ∧
      ∃ root, Node.manyParts.lambda? = some root ∧ p.WellFormed .empty root := by
  have hshape : (Program.compile .empty {} Node.manyParts).toOption.map (fun p =>
      ((p.units.size, p.pool.size),
        p.root?.map fun u => (u.slotCount, u.hoisted.map (·.argument))))
      = some ((3, 2), some (3, [1])) := by
    decide +kernel
  cases h : Program.compile .empty {} Node.manyParts with
  | error e => rw [h] at hshape; cases hshape
  | ok p =>
      rw [h] at hshape
      obtain ⟨hsizes, hroot⟩ := Prod.mk.inj (Option.some.inj hshape)
      exact ⟨p, rfl, hsizes, hroot, compile_wellFormed (.ofNodup (by decide)) h⟩

end ExprTree
